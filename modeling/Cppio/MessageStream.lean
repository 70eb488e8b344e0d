import Cppio.Lib.PrefixFree
import Cppio.ReadMessageOutcome

/-!
# Streams of messages

The encodings of messages, one behind the other, can be taken apart in one way only: frames are a prefix-free code,
each behind its length, and messages are one, each behind the number of its frames.  So whoever has seen a part of a
stream knows a part of the messages (`encodings_isPrefix_iff`), and neither more nor fewer.
-/

namespace Cppio

theorem Frame.prefixFree : PrefixFree Frame.encoded fun f => f.size < 2 ^ 32 where
  ne_nil f _ h := by
    have hlen := f.length_encoded
    rw [h, List.length_nil] at hlen
    omega
  eq_of_isPrefix f g hf hg hpre := by
    obtain ⟨more, hmore⟩ := hpre
    have heq : f.encoded ++ more = g.encoded ++ [] := by rw [hmore, List.append_nil]
    exact (Frame.eq_of_encoded hf hg heq).1

theorem Message.prefixFree : PrefixFree Message.writeMessage Message.Encodable where
  ne_nil m _ h := by
    have hlen := m.length_writeMessage
    have hmin := m.four_le_messageSize
    rw [h, List.length_nil] at hlen
    omega
  eq_of_isPrefix m m' hm hm' hpre := by
    obtain ⟨more, hmore⟩ := hpre
    rw [writeMessage, writeMessage, List.append_assoc] at hmore
    obtain ⟨hword, hframes⟩ := List.append_inj hmore (by rw [length_littleEndian, length_littleEndian])
    have hlength : m.frames.length = m'.frames.length := by
      rw [← wordValue_littleEndian_of_lt (w := 4) hm.1, hword, wordValue_littleEndian_of_lt hm'.1]
    have hfirst := (Frame.prefixFree.isPrefix_iff hm'.2 hm.2).1 ⟨more, hframes⟩
    cases m
    cases m'
    exact congrArg Message.mk (hfirst.eq_of_length hlength)

/-- The stream of some messages is the beginning of the stream of others just when they are the first of these,
also when the second stream ends in a part of a further message; so different lists of messages have different
streams. -/
theorem encodings_isPrefix_iff (ms ms' : List Message) (hms : ∀ m ∈ ms, m.Encodable) (hms' : ∀ m ∈ ms', m.Encodable)
    (part : List Byte) (hpart : ¬ MessageProtocol.HoldsMessage part) :
    (encodings ms <+: encodings ms' ++ part ↔ ms <+: ms') ∧ (encodings ms = encodings ms' ↔ ms = ms') := by
  have hiff : ∀ {as bs : List Message}, (∀ m ∈ as, m.Encodable) → (∀ m ∈ bs, m.Encodable) →
      (encodings bs <+: encodings as ↔ bs <+: as) := fun has hbs => Message.prefixFree.isPrefix_iff has hbs
  refine ⟨⟨Message.prefixFree.isPrefix_of_append hms' hms hpart, fun h => ?_⟩, fun h => ?_, congrArg encodings⟩
  · exact ((hiff hms' hms).2 h).trans (List.prefix_append _ _)
  · have hle := (hiff hms' hms).1 (h ▸ List.prefix_refl _)
    have hge := (hiff hms hms').1 (h ▸ List.prefix_refl _)
    exact hle.eq_of_length (Nat.le_antisymm hle.length_le hge.length_le)

/-- A message, and the number of frames of a second one. -/
theorem encodings_isPrefix_iff_one : ¬ encodings [⟨[⟨[7]⟩]⟩, ⟨[⟨[]⟩]⟩] <+: encodings [⟨[⟨[7]⟩]⟩] ++ [1, 0, 0, 0] := by
  have hpart : ¬ MessageProtocol.HoldsMessage [1, 0, 0, 0] := by
    rintro ⟨⟨frames⟩, -, hpre⟩
    have hlen : _ ≤ 4 := hpre.length_le
    cases frames with
    | nil => exact absurd hpre (by decide)
    | cons f fs =>
      rw [Message.length_writeMessage, Message.messageSize_eq, List.flatMap_cons, List.length_append,
        Frame.length_encoded] at hlen
      omega
  rw [(encodings_isPrefix_iff _ _ (by decide) (by decide) _ hpart).1]
  decide

end Cppio
