import Cppio.PipeLines
import Cppio.SendMessage
import Cppio.SocketLines

/-!
# Sending on a line that breaks

A line breaks for good when, once a write has failed, all later writes fail.  `sendMessage` goes on writing to it.

If its writes then return error codes, every one of them takes the data pointer back and makes `towrite` larger, until
`towrite` overflows and the call returns 1 (`sendMessage_breaks`).  If they return 0, it goes on for ever
(`sendLoop_stalled`).
-/

namespace Cppio

variable {σ : Type}

/-- Writes accept some bytes or fail with one of the results `codes`, and when one has failed they all do. -/
structure IoLine.BreaksForGood (line : IoLine σ) (broken : σ → Prop) (codes : Int → Prop) : Prop where
  works : ∀ bytes s, bytes ≠ [] → ¬ broken s → (1 ≤ (line.write bytes s).1 ∧ (line.write bytes s).1 ≤ bytes.length) ∨
    codes (line.write bytes s).1 ∧ broken (line.write bytes s).2
  fails : ∀ bytes s, bytes ≠ [] → broken s → codes (line.write bytes s).1 ∧ broken (line.write bytes s).2

namespace MessageProtocol

/-- By how much the failed writes have taken the data pointer back. -/
def slipped : List WriteCall → Nat
  | [] => 0
  | c :: calls => (-c.result).toNat + slipped calls

@[simp] theorem slipped_nil : slipped [] = 0 := rfl

@[simp] theorem slipped_cons (c : WriteCall) (calls : List WriteCall) :
    slipped (c :: calls) = (-c.result).toNat + slipped calls := rfl

/-- Failed writes with `t` bytes to write from offset `d` on: each begins further back than the one before it and is
longer, until the length overflows. -/
structure SlipsBack (t d : Int) (calls : List WriteCall) : Prop where
  failed : ∀ before c after, calls = before ++ c :: after → -100 ≤ c.result ∧ c.result < 0 ∧
    c.offset = d - slipped before ∧ c.bytes.length = t + slipped before ∧ t + slipped before < 2 ^ 31
  overflows : 2 ^ 31 ≤ t + slipped calls

/-- What a call of `sendMessage` that has returned 1 has written to a line that may break. -/
def Unreported (m : Message) (calls : List WriteCall) : Prop :=
  (accepted calls = m.writeMessage ∧ ∀ c ∈ calls, 0 < c.result) ∨
    ∃ good bad, calls = good ++ bad ∧ (∀ c ∈ good, 0 < c.result) ∧ accepted good <+: m.writeMessage ∧
      accepted good ≠ m.writeMessage ∧ SlipsBack (m.messageSize - (accepted good).length) (accepted good).length bad

section

variable {line : IoLine σ} {broken : σ → Prop} {buffer : List Byte} {outside : Int → Byte}

private theorem slipsBack_cons {t d r : Int} {bytes : List Byte} {calls : List WriteCall} (hlow : -100 ≤ r)
    (hneg : r < 0) (hbytes : bytes.length = t) (ht : t < 2 ^ 31)
    (h : 2 ^ 31 ≤ t - r ∧ calls = [] ∨ SlipsBack (t - r) (d + r) calls) :
    SlipsBack t d (⟨d, bytes, r⟩ :: calls) := by
  have hr : ((-r).toNat : Int) = -r := Int.toNat_of_nonneg (by omega)
  refine ⟨fun before c after hsplit => ?_, ?_⟩
  · cases before with
    | nil =>
      cases hsplit
      simp only [slipped_nil]
      exact ⟨hlow, hneg, by omega, by omega, by omega⟩
    | cons b before =>
      cases hsplit
      rcases h with ⟨-, hnil⟩ | h
      · simp at hnil
      · obtain ⟨hlow', hneg', hoffset, hlength, hlt⟩ := h.failed before c after rfl
        simp only [slipped_cons, Nat.cast_add, hr]
        exact ⟨hlow', hneg', by omega, by omega, by omega⟩
  · rw [slipped_cons, Nat.cast_add, hr]
    rcases h with ⟨hover, rfl⟩ | h
    · simp only [slipped_nil]
      omega
    · have := h.overflows
      omega

/-- An error code makes the rest longer, and wraps when it does not fit. -/
private theorem next_of_error {t d r : Int} (hlow : -100 ≤ r) (hneg : r < 0) (ht : 0 < t) (ht' : t < 2 ^ 31)
    (hdt : 0 ≤ d + t) (hd : d < 2 ^ 31) : SendState.next ⟨t, d⟩ r =
      ⟨if t - r < 2 ^ 31 then t - r else t - r - 2 ^ 32, d + r⟩ := by
  have hr : toSizeT r = r + 2 ^ 64 := by unfold toSizeT; omega
  have htt : toSizeT t = t := by unfold toSizeT; omega
  have hadd : d + (r + 2 ^ 64) = d + r + ((2 ^ 64 : Nat) : Int) := by omega
  simp only [SendState.next, hr, htt, hadd, Int.add_bmod_right]
  congr 1
  · unfold toInt32 Int.bmod
    dsimp only
    split_ifs <;> omega
  · rw [Int.bmod_eq_of_le] <;> omega

private theorem sendLoop_write {t d r : Int} {s s' : σ} {fuel : Nat} (hpos : 0 < t)
    (hwrite : line.write (bytesAt buffer outside d t.toNat) s = (r, s')) :
    sendLoop line buffer outside (fuel + 1) ⟨t, d⟩ s =
      (sendLoop line buffer outside fuel (SendState.next ⟨t, d⟩ r) s').map fun sent =>
        { sent with calls := ⟨d, bytesAt buffer outside d t.toNat, r⟩ :: sent.calls } := by
  rw [sendLoop, if_pos hpos]
  simp only [hwrite]

/-- When a write returns an error code and breaks the line, the loop ends by an overflow. -/
private theorem sendLoop_broken (hline : line.BreaksForGood broken fun r => -100 ≤ r ∧ r < 0) {n : Nat} :
    ∀ {t d r : Int} {s s' : σ}, 2 ^ 31 - t ≤ n → 0 < t → t < 2 ^ 31 → 0 ≤ d + t → d < 2 ^ 31 →
      line.write (bytesAt buffer outside d t.toNat) s = (r, s') → -100 ≤ r ∧ r < 0 → broken s' →
        ∃ sent, sendLoop line buffer outside (n + 1) ⟨t, d⟩ s = some sent ∧ SlipsBack t d sent.calls := by
  induction n with
  | zero =>
    intro t d r s s' hn _ ht
    omega
  | succ n ih =>
    rintro t d r s s' hn hpos ht hdt hd hwrite ⟨hlow, hneg⟩ hs'
    have hlength : (bytesAt buffer outside d t.toNat).length = t := by
      rw [length_bytesAt, Int.toNat_of_nonneg (Int.le_of_lt hpos)]
    rw [sendLoop_write hpos hwrite, next_of_error hlow hneg hpos ht hdt hd]
    by_cases hfits : t - r < 2 ^ 31
    · have hne : bytesAt buffer outside (d + r) (t - r).toNat ≠ [] :=
        List.length_pos_iff.1 (by rw [length_bytesAt]; omega)
      obtain ⟨hcode, hs''⟩ := hline.fails _ _ hne hs'
      obtain ⟨sent, hsent, hback⟩ :=
        ih (t := t - r) (d := d + r) (by omega) (by omega) hfits (by omega) (by omega) rfl hcode hs''
      rw [if_pos hfits, hsent]
      exact ⟨_, rfl, slipsBack_cons hlow hneg hlength ht (.inr hback)⟩
    · have hover : t - r - 2 ^ 32 ≤ 0 := by omega
      rw [if_neg hfits, sendLoop_done hover]
      exact ⟨_, rfl, slipsBack_cons hlow hneg hlength ht (.inl ⟨by omega, rfl⟩)⟩

/-- A broken line whose writes return 0 is written to for ever. -/
private theorem sendLoop_stalled (hline : line.BreaksForGood broken fun r => r = 0) {fuel : Nat} :
    ∀ {t d : Nat} {s : σ}, 0 < t → d + t < 2 ^ 31 → broken s →
      sendLoop line buffer outside fuel ⟨t, d⟩ s = none := by
  induction fuel with
  | zero => exact fun _ _ _ => rfl
  | succ fuel ih =>
    intro t d s hpos hdt hs
    have hne : bytesAt buffer outside d t ≠ [] := List.length_pos_iff.1 (by rw [length_bytesAt]; omega)
    have hfails := hline.fails _ s hne hs
    obtain ⟨r, s', hwrite⟩ : ∃ r s', line.write (bytesAt buffer outside d t) s = (r, s') := ⟨_, _, rfl⟩
    rw [hwrite] at hfails
    obtain ⟨rfl, hs'⟩ := hfails
    rw [sendLoop_write (Int.natCast_pos.2 hpos) hwrite, show (0 : Int) = (0 : Nat) from rfl,
      next_of_le (Nat.zero_le t) hdt, Nat.sub_zero, Nat.add_zero, ih hpos hdt hs', Option.map_none]

/-- What follows when the loop has `t` bytes to write from offset `d` on. -/
private def Rest (buffer : List Byte) (d t : Nat) (calls : List WriteCall) : Prop :=
  (accepted calls = buffer.drop d ∧ ∀ c ∈ calls, 0 < c.result) ∨
    ∃ good bad, calls = good ++ bad ∧ (∀ c ∈ good, 0 < c.result) ∧ accepted good <+: buffer.drop d ∧
      accepted good ≠ buffer.drop d ∧ SlipsBack (t - (accepted good).length) (d + (accepted good).length) bad

private theorem rest_cons {d t r : Nat} {calls : List WriteCall} (hr : 0 < r) (hrt : r ≤ t)
    (hdt : d + t = buffer.length) (h : Rest buffer (d + r) (t - r) calls) :
    Rest buffer d t (⟨d, buffer.drop d, r⟩ :: calls) := by
  have hsplit : buffer.drop d = (buffer.drop d).take r ++ buffer.drop (d + r) := by
    rw [← List.drop_drop, List.take_append_drop]
  have hlen : ((buffer.drop d).take r).length = r := by
    rw [List.length_take, List.length_drop]
    omega
  rcases h with ⟨hall, hgood⟩ | ⟨good, bad, rfl, hgood, hprefix, hne, hback⟩
  · refine .inl ⟨?_, List.forall_mem_cons.2 ⟨Int.natCast_pos.2 hr, hgood⟩⟩
    rw [accepted_cons, hall, Int.toNat_natCast, ← hsplit]
  · refine .inr ⟨_ :: good, bad, rfl, List.forall_mem_cons.2 ⟨Int.natCast_pos.2 hr, hgood⟩, ?_, ?_, ?_⟩
    · rw [accepted_cons, Int.toNat_natCast]
      conv => rhs; rw [hsplit]
      exact (List.prefix_append_right_inj _).2 hprefix
    · rw [accepted_cons, Int.toNat_natCast]
      conv => rhs; rw [hsplit]
      exact fun heq => hne (List.append_cancel_left heq)
    · rw [accepted_cons, Int.toNat_natCast, List.length_append, hlen]
      have ht : ((t - r : Nat) : Int) - (accepted good).length = t - (r + (accepted good).length : Nat) := by omega
      have hd : ((d + r : Nat) : Int) + (accepted good).length = d + (r + (accepted good).length : Nat) := by omega
      rw [← ht, ← hd]
      exact hback

private theorem rest_broken {d t : Nat} {calls : List WriteCall} (hne : buffer.drop d ≠ [])
    (h : SlipsBack t d calls) :
    Rest buffer d t calls := by
  refine .inr ⟨[], calls, rfl, by simp, List.nil_prefix, hne.symm, ?_⟩
  rw [accepted_nil, List.length_nil, Nat.cast_zero, Int.sub_zero, Int.add_zero]
  exact h

/-- The loop on a line that may break: it works until all is written, or until the line breaks. -/
private theorem sendLoop_breaks (buffer : List Byte) (outside : Int → Byte)
    (hline : line.BreaksForGood broken fun r => -100 ≤ r ∧ r < 0) (hsize : buffer.length < 2 ^ 31) {n : Nat} :
    ∀ {d t : Nat} {s : σ}, t ≤ n → d + t = buffer.length →
      ∃ sent, sendLoop line buffer outside (n + 2 ^ 31 + 1) ⟨t, d⟩ s = some sent ∧ Rest buffer d t sent.calls := by
  induction n with
  | zero =>
    intro d t s ht hdt
    obtain rfl : t = 0 := by omega
    rw [sendLoop_done (Int.le_refl 0)]
    exact ⟨_, rfl, .inl ⟨by rw [accepted_nil, List.drop_eq_nil_of_le (by omega)], by simp⟩⟩
  | succ n ih =>
    intro d t s ht hdt
    rcases Nat.eq_zero_or_pos t with rfl | hpos
    · rw [sendLoop_done (Int.le_refl 0)]
      exact ⟨_, rfl, .inl ⟨by rw [accepted_nil, List.drop_eq_nil_of_le (by omega)], by simp⟩⟩
    have hdrop : bytesAt buffer outside d t = buffer.drop d := bytesAt_eq_drop hdt
    have hne : bytesAt buffer outside d t ≠ [] := List.length_pos_iff.1 (by rw [length_bytesAt]; omega)
    obtain ⟨r, s', hwrite⟩ : ∃ r s', line.write (bytesAt buffer outside d t) s = (r, s') := ⟨_, _, rfl⟩
    have hcases : (1 ≤ r ∧ r ≤ t) ∨ (-100 ≤ r ∧ r < 0) ∧ broken s' := by
      by_cases hs : broken s
      · have hfails := hline.fails _ s hne hs
        rw [hwrite] at hfails
        exact .inr hfails
      · have hworks := hline.works _ s hne hs
        rw [hwrite, length_bytesAt] at hworks
        exact hworks
    rcases hcases with ⟨hone, hle⟩ | ⟨hcode, hs'⟩
    · obtain ⟨r, rfl⟩ := Int.eq_ofNat_of_zero_le (show 0 ≤ r by omega)
      obtain ⟨sent, hsent, hrest⟩ := ih (d := d + r) (t := t - r) (s := s') (by omega) (by omega)
      rw [Nat.add_right_comm n 1, sendLoop_write (Int.natCast_pos.2 hpos) hwrite, next_of_le (by omega) (by omega),
        hsent]
      refine ⟨_, rfl, ?_⟩
      simp only [Int.toNat_natCast, hdrop]
      exact rest_cons (by omega) (by omega) hdt hrest
    · obtain ⟨sent, hsent, hback⟩ :=
        sendLoop_broken hline (n := n + 1 + 2 ^ 31) (by omega) (Int.natCast_pos.2 hpos) (by omega) (by omega)
          (by omega) hwrite hcode hs'
      exact ⟨sent, hsent, rest_broken (hdrop ▸ hne) hback⟩

end

/-- On a line that may break with error codes, `sendMessage` always returns 1. -/
theorem sendMessage_breaks {line : IoLine σ} {broken : σ → Prop}
    (hline : line.BreaksForGood broken fun r => -100 ≤ r ∧ r < 0) (outside : Int → Byte) {m : Message}
    (hsize : m.messageSize < 2 ^ 31) (s : σ) : ∃ sent,
      sendMessage line outside (m.messageSize + 2 ^ 31 + 1) m s = some sent ∧ sent.result = 1 ∧
        Unreported m sent.calls := by
  have hlen := Message.length_writeMessage m
  have hstart : SendState.start m = ⟨m.messageSize, (0 : Nat)⟩ := by
    rw [SendState.start, toInt32_of_lt hsize]
    rfl
  obtain ⟨sent, hsent, hrest⟩ := sendLoop_breaks m.writeMessage outside hline
    (by rw [hlen]; exact hsize) (n := m.messageSize) (d := 0) (t := m.messageSize) (s := s) (Nat.le_refl _)
    (by rw [hlen, Nat.zero_add])
  refine ⟨sent, by rw [sendMessage, hstart]; exact hsent, sendLoop_result hsent, ?_⟩
  rw [Unreported]
  rw [Rest, List.drop_zero, Nat.cast_zero] at hrest
  simp only [Int.zero_add] at hrest
  exact hrest

/-- On a line that may break with writes of 0 bytes, the loop ends only when all is written. -/
private theorem sendLoop_stalls {line : IoLine σ} {broken : σ → Prop}
    (hline : line.BreaksForGood broken fun r => r = 0) {buffer : List Byte} {outside : Int → Byte}
    (hsize : buffer.length < 2 ^ 31) {fuel : Nat} :
    ∀ {d t : Nat} {s : σ} {sent : Sent σ}, d + t = buffer.length →
      sendLoop line buffer outside fuel ⟨t, d⟩ s = some sent → accepted sent.calls = buffer.drop d := by
  induction fuel with
  | zero =>
    intro d t s sent _ h
    cases h
  | succ fuel ih =>
    intro d t s sent hdt h
    rcases Nat.eq_zero_or_pos t with rfl | hpos
    · rw [sendLoop_done (Int.le_refl 0)] at h
      cases h
      rw [accepted_nil, List.drop_eq_nil_of_le (by omega)]
    have hdrop : bytesAt buffer outside d t = buffer.drop d := bytesAt_eq_drop hdt
    have hne : bytesAt buffer outside d t ≠ [] := List.length_pos_iff.1 (by rw [length_bytesAt]; omega)
    obtain ⟨r, s', hwrite⟩ : ∃ r s', line.write (bytesAt buffer outside d t) s = (r, s') := ⟨_, _, rfl⟩
    have hcases : (1 ≤ r ∧ r ≤ t) ∨ r = 0 := by
      by_cases hs : broken s
      · have hfails := (hline.fails _ s hne hs).1
        rw [hwrite] at hfails
        exact .inr hfails
      · have hworks := hline.works _ s hne hs
        rw [hwrite, length_bytesAt] at hworks
        exact hworks.imp_right And.left
    obtain ⟨r, rfl⟩ := Int.eq_ofNat_of_zero_le (show 0 ≤ r by omega)
    rw [sendLoop_write (Int.natCast_pos.2 hpos) hwrite, next_of_le (by omega) (by omega)] at h
    obtain ⟨sent', hsent', rfl⟩ := Option.map_eq_some_iff.1 h
    simp only [Int.toNat_natCast, hdrop, accepted_cons, ih (show d + r + (t - r) = buffer.length by omega) hsent']
    rw [← List.drop_drop, List.take_append_drop]

end MessageProtocol

/-! ### Sockets and named pipes -/

/-- The line's `write` is this method over a system. -/
def IoLine.WritesBy {C A : Type} (line : IoLine σ) (write : List Byte → Interaction C A Int)
    (answer : C → σ → A × σ) : Prop :=
  ∀ bytes s, (write bytes).run answer s = some (line.write bytes s)

/-- Writes to the descriptor transfer some bytes or fail, and when one has failed they all do: a broken connection, in
a process that ignores `SIGPIPE`. -/
structure StreamBreaks (answer : StreamCall → σ → StreamReply × σ) (fd : Int) (broken : σ → Prop) : Prop where
  works : ∀ bytes s, bytes ≠ [] → ¬ broken s →
    (1 ≤ (answer (.write fd bytes) s).1.rc ∧ (answer (.write fd bytes) s).1.rc ≤ bytes.length) ∨
      (answer (.write fd bytes) s).1.rc < 0 ∧ broken (answer (.write fd bytes) s).2
  fails : ∀ bytes s, bytes ≠ [] → broken s →
    (answer (.write fd bytes) s).1.rc < 0 ∧ broken (answer (.write fd bytes) s).2

/-- The same of a named pipe. -/
structure PipeBreaks (answer : FileCall → σ → FileReply × σ) (pipe : Int) (broken : σ → Prop) : Prop where
  works : ∀ bytes s, bytes ≠ [] → ¬ broken s →
    (answer (.writeFile pipe bytes) s).1.value ≠ 0 ∧ 1 ≤ (answer (.writeFile pipe bytes) s).1.written ∧
        (answer (.writeFile pipe bytes) s).1.written ≤ bytes.length ∨
      (answer (.writeFile pipe bytes) s).1.value = 0 ∧ broken (answer (.writeFile pipe bytes) s).2
  fails : ∀ bytes s, bytes ≠ [] → broken s →
    (answer (.writeFile pipe bytes) s).1.value = 0 ∧ broken (answer (.writeFile pipe bytes) s).2

section

variable {line : IoLine σ} {broken : σ → Prop}

private theorem code_bounds (e : ErrorCode) : -100 ≤ e.code ∧ e.code < 0 := by
  cases e <;> decide

/-- What `write` of both classes for sockets returns. -/
private theorem write_of_socket {this : Socket} {answer : StreamCall → σ → StreamReply × σ}
    (hline : line.WritesBy this.virtualWrite answer) (bytes : List Byte) (s : σ) :
    (line.write bytes s).2 = (answer (.write this.socket bytes) s).2 ∧
      (0 < (answer (.write this.socket bytes) s).1.rc →
        (line.write bytes s).1 = (answer (.write this.socket bytes) s).1.rc) ∧
      ((answer (.write this.socket bytes) s).1.rc < 0 →
        -100 ≤ (line.write bytes s).1 ∧ (line.write bytes s).1 < 0) := by
  have h := hline bytes s
  unfold Socket.virtualWrite at h
  split at h
  · simp only [UnixSocket.write, Interaction.run] at h
    split_ifs at h with hle hlost <;> rw [← Option.some.inj h]
    · exact ⟨rfl, fun hpos => by omega, fun _ => code_bounds .eConnectionLost⟩
    · exact ⟨rfl, fun hpos => by omega, fun _ => code_bounds .eUnknown⟩
    · exact ⟨rfl, fun _ => rfl, fun hneg => by omega⟩
  · simp only [TcpSocket.write, Interaction.run] at h
    split_ifs at h with hle <;> rw [← Option.some.inj h]
    · exact ⟨rfl, fun hpos => by omega, fun _ => code_bounds .eUnknown⟩
    · exact ⟨rfl, fun _ => rfl, fun hneg => by omega⟩

private theorem breaks_of_socket {this : Socket} {answer : StreamCall → σ → StreamReply × σ}
    (hline : line.WritesBy this.virtualWrite answer) (h : StreamBreaks answer this.socket broken) :
    line.BreaksForGood broken fun r => -100 ≤ r ∧ r < 0 where
  works bytes s hne hs := by
    obtain ⟨hstate, hgood, hbad⟩ := write_of_socket hline bytes s
    rw [hstate]
    rcases h.works bytes s hne hs with ⟨hone, hle⟩ | ⟨hneg, hs'⟩
    · rw [hgood (by omega)]
      exact .inl ⟨hone, hle⟩
    · exact .inr ⟨hbad hneg, hs'⟩
  fails bytes s hne hs := by
    obtain ⟨hstate, -, hbad⟩ := write_of_socket hline bytes s
    obtain ⟨hneg, hs'⟩ := h.fails bytes s hne hs
    rw [hstate]
    exact ⟨hbad hneg, hs'⟩

private theorem breaks_of_pipe {this : NamedPipeLine} {answer : FileCall → σ → FileReply × σ}
    (hline : line.WritesBy this.write answer) (h : PipeBreaks answer this.pipe broken) :
    line.BreaksForGood broken fun r => r = 0 := by
  have hwrite : ∀ bytes s, line.write bytes s =
      (if (answer (.writeFile this.pipe bytes) s).1.value = 0 then 0
        else ((answer (.writeFile this.pipe bytes) s).1.written : Int),
        (answer (.writeFile this.pipe bytes) s).2) := by
    intro bytes s
    have h := hline bytes s
    simp only [NamedPipeLine.write, Interaction.run] at h
    split_ifs at h ⊢ <;> exact (Option.some.inj h).symm
  refine ⟨fun bytes s hne hs => ?_, fun bytes s hne hs => ?_⟩
  · rw [hwrite]
    rcases h.works bytes s hne hs with ⟨hvalue, hone, hle⟩ | ⟨hvalue, hs'⟩
    · simp only [if_neg hvalue]
      exact .inl ⟨by omega, by omega⟩
    · exact .inr ⟨if_pos hvalue, hs'⟩
  · obtain ⟨hvalue, hs'⟩ := h.fails bytes s hne hs
    rw [hwrite]
    exact ⟨if_pos hvalue, hs'⟩

/-- `sendMessage` does not report that a connection breaks.  Over a socket it always returns 1: all was accepted, or a
write has failed, and then every further write begins further back in memory, and is longer by as much, until the
length overflows.  Over a named pipe it returns only when all was accepted, and on a broken pipe never. -/
theorem breaks_unreported (line : IoLine σ) (broken : σ → Prop) (outside : Int → Byte) (m : Message)
    (hsize : m.messageSize < 2 ^ 31) (s : σ) :
    (∀ (this : Socket) (answer : StreamCall → σ → StreamReply × σ), StreamBreaks answer this.socket broken →
      line.WritesBy this.virtualWrite answer → ∃ sent,
        MessageProtocol.sendMessage line outside (m.messageSize + 2 ^ 31 + 1) m s = some sent ∧ sent.result = 1 ∧
          MessageProtocol.Unreported m sent.calls) ∧
    ∀ (this : NamedPipeLine) (answer : FileCall → σ → FileReply × σ), PipeBreaks answer this.pipe broken →
      line.WritesBy this.write answer →
        (∀ fuel sent, MessageProtocol.sendMessage line outside fuel m s = some sent →
          MessageProtocol.accepted sent.calls = m.writeMessage) ∧
        (broken s → ∀ fuel, MessageProtocol.sendMessage line outside fuel m s = none) := by
  have hlen := Message.length_writeMessage m
  have hpos := Message.four_le_messageSize m
  have hstart : MessageProtocol.SendState.start m = ⟨m.messageSize, (0 : Nat)⟩ := by
    rw [MessageProtocol.SendState.start, toInt32_of_lt hsize]
    rfl
  refine ⟨fun this answer hbreaks hline => ?_,
    fun this answer hbreaks hline => ⟨fun fuel sent hsent => ?_, fun hs fuel => ?_⟩⟩
  · exact MessageProtocol.sendMessage_breaks (breaks_of_socket hline hbreaks) outside hsize s
  · rw [MessageProtocol.sendMessage, hstart] at hsent
    have hall := MessageProtocol.sendLoop_stalls (breaks_of_pipe hline hbreaks) (by rw [hlen]; exact hsize)
      (by rw [hlen, Nat.zero_add]) hsent
    rwa [List.drop_zero] at hall
  · rw [MessageProtocol.sendMessage, hstart]
    exact MessageProtocol.sendLoop_stalled (breaks_of_pipe hline hbreaks) (by omega) (by omega) hs

/-- A system that takes as many bytes as its state says, one by one, and then fails. -/
def failing {C A : Type} (taken failed : A) (_ : C) : Nat → A × Nat
  | n + 1 => (taken, n)
  | 0 => (failed, 0)

/-- A Unix socket whose peer resets the connection after two bytes, and a named pipe that is broken. -/
theorem breaks_unreported_two :
    (∃ sent, MessageProtocol.sendMessage ⟨fun _ n => (.ok [], n), fun _ => failing 1 (-2) ()⟩ (fun _ => 0)
        (Message.messageSize ⟨[⟨[7]⟩]⟩ + 2 ^ 31 + 1) ⟨[⟨[7]⟩]⟩ 2 = some sent ∧ sent.result = 1 ∧
          MessageProtocol.Unreported ⟨[⟨[7]⟩]⟩ sent.calls) ∧
      ∀ fuel, MessageProtocol.sendMessage ⟨fun _ n => (.ok [], n), fun _ => failing 1 0 ()⟩ (fun _ => 0) fuel
        ⟨[⟨[7]⟩]⟩ 0 = none := by
  constructor
  · refine (breaks_unreported _ (· = 0) _ ⟨[⟨[7]⟩]⟩ (by decide) 2).1 ⟨.unix, [], 3⟩
      (failing ⟨1, 0, []⟩ ⟨-1, Errno.econnreset, []⟩) ⟨fun bytes n hne hs => ?_, fun bytes n _ hs => ?_⟩
      fun bytes n => ?_
    · have hpos := List.length_pos_iff.2 hne
      cases n with
      | zero => exact absurd rfl hs
      | succ n => exact .inl ⟨Int.le_refl 1, by simp only [failing]; omega⟩
    · subst hs
      exact ⟨show (-1 : Int) < 0 by decide, rfl⟩
    · cases n <;> rfl
  · refine ((breaks_unreported _ (· = 0) _ ⟨[⟨[7]⟩]⟩ (by decide) 0).2 ⟨[], 3⟩
      (failing ⟨1, [], 1⟩ ⟨0, [], 0⟩) ⟨fun bytes n hne hs => ?_, fun bytes n _ hs => ?_⟩ fun bytes n => ?_).2 rfl
    · have hpos := List.length_pos_iff.2 hne
      cases n with
      | zero => exact absurd rfl hs
      | succ n => exact .inl ⟨by simp [failing], Nat.le_refl 1, hpos⟩
    · subst hs
      exact ⟨rfl, rfl⟩
    · cases n <;> rfl

end

end Cppio
