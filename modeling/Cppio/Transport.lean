import Cppio.ReadMessage
import Cppio.SendMessage

/-!
# Messages over a fragmenting byte stream

However the sender's line splits the writes and the receiver's line splits the reads, every `sendMessage` puts exactly
the encoding of its message on the stream and every `readMessage` takes exactly the encoding of one message off it.
-/

namespace Cppio

variable {σ ρ : Type}

/-- Every write accepts some of the bytes. -/
def IoLine.SplitsWrites (line : IoLine σ) : Prop :=
  ∀ bytes s, bytes ≠ [] → 1 ≤ (line.write bytes s).1 ∧ (line.write bytes s).1 ≤ bytes.length

/-- Every read returns some of the bytes it is asked for, in the order of the stream `pending`. -/
def IoLine.SplitsReads (line : IoLine σ) (pending : σ → List Byte) : Prop :=
  Dialogue.Delivers Except.ok line.read pending

theorem IoLine.SplitsWrites.contract {line : IoLine σ} (h : line.SplitsWrites) : line.WriteContract :=
  fun bytes s hne => ⟨by have := (h bytes s hne).1; omega, (h bytes s hne).2⟩

theorem IoLine.SplitsWrites.acceptsWithin {line : IoLine σ} (h : line.SplitsWrites) {n : Nat} :
    ∀ {bytes : List Byte} {s : σ}, bytes.length ≤ n → line.AcceptsWithin n bytes s := by
  induction n with
  | zero =>
    intro bytes s hle
    rw [List.length_eq_zero_iff.1 (Nat.le_zero.1 hle)]
    trivial
  | succ n ih =>
    intro bytes s hle
    by_cases hne : bytes = []
    · rw [hne]
      trivial
    · have hone := (h bytes s hne).1
      refine (IoLine.acceptsWithin_succ hne).2 ⟨by omega, ih ?_⟩
      rw [List.length_drop]
      omega

namespace MessageProtocol

/-- Successive calls of `sendMessage`. -/
def sendMessages (line : IoLine σ) (outside : Int → Byte) (fuel : Nat) : List Message → σ → Option (List (Sent σ))
  | [], _ => some []
  | m :: ms, s =>
    (sendMessage line outside fuel m s).bind fun sent =>
      (sendMessages line outside fuel ms sent.line).map fun sents => sent :: sents

/-- A call of `readMessage` with an empty message. -/
def receiveMessage (line : IoLine σ) (s : σ) : (Int × Message) × σ := (readMessage .empty).run line.read s

/-- Successive calls of `readMessage`, each with an empty message. -/
def receiveMessages (line : IoLine σ) : Nat → σ → List (Int × Message) × σ
  | 0, s => ([], s)
  | n + 1, s =>
    let (outcome, s') := receiveMessage line s
    let (outcomes, s'') := receiveMessages line n s'
    (outcome :: outcomes, s'')

/-- A call of `readMessage` takes the encoding of the next message off the stream and nothing else. -/
theorem receiveMessage_encoding {line : IoLine σ} {pending : σ → List Byte} (hline : line.SplitsReads pending)
    {m : Message} (hm : m.messageSize < 2 ^ 31) {rest : List Byte} {s : σ}
    (hs : pending s = m.writeMessage ++ rest) :
    ∃ s', receiveMessage line s = ((1, m), s') ∧ pending s' = rest := by
  have hreads := reads_writeMessage (Message.encodable_of_messageSize_lt (Nat.lt_trans hm (by decide)))
  obtain ⟨hout, hrest⟩ := Dialogue.Reads.run hline _ hreads
    (fun ys hne hle => fitsInt_of_lt hne (by rw [Message.length_writeMessage] at hle; omega)) hs
  exact ⟨_, Prod.ext hout rfl, hrest⟩

theorem receiveMessages_encodings {line : IoLine σ} {pending : σ → List Byte} (hline : line.SplitsReads pending)
    (ms : List Message) : (∀ m ∈ ms, m.messageSize < 2 ^ 31) → ∀ {rest : List Byte} {s : σ},
    pending s = encodings ms ++ rest →
      ∃ s', receiveMessages line ms.length s = (ms.map fun m => (1, m), s') ∧ pending s' = rest := by
  induction ms with
  | nil => exact fun _ rest s hs => ⟨s, rfl, hs⟩
  | cons m ms ih =>
    intro hms rest s hs
    rw [encodings, List.flatMap_cons, List.append_assoc] at hs
    obtain ⟨s₁, hfirst, hs₁⟩ := receiveMessage_encoding hline (hms m (List.mem_cons_self ..)) hs
    obtain ⟨s₂, hrest, hs₂⟩ := ih (fun m' hm' => hms m' (List.mem_cons_of_mem _ hm')) hs₁
    refine ⟨s₂, ?_, hs₂⟩
    rw [List.length_cons, receiveMessages, hfirst]
    simp only [hrest, List.map_cons]

theorem sendMessages_encodings {line : IoLine σ} (hline : line.SplitsWrites) (outside : Int → Byte)
    (ms : List Message) : (∀ m ∈ ms, m.messageSize < 2 ^ 31) → ∀ s : σ, ∃ sents,
      sendMessages line outside (2 ^ 31 + 1) ms s = some sents ∧ (∀ sent ∈ sents, sent.result = 1) ∧
        (sents.map fun sent => accepted sent.calls) = ms.map Message.writeMessage := by
  induction ms with
  | nil => exact fun _ s => ⟨[], rfl, fun _ h => absurd h List.not_mem_nil, rfl⟩
  | cons m ms ih =>
    intro hms s
    have hm := hms m (List.mem_cons_self ..)
    have hacc : line.AcceptsWithin (2 ^ 31) m.writeMessage s :=
      hline.acceptsWithin (by rw [Message.length_writeMessage]; exact Nat.le_of_lt hm)
    obtain ⟨sent, hsend, -, hrest⟩ := sendMessage_accepts hline.contract outside hm hacc
    obtain ⟨sents, hsends, hones, hall⟩ := ih (fun m' hm' => hms m' (List.mem_cons_of_mem _ hm')) sent.line
    refine ⟨sent :: sents, ?_, ?_, ?_⟩
    · rw [sendMessages, hsend, Option.bind_some, hsends, Option.map_some]
    · exact List.forall_mem_cons.2 ⟨sendLoop_result hsend, hones⟩
    · rw [List.map_cons, List.map_cons, hrest.all, hall]
      rfl

/-- Messages sent one after the other arrive one after the other, whatever the lines do to the stream. -/
theorem transports (ms : List Message) (hms : ∀ m ∈ ms, m.frames.length < 2 ^ 32 ∧ m.messageSize < 2 ^ 31)
    (sender : IoLine σ) (hsender : sender.SplitsWrites) (outside : Int → Byte) (s : σ)
    (receiver : IoLine ρ) (pending : ρ → List Byte) (hreceiver : receiver.SplitsReads pending) :
    ∃ fuel sents, sendMessages sender outside fuel ms s = some sents ∧ (∀ sent ∈ sents, sent.result = 1) ∧
      (sents.flatMap fun sent => accepted sent.calls) = encodings ms ∧
      ∀ rest r, pending r = (sents.flatMap fun sent => accepted sent.calls) ++ rest →
        ∀ before m after, ms = before ++ m :: after → ∃ r₁ r₂,
          receiveMessages receiver before.length r = (before.map fun m => (1, m), r₁) ∧
          receiveMessage receiver r₁ = ((1, m), r₂) ∧
          pending r₁ = m.writeMessage ++ pending r₂ ∧ m.writeMessage.length = m.messageSize ∧
          pending r₂ = encodings after ++ rest := by
  have hsizes : ∀ m ∈ ms, m.messageSize < 2 ^ 31 := fun m hm => (hms m hm).2
  obtain ⟨sents, hsends, hones, hall⟩ := sendMessages_encodings hsender outside ms hsizes s
  have hstream : (sents.flatMap fun sent => accepted sent.calls) = encodings ms := by
    rw [List.flatMap_def, hall, ← List.flatMap_def]
    rfl
  refine ⟨_, sents, hsends, hones, hstream, ?_⟩
  rintro rest r hr before m after rfl
  rw [hstream, encodings, List.flatMap_append, List.append_assoc] at hr
  obtain ⟨r₁, hbefore, hr₁⟩ :=
    receiveMessages_encodings hreceiver before (fun m hm => hsizes m (List.mem_append_left _ hm)) hr
  rw [List.flatMap_cons, List.append_assoc] at hr₁
  obtain ⟨r₂, hm, hr₂⟩ := receiveMessage_encoding hreceiver (hsizes m (by simp)) hr₁
  exact ⟨r₁, r₂, hbefore, hm, by rw [hr₁, hr₂], Message.length_writeMessage m, hr₂⟩

/-- A sender whose writes are split after three bytes, and a receiver whose line returns single bytes. -/
theorem transports_bytewise : ∃ fuel sents,
    sendMessages threes (fun _ => 0) fuel [⟨[⟨[7]⟩]⟩, ⟨[]⟩] () = some sents ∧
      (sents.flatMap fun sent => accepted sent.calls) = encodings [⟨[⟨[7]⟩]⟩, ⟨[]⟩] := by
  have h := transports [⟨[⟨[7]⟩]⟩, ⟨[]⟩] (by decide) threes (fun bytes s hne => ?_) (fun _ => 0) ()
    ⟨fun _ s => (.ok (s.take 1), s.drop 1), fun bytes s => (bytes.length, s)⟩ id (fun n s hn hne => ?_)
  · obtain ⟨fuel, sents, hsends, -, hstream, -⟩ := h
    exact ⟨fuel, sents, hsends, hstream⟩
  · have hpos := List.length_pos_iff.2 hne
    simp only [threes]
    omega
  · have hpos := List.length_pos_iff.2 hne
    simp only [id] at hpos
    refine ⟨s.take 1, List.length_pos_iff.1 ?_, ?_, rfl, (List.take_append_drop 1 s).symm⟩ <;>
      rw [List.length_take] <;> omega

end MessageProtocol

end Cppio
