import Cppio.ReadMessageOutcome

/-!
# A call of `readMessage` on its way

`After p results q` says that the dialogue `p` goes on as `q` after these results of its reads.  A call of
`readMessage` that is over after reads of bytes only has received the message they encode (`After.received`), and one
that still waits for bytes has not got the whole of a message (`After.not_holdsMessage`).
-/

namespace Cppio

open MessageProtocol

/-- The dialogue `p` goes on as `q` after these results of its reads, none of them longer than asked for. -/
inductive After {α : Type} (p : Reader α) : List ReadResult → Reader α → Prop
  | start : After p [] p
  | read {results n k r} : After p results (.ask n k) → r.bytes.length ≤ n → After p (results ++ [r]) (k r)

/-- A line that gives its reads these results, each cut to what was asked for. -/
def scripted : IoLine (List ReadResult) where
  read
    | _, [] => (.error .eUnknown, [])
    | n, .ok bytes :: results => (.ok (bytes.take n), results)
    | _, .error e :: results => (.error e, results)
  write bytes s := (bytes.length, s)

theorem scripted_withinRequest : scripted.WithinRequest := by
  intro n s bytes _ h
  match s with
  | [] => cases h
  | .error _ :: _ => cases h
  | .ok _ :: _ =>
    cases h
    rw [List.length_take]
    exact Nat.min_le_left _ _

theorem scripted_read {n : Nat} {r : ReadResult} (hr : r.bytes.length ≤ n) (results : List ReadResult) :
    scripted.read n (r :: results) = (r, results) := by
  cases r with
  | ok bytes => exact Prod.ext (congrArg Except.ok (List.take_of_length_le hr)) rfl
  | error e => rfl

theorem After.run {α : Type} {p q : Reader α} {results : List ReadResult} (h : After p results q) :
    ∀ later, p.run scripted.read (results ++ later) = q.run scripted.read later ∧
      p.answers scripted.read (results ++ later) = results ++ q.answers scripted.read later := by
  induction h with
  | start => exact fun later => ⟨rfl, rfl⟩
  | @read results n k r _ hr ih =>
    intro later
    obtain ⟨hrun, hanswers⟩ := ih (r :: later)
    rw [List.append_assoc, List.singleton_append, hrun, hanswers]
    simp only [Dialogue.run, Dialogue.answers, scripted_read hr, List.append_assoc, List.singleton_append, and_self]

theorem After.givesUp {p q : Reader (Int × Message)} {results : List ReadResult} (h : After p results q)
    (hp : GivesUp p) : GivesUp q := by
  induction h with
  | start => exact hp
  | @read _ _ _ r _ _ ih => exact (ih.2 r).1

theorem goodBytes_snoc (results : List ReadResult) (r : ReadResult) :
    goodBytes (results ++ [r]) = goodBytes results ++ if 0 < toInt32 r.value then r.bytes else [] := by
  rw [goodBytes_append]
  simp [goodBytes]

/-- A call that is over after reads of bytes only has received the message that these bytes encode. -/
theorem After.received {results : List ReadResult} {outcome : Int × Message}
    (h : After (readMessage .empty) results (.done outcome)) (hgood : ∀ r ∈ results, 0 < toInt32 r.value) :
    ∃ m : Message, m.Encodable ∧ outcome = (1, m) ∧ goodBytes results = m.writeMessage := by
  obtain ⟨hrun, hanswers⟩ := h.run []
  simp only [Dialogue.run, Dialogue.answers, List.append_nil] at hrun hanswers
  rcases readMessage_outcome scripted_withinRequest results with ⟨m, hm, hout, hbytes⟩ | ⟨-, ⟨r, hr, hle⟩, -⟩
  · rw [hrun] at hout
    rw [hanswers] at hbytes
    exact ⟨m, hm, hout, hbytes⟩
  · rw [hanswers] at hr
    exact absurd (hgood r hr) (Int.not_lt.2 hle)

/-- A call that waits for bytes has not got an encoding of a message yet. -/
theorem After.not_holdsMessage {results : List ReadResult} {n : Nat} {k : ReadResult → Reader (Int × Message)}
    (h : After (readMessage .empty) results (.ask n k)) : ¬ HoldsMessage (goodBytes results) := by
  obtain ⟨m, hdone⟩ := ((h.givesUp (givesUp_readMessage _)).2 (.error .eUnknown)).2 (by decide)
  have hafter := h.read (r := .error .eUnknown) (Nat.zero_le n)
  obtain ⟨hrun, hanswers⟩ := hafter.run []
  rw [hdone] at hrun hanswers
  simp only [Dialogue.run, Dialogue.answers, List.append_nil] at hrun hanswers
  have hbytes : goodBytes (results ++ [.error .eUnknown]) = goodBytes results := by
    rw [goodBytes_snoc, if_neg (by decide), List.append_nil]
  rcases readMessage_outcome scripted_withinRequest (results ++ [.error .eUnknown]) with
    ⟨m', -, hout, -⟩ | ⟨-, -, hnone, -⟩
  · rw [hrun] at hout
    have hresult : toInt32 (ReadResult.value (.error .eUnknown)) = 1 := congrArg Prod.fst hout
    exact absurd hresult (by decide)
  · rwa [hanswers, hbytes] at hnone

/-! ### The bytes a call holds -/

/-- The reads of the call that goes on as `p` gave `bytes`, and none of them failed. -/
def Holding (p : Reader (Int × Message)) (bytes : List Byte) : Prop :=
  ∃ results, After (readMessage .empty) results p ∧ (∀ r ∈ results, 0 < toInt32 r.value) ∧ goodBytes results = bytes

namespace Holding

variable {n : Nat} {k : ReadResult → Reader (Int × Message)} {bytes : List Byte}

theorem start : Holding (readMessage .empty) [] := ⟨[], .start, fun _ hr => absurd hr List.not_mem_nil, rfl⟩

theorem ask_pos (h : Holding (.ask n k) bytes) : 0 < n := by
  obtain ⟨results, hafter, -, -⟩ := h
  exact (hafter.givesUp (givesUp_readMessage _)).1

/-- A read gives more bytes. -/
theorem more (h : Holding (.ask n k) bytes) {bs : List Byte} (hne : bs ≠ []) (hle : bs.length ≤ n)
    (hlt : bs.length < 2 ^ 31) : Holding (k (.ok bs)) (bytes ++ bs) := by
  obtain ⟨results, hafter, hgood, rfl⟩ := h
  have hfit : 0 < toInt32 (ReadResult.value (.ok bs)) := fitsInt_of_lt hne hlt
  refine ⟨results ++ [.ok bs], hafter.read (r := .ok bs) hle, fun r hr => ?_, ?_⟩
  · rcases List.mem_append.1 hr with hr | hr
    · exact hgood r hr
    · rw [List.mem_singleton.1 hr]
      exact hfit
  · rw [goodBytes_snoc, if_pos hfit]
    rfl

/-- A read fails: the call returns its result. -/
theorem fails (h : Holding (.ask n k) bytes) (e : ErrorCode) : ∃ m, k (.error e) = .done (e.code, m) := by
  obtain ⟨results, hafter, -, -⟩ := h
  have hcode : toInt32 (ReadResult.value (.error e)) = e.code := toInt32_code e
  have hneg := e.code_neg
  obtain ⟨m, hm⟩ := ((hafter.givesUp (givesUp_readMessage _)).2 (.error e)).2 (by rw [hcode]; omega)
  exact ⟨m, by rw [hm, hcode]⟩

theorem received {outcome : Int × Message} (h : Holding (.done outcome) bytes) :
    ∃ m : Message, m.Encodable ∧ outcome = (1, m) ∧ bytes = m.writeMessage := by
  obtain ⟨results, hafter, hgood, rfl⟩ := h
  exact hafter.received hgood

theorem not_holdsMessage (h : Holding (.ask n k) bytes) : ¬ HoldsMessage bytes := by
  obtain ⟨results, hafter, -, rfl⟩ := h
  exact hafter.not_holdsMessage

end Holding

end Cppio
