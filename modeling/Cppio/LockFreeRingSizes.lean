import Cppio.LockFreeRingSafety

/-!
# Asking for sizes between reads and writes

`RingBuffer::availableReadSize` and `RingBuffer::availableWriteSize` of `src/common/inproc.cpp`, in the variant
compiled without `CPPIO_BLOCKING_INPROC`.  The queue above asks for a size first and transfers afterwards, and both
its threads ask for both sizes.  A query loads the two pointers one after the other, while the other thread goes on,
so its answer may be out of date before it is there.

An answer is wrong in one direction only (`Bounds`).  The size that a thread asks for before a transfer of its own
errs to the safe side, and stays a lower bound until the transfer (`ReaderDue`, `WriterDue`): what was announced is
served in full, also by a transfer that wraps.
-/

namespace Cppio

namespace LockFreeRing

/-- The thread that writes and the one that reads. -/
inductive Side where
  | writing
  | reading
deriving DecidableEq, Repr

/-- `availableReadSize` and `availableWriteSize`. -/
inductive Available where
  | readSize
  | writeSize
deriving DecidableEq, Repr

/-- `RingBuffer::availableReadSize`, for the pointers it has loaded. -/
def availableReadSize (size wrptr rdptr : Nat) : Nat :=
  if rdptr = wrptr then 0 else if rdptr < wrptr then wrptr - rdptr else size - rdptr + wrptr

/-- `RingBuffer::availableWriteSize`, for the pointers it has loaded. -/
def availableWriteSize (size wrptr rdptr : Nat) : Nat :=
  if rdptr = wrptr then size - 1 else if rdptr < wrptr then size - wrptr + rdptr - 1 else rdptr - wrptr - 1

def Available.of (size wrptr rdptr : Nat) : Available → Nat
  | .readSize => availableReadSize size wrptr rdptr
  | .writeSize => availableWriteSize size wrptr rdptr

end LockFreeRing

/-- What a thread does next in a query. -/
inductive Query where
  | idle
  | loadWrptr (what : LockFreeRing.Available)
  | loadRdptr (what : LockFreeRing.Available) (wrptr : Nat)
  | leave (what : LockFreeRing.Available) (n : Nat)
deriving DecidableEq, Repr

/-- The buffer with its two threads, each of them in a transfer, in a query, or in neither. -/
structure QueriedRing where
  ring : LockFreeRing.State
  query : LockFreeRing.Side → Query

namespace QueriedRing

open LockFreeRing Circular

inductive Event where
  | ring (e : LockFreeRing.Event)
  | answered (side : Side) (what : Available) (n : Nat)
deriving DecidableEq, Repr

/-- A step of a transfer, the call of a query, or the next step of a query. -/
inductive Label where
  | ring (l : LockFreeRing.Label)
  | ask (side : Side) (what : Available)
  | go (side : Side)
deriving DecidableEq, Repr

abbrev Trace := List Event

/-- `RingBuffer::RingBuffer`. -/
def new : QueriedRing := { ring := LockFreeRing.new, query := fun _ => .idle }

/-- The thread is in no transfer. -/
def transfers (s : LockFreeRing.State) : Side → Bool
  | .writing => match s.writer with | .idle => false | .busy .. => true
  | .reading => match s.reader with | .idle => false | .busy .. => true

/-- The thread that a step belongs to. -/
def side : LockFreeRing.Label → Side
  | .callWrite _ | .writer | .copyIn _ => .writing
  | .callRead _ | .reader | .copyOut _ => .reading

def goto (s : QueriedRing) (side : Side) (q : Query) : QueriedRing :=
  { s with query := Function.update s.query side q }

/-- The next load of a query, or its return. -/
def queryNext (size : Nat) (s : QueriedRing) (side : Side) : Option (QueriedRing × Trace) :=
  match s.query side with
  | .idle => none
  | .loadWrptr what => some (s.goto side (.loadRdptr what s.ring.wrptr), [])
  | .loadRdptr what wrptr => some (s.goto side (.leave what (what.of size wrptr s.ring.rdptr)), [])
  | .leave what n => some (s.goto side .idle, [.answered side what n])

/-- Two threads, of which each does one thing at a time. -/
def machine (size : Nat) : Machine QueriedRing Label Event where
  next s
    | .ring l =>
      if s.query (side l) = .idle then
        ((LockFreeRing.machine size).next s.ring l).map fun (r, es) => ({ s with ring := r }, es.map .ring)
      else none
    | .ask side what =>
      if s.query side = .idle ∧ transfers s.ring side = false then some (s.goto side (.loadWrptr what), []) else none
    | .go side => queryNext size s side

/-! ### The pointers -/

/-- The slots filled. -/
def filled (size : Nat) (s : LockFreeRing.State) : Nat := gap size s.rdptr s.wrptr

/-- The slots a writer may fill: one stays free. -/
def room (size : Nat) (s : LockFreeRing.State) : Nat := size - 1 - filled size s

theorem availableReadSize_eq (size wrptr rdptr : Nat) :
    availableReadSize size wrptr rdptr = gap size rdptr wrptr := by
  unfold availableReadSize gap
  split_ifs <;> omega

theorem availableWriteSize_eq {size wrptr rdptr : Nat} (hw : wrptr < size) (hr : rdptr < size) :
    availableWriteSize size wrptr rdptr = size - 1 - gap size rdptr wrptr := by
  unfold availableWriteSize gap
  split_ifs <;> omega

section Ring

variable {size : Nat} {s s' : LockFreeRing.State} {tr es : List LockFreeRing.Event} {l : LockFreeRing.Label}

/-- The writing thread moves only its own pointer, and fills slots; the reading thread only its own, and frees some.
-/
theorem side_of_next (h : Inv size tr s) (hnext : (LockFreeRing.machine size).next s l = some (s', es)) :
    match side l with
    | .writing => s'.rdptr = s.rdptr ∧ s'.reader = s.reader ∧ filled size s ≤ filled size s'
    | .reading => s'.wrptr = s.wrptr ∧ s'.writer = s.writer ∧ filled size s' ≤ filled size s := by
  cases l with
  | callWrite buffer =>
    simp only [LockFreeRing.machine] at hnext
    split at hnext <;> cases hnext
    exact ⟨rfl, rfl, Nat.le_refl _⟩
  | callRead buflen =>
    simp only [LockFreeRing.machine] at hnext
    split at hnext <;> cases hnext
    exact ⟨rfl, rfl, Nat.le_refl _⟩
  | copyIn i =>
    simp only [LockFreeRing.machine, copyIn] at hnext
    split at hnext
    · split at hnext <;> cases hnext
      exact ⟨rfl, rfl, Nat.le_refl _⟩
    · cases hnext
  | copyOut i =>
    simp only [LockFreeRing.machine, copyOut] at hnext
    split at hnext
    · split at hnext <;> cases hnext
      exact ⟨rfl, rfl, Nat.le_refl _⟩
    · cases hnext
  | writer =>
    simp only [LockFreeRing.machine, writerNext] at hnext
    split at hnext
    · cases hnext
    · cases hnext
      exact ⟨rfl, rfl, Nat.le_refl _⟩
    · cases hnext
      exact ⟨rfl, rfl, Nat.le_refl _⟩
    · rename_i buffer counted wrptr rdptr tocopy hs
      have hok := h.writer
      rw [hs] at hok
      have hcopy : CopiesIn size s buffer counted wrptr rdptr tocopy [] := hok.2
      obtain ⟨-, hend, hfree⟩ := hcopy.room h.wrptr_lt
      have hgap := gap_slot_right h.rdptr_lt h.wrptr_lt hfree
      split at hnext
      · cases hnext
        refine ⟨rfl, rfl, ?_⟩
        simp only [filled]
        rw [advance_eq_slot hend, hcopy.wrptr_eq, hgap]
        exact Nat.le_add_right _ _
      · rename_i hlt
        cases hnext
        have hend' : wrptr + tocopy < size := by
          rw [hcopy.tocopy_eq]
          exact writeLength_wrapped hcopy.rdptr_lt (by omega) _
        have hslot : s.wrptr + tocopy = slot size s.wrptr tocopy := by
          rw [← hcopy.wrptr_eq, slot, if_pos hend']
        refine ⟨rfl, rfl, ?_⟩
        simp only [filled]
        rw [hslot, hgap]
        exact Nat.le_add_right _ _
    · cases hnext
    · cases hnext
      exact ⟨rfl, rfl, Nat.le_refl _⟩
  | reader =>
    simp only [LockFreeRing.machine, readerNext] at hnext
    split at hnext
    · cases hnext
    · cases hnext
      exact ⟨rfl, rfl, Nat.le_refl _⟩
    · split at hnext <;> cases hnext <;> exact ⟨rfl, rfl, Nat.le_refl _⟩
    · rename_i buflen bytes wrptr rdptr tocopy dest hs
      have hok := h.reader
      rw [hs] at hok
      have hcopy : CopiesOut size s buflen bytes wrptr rdptr tocopy [] dest := hok
      obtain ⟨-, hend, hfull⟩ := hcopy.filled h.rdptr_lt
      have hgap := gap_slot_left h.rdptr_lt h.wrptr_lt hfull
      split at hnext
      · rename_i hlt
        cases hnext
        have hend' : rdptr + tocopy < size := by
          rw [hcopy.tocopy_eq]
          exact readLength_straight hcopy.wrptr_lt hlt _
        have hslot : s.rdptr + tocopy = slot size s.rdptr tocopy := by
          rw [← hcopy.rdptr_eq, slot, if_pos hend']
        refine ⟨rfl, rfl, ?_⟩
        simp only [filled]
        rw [hslot, hgap]
        exact Nat.sub_le _ _
      · cases hnext
        refine ⟨rfl, rfl, ?_⟩
        simp only [filled]
        rw [advance_eq_slot hend, hcopy.rdptr_eq, hgap]
        exact Nat.sub_le _ _
    · cases hnext
    · cases hnext
      exact ⟨rfl, rfl, Nat.le_refl _⟩

/-! ### What is due -/

/-- The writing thread can still write the `n` bytes that it was told it could. -/
def WriterDue (size : Nat) (s : LockFreeRing.State) (n : Nat) : Writer → Prop
  | .idle => n ≤ room size s
  | .busy buffer counted st =>
    match st with
    | .loadWrptr | .loadRdptr _ => min n buffer.length - counted ≤ room size s
    | .copy wrptr rdptr _ _ => min n buffer.length - counted ≤ size - 1 - gap size rdptr wrptr
    | .leave => min n buffer.length ≤ counted

/-- The reading thread can still read the `n` bytes that it was told it could. -/
def ReaderDue (size : Nat) (s : LockFreeRing.State) (n : Nat) : Reader → Prop
  | .idle => n ≤ filled size s
  | .busy buflen bytes st =>
    match st with
    | .loadWrptr => min n buflen - bytes.length ≤ filled size s
    | .loadRdptr wrptr | .copy wrptr _ _ _ _ => min n buflen - bytes.length ≤ gap size s.rdptr wrptr
    | .leave => min n buflen ≤ bytes.length

theorem WriterDue.frame {n : Nat} {w : Writer} (h : WriterDue size s n w) (hfilled : filled size s' ≤ filled size s) :
    WriterDue size s' n w := by
  have hroom : room size s ≤ room size s' := Nat.sub_le_sub_left hfilled _
  cases w with
  | idle => exact Nat.le_trans h hroom
  | busy buffer counted st =>
    cases st with
    | loadWrptr | loadRdptr _ => exact Nat.le_trans h hroom
    | copy _ _ _ _ | leave => exact h

theorem ReaderDue.frame {n : Nat} {r : Reader} (h : ReaderDue size s n r) (hrdptr : s'.rdptr = s.rdptr)
    (hfilled : filled size s ≤ filled size s') : ReaderDue size s' n r := by
  cases r with
  | idle => exact Nat.le_trans h hfilled
  | busy buflen bytes st =>
    cases st with
    | loadWrptr => exact Nat.le_trans h hfilled
    | loadRdptr wrptr | copy wrptr _ _ _ _ =>
      show _ ≤ gap size s'.rdptr wrptr
      rw [hrdptr]
      exact h
    | leave => exact h

/-- The end of a copy: what is still due fits into the slots that are free from the new pointer on, or was counted. -/
private theorem writerDue_publish (h : Inv size tr s) {buffer : List Byte} {counted wrptr rdptr tocopy n : Nat}
    (hs : s.writer = .busy buffer counted (.copy wrptr rdptr tocopy []))
    (hdue : min n buffer.length - counted ≤ size - 1 - gap size rdptr wrptr) :
    (rdptr ≤ wrptr → tocopy < buffer.length - counted → rdptr ≠ 0 →
      min n buffer.length - (counted + tocopy) ≤ size - 1 - gap size s.rdptr (slot size s.wrptr tocopy)) ∧
    ((tocopy < buffer.length - counted → ¬ rdptr ≤ wrptr ∨ rdptr = 0 ∨ tocopy = 0) →
      min n buffer.length ≤ counted + tocopy) := by
  have hok := h.writer
  rw [hs] at hok
  have hcopy : CopiesIn size s buffer counted wrptr rdptr tocopy [] := hok.2
  obtain ⟨hlen, hend, hfree⟩ := hcopy.room h.wrptr_lt
  have hwrptr := hcopy.wrptr_eq
  have hrdptr := hcopy.rdptr_lt
  have hstale := hcopy.stale
  have hw := h.wrptr_lt
  refine ⟨fun hle hlt hne => ?_, fun hlast => ?_⟩
  · rw [gap_slot_right h.rdptr_lt h.wrptr_lt hfree]
    rw [hwrptr] at hdue
    omega
  · by_cases hlt : tocopy < buffer.length - counted
    · have htocopy := hcopy.tocopy_eq
      subst hwrptr
      rcases hlast hlt with hwrapped | hzero | hnone
      · rw [writeLength, if_neg hwrapped] at htocopy
        unfold gap at hdue
        split at hdue <;> omega
      · subst hzero
        rw [writeLength, if_pos (Nat.zero_le _)] at htocopy
        simp only [gap, if_pos (Nat.zero_le _)] at hdue
        simp only at htocopy
        split at htocopy <;> omega
      · unfold writeLength at htocopy
        unfold gap at hdue
        simp only at htocopy
        split_ifs at htocopy hdue <;> omega
    · omega

private theorem readerDue_publish (h : Inv size tr s) {buflen n : Nat} {bytes : List Byte} {wrptr rdptr tocopy : Nat}
    {dest : Nat → Byte} (hs : s.reader = .busy buflen bytes (.copy wrptr rdptr tocopy [] dest))
    (hdue : min n buflen - bytes.length ≤ gap size s.rdptr wrptr) :
    (tocopy < buflen - bytes.length → ¬ rdptr < wrptr → wrptr ≠ advance size rdptr tocopy →
      min n buflen - (bytes.length + tocopy) ≤ gap size (slot size s.rdptr tocopy) s.wrptr) ∧
    ((tocopy < buflen - bytes.length → rdptr < wrptr ∨ wrptr = advance size rdptr tocopy ∨ tocopy = 0) →
      min n buflen ≤ bytes.length + tocopy) := by
  have hok := h.reader
  rw [hs] at hok
  have hcopy : CopiesOut size s buflen bytes wrptr rdptr tocopy [] dest := hok
  obtain ⟨hlen, hend, hfull⟩ := hcopy.filled h.rdptr_lt
  have hrdptr := hcopy.rdptr_eq
  have hwrptr := hcopy.wrptr_lt
  have hstale := hcopy.stale
  have hr := h.rdptr_lt
  refine ⟨fun hlt hnot hne => ?_, fun hlast => ?_⟩
  · rw [gap_slot_left h.rdptr_lt h.wrptr_lt hfull]
    omega
  · by_cases hlt : tocopy < buflen - bytes.length
    · have htocopy := hcopy.tocopy_eq
      have hne := hcopy.ne
      subst hrdptr
      rcases hlast hlt with hstraight | hall | hnone
      · rw [readLength, if_pos hstraight] at htocopy
        rw [gap, if_pos (Nat.le_of_lt hstraight)] at hdue
        omega
      · unfold advance at hall
        unfold readLength at htocopy
        unfold gap at hdue
        split_ifs at hall htocopy hdue <;> omega
      · unfold readLength at htocopy
        unfold gap at hdue
        split_ifs at htocopy hdue <;> omega
    · omega

/-- A step of the writing thread: what was due stays due, or is what a write that returns has counted. -/
private theorem writerDue_next (h : Inv size tr s) {n : Nat} (hdue : WriterDue size s n s.writer)
    (hnext : (LockFreeRing.machine size).next s l = some (s', es)) (hside : side l = .writing) :
    (es = [] ∧ WriterDue size s' n s'.writer) ∨
      ∃ buffer count, es = [.wrote buffer count] ∧ min n buffer.length ≤ count := by
  cases l with
  | callRead _ | reader | copyOut _ => cases hside
  | callWrite buffer =>
    simp only [LockFreeRing.machine] at hnext
    split at hnext <;> cases hnext
    rename_i hs
    rw [hs] at hdue
    exact .inl ⟨rfl, Nat.le_trans (Nat.le_trans (Nat.sub_le _ _) (Nat.min_le_left _ _)) hdue⟩
  | copyIn i =>
    simp only [LockFreeRing.machine, copyIn] at hnext
    split at hnext
    · rename_i buffer counted wrptr rdptr tocopy todo hs
      split at hnext <;> cases hnext
      rw [hs] at hdue
      exact .inl ⟨rfl, hdue⟩
    · cases hnext
  | writer =>
    simp only [LockFreeRing.machine, writerNext] at hnext
    split at hnext
    · cases hnext
    · rename_i buffer counted hs
      cases hnext
      rw [hs] at hdue
      exact .inl ⟨rfl, hdue⟩
    · rename_i buffer counted wrptr hs
      cases hnext
      have hok := h.writer
      rw [hs] at hdue hok
      obtain rfl : wrptr = s.wrptr := hok.2
      exact .inl ⟨rfl, hdue⟩
    · rename_i buffer counted wrptr rdptr tocopy hs
      rw [hs] at hdue
      have hok := h.writer
      rw [hs] at hok
      have hcopy : CopiesIn size s buffer counted wrptr rdptr tocopy [] := hok.2
      obtain ⟨-, hend, -⟩ := hcopy.room h.wrptr_lt
      obtain ⟨hmore, hlast⟩ := writerDue_publish h hs hdue
      split at hnext
      · rename_i hle
        cases hnext
        refine .inl ⟨rfl, ?_⟩
        rw [advance_eq_slot hend, hcopy.wrptr_eq]
        split_ifs with hlt hzero hnone
        · exact hlast fun _ => .inr (.inl hzero)
        · exact hlast fun _ => .inr (.inr hnone)
        · exact hmore hle hlt hzero
        · exact hlast fun hlt' => absurd hlt' hlt
      · rename_i hnot
        cases hnext
        exact .inl ⟨rfl, hlast fun _ => .inl hnot⟩
    · cases hnext
    · rename_i buffer counted hs
      cases hnext
      rw [hs] at hdue
      exact .inr ⟨buffer, counted, rfl, hdue⟩

/-- A step of the reading thread: what was due stays due, or is what a read that returns has counted. -/
private theorem readerDue_next (h : Inv size tr s) {n : Nat} (hdue : ReaderDue size s n s.reader)
    (hnext : (LockFreeRing.machine size).next s l = some (s', es)) (hside : side l = .reading) :
    (es = [] ∧ ReaderDue size s' n s'.reader) ∨
      ∃ buflen bytes, es = [.read buflen bytes] ∧ min n buflen ≤ bytes.length := by
  cases l with
  | callWrite _ | writer | copyIn _ => cases hside
  | callRead buflen =>
    simp only [LockFreeRing.machine] at hnext
    split at hnext <;> cases hnext
    rename_i hs
    rw [hs] at hdue
    exact .inl ⟨rfl, Nat.le_trans (Nat.le_trans (Nat.sub_le _ _) (Nat.min_le_left _ _)) hdue⟩
  | copyOut i =>
    simp only [LockFreeRing.machine, copyOut] at hnext
    split at hnext
    · rename_i buflen bytes wrptr rdptr tocopy todo dest hs
      split at hnext <;> cases hnext
      rw [hs] at hdue
      exact .inl ⟨rfl, hdue⟩
    · cases hnext
  | reader =>
    simp only [LockFreeRing.machine, readerNext] at hnext
    split at hnext
    · cases hnext
    · rename_i buflen bytes hs
      cases hnext
      rw [hs] at hdue
      exact .inl ⟨rfl, hdue⟩
    · rename_i buflen bytes wrptr hs
      rw [hs] at hdue
      have hdue : min n buflen - bytes.length ≤ gap size s.rdptr wrptr := hdue
      split at hnext
      · rename_i heq
        cases hnext
        rw [heq, gap, if_pos (Nat.le_refl _), Nat.sub_self] at hdue
        exact .inl ⟨rfl, Nat.le_of_sub_eq_zero (Nat.le_zero.1 hdue)⟩
      · cases hnext
        exact .inl ⟨rfl, hdue⟩
    · rename_i buflen bytes wrptr rdptr tocopy dest hs
      rw [hs] at hdue
      have hok := h.reader
      rw [hs] at hok
      have hcopy : CopiesOut size s buflen bytes wrptr rdptr tocopy [] dest := hok
      obtain ⟨-, hend, -⟩ := hcopy.filled h.rdptr_lt
      obtain ⟨hmore, hlast⟩ := readerDue_publish h hs hdue
      have hlength : (bytes ++ (List.range tocopy).map dest).length = bytes.length + tocopy := by simp
      split at hnext
      · rename_i hstraight
        cases hnext
        refine .inl ⟨rfl, ?_⟩
        show min n buflen ≤ (bytes ++ (List.range tocopy).map dest).length
        rw [hlength]
        exact hlast fun _ => .inl hstraight
      · rename_i hnot
        cases hnext
        refine .inl ⟨rfl, ?_⟩
        split_ifs with hlt hall hnone
        · show min n buflen ≤ (bytes ++ (List.range tocopy).map dest).length
          rw [hlength]
          exact hlast fun _ => .inr (.inl hall)
        · show min n buflen ≤ (bytes ++ (List.range tocopy).map dest).length
          rw [hlength]
          exact hlast fun _ => .inr (.inr hnone)
        · show min n buflen - (bytes ++ (List.range tocopy).map dest).length ≤
            gap size (advance size rdptr tocopy) s.wrptr
          rw [hlength, advance_eq_slot hend, hcopy.rdptr_eq]
          exact hmore hlt hnot hall
        · show min n buflen ≤ (bytes ++ (List.range tocopy).map dest).length
          rw [hlength]
          exact hlast fun hlt' => absurd hlt' hlt
    · cases hnext
    · rename_i buflen bytes hs
      cases hnext
      rw [hs] at hdue
      exact .inr ⟨buflen, bytes, rfl, hdue⟩

private theorem events_of_next (hnext : (LockFreeRing.machine size).next s l = some (s', es)) :
    es = [] ∨ (∃ buffer count, es = [.wrote buffer count] ∧ side l = .writing) ∨
      ∃ buflen bytes, es = [.read buflen bytes] ∧ side l = .reading := by
  cases l with
  | callWrite _ | callRead _ =>
    simp only [LockFreeRing.machine] at hnext
    split at hnext <;> cases hnext
    exact .inl rfl
  | copyIn _ | copyOut _ =>
    simp only [LockFreeRing.machine, copyIn, copyOut] at hnext
    split at hnext
    · split at hnext <;> cases hnext
      exact .inl rfl
    · cases hnext
  | writer =>
    simp only [LockFreeRing.machine, writerNext] at hnext
    split at hnext
    · cases hnext
    · cases hnext
      exact .inl rfl
    · cases hnext
      exact .inl rfl
    · split at hnext <;> cases hnext <;> exact .inl rfl
    · cases hnext
    · cases hnext
      exact .inr (.inl ⟨_, _, rfl, rfl⟩)
  | reader =>
    simp only [LockFreeRing.machine, readerNext] at hnext
    split at hnext
    · cases hnext
    · cases hnext
      exact .inl rfl
    · split at hnext <;> cases hnext <;> exact .inl rfl
    · split at hnext <;> cases hnext <;> exact .inl rfl
    · cases hnext
    · cases hnext
      exact .inr (.inr ⟨_, _, rfl, rfl⟩)

end Ring

/-! ### Answers -/

/-- In which direction the answer to a query may be wrong. -/
def Bounds (size : Nat) (s : LockFreeRing.State) (n : Nat) : Side → Available → Prop
  | .reading, .readSize => n ≤ filled size s
  | .reading, .writeSize => room size s ≤ n
  | .writing, .readSize => filled size s ≤ n
  | .writing, .writeSize => n ≤ room size s

/-- What holds of a query: of what a thread has loaded, its own pointer is up to date. -/
def QueryOk (size : Nat) (s : LockFreeRing.State) : Side → Query → Prop
  | _, .idle | _, .loadWrptr _ => True
  | .writing, .loadRdptr _ wrptr => wrptr = s.wrptr
  | .reading, .loadRdptr _ wrptr => wrptr < size ∧ gap size s.rdptr wrptr ≤ filled size s
  | side, .leave what n => n < size ∧ Bounds size s n side what

section Ring

variable {size : Nat} {s s' : LockFreeRing.State} {q : Query}

theorem QueryOk.frame_writing (h : QueryOk size s .writing q) (hwrptr : s'.wrptr = s.wrptr)
    (hfilled : filled size s' ≤ filled size s) : QueryOk size s' .writing q := by
  have hroom : room size s ≤ room size s' := Nat.sub_le_sub_left hfilled _
  cases q with
  | idle | loadWrptr _ => trivial
  | loadRdptr what wrptr => exact Eq.trans h hwrptr.symm
  | leave what n =>
    refine ⟨h.1, ?_⟩
    cases what with
    | readSize => exact Nat.le_trans hfilled h.2
    | writeSize => exact Nat.le_trans h.2 hroom

theorem QueryOk.frame_reading (h : QueryOk size s .reading q) (hrdptr : s'.rdptr = s.rdptr)
    (hfilled : filled size s ≤ filled size s') : QueryOk size s' .reading q := by
  have hroom : room size s' ≤ room size s := Nat.sub_le_sub_left hfilled _
  cases q with
  | idle | loadWrptr _ => trivial
  | loadRdptr what wrptr =>
    refine ⟨h.1, ?_⟩
    rw [hrdptr]
    exact Nat.le_trans h.2 hfilled
  | leave what n =>
    refine ⟨h.1, ?_⟩
    cases what with
    | readSize => exact Nat.le_trans h.2 hfilled
    | writeSize => exact Nat.le_trans hroom h.2

/-- The second load: the answer is what the pointers loaded say. -/
private theorem queryOk_answer {side : Side} {what : Available} {wrptr : Nat} (hw : s.wrptr < size)
    (hr : s.rdptr < size) (h : QueryOk size s side (.loadRdptr what wrptr)) :
    QueryOk size s side (.leave what (what.of size wrptr s.rdptr)) := by
  cases side with
  | writing =>
    obtain rfl : wrptr = s.wrptr := h
    have hlt := gap_lt hr hw
    cases what with
    | readSize =>
      simp only [QueryOk, Bounds, Available.of, availableReadSize_eq]
      exact ⟨hlt, Nat.le_refl _⟩
    | writeSize =>
      simp only [QueryOk, Bounds, Available.of, availableWriteSize_eq hw hr]
      exact ⟨by omega, Nat.le_refl _⟩
  | reading =>
    obtain ⟨hloaded, hle⟩ : wrptr < size ∧ gap size s.rdptr wrptr ≤ filled size s := h
    have hlt := gap_lt hr hloaded
    cases what with
    | readSize =>
      simp only [QueryOk, Bounds, Available.of, availableReadSize_eq]
      exact ⟨hlt, hle⟩
    | writeSize =>
      simp only [QueryOk, Bounds, Available.of, availableWriteSize_eq hloaded hr]
      exact ⟨by omega, Nat.sub_le_sub_left hle _⟩

end Ring

/-! ### Promises -/

/-- What is seen of the transfers. -/
def onRing (tr : Trace) : List LockFreeRing.Event :=
  tr.filterMap fun
    | .ring e => some e
    | .answered _ _ _ => none

def Event.side : Event → Side
  | .ring (.wrote _ _) => .writing
  | .ring (.read _ _) => .reading
  | .answered side _ _ => side

/-- The answer to a thread that asks for the size of a transfer of its own. -/
def Event.promise : Event → Option Nat
  | .answered .writing .writeSize n => some n
  | .answered .reading .readSize n => some n
  | _ => none

/-- What a thread was promised, if that is the last thing it was told. -/
def promise (side : Side) (tr : Trace) : Option Nat :=
  (tr.filter fun e => e.side = side).getLast?.bind Event.promise

theorem promise_snoc_of_ne {side : Side} {e : Event} (h : e.side ≠ side) (tr : Trace) :
    promise side (tr ++ [e]) = promise side tr := by
  simp [promise, List.filter_append, h]

theorem promise_snoc {side : Side} {e : Event} (h : e.side = side) (tr : Trace) :
    promise side (tr ++ [e]) = e.promise := by
  simp [promise, List.filter_append, h]

theorem promise_of_last {side : Side} {e : Event} (h : e.side = side) (past : Trace) {mid : Trace}
    (hmid : ∀ e' ∈ mid, e'.side ≠ side) : promise side (past ++ e :: mid) = e.promise := by
  have hnone : mid.filter (fun e' => e'.side = side) = [] := by
    rw [List.filter_eq_nil_iff]
    exact fun e' he' => by simpa using hmid e' he'
  simp [promise, List.filter_append, h, hnone]

/-- A transfer moves what its thread was promised, or all that was asked for. -/
def Serves (past : Trace) : Event → Prop
  | .ring (.wrote buffer count) => ∀ n, promise .writing past = some n → min n buffer.length ≤ count
  | .ring (.read buflen bytes) => ∀ n, promise .reading past = some n → min n buflen ≤ bytes.length
  | .answered _ _ _ => True

structure Inv (size : Nat) (tr : Trace) (s : QueriedRing) : Prop where
  ring : LockFreeRing.Inv size (onRing tr) s.ring
  alone : ∀ side, s.query side ≠ .idle → transfers s.ring side = false
  query : ∀ side, QueryOk size s.ring side (s.query side)
  writer : ∀ n, promise .writing tr = some n → WriterDue size s.ring n s.ring.writer
  reader : ∀ n, promise .reading tr = some n → ReaderDue size s.ring n s.ring.reader
  served : Throughout Serves tr

section Runs

variable {size : Nat} {s s' : QueriedRing} {tr es : Trace}

theorem onRing_append (tr tr' : Trace) : onRing (tr ++ tr') = onRing tr ++ onRing tr' :=
  List.filterMap_append ..

theorem onRing_map (es : List LockFreeRing.Event) : onRing (es.map .ring) = es := by
  simp [onRing, List.filterMap_map]

private theorem idle_of_transfers {r : LockFreeRing.State} : (transfers r .writing = false → r.writer = .idle) ∧
    (transfers r .reading = false → r.reader = .idle) := by
  refine ⟨fun h => ?_, fun h => ?_⟩
  · cases hw : r.writer with
    | idle => rfl
    | busy _ _ _ => simp [transfers, hw] at h
  · cases hr : r.reader with
    | idle => rfl
    | busy _ _ _ => simp [transfers, hr] at h

/-- A thread goes on with its query, or begins one. -/
private theorem Inv.goto (h : Inv size tr s) {side : Side} {q : Query} (halone : transfers s.ring side = false)
    (hok : QueryOk size s.ring side q) : Inv size tr (s.goto side q) where
  ring := h.ring
  alone side' hside := by
    by_cases heq : side' = side
    · exact heq ▸ halone
    · simp only [QueriedRing.goto, Function.update_of_ne heq] at hside
      exact h.alone side' hside
  query side' := by
    by_cases heq : side' = side
    · subst heq
      simp only [QueriedRing.goto, Function.update_self]
      exact hok
    · simp only [QueriedRing.goto, Function.update_of_ne heq]
      exact h.query side'
  writer := h.writer
  reader := h.reader
  served := h.served

/-- The answer to a query: from here on what it says is due. -/
private theorem Inv.answer (h : Inv size tr s) {side : Side} {what : Available} {n : Nat}
    (hq : s.query side = .leave what n) : Inv size (tr ++ [.answered side what n]) (s.goto side .idle) := by
  have hne : s.query side ≠ .idle := by
    rw [hq]
    exact Query.noConfusion
  have halone := h.alone side hne
  have hok := h.query side
  rw [hq] at hok
  have hgoto := h.goto (q := .idle) halone trivial
  refine ⟨?_, hgoto.alone, hgoto.query, fun m hm => ?_, fun m hm => ?_, h.served.snoc trivial⟩
  · rw [onRing_append]
    exact (List.append_nil (onRing tr)).symm ▸ h.ring
  · cases side with
    | reading =>
      rw [promise_snoc_of_ne Side.noConfusion] at hm
      exact h.writer m hm
    | writing =>
      rw [promise_snoc (show (Event.answered .writing what n).side = .writing from rfl)] at hm
      cases what with
      | readSize => cases hm
      | writeSize =>
        cases hm
        show WriterDue size s.ring n s.ring.writer
        rw [idle_of_transfers.1 halone]
        exact hok.2
  · cases side with
    | writing =>
      rw [promise_snoc_of_ne Side.noConfusion] at hm
      exact h.reader m hm
    | reading =>
      rw [promise_snoc (show (Event.answered .reading what n).side = .reading from rfl)] at hm
      cases what with
      | writeSize => cases hm
      | readSize =>
        cases hm
        show ReaderDue size s.ring n s.ring.reader
        rw [idle_of_transfers.2 halone]
        exact hok.2

/-- A step of a transfer. -/
private theorem Inv.transfer (h : Inv size tr s) {l : LockFreeRing.Label} {r : LockFreeRing.State}
    {es : List LockFreeRing.Event} (hidle : s.query (side l) = .idle)
    (hnext : (LockFreeRing.machine size).next s.ring l = some (r, es)) :
    Inv size (tr ++ es.map .ring) { s with ring := r } := by
  have hring : LockFreeRing.Inv size (onRing (tr ++ es.map .ring)) r := by
    rw [onRing_append, onRing_map]
    exact inv_step h.ring hnext
  have hmove := side_of_next h.ring hnext
  cases hside : side l with
  | writing =>
    rw [hside] at hmove hidle
    obtain ⟨hrdptr, hreader, hfilled⟩ := hmove
    have halone : ∀ side, s.query side ≠ .idle → transfers r side = false := by
      intro side hq
      cases side with
      | writing => exact absurd hidle hq
      | reading =>
        have hold := h.alone .reading hq
        rwa [transfers, ← hreader] at hold
    have hquery : ∀ side, QueryOk size r side (s.query side) := by
      intro side
      cases side with
      | writing =>
        rw [hidle]
        trivial
      | reading => exact (h.query .reading).frame_reading hrdptr hfilled
    have hdue : ∀ n, promise .reading tr = some n → ReaderDue size r n r.reader := by
      intro n hn
      rw [hreader]
      exact (h.reader n hn).frame hrdptr hfilled
    rcases events_of_next hnext with rfl | ⟨buffer, count, rfl, -⟩ | ⟨_, _, -, hreading⟩
    · rw [List.map_nil, List.append_nil] at hring ⊢
      refine ⟨hring, halone, hquery, fun n hn => ?_, hdue, h.served⟩
      rcases writerDue_next h.ring (h.writer n hn) hnext hside with ⟨-, hkept⟩ | ⟨_, _, hes, -⟩
      · exact hkept
      · cases hes
    · refine ⟨hring, halone, hquery, fun n hn => ?_, fun n hn => ?_, h.served.snoc fun n hn => ?_⟩
      · rw [List.map_singleton,
          promise_snoc (show (Event.ring (.wrote buffer count)).side = .writing from rfl)] at hn
        cases hn
      · rw [List.map_singleton, promise_snoc_of_ne Side.noConfusion] at hn
        exact hdue n hn
      · rcases writerDue_next h.ring (h.writer n hn) hnext hside with ⟨hes, -⟩ | ⟨buffer', count', hes, hcount⟩
        · cases hes
        · cases hes
          exact hcount
    · rw [hside] at hreading
      cases hreading
  | reading =>
    rw [hside] at hmove hidle
    obtain ⟨hwrptr, hwriter, hfilled⟩ := hmove
    have halone : ∀ side, s.query side ≠ .idle → transfers r side = false := by
      intro side hq
      cases side with
      | reading => exact absurd hidle hq
      | writing =>
        have hold := h.alone .writing hq
        rwa [transfers, ← hwriter] at hold
    have hquery : ∀ side, QueryOk size r side (s.query side) := by
      intro side
      cases side with
      | reading =>
        rw [hidle]
        trivial
      | writing => exact (h.query .writing).frame_writing hwrptr hfilled
    have hdue : ∀ n, promise .writing tr = some n → WriterDue size r n r.writer := by
      intro n hn
      rw [hwriter]
      exact (h.writer n hn).frame hfilled
    rcases events_of_next hnext with rfl | ⟨_, _, -, hwriting⟩ | ⟨buflen, bytes, rfl, -⟩
    · rw [List.map_nil, List.append_nil] at hring ⊢
      refine ⟨hring, halone, hquery, hdue, fun n hn => ?_, h.served⟩
      rcases readerDue_next h.ring (h.reader n hn) hnext hside with ⟨-, hkept⟩ | ⟨_, _, hes, -⟩
      · exact hkept
      · cases hes
    · rw [hside] at hwriting
      cases hwriting
    · refine ⟨hring, halone, hquery, fun n hn => ?_, fun n hn => ?_, h.served.snoc fun n hn => ?_⟩
      · rw [List.map_singleton, promise_snoc_of_ne Side.noConfusion] at hn
        exact hdue n hn
      · rw [List.map_singleton,
          promise_snoc (show (Event.ring (.read buflen bytes)).side = .reading from rfl)] at hn
        cases hn
      · rcases readerDue_next h.ring (h.reader n hn) hnext hside with ⟨hes, -⟩ | ⟨buflen', bytes', hes, hlength⟩
        · cases hes
        · cases hes
          exact hlength

/-- Every step keeps the invariant. -/
private theorem inv_next (h : Inv size tr s) {l : Label} (hnext : (machine size).next s l = some (s', es)) :
    Inv size (tr ++ es) s' := by
  cases l with
  | ring l =>
    simp only [machine] at hnext
    split at hnext
    · rename_i hidle
      obtain ⟨⟨r, es'⟩, hstep, heq⟩ := Option.map_eq_some_iff.1 hnext
      cases heq
      exact h.transfer hidle hstep
    · cases hnext
  | ask side what =>
    simp only [machine] at hnext
    split at hnext <;> cases hnext
    rename_i hidle
    rw [List.append_nil]
    refine h.goto hidle.2 ?_
    cases side <;> trivial
  | go side =>
    simp only [machine, queryNext] at hnext
    split at hnext
    · cases hnext
    · rename_i what hq
      cases hnext
      rw [List.append_nil]
      have halone := h.alone side (by rw [hq]; exact Query.noConfusion)
      refine h.goto halone ?_
      cases side with
      | writing => rfl
      | reading => exact ⟨h.ring.wrptr_lt, Nat.le_refl _⟩
    · rename_i what wrptr hq
      cases hnext
      rw [List.append_nil]
      have halone := h.alone side (by rw [hq]; exact Query.noConfusion)
      have hok := h.query side
      rw [hq] at hok
      exact h.goto halone (queryOk_answer h.ring.wrptr_lt h.ring.rdptr_lt hok)
    · rename_i what n hq
      cases hnext
      exact h.answer hq

theorem inv_of_run (hsize : 1 ≤ size) {ok : QueriedRing → Label → Prop}
    (hrun : (machine size).RunWhere ok new tr s) : Inv size tr s := by
  refine hrun.invariant (Inv size) ?_ fun _ _ _ _ _ h _ hnext => inv_next h hnext
  refine ⟨LockFreeRing.inv_of_run hsize .start, fun side h => absurd rfl h, fun side => ?_, nofun, nofun, .nil⟩
  cases side <;> trivial

end Runs

/-- In every interleaving of a writing and a reading thread that ask for sizes between their transfers, every answer
lies below the size of the storage and errs in one direction only: when a query returns, the reading thread was told
of no more bytes than there are, the writing thread of no more room than there is, and of the other thread's side each
was told of no less than there is.  What a thread was promised is served in full: a read after `availableReadSize`
returned `n` gives `n` bytes or all that it asked for, and a write after `availableWriteSize` returned `n` takes `n`
bytes or all that it was given, also when they wrap. -/
theorem promises_served {size : Nat} (hsize : 1 ≤ size) (tr : Trace) (s : QueriedRing)
    (hrun : (machine size).Run new tr s) :
    (∀ l s' es side what n, (machine size).next s l = some (s', es) → .answered side what n ∈ es →
      n < size ∧ Bounds size s.ring n side what) ∧
    (∀ past mid future n buflen bytes,
      tr = past ++ .answered .reading .readSize n :: mid ++ .ring (.read buflen bytes) :: future →
      (∀ e ∈ mid, e.side ≠ .reading) → min n buflen ≤ bytes.length) ∧
    ∀ past mid future n buffer count,
      tr = past ++ .answered .writing .writeSize n :: mid ++ .ring (.wrote buffer count) :: future →
      (∀ e ∈ mid, e.side ≠ .writing) → min n buffer.length ≤ count := by
  have hinv := inv_of_run hsize hrun
  refine ⟨fun l s' es side what n hnext hmem => ?_, fun past mid future n buflen bytes htr hmid => ?_,
    fun past mid future n buffer count htr hmid => ?_⟩
  · have hq : s.query side = .leave what n := by
      cases l with
      | ring l =>
        simp only [machine] at hnext
        split at hnext
        · obtain ⟨⟨r, es'⟩, -, heq⟩ := Option.map_eq_some_iff.1 hnext
          cases heq
          simp at hmem
        · cases hnext
      | ask side' what' =>
        simp only [machine] at hnext
        split at hnext <;> cases hnext
        cases hmem
      | go side' =>
        simp only [machine, queryNext] at hnext
        split at hnext
        · cases hnext
        · cases hnext
          cases hmem
        · cases hnext
          cases hmem
        · rename_i hq
          cases hnext
          cases List.mem_singleton.1 hmem
          exact hq
    have hok := hinv.query side
    rw [hq] at hok
    cases side <;> exact hok
  · exact hinv.served _ _ _ htr n (promise_of_last (e := .answered .reading .readSize n) rfl past hmid)
  · exact hinv.served _ _ _ htr n (promise_of_last (e := .answered .writing .writeSize n) rfl past hmid)

/-- A reader is told of four bytes, which lie around the end of the storage, and reads them in two copies; between
these the writer asks for room, and then fills it. -/
theorem promises_served_wrapping : ∃ (tr mid : Trace) (s : QueriedRing) (l : Label) (s' : QueriedRing) (es : Trace),
    (machine 5).Run new tr s ∧
    tr = [.ring (.wrote [1, 2, 3] 3), .ring (.read 2 [1, 2]), .ring (.wrote [4, 5, 6] 3),
      .answered .reading .readSize 4] ++ mid ++ [.ring (.read 4 [3, 4, 5, 6])] ∧ min 4 4 ≤ [3, 4, 5, 6].length ∧
    (machine 5).next s l = some (s', es) ∧ .answered .writing .writeSize 3 ∈ es ∧ 3 ≤ room 5 s.ring := by
  have h : ((machine 5).exec new (List.flatten [
      [.ring (.callWrite [1, 2, 3])], List.replicate 2 (.ring .writer),
        [.ring (.copyIn 2), .ring (.copyIn 0), .ring (.copyIn 1)], List.replicate 2 (.ring .writer),
      [.ring (.callRead 2)], List.replicate 2 (.ring .reader), [.ring (.copyOut 1), .ring (.copyOut 0)],
        List.replicate 2 (.ring .reader),
      [.ring (.callWrite [4, 5, 6])], List.replicate 2 (.ring .writer), [.ring (.copyIn 0), .ring (.copyIn 1)],
        List.replicate 3 (.ring .writer), [.ring (.copyIn 0)], List.replicate 2 (.ring .writer),
      [.ask .reading .readSize], List.replicate 3 (.go .reading),
      [.ring (.callRead 4)], List.replicate 2 (.ring .reader),
        [.ring (.copyOut 0), .ring (.copyOut 2), .ring (.copyOut 1)], [.ring .reader],
      [.ask .writing .writeSize], List.replicate 2 (.go .writing),
        List.replicate 2 (.ring .reader), [.ring (.copyOut 0)], List.replicate 2 (.ring .reader)])).any (fun r =>
      decide (r.2 = [.ring (.wrote [1, 2, 3] 3), .ring (.read 2 [1, 2]), .ring (.wrote [4, 5, 6] 3),
        .answered .reading .readSize 4] ++ [] ++ [.ring (.read 4 [3, 4, 5, 6])] ∧
        r.1.query .writing = .leave .writeSize 3)) = true := by decide +kernel
  obtain ⟨⟨s, tr⟩, hexec, hdecide⟩ := (Option.any_eq_true _ _).1 h
  obtain ⟨htr, hquery⟩ := of_decide_eq_true hdecide
  have hquery : s.query .writing = .leave .writeSize 3 := hquery
  have hnext : (machine 5).next s (.go .writing) =
      some (s.goto .writing .idle, [.answered .writing .writeSize 3]) := by
    simp only [machine, queryNext, hquery]
  obtain ⟨hbounds, hread, -⟩ := promises_served (by decide) tr s (Machine.RunWhere.of_exec hexec)
  exact ⟨tr, [], s, _, _, _, Machine.RunWhere.of_exec hexec, htr,
    hread [.ring (.wrote [1, 2, 3] 3), .ring (.read 2 [1, 2]), .ring (.wrote [4, 5, 6] 3)] [] [] 4 4 [3, 4, 5, 6] htr
      (by simp), hnext, List.mem_singleton_self _,
    (hbounds _ _ _ _ _ _ hnext (List.mem_singleton_self _)).2⟩

end QueriedRing

end Cppio
