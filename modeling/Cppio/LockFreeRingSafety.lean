import Cppio.LockFreeRing

/-!
# The lock-free ring buffer is a queue of one writer and one reader

Each thread owns one pointer.  What it has loaded of the other pointer may be out of date, but only to its own
disadvantage: the reader can only have freed more slots than the writer saw free (`Writer.Ok`), and the writer can
only have filled more than the reader saw filled (`Reader.Ok`).  So the slots of a copy in progress stay on the right
side of both pointers until the copy is published, and what was published and not yet taken is at all times the
window between the pointers (`Inv.conserved`).

A write publishes its bytes before it returns, so a read may return them before the result of the write counts them
(`read_before_return`): what reads return is a prefix of what the writes count with the write in progress
(`spsc_queue`).
-/

namespace Cppio

namespace LockFreeRing

open Circular

variable {size : Nat}

/-! ### Lengths of the copies -/

theorem advance_eq_slot {ptr tocopy : Nat} (hle : ptr + tocopy ≤ size) :
    advance size ptr tocopy = slot size ptr tocopy := by
  unfold advance slot
  split_ifs <;> omega

/-- A write copies into the free slots before the end of the storage, and leaves one free. -/
theorem writeLength_spec {wrptr rdptr : Nat} (hw : wrptr < size) (hr : rdptr < size) (buflen : Nat) :
    writeLength size wrptr rdptr buflen ≤ buflen ∧ wrptr + writeLength size wrptr rdptr buflen ≤ size ∧
      gap size rdptr wrptr + writeLength size wrptr rdptr buflen < size := by
  unfold writeLength gap
  dsimp only
  split_ifs <;> omega

theorem writeLength_wrapped {wrptr rdptr : Nat} (hr : rdptr < size) (hlt : wrptr < rdptr) (buflen : Nat) :
    wrptr + writeLength size wrptr rdptr buflen < size := by
  unfold writeLength
  rw [if_neg (by omega)]
  omega

/-- A read copies from the filled slots before the end of the storage. -/
theorem readLength_spec {wrptr rdptr : Nat} (hw : wrptr < size) (hr : rdptr < size) (hne : wrptr ≠ rdptr)
    (buflen : Nat) :
    readLength size wrptr rdptr buflen ≤ buflen ∧ rdptr + readLength size wrptr rdptr buflen ≤ size ∧
      readLength size wrptr rdptr buflen ≤ gap size rdptr wrptr := by
  unfold readLength gap
  split_ifs <;> omega

theorem readLength_straight {wrptr rdptr : Nat} (hw : wrptr < size) (hlt : rdptr < wrptr) (buflen : Nat) :
    rdptr + readLength size wrptr rdptr buflen < size := by
  unfold readLength
  rw [if_pos hlt]
  omega

/-! ### The invariant -/

/-- What holds of the copy of a write: its slots are free, and those copied hold the bytes of the caller's buffer. -/
structure CopiesIn (size : Nat) (s : State) (buffer : List Byte) (counted wrptr rdptr tocopy : Nat)
    (todo : List Nat) : Prop where
  wrptr_eq : wrptr = s.wrptr
  rdptr_lt : rdptr < size
  stale : gap size s.rdptr s.wrptr ≤ gap size rdptr s.wrptr
  tocopy_eq : tocopy = writeLength size wrptr rdptr (buffer.length - counted)
  nodup : todo.Nodup
  todo_lt : ∀ i ∈ todo, i < tocopy
  copied : ∀ i, i < tocopy → i ∉ todo → s.data (wrptr + i) = buffer.getD (counted + i) 0

/-- What holds of the writing thread. -/
def Writer.Ok (size : Nat) (s : State) : Writer → Prop
  | .idle => True
  | .busy buffer counted st => counted ≤ buffer.length ∧
    match st with
    | .loadWrptr | .leave => True
    | .loadRdptr wrptr => wrptr = s.wrptr
    | .copy wrptr rdptr tocopy todo => CopiesIn size s buffer counted wrptr rdptr tocopy todo

/-- What holds of the copy of a read: its slots are filled, and those copied are in the caller's buffer. -/
structure CopiesOut (size : Nat) (s : State) (buflen : Nat) (bytes : List Byte) (wrptr rdptr tocopy : Nat)
    (todo : List Nat) (dest : Nat → Byte) : Prop where
  rdptr_eq : rdptr = s.rdptr
  wrptr_lt : wrptr < size
  ne : wrptr ≠ rdptr
  stale : gap size s.rdptr wrptr ≤ gap size s.rdptr s.wrptr
  tocopy_eq : tocopy = readLength size wrptr rdptr (buflen - bytes.length)
  nodup : todo.Nodup
  copied : ∀ i, i < tocopy → i ∉ todo → dest i = s.data (rdptr + i)

/-- What holds of the reading thread. -/
def Reader.Ok (size : Nat) (s : State) : Reader → Prop
  | .idle => True
  | .busy buflen bytes st =>
    match st with
    | .loadWrptr | .leave => True
    | .loadRdptr wrptr => wrptr < size ∧ gap size s.rdptr wrptr ≤ gap size s.rdptr s.wrptr
    | .copy wrptr rdptr tocopy todo dest => CopiesOut size s buflen bytes wrptr rdptr tocopy todo dest

/-- The bytes published and not yet taken. -/
def State.queue (size : Nat) (s : State) : List Byte := window s.data size s.rdptr (gap size s.rdptr s.wrptr)

structure Inv (size : Nat) (tr : List Event) (s : State) : Prop where
  wrptr_lt : s.wrptr < size
  rdptr_lt : s.rdptr < size
  conserved : written tr ++ s.writer.counted = returned tr ++ s.reader.counted ++ s.queue size
  writer : s.writer.Ok size s
  reader : s.reader.Ok size s

/-! ### The slots of a copy -/

section

variable {s : State} {buffer bytes : List Byte} {counted buflen wrptr rdptr tocopy : Nat} {todo : List Nat}
  {dest : Nat → Byte}

/-- The slots a write copies into are free, one behind the other from the write pointer on. -/
theorem CopiesIn.room (h : CopiesIn size s buffer counted wrptr rdptr tocopy todo) (hw : s.wrptr < size) :
    tocopy ≤ buffer.length - counted ∧ wrptr + tocopy ≤ size ∧ gap size s.rdptr s.wrptr + tocopy < size := by
  obtain ⟨hlen, hend, hfree⟩ := writeLength_spec hw h.rdptr_lt (buffer.length - counted)
  have hwrptr := h.wrptr_eq
  have hstale := h.stale
  rw [← hwrptr, ← h.tocopy_eq] at hlen hend hfree
  rw [← hwrptr] at hstale ⊢
  exact ⟨hlen, hend, by omega⟩

theorem CopiesIn.slot_eq (h : CopiesIn size s buffer counted wrptr rdptr tocopy todo) (hw : s.wrptr < size)
    {i : Nat} (hi : i < tocopy) : slot size s.wrptr i = wrptr + i := by
  obtain ⟨-, hend, -⟩ := h.room hw
  rw [← h.wrptr_eq, slot, if_pos (by omega)]

theorem CopiesIn.not_between (h : CopiesIn size s buffer counted wrptr rdptr tocopy todo) (hw : s.wrptr < size)
    (hr : s.rdptr < size) {i : Nat} (hi : i < tocopy) : ¬ Between size s.rdptr s.wrptr (wrptr + i) := by
  obtain ⟨-, -, hfree⟩ := h.room hw
  rw [← h.slot_eq hw hi]
  exact not_between_slot hr hw (by omega)

/-- The slots a read copies from are filled, one behind the other from the read pointer on. -/
theorem CopiesOut.filled (h : CopiesOut size s buflen bytes wrptr rdptr tocopy todo dest) (hr : s.rdptr < size) :
    tocopy ≤ buflen - bytes.length ∧ rdptr + tocopy ≤ size ∧ tocopy ≤ gap size s.rdptr s.wrptr := by
  obtain ⟨hlen, hend, hfull⟩ := readLength_spec h.wrptr_lt (h.rdptr_eq ▸ hr) h.ne (buflen - bytes.length)
  have hstale := h.stale
  rw [← h.tocopy_eq] at hlen hend hfull
  rw [h.rdptr_eq] at hfull
  exact ⟨hlen, hend, by omega⟩

theorem CopiesOut.slot_eq (h : CopiesOut size s buflen bytes wrptr rdptr tocopy todo dest) (hr : s.rdptr < size)
    {i : Nat} (hi : i < tocopy) : slot size s.rdptr i = rdptr + i := by
  obtain ⟨-, hend, -⟩ := h.filled hr
  rw [← h.rdptr_eq, slot, if_pos (by omega)]

theorem CopiesOut.between (h : CopiesOut size s buflen bytes wrptr rdptr tocopy todo dest) (hw : s.wrptr < size)
    (hr : s.rdptr < size) {i : Nat} (hi : i < tocopy) : Between size s.rdptr s.wrptr (rdptr + i) := by
  obtain ⟨-, -, hfull⟩ := h.filled hr
  rw [← h.slot_eq hr hi]
  exact between_slot hr hw (by omega)

end

/-! ### Steps of the other thread -/

/-- The writer does not mind what the reader does. -/
theorem Writer.Ok.frame {s s' : State} {w : Writer} (h : w.Ok size s) (hdata : s'.data = s.data)
    (hwrptr : s'.wrptr = s.wrptr) (hgap : gap size s'.rdptr s.wrptr ≤ gap size s.rdptr s.wrptr) : w.Ok size s' := by
  cases w with
  | idle => trivial
  | busy buffer counted st =>
    refine ⟨h.1, ?_⟩
    have h := h.2
    cases st with
    | loadWrptr | leave => trivial
    | loadRdptr wrptr => exact Eq.trans h hwrptr.symm
    | copy wrptr rdptr tocopy todo =>
      exact {
        wrptr_eq := by rw [hwrptr]; exact h.wrptr_eq
        rdptr_lt := h.rdptr_lt
        stale := by rw [hwrptr]; exact Nat.le_trans hgap h.stale
        tocopy_eq := h.tocopy_eq
        nodup := h.nodup
        todo_lt := h.todo_lt
        copied := by rw [hdata]; exact h.copied }

/-- The reader does not mind what the writer does outside the filled slots. -/
theorem Reader.Ok.frame {s s' : State} {r : Reader} (h : r.Ok size s) (hw : s.wrptr < size) (hr : s.rdptr < size)
    (hdata : ∀ x, Between size s.rdptr s.wrptr x → s'.data x = s.data x) (hrdptr : s'.rdptr = s.rdptr)
    (hgap : gap size s.rdptr s.wrptr ≤ gap size s.rdptr s'.wrptr) : r.Ok size s' := by
  cases r with
  | idle => trivial
  | busy buflen bytes st =>
    cases st with
    | loadWrptr | leave => trivial
    | loadRdptr wrptr =>
      refine ⟨h.1, ?_⟩
      rw [hrdptr]
      exact Nat.le_trans h.2 hgap
    | copy wrptr rdptr tocopy todo dest =>
      have h : CopiesOut size s buflen bytes wrptr rdptr tocopy todo dest := h
      exact {
        rdptr_eq := by rw [hrdptr]; exact h.rdptr_eq
        wrptr_lt := h.wrptr_lt
        ne := h.ne
        stale := by rw [hrdptr]; exact Nat.le_trans h.stale hgap
        tocopy_eq := h.tocopy_eq
        nodup := h.nodup
        copied := fun i hi hni => by rw [hdata _ (h.between hw hr hi)]; exact h.copied i hi hni }

/-! ### Publishing a copy -/

theorem written_append (tr tr' : List Event) : written (tr ++ tr') = written tr ++ written tr' :=
  List.flatMap_append ..

theorem returned_append (tr tr' : List Event) : returned (tr ++ tr') = returned tr ++ returned tr' :=
  List.flatMap_append ..

section

variable {s : State} {buffer bytes : List Byte} {counted buflen wrptr rdptr tocopy : Nat} {dest : Nat → Byte}

/-- When the write pointer moves past the slots of a finished copy, the queue grows by the bytes copied. -/
theorem CopiesIn.publish (h : CopiesIn size s buffer counted wrptr rdptr tocopy []) (hw : s.wrptr < size)
    (hr : s.rdptr < size) : State.queue size { s with wrptr := slot size s.wrptr tocopy } =
      s.queue size ++ (buffer.drop counted).take tocopy := by
  obtain ⟨hlen, hend, hfree⟩ := h.room hw
  have hcopied : window s.data size s.wrptr tocopy = (buffer.drop counted).take tocopy := by
    rw [← h.wrptr_eq]
    refine window_eq_of_forall hend (by rw [List.length_drop]; exact hlen) fun k hk hlt => ?_
    have hget : counted + k < buffer.length := by
      rw [List.length_drop] at hk
      omega
    rw [h.copied k hlt List.not_mem_nil, List.getElem_drop, List.getD_eq_getElem?_getD,
      List.getElem?_eq_getElem hget, Option.getD_some]
  simp only [State.queue]
  rw [gap_slot_right hr hw hfree, window_add _ hr (by omega), slot_gap hr hw, hcopied]

/-- When the read pointer moves past the slots of a finished copy, the bytes copied leave the front of the queue. -/
theorem CopiesOut.publish (h : CopiesOut size s buflen bytes wrptr rdptr tocopy [] dest) (hw : s.wrptr < size)
    (hr : s.rdptr < size) : s.queue size = (List.range tocopy).map dest ++
      State.queue size { s with rdptr := slot size s.rdptr tocopy } := by
  obtain ⟨-, -, hfull⟩ := h.filled hr
  have hlt := gap_lt hr hw
  have hcopied : (List.range tocopy).map dest = window s.data size s.rdptr tocopy := by
    apply List.map_congr_left
    intro i hi
    have hi := List.mem_range.1 hi
    rw [h.copied i hi List.not_mem_nil, h.slot_eq hr hi]
  simp only [State.queue]
  rw [hcopied, gap_slot_left hr hw hfull, ← window_add _ hr (by omega), Nat.add_sub_cancel' hfull]

end

/-! ### Steps -/

variable {tr es : List Event} {s s' : State}

/-- A thread that only moves on in its code, with nothing more counted. -/
theorem Inv.goto (h : Inv size tr s) {w : Writer} {r : Reader} (hw : w.counted = s.writer.counted)
    (hr : r.counted = s.reader.counted) (hwok : w.Ok size s) (hrok : r.Ok size s) :
    Inv size tr { s with writer := w, reader := r } where
  wrptr_lt := h.wrptr_lt
  rdptr_lt := h.rdptr_lt
  conserved := by
    show written tr ++ w.counted = returned tr ++ r.counted ++ s.queue size
    rw [hw, hr]
    exact h.conserved
  writer := hwok.frame rfl rfl (Nat.le_refl _)
  reader := hrok.frame h.wrptr_lt h.rdptr_lt (fun _ _ => rfl) rfl (Nat.le_refl _)

/-- The writer publishes its copy: the write pointer moves past the slots it has filled. -/
theorem Inv.publishIn (h : Inv size tr s) {buffer : List Byte} {counted wrptr rdptr tocopy : Nat} {st : WriterStage}
    (hs : s.writer = .busy buffer counted (.copy wrptr rdptr tocopy [])) (hst : st = .loadWrptr ∨ st = .leave) :
    Inv size tr { s with wrptr := slot size s.wrptr tocopy, writer := .busy buffer (counted + tocopy) st } := by
  have hcopy := h.writer
  rw [hs] at hcopy
  obtain ⟨hcounted, hcopy⟩ := hcopy
  have hcopy : CopiesIn size s buffer counted wrptr rdptr tocopy [] := hcopy
  obtain ⟨hlen, hend, hfree⟩ := hcopy.room h.wrptr_lt
  have htocopy : tocopy < size := by omega
  have hgap := gap_slot_right h.rdptr_lt h.wrptr_lt hfree
  exact {
    wrptr_lt := slot_lt h.wrptr_lt htocopy
    rdptr_lt := h.rdptr_lt
    conserved := by
      show written tr ++ buffer.take (counted + tocopy) = returned tr ++ s.reader.counted ++
        State.queue size { s with wrptr := slot size s.wrptr tocopy }
      have hconserved := h.conserved
      rw [hs] at hconserved
      rw [hcopy.publish h.wrptr_lt h.rdptr_lt, ← List.append_assoc, ← hconserved, List.take_add, List.append_assoc]
      rfl
    writer := by
      refine ⟨by omega, ?_⟩
      rcases hst with rfl | rfl <;> trivial
    reader := h.reader.frame h.wrptr_lt h.rdptr_lt (fun _ _ => rfl) rfl (by rw [hgap]; omega) }

/-- The reader publishes its copy: the read pointer moves past the slots it has read. -/
theorem Inv.publishOut (h : Inv size tr s) {buflen : Nat} {bytes : List Byte} {wrptr rdptr tocopy : Nat}
    {dest : Nat → Byte} {st : ReaderStage}
    (hs : s.reader = .busy buflen bytes (.copy wrptr rdptr tocopy [] dest)) (hst : st = .loadWrptr ∨ st = .leave) :
    Inv size tr { s with rdptr := slot size s.rdptr tocopy,
                         reader := .busy buflen (bytes ++ (List.range tocopy).map dest) st } := by
  have hcopy := h.reader
  rw [hs] at hcopy
  have hcopy : CopiesOut size s buflen bytes wrptr rdptr tocopy [] dest := hcopy
  obtain ⟨hlen, hend, hfull⟩ := hcopy.filled h.rdptr_lt
  have htocopy : tocopy < size := Nat.lt_of_le_of_lt hfull (gap_lt h.rdptr_lt h.wrptr_lt)
  exact {
    wrptr_lt := h.wrptr_lt
    rdptr_lt := slot_lt h.rdptr_lt htocopy
    conserved := by
      show written tr ++ s.writer.counted = returned tr ++ (bytes ++ (List.range tocopy).map dest) ++
        State.queue size { s with rdptr := slot size s.rdptr tocopy }
      have hconserved := h.conserved
      rw [hs] at hconserved
      rw [hconserved, hcopy.publish h.wrptr_lt h.rdptr_lt]
      simp only [Reader.counted, List.append_assoc]
    writer := h.writer.frame rfl rfl (by
      simp only
      rw [gap_slot_left h.rdptr_lt h.wrptr_lt hfull]
      exact Nat.sub_le _ _)
    reader := by rcases hst with rfl | rfl <;> trivial }

theorem inv_writerNext (h : Inv size tr s) (hnext : writerNext size s = some (s', es)) : Inv size (tr ++ es) s' := by
  unfold writerNext at hnext
  split at hnext
  · cases hnext
  · -- the writer loads its own pointer, in which only it stores
    rename_i buffer counted hs
    cases hnext
    have hok := h.writer
    rw [hs] at hok
    rw [List.append_nil]
    exact h.goto (by rw [hs]; rfl) rfl ⟨hok.1, rfl⟩ h.reader
  · -- the writer loads the read pointer: from here on the reader can only free more slots
    rename_i buffer counted wrptr hs
    cases hnext
    have hok := h.writer
    rw [hs] at hok
    obtain ⟨hcounted, rfl⟩ := hok
    rw [List.append_nil]
    refine h.goto (by rw [hs]; rfl) rfl ⟨hcounted, ?_⟩ h.reader
    exact {
      wrptr_eq := rfl
      rdptr_lt := h.rdptr_lt
      stale := Nat.le_refl _
      tocopy_eq := rfl
      nodup := List.nodup_range
      todo_lt := fun i hi => List.mem_range.1 hi
      copied := fun i hi hni => absurd (List.mem_range.2 hi) hni }
  · rename_i buffer counted wrptr rdptr tocopy hs
    have hok := h.writer
    rw [hs] at hok
    have hcopy : CopiesIn size s buffer counted wrptr rdptr tocopy [] := hok.2
    obtain ⟨-, hend, -⟩ := hcopy.room h.wrptr_lt
    have hwrptr := hcopy.wrptr_eq
    split at hnext
    · -- the free slots went on to the end of the storage, where the pointer starts again
      cases hnext
      rw [List.append_nil, advance_eq_slot hend, hwrptr]
      refine h.publishIn hs ?_
      split_ifs <;> simp
    · -- the free slots ended at the read pointer, so the copy is short of the end of the storage
      rename_i hlt
      cases hnext
      have hend' : wrptr + tocopy < size := by
        rw [hcopy.tocopy_eq]
        exact writeLength_wrapped hcopy.rdptr_lt (by omega) _
      have hslot : s.wrptr + tocopy = slot size s.wrptr tocopy := by
        rw [slot, if_pos (by omega)]
      rw [List.append_nil, hslot]
      exact h.publishIn hs (.inr rfl)
  · cases hnext
  · rename_i buffer counted hs
    cases hnext
    have hconserved := h.conserved
    rw [hs] at hconserved
    exact {
      wrptr_lt := h.wrptr_lt
      rdptr_lt := h.rdptr_lt
      conserved := by
        -- what the call has counted is now counted by its result
        rw [written_append, returned_append]
        show written tr ++ (buffer.take counted ++ []) ++ [] = returned tr ++ [] ++ s.reader.counted ++ s.queue size
        rw [List.append_nil, List.append_nil, List.append_nil]
        exact hconserved
      writer := trivial
      reader := h.reader.frame h.wrptr_lt h.rdptr_lt (fun _ _ => rfl) rfl (Nat.le_refl _) }

theorem inv_readerNext (h : Inv size tr s) (hnext : readerNext size s = some (s', es)) : Inv size (tr ++ es) s' := by
  unfold readerNext at hnext
  split at hnext
  · cases hnext
  · rename_i buflen bytes hs
    cases hnext
    rw [List.append_nil]
    exact h.goto rfl (by rw [hs]; rfl) h.writer ⟨h.wrptr_lt, Nat.le_refl _⟩
  · -- the reader loads its own pointer, and returns if it is equal to the write pointer it has seen
    rename_i buflen bytes wrptr hs
    have hok := h.reader
    rw [hs] at hok
    obtain ⟨hw, hstale⟩ := hok
    split at hnext
    · cases hnext
      rw [List.append_nil]
      exact h.goto rfl (by rw [hs]; rfl) h.writer trivial
    · rename_i hne
      cases hnext
      rw [List.append_nil]
      refine h.goto rfl (by rw [hs]; rfl) h.writer ?_
      exact {
        rdptr_eq := rfl
        wrptr_lt := hw
        ne := hne
        stale := hstale
        tocopy_eq := rfl
        nodup := List.nodup_range
        copied := fun i hi hni => absurd (List.mem_range.2 hi) hni }
  · rename_i buflen bytes wrptr rdptr tocopy dest hs
    have hok := h.reader
    rw [hs] at hok
    have hcopy : CopiesOut size s buflen bytes wrptr rdptr tocopy [] dest := hok
    obtain ⟨-, hend, -⟩ := hcopy.filled h.rdptr_lt
    have hrdptr := hcopy.rdptr_eq
    split at hnext
    · -- the filled slots ended at the write pointer, so the copy is short of the end of the storage
      rename_i hlt
      cases hnext
      have hend' : rdptr + tocopy < size := by
        rw [hcopy.tocopy_eq]
        exact readLength_straight hcopy.wrptr_lt hlt _
      have hslot : s.rdptr + tocopy = slot size s.rdptr tocopy := by
        rw [slot, if_pos (by omega)]
      rw [List.append_nil, hslot]
      exact h.publishOut hs (.inr rfl)
    · cases hnext
      rw [List.append_nil, advance_eq_slot hend, hrdptr]
      refine h.publishOut hs ?_
      split_ifs <;> simp
  · cases hnext
  · rename_i buflen bytes hs
    cases hnext
    have hconserved := h.conserved
    rw [hs] at hconserved
    exact {
      wrptr_lt := h.wrptr_lt
      rdptr_lt := h.rdptr_lt
      conserved := by
        rw [written_append, returned_append]
        show written tr ++ [] ++ s.writer.counted = returned tr ++ (bytes ++ []) ++ [] ++ s.queue size
        rw [List.append_nil, List.append_nil, List.append_nil]
        exact hconserved
      writer := h.writer.frame rfl rfl (Nat.le_refl _)
      reader := trivial }

/-- What is left to copy after one more byte, in any order. -/
private theorem not_mem_of_erase {todo : List Nat} (hnodup : todo.Nodup) {i j : Nat} (h : j ∉ todo.erase i)
    (hne : j ≠ i) : j ∉ todo :=
  fun hj => h ((hnodup.mem_erase_iff).2 ⟨hne, hj⟩)

/-- A byte copied by the writer falls on a free slot. -/
theorem inv_copyIn (h : Inv size tr s) {i : Nat} (hnext : copyIn s i = some (s', es)) : Inv size (tr ++ es) s' := by
  unfold copyIn at hnext
  split at hnext
  · rename_i buffer counted wrptr rdptr tocopy todo hs
    have hok := h.writer
    rw [hs] at hok
    obtain ⟨hcounted, hcopy⟩ := hok
    have hcopy : CopiesIn size s buffer counted wrptr rdptr tocopy todo := hcopy
    split at hnext
    · rename_i hmem
      cases hnext
      have hi : i < tocopy := hcopy.todo_lt i hmem
      have hfree := hcopy.not_between h.wrptr_lt h.rdptr_lt hi
      rw [List.append_nil]
      exact {
        wrptr_lt := h.wrptr_lt
        rdptr_lt := h.rdptr_lt
        conserved := by
          have hconserved := h.conserved
          rw [hs, State.queue, ← window_update s.data h.rdptr_lt h.wrptr_lt hfree (buffer.getD (counted + i) 0)]
            at hconserved
          exact hconserved
        writer := by
          refine ⟨hcounted, ?_⟩
          exact {
            wrptr_eq := hcopy.wrptr_eq
            rdptr_lt := hcopy.rdptr_lt
            stale := hcopy.stale
            tocopy_eq := hcopy.tocopy_eq
            nodup := hcopy.nodup.erase i
            todo_lt := fun j hj => hcopy.todo_lt j (List.mem_of_mem_erase hj)
            copied := fun j hj hnj => by
              simp only
              by_cases hji : j = i
              · rw [hji, Function.update_self]
              · rw [Function.update_of_ne (by omega)]
                exact hcopy.copied j hj (not_mem_of_erase hcopy.nodup hnj hji) }
        reader := by
          refine h.reader.frame h.wrptr_lt h.rdptr_lt (fun x hx => Function.update_of_ne ?_ _ _) rfl (Nat.le_refl _)
          rintro rfl
          exact hfree hx }
    · cases hnext
  · cases hnext

theorem inv_copyOut (h : Inv size tr s) {i : Nat} (hnext : copyOut s i = some (s', es)) : Inv size (tr ++ es) s' := by
  unfold copyOut at hnext
  split at hnext
  · rename_i buflen bytes wrptr rdptr tocopy todo dest hs
    have hok := h.reader
    rw [hs] at hok
    have hcopy : CopiesOut size s buflen bytes wrptr rdptr tocopy todo dest := hok
    split at hnext
    · cases hnext
      rw [List.append_nil]
      refine h.goto rfl (by rw [hs]; rfl) h.writer ?_
      exact {
        rdptr_eq := hcopy.rdptr_eq
        wrptr_lt := hcopy.wrptr_lt
        ne := hcopy.ne
        stale := hcopy.stale
        tocopy_eq := hcopy.tocopy_eq
        nodup := hcopy.nodup.erase i
        copied := fun j hj hnj => by
          by_cases hji : j = i
          · rw [hji, Function.update_self]
          · rw [Function.update_of_ne hji]
            exact hcopy.copied j hj (not_mem_of_erase hcopy.nodup hnj hji) }
    · cases hnext
  · cases hnext

/-- Every step keeps the invariant. -/
theorem inv_step {l : Label} (h : Inv size tr s) (hnext : (machine size).next s l = some (s', es)) :
    Inv size (tr ++ es) s' := by
  cases l with
  | callWrite buffer =>
    simp only [machine] at hnext
    split at hnext <;> cases hnext
    rename_i hs
    rw [List.append_nil]
    exact h.goto (by rw [hs]; rfl) rfl ⟨Nat.zero_le _, trivial⟩ h.reader
  | callRead buflen =>
    simp only [machine] at hnext
    split at hnext <;> cases hnext
    rename_i hs
    rw [List.append_nil]
    exact h.goto rfl (by rw [hs]; rfl) h.writer trivial
  | writer => exact inv_writerNext h hnext
  | reader => exact inv_readerNext h hnext
  | copyIn i => exact inv_copyIn h hnext
  | copyOut i => exact inv_copyOut h hnext

theorem inv_of_run (hsize : 1 ≤ size) (hrun : (machine size).Run new tr s) : Inv size tr s := by
  refine hrun.invariant (Inv size) ?_ fun _ _ _ _ _ h _ hnext => inv_step h hnext
  exact {
    wrptr_lt := hsize
    rdptr_lt := hsize
    conserved := rfl
    writer := trivial
    reader := trivial }

/-! ### Runs -/

theorem Inv.isPrefix (h : Inv size tr s) : returned tr <+: written tr ++ s.writer.counted := by
  rw [h.conserved, List.append_assoc]
  exact List.prefix_append _ _

theorem Inv.writer_touches (h : Inv size tr s) {x : Nat} (hx : s.writer.Touches x) :
    x < size ∧ ¬ s.Unread size x := by
  have hok := h.writer
  cases hs : s.writer with
  | idle =>
    rw [hs] at hx
    exact hx.elim
  | busy buffer counted st =>
    rw [hs] at hx hok
    cases st with
    | loadWrptr | loadRdptr _ | leave => exact hx.elim
    | copy wrptr rdptr tocopy todo =>
      obtain ⟨hge, hlt⟩ := hx
      have hcopy : CopiesIn size s buffer counted wrptr rdptr tocopy todo := hok.2
      obtain ⟨-, hend, -⟩ := hcopy.room h.wrptr_lt
      obtain ⟨i, rfl⟩ := Nat.exists_eq_add_of_le hge
      exact ⟨by omega, hcopy.not_between h.wrptr_lt h.rdptr_lt (by omega)⟩

theorem Inv.reader_touches (h : Inv size tr s) {x : Nat} (hx : s.reader.Touches x) :
    x < size ∧ s.Unread size x := by
  have hok := h.reader
  cases hs : s.reader with
  | idle =>
    rw [hs] at hx
    exact hx.elim
  | busy buflen bytes st =>
    rw [hs] at hx hok
    cases st with
    | loadWrptr | loadRdptr _ | leave => exact hx.elim
    | copy wrptr rdptr tocopy todo dest =>
      obtain ⟨hge, hlt⟩ := hx
      have hcopy : CopiesOut size s buflen bytes wrptr rdptr tocopy todo dest := hok
      obtain ⟨i, rfl⟩ := Nat.exists_eq_add_of_le hge
      have hunread : s.Unread size (rdptr + i) := hcopy.between h.wrptr_lt h.rdptr_lt (by omega)
      exact ⟨hunread.1, hunread⟩

/-- In every interleaving of a writing and a reading thread the pointers stay in the storage, the copies in progress
stay on their side of the pointers, and the bytes returned by reads are a prefix of those the writes count: those
counted by the writes that have returned, with what the write in progress has counted for its result.  So they are a
prefix of what the results of the writes count once the writes begun so far have returned. -/
theorem spsc_queue (hsize : 1 ≤ size) (tr : List Event) (s : State) (hrun : (machine size).Run new tr s) :
    (s.wrptr < size ∧ s.rdptr < size) ∧
    (∀ x, s.writer.Touches x → x < size ∧ ¬ s.Unread size x) ∧
    (∀ x, s.reader.Touches x → x < size ∧ s.Unread size x) ∧
    (∀ x, ¬ (s.writer.Touches x ∧ s.reader.Touches x)) ∧
    returned tr <+: written tr ++ s.writer.counted ∧
    ∀ tr' s', (machine size).Run s tr' s' → s'.writer = .idle → returned tr <+: written (tr ++ tr') := by
  have h := inv_of_run hsize hrun
  refine ⟨⟨h.wrptr_lt, h.rdptr_lt⟩, fun x hx => h.writer_touches hx, fun x hx => h.reader_touches hx, ?_,
    h.isPrefix, fun tr' s' hrun' hidle => ?_⟩
  · rintro x ⟨hin, hout⟩
    exact (h.writer_touches hin).2 (h.reader_touches hout).2
  · have h' := (inv_of_run hsize (hrun.trans hrun')).isPrefix
    rw [hidle, Writer.counted, List.append_nil, returned_append] at h'
    exact (List.prefix_append _ _).trans h'

/-- A write that wraps and a read, both in the middle of a copy: the first byte of the write is published before the
write has returned. -/
theorem spsc_queue_wrapping : ∃ tr s, (machine 4).Run new tr s ∧
    (tr = [.wrote [1, 2, 3] 3, .read 2 [1, 2]] ∧ s.writer = .busy [4, 5] 1 (.copy 0 2 1 [0]) ∧ s.wrptr = 0 ∧
      s.rdptr = 2) ∧ returned tr <+: written tr ++ s.writer.counted ∧ s.wrptr < 4 := by
  have h : ((machine 4).exec new
      [.callWrite [1, 2, 3], .writer, .writer, .copyIn 2, .copyIn 0, .copyIn 1, .writer, .writer,
        .callRead 2, .reader, .reader, .copyOut 1, .copyOut 0, .reader, .reader,
        .callWrite [4, 5], .writer, .writer, .copyIn 0, .writer,
        .callRead 5, .reader, .reader, .copyOut 1, .writer, .writer]).any (fun r =>
      decide (r.2 = [.wrote [1, 2, 3] 3, .read 2 [1, 2]] ∧ r.1.writer = .busy [4, 5] 1 (.copy 0 2 1 [0]) ∧
        r.1.wrptr = 0 ∧ r.1.rdptr = 2)) = true := by decide +kernel
  obtain ⟨⟨s, tr⟩, hexec, hs⟩ := (Option.any_eq_true _ _).1 h
  have hrun := Machine.RunWhere.of_exec hexec
  obtain ⟨hbounds, -, -, -, hfirst, -⟩ := spsc_queue (by decide) tr s hrun
  exact ⟨tr, s, hrun, of_decide_eq_true hs, hfirst, hbounds.1⟩

/-- A write publishes its bytes before it returns: a read may return one that no result of a write counts yet. -/
theorem read_before_return : ∃ tr s, (machine 4).Run new tr s ∧
    (s.writer = .busy [1] 1 .leave ∧ returned tr = [1] ∧ written tr = []) ∧ ¬ returned tr <+: written tr := by
  have h : ((machine 4).exec new
      [.callWrite [1], .writer, .writer, .copyIn 0, .writer,
        .callRead 1, .reader, .reader, .copyOut 0, .reader, .reader]).any (fun r =>
      decide (r.1.writer = .busy [1] 1 .leave ∧ returned r.2 = [1] ∧ written r.2 = [])) = true := by decide +kernel
  obtain ⟨⟨s, tr⟩, hexec, hs⟩ := (Option.any_eq_true _ _).1 h
  have hstate : s.writer = .busy [1] 1 .leave ∧ returned tr = [1] ∧ written tr = [] := of_decide_eq_true hs
  obtain ⟨-, hreturned, hwritten⟩ := id hstate
  refine ⟨tr, s, Machine.RunWhere.of_exec hexec, hstate, ?_⟩
  rw [hreturned, hwritten]
  decide

end LockFreeRing

end Cppio
