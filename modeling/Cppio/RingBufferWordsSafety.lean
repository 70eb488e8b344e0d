import Cppio.RingBufferFifo
import Cppio.RingBufferWords

/-!
# The ring buffer does not overflow

On machine words a ring buffer whose pointers lie in the storage does what the ring buffer on numbers does
(`read_spec`, `write_spec`): no subtraction goes below zero and no addition wraps.  A copy that reaches the end of the
storage leaves its pointer at the start, on the other side of the other pointer, so the recursive call takes the
branch without recursion (`read_straight`, `write_wrapped`).
-/

namespace Cppio

open Segment

/-! ### Words -/

theorem toNat_min (a b : UInt64) : (min a b).toNat = min a.toNat b.toNat := by
  show (if a ≤ b then a else b).toNat = _
  split
  · exact (Nat.min_eq_left ‹a ≤ b›).symm
  · exact (Nat.min_eq_right (UInt64.le_of_lt (UInt64.not_le.1 ‹_›))).symm

theorem toNat_add {a b : UInt64} (h : a.toNat + b.toNat < 2 ^ 64) : (a + b).toNat = a.toNat + b.toNat := by
  rw [UInt64.toNat_add, Nat.mod_eq_of_lt h]

theorem toNat_sub {a b : UInt64} (h : b.toNat ≤ a.toNat) : (a - b).toNat = a.toNat - b.toNat :=
  UInt64.toNat_sub_of_le _ _ h

/-- A pointer that moves on, back to the start where it reaches the end. -/
theorem toNat_moved {ptr n : UInt64} (size : UInt64) (h : ptr.toNat + n.toNat < 2 ^ 64) :
    (if ptr + n = size then 0 else ptr + n).toNat =
      if ptr.toNat + n.toNat = size.toNat then 0 else ptr.toNat + n.toNat := by
  have hsum := toNat_add h
  by_cases heq : ptr + n = size
  · rw [if_pos heq, if_pos (by rw [← hsum, heq])]
    rfl
  · rw [if_neg heq, if_neg fun h => heq (UInt64.toNat_inj.1 (hsum.trans h))]
    exact hsum

@[simp] theorem value_sub (a b : UInt64) : (sub a b).value.1 = a - b := rfl

@[simp] theorem value_add (a b : UInt64) : (add a b).value = a + b := rfl

@[simp] theorem all_sub {P : Step → Prop} (a b : UInt64) : (sub a b).All P ↔ P (.sub a b) := by
  simp [sub]

@[simp] theorem all_add {P : Step → Prop} (a b : UInt64) : (add a b).All P ↔ P (.add a b) := by
  simp [add]

/-- Nothing goes wrong, in a storage of `size` bytes and a caller's buffer of `buflen` bytes. -/
def Step.Ok (size buflen : Nat) : Step → Prop
  | .sub a b => b.toNat ≤ a.toNat
  | .add a b => a.toNat + b.toNat < 2 ^ 64
  | .memcpy storage buffer n => storage + n.toNat ≤ size ∧ buffer + n.toNat ≤ buflen
  | .call n => n.toNat < buflen

/-- The lengths of the recursive calls. -/
def recursiveCalls (events : List Step) : List UInt64 :=
  events.filterMap fun
    | .call buflen => some buflen
    | _ => none

/-- What a computation does is in order, and it makes at most one recursive call. -/
structure InOrder {α : Type} (size buflen : Nat) (x : Steps α) : Prop where
  steps : x.All (Step.Ok size buflen)
  calls : (recursiveCalls x.events).length ≤ 1

theorem recursiveCalls_append (es es' : List Step) :
    recursiveCalls (es ++ es') = recursiveCalls es ++ recursiveCalls es' :=
  List.filterMap_append ..

/-- A call that has copied some bytes and calls itself for the rest. -/
theorem inOrder_more {α : Type} {size : Nat} {a : α} {es rest : List Step} {buflen tocopy count : UInt64}
    (hes : ∀ e ∈ es, e.Ok size buflen.toNat) (hnone : recursiveCalls es = [])
    (hrest : ∀ e ∈ rest, e.Ok size buflen.toNat) (hnone' : recursiveCalls rest = []) (hmore : tocopy < buflen)
    (hpos : tocopy ≠ 0) (hsum : tocopy.toNat + count.toNat < 2 ^ 64) :
    InOrder size buflen.toNat
      ⟨a, es ++ [.sub buflen tocopy, .call (buflen - tocopy)] ++ rest ++ [.add tocopy count]⟩ := by
  have hmore : tocopy.toNat < buflen.toNat := hmore
  have hpos : tocopy.toNat ≠ 0 := fun h => hpos (UInt64.toNat_inj.1 h)
  refine ⟨?_, ?_⟩
  · simp only [Traced.All, List.forall_mem_append, List.forall_mem_cons, Step.Ok, toNat_sub (Nat.le_of_lt hmore)]
    exact ⟨⟨⟨hes, Nat.le_of_lt hmore, by omega, by simp⟩, hrest⟩, hsum, by simp⟩
  · rw [recursiveCalls_append, recursiveCalls_append, recursiveCalls_append, hnone, hnone']
    exact Nat.le_refl 1

namespace WordRing

variable {w : WordRing}

/-- The ring buffer on numbers. -/
def ring (w : WordRing) : RingBuffer := { data := w.data, wrptr := w.wrptr.toNat, rdptr := w.rdptr.toNat }

def Read.toRead (r : Read) : RingBuffer.Read := { count := r.count.toNat, bytes := r.bytes, after := r.after.ring }

def Write.toWrite (r : Write) : RingBuffer.Write := { count := r.count.toNat, after := r.after.ring }

/-- The pointers lie in the storage, and its size is a `size_t`. -/
structure Fits (w : WordRing) : Prop where
  wrptr_lt : w.wrptr.toNat < w.data.length
  rdptr_lt : w.rdptr.toNat < w.data.length
  length_lt : w.data.length < 2 ^ 64

theorem Fits.valid (h : w.Fits) : w.ring.Valid := ⟨h.wrptr_lt, h.rdptr_lt⟩

theorem Fits.toNat_size (h : w.Fits) : w.size.toNat = w.data.length := UInt64.toNat_ofNat_of_lt' h.length_lt

/-! ### Reading -/

section

variable {buflen tocopy rdptr : UInt64} {rest : Steps Read}

private theorem read_filled (hlt : w.rdptr < w.wrptr) (pos : Nat)
    (htocopy : min (w.wrptr - w.rdptr) buflen = tocopy) :
    w.read pos buflen =
      ⟨⟨tocopy, slice w.data w.rdptr.toNat tocopy.toNat, { w with rdptr := w.rdptr + tocopy }⟩,
        [.sub w.wrptr w.rdptr, .memcpy w.rdptr.toNat pos tocopy, .add w.rdptr tocopy]⟩ := by
  rw [read, if_neg (UInt64.ne_of_lt hlt).symm, if_pos hlt, ← htocopy]
  rfl

private theorem read_wrapped_last (hlt : w.wrptr < w.rdptr) (pos : Nat)
    (htocopy : min (w.size - w.rdptr) buflen = tocopy)
    (hrdptr : (if w.rdptr + tocopy = w.size then 0 else w.rdptr + tocopy) = rdptr)
    (hlast : tocopy < buflen → w.wrptr = rdptr) :
    w.read pos buflen =
      ⟨⟨tocopy, slice w.data w.rdptr.toNat tocopy.toNat, { w with rdptr := rdptr }⟩,
        [.sub w.size w.rdptr, .memcpy w.rdptr.toNat pos tocopy, .add w.rdptr tocopy]⟩ := by
  rw [read, if_neg (UInt64.ne_of_lt hlt), if_neg (UInt64.lt_asymm hlt)]
  by_cases hmore : tocopy < buflen
  · simp only [sub, add, bind, pure, Traced.record, htocopy, hrdptr, hmore, eq_true (hlast hmore), ↓reduceIte]
    simp
  · simp only [sub, add, bind, pure, Traced.record, htocopy, hrdptr, hmore, ↓reduceIte]
    simp

private theorem read_wrapped_more (hlt : w.wrptr < w.rdptr) (pos : Nat)
    (htocopy : min (w.size - w.rdptr) buflen = tocopy) (hend : w.rdptr + tocopy = w.size) (hmore : tocopy < buflen)
    (hne : w.wrptr ≠ 0) (hpos : tocopy ≠ 0)
    (hrest : read { w with rdptr := 0 } (pos + tocopy.toNat) (buflen - tocopy) = rest) :
    w.read pos buflen =
      ⟨⟨tocopy + rest.value.count, slice w.data w.rdptr.toNat tocopy.toNat ++ rest.value.bytes, rest.value.after⟩,
        [.sub w.size w.rdptr, .memcpy w.rdptr.toNat pos tocopy, .add w.rdptr tocopy] ++
          [.sub buflen tocopy, .call (buflen - tocopy)] ++ rest.events ++ [.add tocopy rest.value.count]⟩ := by
  rw [read, if_neg (UInt64.ne_of_lt hlt), if_neg (UInt64.lt_asymm hlt)]
  simp only [sub, add, bind, pure, Traced.record, htocopy, hend, hmore, hne, hpos, hrest, ↓reduceIte]
  simp

end

theorem read_straight (h : w.Fits) (hle : w.rdptr ≤ w.wrptr) (pos : Nat) (buflen : UInt64) {limit : Nat}
    (hlimit : pos + buflen.toNat ≤ limit) :
    (w.read pos buflen).value.toRead = w.ring.read buflen.toNat ∧
      (w.read pos buflen).All (Step.Ok w.data.length limit) ∧ recursiveCalls (w.read pos buflen).events = [] := by
  by_cases heq : w.wrptr = w.rdptr
  · rw [read, RingBuffer.read, if_pos heq, if_pos (show w.ring.wrptr = w.ring.rdptr from congrArg UInt64.toNat heq)]
    exact ⟨rfl, by simp, rfl⟩
  · have hne : w.ring.wrptr ≠ w.ring.rdptr := fun h => heq (UInt64.toNat_inj.1 h)
    have hlt : w.rdptr < w.wrptr := UInt64.lt_of_le_of_ne hle (Ne.symm heq)
    have hlt' : w.ring.rdptr < w.ring.wrptr := hlt
    have hw := h.wrptr_lt
    have hlen := h.length_lt
    have hcount := toNat_min (w.wrptr - w.rdptr) buflen
    rw [toNat_sub hle] at hcount
    generalize htocopy : min (w.wrptr - w.rdptr) buflen = tocopy at hcount
    rw [read_filled hlt pos htocopy, RingBuffer.read, if_neg hne, if_pos hlt']
    have hfits : w.rdptr.toNat + tocopy.toNat ≤ w.wrptr.toNat := by
      have hle : w.rdptr.toNat ≤ w.wrptr.toNat := hle
      omega
    have hsum : w.rdptr.toNat + tocopy.toNat < 2 ^ 64 := by omega
    refine ⟨?_, ?_, rfl⟩
    · simp only [Read.toRead, ring, toNat_add hsum, hcount]
    · simp only [Traced.All, List.forall_mem_cons, Step.Ok]
      refine ⟨hle, ⟨by omega, by omega⟩, by omega, by simp⟩

-- the read pointer is back at the start of the storage, before the write pointer
private theorem read_rest (h : w.Fits) {buflen tocopy : UInt64} (hmore : tocopy.toNat < buflen.toNat)
    {rest : Steps Read} (hread : read { w with rdptr := 0 } (0 + tocopy.toNat) (buflen - tocopy) = rest) :
    rest.value.toRead = RingBuffer.read ⟨w.data, w.wrptr.toNat, 0⟩ (buflen.toNat - tocopy.toNat) ∧
      rest.All (Step.Ok w.data.length buflen.toNat) ∧ recursiveCalls rest.events = [] ∧
      tocopy.toNat + rest.value.count.toNat < 2 ^ 64 := by
  have hleft : (buflen - tocopy).toNat = buflen.toNat - tocopy.toNat := toNat_sub (Nat.le_of_lt hmore)
  have hlimit : 0 + tocopy.toNat + (buflen - tocopy).toNat ≤ buflen.toNat := by omega
  have hfits : Fits { w with rdptr := 0 } := ⟨h.wrptr_lt, Nat.zero_lt_of_lt h.rdptr_lt, h.length_lt⟩
  obtain ⟨hvalue, hsteps, hcalls⟩ := read_straight hfits UInt64.zero_le _ _ hlimit
  obtain ⟨hcount, -⟩ := RingBuffer.read_spec hfits.valid (buflen - tocopy).toNat
  rw [← hvalue, hread, hleft] at hcount
  rw [hread] at hvalue hsteps hcalls
  rw [hleft] at hvalue
  have hcount : rest.value.count.toNat = min (buflen.toNat - tocopy.toNat) _ := hcount
  have hlt := buflen.toNat_lt
  exact ⟨hvalue, hsteps, hcalls, by omega⟩

theorem read_spec (h : w.Fits) (buflen : UInt64) :
    (w.read 0 buflen).value.toRead = w.ring.read buflen.toNat ∧
      InOrder w.data.length buflen.toNat (w.read 0 buflen) := by
  rcases UInt64.le_or_lt w.rdptr w.wrptr with hle | hlt
  · obtain ⟨hvalue, hsteps, hcalls⟩ := read_straight h hle 0 buflen (Nat.le_of_eq (Nat.zero_add _))
    exact ⟨hvalue, hsteps, by simp [hcalls]⟩
  · have hlt' : w.ring.wrptr < w.ring.rdptr := hlt
    have hr := h.rdptr_lt
    have hlen := h.length_lt
    have hsize := h.toNat_size
    have hroom : (w.size - w.rdptr).toNat = w.data.length - w.rdptr.toNat := by
      rw [toNat_sub (by omega), hsize]
    have hcount := toNat_min (w.size - w.rdptr) buflen
    rw [hroom] at hcount
    generalize htocopy : min (w.size - w.rdptr) buflen = tocopy at hcount
    have hmoved := toNat_moved w.size (show w.rdptr.toNat + tocopy.toNat < 2 ^ 64 by omega)
    have hcopy : ∀ e ∈ [Step.sub w.size w.rdptr, .memcpy w.rdptr.toNat 0 tocopy, .add w.rdptr tocopy],
        e.Ok w.data.length buflen.toNat := by
      simp only [List.forall_mem_cons, Step.Ok]
      refine ⟨by omega, ⟨by omega, by omega⟩, by omega, by simp⟩
    rw [hsize] at hmoved
    rw [RingBuffer.read, if_neg (Nat.ne_of_lt hlt'), if_neg (Nat.not_lt_of_lt hlt')]
    simp only [ring, RingBuffer.size, ← hcount]
    by_cases hmore : tocopy < buflen
    · have hmore' : tocopy.toNat < buflen.toNat := hmore
      have hend : w.rdptr.toNat + tocopy.toNat = w.data.length := by omega
      have hend' : w.rdptr + tocopy = w.size := by
        rw [← UInt64.toNat_inj, toNat_add (by omega), hend, hsize]
      rw [if_pos hmore', if_pos hend]
      by_cases hempty : w.wrptr = 0
      · rw [read_wrapped_last hlt 0 htocopy (if_pos hend') fun _ => hempty, if_pos (by rw [hempty]; rfl)]
        exact ⟨rfl, hcopy, Nat.zero_le _⟩
      · have hw : w.wrptr.toNat ≠ 0 := fun h => hempty (UInt64.toNat_inj.1 h)
        have hpos : tocopy.toNat ≠ 0 := by omega
        have hpos' : tocopy ≠ 0 := fun h => hpos (congrArg UInt64.toNat h)
        generalize hread : read _ (0 + tocopy.toNat) (buflen - tocopy) = rest
        obtain ⟨hvalue, hsteps, hcalls, hsum⟩ := read_rest h hmore' hread
        rw [read_wrapped_more hlt 0 htocopy hend' hmore hempty hpos' hread, if_neg hw, if_neg hpos]
        refine ⟨?_, inOrder_more hcopy rfl hsteps hcalls hmore hpos' hsum⟩
        simp only [← hvalue, Read.toRead, toNat_add hsum]
    · have hmore' : ¬ tocopy.toNat < buflen.toNat := hmore
      rw [read_wrapped_last hlt 0 htocopy rfl fun h => absurd h hmore, if_neg hmore']
      refine ⟨?_, hcopy, Nat.zero_le _⟩
      simp only [Read.toRead, ring, hmoved]

/-! ### Writing -/

section

variable {buffer : Memory} {buflen tocopy wrptr : UInt64} {data : List Byte} {rest : Steps Write}

private theorem write_room (hlt : w.wrptr < w.rdptr) (pos : Nat)
    (htocopy : min (w.rdptr - 1 - w.wrptr) buflen = tocopy) :
    w.write buffer pos buflen =
      ⟨⟨tocopy, { w with data := overwrite w.data w.wrptr.toNat (buffer.bytes pos tocopy.toNat),
                         wrptr := w.wrptr + tocopy }⟩,
        [.sub w.rdptr 1, .sub (w.rdptr - 1) w.wrptr, .memcpy w.wrptr.toNat pos tocopy, .add w.wrptr tocopy]⟩ := by
  rw [write, if_neg (UInt64.not_le.2 hlt), ← htocopy]
  rfl

private theorem write_last (hle : w.rdptr ≤ w.wrptr) (pos : Nat) (htocopy : (w.firstCopy buflen).value = tocopy)
    (hwrptr : (if w.wrptr + tocopy = w.size then 0 else w.wrptr + tocopy) = wrptr)
    (hlast : tocopy < buflen → w.rdptr = 0) :
    w.write buffer pos buflen =
      ⟨⟨tocopy, { w with data := overwrite w.data w.wrptr.toNat (buffer.bytes pos tocopy.toNat), wrptr := wrptr }⟩,
        (w.firstCopy buflen).events ++ [.memcpy w.wrptr.toNat pos tocopy, .add w.wrptr tocopy]⟩ := by
  rw [write, if_pos hle]
  by_cases hmore : tocopy < buflen
  · simp only [add, bind, pure, Traced.record, htocopy, hwrptr, hmore, hlast hmore, ↓reduceIte]
    simp
  · simp only [add, bind, pure, Traced.record, htocopy, hwrptr, hmore, ↓reduceIte]
    simp

private theorem write_more (hle : w.rdptr ≤ w.wrptr) (pos : Nat) (htocopy : (w.firstCopy buflen).value = tocopy)
    (hdata : overwrite w.data w.wrptr.toNat (buffer.bytes pos tocopy.toNat) = data)
    (hend : w.wrptr + tocopy = w.size) (hmore : tocopy < buflen) (hne : w.rdptr ≠ 0) (hpos : tocopy ≠ 0)
    (hrest : write ⟨data, 0, w.rdptr⟩ buffer (pos + tocopy.toNat) (buflen - tocopy) = rest) :
    w.write buffer pos buflen =
      ⟨⟨tocopy + rest.value.count, rest.value.after⟩,
        ((w.firstCopy buflen).events ++ [.memcpy w.wrptr.toNat pos tocopy, .add w.wrptr tocopy]) ++
          [.sub buflen tocopy, .call (buflen - tocopy)] ++ rest.events ++ [.add tocopy rest.value.count]⟩ := by
  rw [write, if_pos hle]
  simp only [sub, add, bind, pure, Traced.record, htocopy, hdata, hend, hmore, hne, hpos, hrest, ↓reduceIte]
  simp

end

private theorem firstCopy_word (h : w.Fits) (buflen : UInt64) (limit : Nat) :
    (w.firstCopy buflen).value.toNat =
        (if w.rdptr.toNat = 0 ∧ min (w.data.length - w.wrptr.toNat) buflen.toNat = w.data.length - w.wrptr.toNat then
          min (w.data.length - w.wrptr.toNat) buflen.toNat - 1
        else min (w.data.length - w.wrptr.toNat) buflen.toNat) ∧
      (w.firstCopy buflen).All (Step.Ok w.data.length limit) ∧ recursiveCalls (w.firstCopy buflen).events = [] := by
  have hw := h.wrptr_lt
  have hsize := h.toNat_size
  have hroom : (w.size - w.wrptr).toNat = w.data.length - w.wrptr.toNat := by
    rw [toNat_sub (by omega), hsize]
  have hcount := toNat_min (w.size - w.wrptr) buflen
  rw [hroom] at hcount
  have hsub : Step.Ok w.data.length limit (.sub w.size w.wrptr) := by
    simp only [Step.Ok]
    omega
  generalize htocopy : min (w.size - w.wrptr) buflen = tocopy at hcount
  rw [← hcount]
  by_cases h0 : w.rdptr = 0
  · have h0' : w.rdptr.toNat = 0 := congrArg UInt64.toNat h0
    by_cases hfull : tocopy = w.size - w.wrptr
    · have hfull' : tocopy.toNat = w.data.length - w.wrptr.toNat := by rw [hfull, hroom]
      have hone : (1 : UInt64).toNat ≤ tocopy.toNat := by
        rw [hfull']
        exact Nat.sub_pos_of_lt hw
      have hcopy : w.firstCopy buflen = ⟨tocopy - 1, [.sub w.size w.wrptr, .sub w.size w.wrptr, .sub tocopy 1]⟩ := by
        simp only [firstCopy, sub, bind, pure, Traced.record, htocopy, h0, eq_true hfull, ↓reduceIte]
        rfl
      rw [hcopy, if_pos ⟨h0', hfull'⟩]
      refine ⟨toNat_sub hone, ?_, rfl⟩
      simp only [Traced.All, List.forall_mem_cons]
      exact ⟨hsub, hsub, hone, by simp⟩
    · have hfull' : tocopy.toNat ≠ w.data.length - w.wrptr.toNat :=
        fun h => hfull (UInt64.toNat_inj.1 (h.trans hroom.symm))
      have hcopy : w.firstCopy buflen = ⟨tocopy, [.sub w.size w.wrptr, .sub w.size w.wrptr]⟩ := by
        simp only [firstCopy, sub, bind, pure, Traced.record, htocopy, h0, hfull, ↓reduceIte]
        rfl
      rw [hcopy, if_neg fun h => hfull' h.2]
      refine ⟨rfl, ?_, rfl⟩
      simp only [Traced.All, List.forall_mem_cons]
      exact ⟨hsub, hsub, by simp⟩
  · have hcopy : w.firstCopy buflen = ⟨tocopy, [.sub w.size w.wrptr]⟩ := by
      simp only [firstCopy, sub, bind, pure, Traced.record, htocopy, h0, ↓reduceIte]
      rfl
    rw [hcopy, if_neg fun h => h0 (UInt64.toNat_inj.1 h.1)]
    refine ⟨rfl, ?_, rfl⟩
    simp only [Traced.All, List.forall_mem_cons]
    exact ⟨hsub, by simp⟩

private theorem write_wrapped (h : w.Fits) (hlt : w.wrptr < w.rdptr) (buffer : Memory) (pos : Nat) (buflen : UInt64)
    {limit : Nat} (hlimit : pos + buflen.toNat ≤ limit) :
    (w.write buffer pos buflen).value.toWrite = w.ring.write (buffer.bytes pos buflen.toNat) ∧
      (w.write buffer pos buflen).All (Step.Ok w.data.length limit) ∧
      recursiveCalls (w.write buffer pos buflen).events = [] := by
  have hlt' : w.wrptr.toNat < w.rdptr.toNat := hlt
  have hr := h.rdptr_lt
  have hlen := h.length_lt
  have hbehind : (w.rdptr - 1).toNat = w.rdptr.toNat - 1 := toNat_sub (Nat.zero_lt_of_lt hlt')
  have hroom : (w.rdptr - 1 - w.wrptr).toNat = w.rdptr.toNat - 1 - w.wrptr.toNat := by
    rw [toNat_sub (by omega), hbehind]
  have hcount := toNat_min (w.rdptr - 1 - w.wrptr) buflen
  rw [hroom] at hcount
  generalize htocopy : min (w.rdptr - 1 - w.wrptr) buflen = tocopy at hcount
  have hnle : ¬ w.ring.rdptr ≤ w.ring.wrptr := Nat.not_le_of_lt hlt'
  rw [write_room hlt pos htocopy, RingBuffer.write, if_neg hnle]
  refine ⟨?_, ?_, rfl⟩
  · simp only [Write.toWrite, ring, Memory.length_bytes, ← hcount]
    rw [Memory.take_bytes _ _ (by omega), toNat_add (by omega)]
  · simp only [Traced.All, List.forall_mem_cons, Step.Ok, hbehind]
    exact ⟨Nat.zero_lt_of_lt hlt', by omega, ⟨by omega, by omega⟩, by omega, by simp⟩

-- the write pointer is back at the start of the storage, before the read pointer
private theorem write_rest (h : w.Fits) (h0 : w.rdptr.toNat ≠ 0) {buffer : Memory} {buflen tocopy : UInt64}
    (hmore : tocopy.toNat < buflen.toNat) {data : List Byte} (hdata : data.length = w.data.length)
    {rest : Steps Write} (hwrite : write ⟨data, 0, w.rdptr⟩ buffer (0 + tocopy.toNat) (buflen - tocopy) = rest) :
    rest.value.toWrite = RingBuffer.write ⟨data, 0, w.rdptr.toNat⟩
        (buffer.bytes (0 + tocopy.toNat) (buflen.toNat - tocopy.toNat)) ∧
      rest.All (Step.Ok w.data.length buflen.toNat) ∧ recursiveCalls rest.events = [] ∧
      tocopy.toNat + rest.value.count.toNat < 2 ^ 64 := by
  have hleft : (buflen - tocopy).toNat = buflen.toNat - tocopy.toNat := toNat_sub (Nat.le_of_lt hmore)
  have hlimit : 0 + tocopy.toNat + (buflen - tocopy).toNat ≤ buflen.toNat := by omega
  have hfits : Fits ⟨data, 0, w.rdptr⟩ :=
    ⟨hdata ▸ Nat.zero_lt_of_lt h.wrptr_lt, hdata ▸ h.rdptr_lt, hdata ▸ h.length_lt⟩
  have hlt : (0 : UInt64) < w.rdptr := UInt64.lt_iff_toNat_lt.2 (Nat.pos_of_ne_zero h0)
  obtain ⟨hvalue, hsteps, hcalls⟩ := write_wrapped hfits hlt buffer _ _ hlimit
  obtain ⟨hcount, -⟩ := RingBuffer.write_spec hfits.valid (buffer.bytes (0 + tocopy.toNat) (buflen - tocopy).toNat)
  rw [← hvalue, hwrite, hleft, Memory.length_bytes] at hcount
  rw [hwrite] at hvalue hsteps hcalls
  rw [hleft] at hvalue
  simp only [hdata] at hsteps
  have hcount : rest.value.count.toNat = min (buflen.toNat - tocopy.toNat) _ := hcount
  have hlt := buflen.toNat_lt
  exact ⟨hvalue, hsteps, hcalls, by omega⟩

theorem write_spec (h : w.Fits) (buffer : Memory) (buflen : UInt64) :
    (w.write buffer 0 buflen).value.toWrite = w.ring.write (buffer.bytes 0 buflen.toNat) ∧
      InOrder w.data.length buflen.toNat (w.write buffer 0 buflen) := by
  rcases UInt64.le_or_lt w.rdptr w.wrptr with hle | hlt
  · have hw := h.wrptr_lt
    have hlen := h.length_lt
    have hsize := h.toNat_size
    obtain ⟨hvalue, hfirst, hnone⟩ := firstCopy_word h buflen buflen.toNat
    generalize htocopy : (w.firstCopy buflen).value = tocopy at hvalue
    obtain ⟨hspace, hbuffer, hroom, hfull⟩ := RingBuffer.firstCopy_spec hw hvalue.symm
    have hmoved := toNat_moved w.size (show w.wrptr.toNat + tocopy.toNat < 2 ^ 64 by omega)
    rw [hsize] at hmoved
    have hcopy : ∀ e ∈ (w.firstCopy buflen).events ++ [Step.memcpy w.wrptr.toNat 0 tocopy, .add w.wrptr tocopy],
        e.Ok w.data.length buflen.toNat := by
      refine List.forall_mem_append.2 ⟨hfirst, ?_⟩
      simp only [List.forall_mem_cons, Step.Ok]
      refine ⟨⟨by omega, by omega⟩, by omega, by simp⟩
    have hnone' : recursiveCalls ((w.firstCopy buflen).events ++
        [Step.memcpy w.wrptr.toNat 0 tocopy, .add w.wrptr tocopy]) = [] := by
      rw [recursiveCalls_append, hnone]
      rfl
    rw [RingBuffer.write, if_pos (show w.ring.rdptr ≤ w.ring.wrptr from hle)]
    simp only [ring, RingBuffer.size, Memory.length_bytes, ← hvalue, Memory.take_bytes buffer 0 hbuffer,
      Memory.drop_bytes buffer 0 hbuffer]
    by_cases hmore : tocopy < buflen
    · have hmore' : tocopy.toNat < buflen.toNat := hmore
      rw [if_pos hmore']
      by_cases h0 : w.rdptr = 0
      · rw [write_last hle 0 htocopy rfl fun _ => h0, if_pos (show w.rdptr.toNat = 0 from congrArg UInt64.toNat h0)]
        refine ⟨?_, hcopy, by rw [hnone']; exact Nat.zero_le 1⟩
        simp only [Write.toWrite, ring, hmoved]
      · have h0' : w.rdptr.toNat ≠ 0 := fun h => h0 (UInt64.toNat_inj.1 h)
        have hend : w.wrptr.toNat + tocopy.toNat = w.data.length := by omega
        have hend' : w.wrptr + tocopy = w.size := by
          rw [← UInt64.toNat_inj, toNat_add (by omega), hend, hsize]
        have hpos : tocopy.toNat ≠ 0 := by omega
        have hpos' : tocopy ≠ 0 := fun h => hpos (congrArg UInt64.toNat h)
        generalize hdata : overwrite w.data w.wrptr.toNat (buffer.bytes 0 tocopy.toNat) = data
        have hdatalen : data.length = w.data.length := by
          rw [← hdata, length_overwrite (by rw [Memory.length_bytes]; omega)]
        generalize hwrite : write ⟨data, 0, w.rdptr⟩ buffer (0 + tocopy.toNat) (buflen - tocopy) = rest
        obtain ⟨hvalue, hsteps, hcalls, hsum⟩ := write_rest h h0' hmore' hdatalen hwrite
        rw [write_more hle 0 htocopy hdata hend' hmore h0 hpos' hwrite, if_neg h0', if_neg hpos, if_pos hend]
        refine ⟨?_, inOrder_more hcopy hnone' hsteps hcalls hmore hpos' hsum⟩
        simp only [← hvalue, Write.toWrite, toNat_add hsum]
    · have hmore' : ¬ tocopy.toNat < buflen.toNat := hmore
      rw [write_last hle 0 htocopy rfl fun h => absurd h hmore, if_neg hmore']
      refine ⟨?_, hcopy, by rw [hnone']; exact Nat.zero_le 1⟩
      simp only [Write.toWrite, ring, hmoved]
  · obtain ⟨hvalue, hsteps, hcalls⟩ := write_wrapped h hlt buffer 0 buflen (Nat.le_of_eq (Nat.zero_add _))
    exact ⟨hvalue, hsteps, by simp [hcalls]⟩

/-! ### Sizes -/

theorem availableReadSize_spec (h : w.Fits) : w.availableReadSize.value.toNat = w.ring.availableReadSize ∧
    InOrder w.data.length 0 w.availableReadSize := by
  have hr := h.rdptr_lt
  have hlen := h.length_lt
  have hsize := h.toNat_size
  unfold availableReadSize RingBuffer.availableReadSize
  by_cases heq : w.rdptr = w.wrptr
  · rw [if_pos heq, if_pos (show w.ring.rdptr = w.ring.wrptr from congrArg UInt64.toNat heq)]
    exact ⟨rfl, by simp, Nat.zero_le 1⟩
  · have hne : w.rdptr.toNat ≠ w.wrptr.toNat := fun h => heq (UInt64.toNat_inj.1 h)
    rw [if_neg heq, if_neg (show w.ring.rdptr ≠ w.ring.wrptr from hne)]
    by_cases hlt : w.rdptr < w.wrptr
    · have hle : w.rdptr.toNat ≤ w.wrptr.toNat := Nat.le_of_lt hlt
      rw [if_pos hlt, if_pos (show w.ring.rdptr < w.ring.wrptr from hlt)]
      refine ⟨toNat_sub hle, ?_, Nat.zero_le 1⟩
      simpa [Step.Ok] using hle
    · have hge : ¬ w.rdptr.toNat < w.wrptr.toNat := hlt
      have hback : (w.size - w.rdptr).toNat = w.data.length - w.rdptr.toNat := by
        rw [toNat_sub (by omega), hsize]
      have hsum : (w.size - w.rdptr).toNat + w.wrptr.toNat < 2 ^ 64 := by omega
      rw [if_neg hlt, if_neg (show ¬ w.ring.rdptr < w.ring.wrptr from hge)]
      refine ⟨?_, ?_, Nat.zero_le 1⟩
      · simp only [Traced.value_bind, value_sub, value_add, toNat_add hsum, hback]
        rfl
      · simp only [Traced.all_bind, all_sub, value_sub, all_add, Step.Ok]
        exact ⟨by omega, hsum⟩

theorem availableWriteSize_spec (h : w.Fits) : w.availableWriteSize.value.toNat = w.ring.availableWriteSize ∧
    InOrder w.data.length 0 w.availableWriteSize := by
  have hw := h.wrptr_lt
  have hr := h.rdptr_lt
  have hlen := h.length_lt
  have hsize := h.toNat_size
  have hone : (1 : UInt64).toNat = 1 := rfl
  unfold availableWriteSize RingBuffer.availableWriteSize
  by_cases heq : w.rdptr = w.wrptr
  · have hle : (1 : UInt64).toNat ≤ w.size.toNat := by omega
    rw [if_pos heq, if_pos (show w.ring.rdptr = w.ring.wrptr from congrArg UInt64.toNat heq)]
    refine ⟨?_, ?_, Nat.zero_le 1⟩
    · simp only [Traced.value_bind, Traced.value_pure, value_sub, toNat_sub hle, hsize]
      rfl
    · simpa [Step.Ok] using hle
  · have hne : w.rdptr.toNat ≠ w.wrptr.toNat := fun h => heq (UInt64.toNat_inj.1 h)
    rw [if_neg heq, if_neg (show w.ring.rdptr ≠ w.ring.wrptr from hne)]
    by_cases hlt : w.rdptr < w.wrptr
    · have hlt' : w.rdptr.toNat < w.wrptr.toNat := hlt
      have hback : (w.size - w.wrptr).toNat = w.data.length - w.wrptr.toNat := by
        rw [toNat_sub (by omega), hsize]
      have hsum : (w.size - w.wrptr).toNat + w.rdptr.toNat < 2 ^ 64 := by omega
      have hboth := toNat_add hsum
      have hle : (1 : UInt64).toNat ≤ (w.size - w.wrptr + w.rdptr).toNat := by omega
      rw [if_pos hlt, if_pos (show w.ring.rdptr < w.ring.wrptr from hlt)]
      refine ⟨?_, ?_, Nat.zero_le 1⟩
      · simp only [Traced.value_bind, Traced.value_pure, value_sub, value_add, toNat_sub hle, hboth, hback]
        rfl
      · simp only [Traced.all_bind, Traced.all_pure, all_sub, value_sub, all_add, value_add, Step.Ok, and_true]
        exact ⟨by omega, hsum, hle⟩
    · have hge : ¬ w.rdptr.toNat < w.wrptr.toNat := hlt
      have hbetween : (w.rdptr - w.wrptr).toNat = w.rdptr.toNat - w.wrptr.toNat := toNat_sub (by omega)
      have hle : (1 : UInt64).toNat ≤ (w.rdptr - w.wrptr).toNat := by omega
      rw [if_neg hlt, if_neg (show ¬ w.ring.rdptr < w.ring.wrptr from hge)]
      refine ⟨?_, ?_, Nat.zero_le 1⟩
      · simp only [Traced.value_bind, Traced.value_pure, value_sub, toNat_sub hle, hbetween]
        rfl
      · simp only [Traced.all_bind, Traced.all_pure, all_sub, value_sub, Step.Ok, and_true]
        exact ⟨by omega, hle⟩

/-! ### Runs of calls -/

/-- The call on numbers. -/
def Call.toCall : Call → RingBuffer.Call
  | .read buflen => .read buflen.toNat
  | .write buffer buflen => .write (buffer.bytes 0 buflen.toNat)

theorem Fits.apply (h : w.Fits) (c : Call) : (w.apply c).ring = w.ring.apply c.toCall ∧ (w.apply c).Fits ∧
    (w.apply c).data.length = w.data.length := by
  have hring : (w.apply c).ring = w.ring.apply c.toCall ∧ (w.ring.apply c.toCall).Valid ∧
      (w.ring.apply c.toCall).size = w.ring.size := by
    cases c with
    | read buflen =>
      obtain ⟨-, -, hvalid, hsize, -⟩ := RingBuffer.read_spec h.valid buflen.toNat
      exact ⟨congrArg RingBuffer.Read.after (read_spec h buflen).1, hvalid, hsize⟩
    | write buffer buflen =>
      obtain ⟨-, hvalid, hsize, -⟩ := RingBuffer.write_spec h.valid (buffer.bytes 0 buflen.toNat)
      exact ⟨congrArg RingBuffer.Write.after (write_spec h buffer buflen).1, hvalid, hsize⟩
  obtain ⟨heq, hvalid, hsize⟩ := hring
  rw [← heq] at hvalid hsize
  have hlen : (w.apply c).data.length = w.data.length := hsize
  exact ⟨heq, ⟨hvalid.1, hvalid.2, hlen ▸ h.length_lt⟩, hlen⟩

/-- In every run of calls the ring buffer on machine words is the ring buffer on numbers. -/
theorem afterCalls_refines {N : Nat} (hN : 1 ≤ N) (hmax : N < 2 ^ 64) (calls : List Call) :
    (afterCalls N calls).ring = RingBuffer.afterCalls N (calls.map Call.toCall) ∧ (afterCalls N calls).Fits ∧
      (afterCalls N calls).data.length = N := by
  induction calls using List.reverseRecOn with
  | nil =>
    have hlen : (new N).data.length = N := List.length_replicate
    exact ⟨rfl, ⟨hlen.symm ▸ hN, hlen.symm ▸ hN, hlen.symm ▸ hmax⟩, hlen⟩
  | append_singleton calls c ih =>
    obtain ⟨hring, hfits, hlen⟩ := ih
    obtain ⟨hring', hfits', hlen'⟩ := hfits.apply c
    simp only [afterCalls, RingBuffer.afterCalls, List.map_append, List.foldl_append] at hring hring' hfits' hlen' ⊢
    refine ⟨?_, hfits', hlen'.trans hlen⟩
    rw [← hring]
    exact hring'

/-- In every run of calls, of any lengths, on a ring buffer of `N` slots the pointers stay in the storage; and
whatever is called next, with any length, no subtraction goes below zero, no addition wraps, every block copy stays in
the storage and in the caller's buffer, and there is at most one recursive call, with a smaller length. -/
theorem index_arithmetic_safe {N : Nat} (hN : 1 ≤ N) (hmax : N < 2 ^ 63) (calls : List Call) :
    ((afterCalls N calls).rdptr.toNat < N ∧ (afterCalls N calls).wrptr.toNat < N) ∧
    (∀ buflen, InOrder N buflen.toNat ((afterCalls N calls).read 0 buflen)) ∧
    (∀ buffer buflen, InOrder N buflen.toNat ((afterCalls N calls).write buffer 0 buflen)) ∧
    InOrder N 0 (afterCalls N calls).availableReadSize ∧ InOrder N 0 (afterCalls N calls).availableWriteSize := by
  obtain ⟨-, hfits, hlen⟩ := afterCalls_refines hN (Nat.lt_trans hmax (by decide)) calls
  have hrdptr := hfits.rdptr_lt
  have hwrptr := hfits.wrptr_lt
  have hread := (availableReadSize_spec hfits).2
  have hwrite := (availableWriteSize_spec hfits).2
  rw [hlen] at hrdptr hwrptr hread hwrite
  refine ⟨⟨hrdptr, hwrptr⟩, fun buflen => ?_, fun buffer buflen => ?_, hread, hwrite⟩
  · have h := (read_spec hfits buflen).2
    rwa [hlen] at h
  · have h := (write_spec hfits buffer buflen).2
    rwa [hlen] at h

/-- A buffer of four slots that is full, with the bytes on both sides of the end of the storage. -/
theorem index_arithmetic_safe_full :
    ((afterCalls 4 [.write (fun _ => 7) 3, .read 3, .write (fun _ => 8) 9]).rdptr = 3 ∧
      (afterCalls 4 [.write (fun _ => 7) 3, .read 3, .write (fun _ => 8) 9]).wrptr = 2) ∧
    recursiveCalls ((afterCalls 4 [.write (fun _ => 7) 3, .read 3, .write (fun _ => 8) 9]).read 0 9).events = [8] ∧
    InOrder 4 9 ((afterCalls 4 [.write (fun _ => 7) 3, .read 3, .write (fun _ => 8) 9]).read 0 9) :=
  ⟨by decide +kernel, by decide +kernel, (index_arithmetic_safe (by decide) (by decide) _).2.1 9⟩

end WordRing

end Cppio
