import Mathlib.Data.List.Basic

/-!
# Bounded queues and list segments

`BoundedFifo α cap` is a first-in first-out queue of at most `cap` elements: `push` takes as many elements of a
block as there is room for, `pop` removes as many as asked for and present.  `Conserved` says that what was ever
pushed is what was popped followed by what is still queued; it is kept by both operations, so what was popped is at
all times a prefix of what was pushed.

The second part is about segments of a list of fixed length, `slice l i n` and `overwrite l i xs`: copies out of and
into a storage area.
-/

/-- A queue of at most `cap` elements. -/
structure BoundedFifo (α : Type) (cap : Nat) where
  items : List α
  bounded : items.length ≤ cap

namespace BoundedFifo

variable {α : Type} {cap : Nat}

@[ext] theorem ext {q q' : BoundedFifo α cap} (h : q.items = q'.items) : q = q' := by
  cases q; cases q'; cases h; rfl

def empty : BoundedFifo α cap := ⟨[], Nat.zero_le _⟩

/-- The free places. -/
def room (q : BoundedFifo α cap) : Nat := cap - q.items.length

/-- Append the elements of a block there is room for. -/
def push (q : BoundedFifo α cap) (block : List α) : BoundedFifo α cap where
  items := q.items ++ block.take q.room
  bounded := by
    have := q.bounded
    simp only [room, List.length_append, List.length_take]
    omega

/-- Remove up to `k` elements. -/
def pop (q : BoundedFifo α cap) (k : Nat) : BoundedFifo α cap where
  items := q.items.drop k
  bounded := by
    have := q.bounded
    simp only [List.length_drop]
    omega

/-- A full queue stays as it is. -/
theorem push_of_room_eq_zero {q : BoundedFifo α cap} (h : q.room = 0) (block : List α) : q.push block = q := by
  apply ext
  simp [push, h]

theorem pop_items_of_nil {q : BoundedFifo α cap} (h : q.items = []) (k : Nat) : (q.pop k).items = [] := by
  simp [pop, h]

/-- What was ever pushed is what was popped followed by what is queued. -/
def Conserved (q : BoundedFifo α cap) (pushed popped : List α) : Prop := pushed = popped ++ q.items

theorem Conserved.empty : Conserved (empty : BoundedFifo α cap) [] [] := rfl

theorem Conserved.push {q : BoundedFifo α cap} {pushed popped : List α} (h : q.Conserved pushed popped)
    (block : List α) : (q.push block).Conserved (pushed ++ block.take q.room) popped := by
  rw [Conserved] at h ⊢
  rw [h, List.append_assoc]
  rfl

theorem Conserved.pop {q : BoundedFifo α cap} {pushed popped : List α} (h : q.Conserved pushed popped)
    (k : Nat) : (q.pop k).Conserved pushed (popped ++ q.items.take k) := by
  rw [Conserved] at h ⊢
  rw [h, List.append_assoc]
  exact congrArg _ (List.take_append_drop k q.items).symm

theorem Conserved.isPrefix {q : BoundedFifo α cap} {pushed popped : List α} (h : q.Conserved pushed popped) :
    popped <+: pushed :=
  ⟨q.items, h.symm⟩

/-- An empty queue has given out everything. -/
theorem Conserved.drained {q : BoundedFifo α cap} {pushed popped : List α} (h : q.Conserved pushed popped)
    (hq : q.items = []) : popped = pushed := by
  rw [h, hq, List.append_nil]

end BoundedFifo

/-! ### Segments of a list -/

namespace Segment

variable {α : Type}

/-- `n` elements from position `i` on. -/
def slice (l : List α) (i n : Nat) : List α := (l.drop i).take n

/-- Put `xs` over the elements from position `i` on. -/
def overwrite (l : List α) (i : Nat) (xs : List α) : List α := l.take i ++ xs ++ l.drop (i + xs.length)

@[simp] theorem slice_zero (l : List α) (i : Nat) : slice l i 0 = [] := List.take_zero

theorem length_slice {l : List α} {i n : Nat} (h : i + n ≤ l.length) : (slice l i n).length = n := by
  simp only [slice, List.length_take, List.length_drop]
  omega

theorem length_overwrite {l xs : List α} {i : Nat} (h : i + xs.length ≤ l.length) :
    (overwrite l i xs).length = l.length := by
  simp only [overwrite, List.length_append, List.length_take, List.length_drop]
  omega

theorem slice_add (l : List α) (i m n : Nat) : slice l i (m + n) = slice l i m ++ slice l (i + m) n := by
  simp only [slice, List.take_add, List.drop_drop]

theorem take_slice (l : List α) (i m n : Nat) : (slice l i n).take m = slice l i (min m n) := by
  simp only [slice, List.take_take]

theorem drop_slice (l : List α) (i m n : Nat) : (slice l i n).drop m = slice l (i + m) (n - m) := by
  simp only [slice, List.drop_take, List.drop_drop]

/-- A copy does not touch the segments before it. -/
theorem slice_overwrite_before {l xs : List α} {i j n : Nat} (hj : j + n ≤ i) (hi : i ≤ l.length) :
    slice (overwrite l i xs) j n = slice l j n := by
  simp only [slice, overwrite, List.append_assoc]
  rw [List.drop_append_of_le_length (by simp; omega), List.take_append_of_le_length (by simp; omega),
    List.drop_take, List.take_take, Nat.min_eq_left (by omega)]

/-- A copy does not touch the segments after it. -/
theorem slice_overwrite_after {l xs : List α} {i j n : Nat} (hj : i + xs.length ≤ j) (hi : i ≤ l.length) :
    slice (overwrite l i xs) j n = slice l j n := by
  have hlen : (l.take i ++ xs).length = i + xs.length := by simp; omega
  simp only [slice, overwrite]
  rw [List.drop_append, hlen, List.drop_eq_nil_of_le (by omega), List.nil_append, List.drop_drop,
    show i + xs.length + (j - (i + xs.length)) = j by omega]

theorem slice_overwrite_self {l xs : List α} {i : Nat} (hi : i ≤ l.length) :
    slice (overwrite l i xs) i xs.length = xs := by
  have hlen : (l.take i).length = i := by simp; omega
  simp only [slice, overwrite, List.append_assoc]
  rw [List.drop_append, hlen, List.drop_eq_nil_of_le (by omega), Nat.sub_self, List.drop_zero, List.nil_append,
    List.take_left']
  rfl

/-- A copy behind a segment extends the segment. -/
theorem slice_overwrite_extend {l xs : List α} {i j : Nat} (hj : j ≤ i) (hi : i ≤ l.length) :
    slice (overwrite l i xs) j (i - j + xs.length) = slice l j (i - j) ++ xs := by
  rw [slice_add, slice_overwrite_before (by omega) hi, show j + (i - j) = i by omega, slice_overwrite_self hi]

end Segment
