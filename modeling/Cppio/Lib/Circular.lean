import Mathlib.Data.List.Basic

/-!
# Positions on a ring

Positions `0, …, n - 1` on a ring of `n` slots.  `gap n i j` is the number of slots from `i` on to `j` going round
the ring, `slot n i k` the slot `k` places after `i`; for a fixed `i` the two are inverse to each other.
`Between n i j x` says that `x` is one of the slots from `i` on to the one before `j`, and `window data n i d` are
the contents of `d` slots from `i` on.

A ring with a read position `r` and a write position `w` holds the window of length `gap n r w` at `r`.  Moving `r`
forward takes from the front of the window (`gap_slot_left`, `window_add`), moving `w` forward adds at its end
(`gap_slot_right`), and a store outside `Between n r w` leaves it as it is (`window_update`).
-/

namespace Circular

variable {n i j k l x : Nat}

/-- The number of slots from `i` on to `j`, going round. -/
def gap (n i j : Nat) : Nat := if i ≤ j then j - i else n - i + j

/-- The slot `k` places after `i`. -/
def slot (n i k : Nat) : Nat := if i + k < n then i + k else i + k - n

/-- The slots from `i` on to the one before `j`. -/
def Between (n i j x : Nat) : Prop := x < n ∧ gap n i x < gap n i j

instance : Decidable (Between n i j x) := inferInstanceAs (Decidable (_ ∧ _))

theorem gap_lt (hi : i < n) (hj : j < n) : gap n i j < n := by
  unfold gap
  split <;> omega

theorem slot_lt (hi : i < n) (hk : k < n) : slot n i k < n := by
  unfold slot
  split <;> omega

theorem gap_slot (hi : i < n) (hk : k < n) : gap n i (slot n i k) = k := by
  unfold gap slot
  split_ifs <;> omega

theorem slot_gap (hi : i < n) (hj : j < n) : slot n i (gap n i j) = j := by
  unfold gap slot
  split_ifs <;> omega

theorem slot_slot (hi : i < n) (hkl : k + l ≤ n) : slot n (slot n i k) l = slot n i (k + l) := by
  unfold slot
  split_ifs <;> omega

/-- Moving the first position forward. -/
theorem gap_slot_left (hi : i < n) (hj : j < n) (hk : k ≤ gap n i j) :
    gap n (slot n i k) j = gap n i j - k := by
  unfold gap at *
  unfold slot
  split_ifs at * <;> omega

/-- Moving the second position forward, short of the first one. -/
theorem gap_slot_right (hi : i < n) (hj : j < n) (hk : gap n i j + k < n) :
    gap n i (slot n j k) = gap n i j + k := by
  unfold gap at *
  unfold slot
  split_ifs at * <;> omega

theorem between_slot (hi : i < n) (hj : j < n) (hk : k < gap n i j) : Between n i j (slot n i k) := by
  have hlt := Nat.lt_trans hk (gap_lt hi hj)
  refine ⟨slot_lt hi hlt, ?_⟩
  rwa [gap_slot hi hlt]

theorem not_between_slot (hi : i < n) (hj : j < n) (hk : gap n i j + k < n) : ¬ Between n i j (slot n j k) := by
  rintro ⟨-, hlt⟩
  rw [gap_slot_right hi hj hk] at hlt
  omega

/-! ### Contents -/

variable {α : Type}

/-- The contents of `d` slots from `i` on. -/
def window (data : Nat → α) (n i d : Nat) : List α := (List.range d).map fun k => data (slot n i k)

@[simp] theorem window_zero (data : Nat → α) (n i : Nat) : window data n i 0 = [] := rfl

@[simp] theorem length_window (data : Nat → α) (n i d : Nat) : (window data n i d).length = d := by
  simp [window]

theorem window_add (data : Nat → α) {d e : Nat} (hi : i < n) (hde : d + e ≤ n) :
    window data n i (d + e) = window data n i d ++ window data n (slot n i d) e := by
  simp only [window, List.range_add, List.map_append, List.map_map, List.append_cancel_left_eq]
  apply List.map_congr_left
  intro k hk
  have hlt := List.mem_range.1 hk
  simp only [Function.comp]
  rw [slot_slot hi (by omega)]

theorem window_congr {data data' : Nat → α} (hi : i < n) (hj : j < n)
    (h : ∀ x, Between n i j x → data' x = data x) :
    window data' n i (gap n i j) = window data n i (gap n i j) := by
  apply List.map_congr_left
  intro k hk
  exact h _ (between_slot hi hj (List.mem_range.1 hk))

/-- A store outside the window leaves it as it is. -/
theorem window_update (data : Nat → α) (hi : i < n) (hj : j < n) (hx : ¬ Between n i j x) (a : α) :
    window (Function.update data x a) n i (gap n i j) = window data n i (gap n i j) := by
  refine window_congr hi hj fun y hy => Function.update_of_ne ?_ _ _
  rintro rfl
  exact hx hy

/-- What a window holds that does not go round. -/
theorem window_eq_of_forall {data : Nat → α} {d : Nat} {xs : List α} (hid : i + d ≤ n) (hd : d ≤ xs.length)
    (h : ∀ k (hk : k < xs.length), k < d → data (i + k) = xs[k]) : window data n i d = xs.take d := by
  refine List.ext_getElem (by simp [hd]) fun k hk hk' => ?_
  simp only [length_window] at hk
  simp only [window, List.getElem_map, List.getElem_range, List.getElem_take]
  rw [slot, if_pos (by omega)]
  exact h k (by omega) hk

end Circular
