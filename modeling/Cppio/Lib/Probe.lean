import Mathlib.Data.List.Basic

/-!
# Computations that read a memory

A `Probe` is a computation that reads cells of a memory, `n` from position `i` on at a time, and goes on with their
contents.  `run` carries it through on a memory and `examined` lists the positions it reads there.  What a probe does
depends on nothing else: on memories that agree at the examined positions it does the same (`run_congr`).
-/

inductive Probe (V α : Type) where
  | done (a : α)
  | load (i n : Nat) (k : List V → Probe V α)

namespace Probe

variable {V α : Type}

/-- The contents of `n` cells from `i` on. -/
def cells (memory : Nat → V) (i n : Nat) : List V := (List.range n).map fun j => memory (i + j)

def run (memory : Nat → V) : Probe V α → α
  | .done a => a
  | .load i n k => run memory (k (cells memory i n))

/-- The positions read, in order. -/
def examined (memory : Nat → V) : Probe V α → List Nat
  | .done _ => []
  | .load i n k => (List.range n).map (i + ·) ++ examined memory (k (cells memory i n))

variable {memory memory' : Nat → V}

theorem cells_congr {i n : Nat} (h : ∀ j ∈ (List.range n).map (i + ·), memory' j = memory j) :
    cells memory' i n = cells memory i n :=
  List.map_congr_left fun _ hj => h _ (List.mem_map_of_mem hj)

theorem run_congr (p : Probe V α) (h : ∀ i ∈ p.examined memory, memory' i = memory i) :
    p.run memory' = p.run memory := by
  induction p with
  | done a => rfl
  | load i n k ih =>
    have hcells : cells memory' i n = cells memory i n :=
      cells_congr fun j hj => h j (List.mem_append_left _ hj)
    rw [run, run, hcells]
    exact ih _ fun j hj => h j (List.mem_append_right _ hj)

end Probe
