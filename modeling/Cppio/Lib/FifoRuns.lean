import Cppio.Lib.BoundedFifo
import Cppio.Lib.Transition

/-!
# Runs of a bounded queue

`BoundedFifo.machine` takes calls of a queue one after the other and shows their answers: blocks are pushed and
popped, and the two sizes are asked for.  In every run what was popped is the beginning of what was pushed, and what
is missing is still queued (`conserved_of_run`).
-/

namespace BoundedFifo

variable {α : Type} {cap : Nat}

inductive Op (α : Type) where
  | push (block : List α)
  | pop (k : Nat)
  | queued
  | free

/-- A call with its answer. -/
inductive Answer (α : Type) where
  | pushed (block : List α) (count : Nat)
  | popped (k count : Nat) (items : List α)
  | queued (n : Nat)
  | free (n : Nat)
deriving DecidableEq

def machine : Machine (BoundedFifo α cap) (Op α) (Answer α) where
  next q op :=
    match op with
    | .push block => some (q.push block, [.pushed block (min block.length q.room)])
    | .pop k => some (q.pop k, [.popped k (min k q.items.length) (q.items.take k)])
    | .queued => some (q, [.queued q.items.length])
    | .free => some (q, [.free q.room])

/-- The elements that were pushed, as far as there was room. -/
def pushed (tr : List (Answer α)) : List α :=
  tr.flatMap fun e =>
    match e with
    | .pushed block count => block.take count
    | _ => []

def popped (tr : List (Answer α)) : List α :=
  tr.flatMap fun e =>
    match e with
    | .popped _ _ items => items
    | _ => []

theorem pushed_append (tr es : List (Answer α)) : pushed (tr ++ es) = pushed tr ++ pushed es := List.flatMap_append

theorem popped_append (tr es : List (Answer α)) : popped (tr ++ es) = popped tr ++ popped es := List.flatMap_append

theorem conserved_of_run {tr : List (Answer α)} {q : BoundedFifo α cap} (hrun : machine.Run empty tr q) :
    q.Conserved (pushed tr) (popped tr) := by
  refine hrun.invariant (fun tr q => q.Conserved (pushed tr) (popped tr)) .empty fun tr q op q' es h _ hnext => ?_
  rw [pushed_append, popped_append]
  cases op with
  | push block =>
    cases hnext
    have hpush := h.push block
    rw [List.take_eq_take_min, Nat.min_comm] at hpush
    simpa [pushed, popped] using hpush
  | pop k =>
    cases hnext
    simpa [pushed, popped] using h.pop k
  | queued =>
    cases hnext
    simpa [pushed, popped] using h
  | free =>
    cases hnext
    simpa [pushed, popped] using h

end BoundedFifo
