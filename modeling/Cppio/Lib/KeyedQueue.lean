import Mathlib.Data.List.Basic

/-!
# A list of entries as a queue for every key

The entries of a key are a queue of their own: an entry is added at the end of the list, and the oldest entry of a key
is the first one with that key.  `queue` reads off the queue of a key; adding pushes to it (`queue_append`) and
erasing the first entry pops from it (`queue_eraseP`), and both leave the other queues alone.
-/

namespace KeyedQueue

variable {κ α : Type} [DecidableEq κ]

/-- The values of a key, in order. -/
def queue (entries : List (κ × α)) (k : κ) : List α :=
  entries.filterMap fun entry => if entry.1 = k then some entry.2 else none

theorem mem_queue {entries : List (κ × α)} {k : κ} {a : α} : a ∈ queue entries k ↔ (k, a) ∈ entries := by
  rw [queue, List.mem_filterMap]
  constructor
  · rintro ⟨⟨k', a'⟩, hmem, h⟩
    rw [Option.ite_none_right_eq_some] at h
    obtain ⟨rfl, ha⟩ := h
    exact Option.some.inj ha ▸ hmem
  · intro hmem
    exact ⟨(k, a), hmem, if_pos rfl⟩

theorem queue_append (entries : List (κ × α)) (k k' : κ) (a : α) :
    queue (entries ++ [(k', a)]) k = if k' = k then queue entries k ++ [a] else queue entries k := by
  rw [queue, List.filterMap_append]
  by_cases h : k' = k
  · simp [h, queue]
  · simp [h, queue]

theorem queue_eraseP (entries : List (κ × α)) (k k' : κ) : queue (entries.eraseP fun entry => entry.1 = k') k =
    if k' = k then (queue entries k).tail else queue entries k := by
  induction entries with
  | nil => simp [queue]
  | cons entry entries ih =>
    by_cases hfirst : entry.1 = k'
    · have herase : (entry :: entries).eraseP (fun entry => entry.1 = k') = entries := by simp [hfirst]
      rw [herase]
      by_cases h : k' = k
      · simp [queue, hfirst, h]
      · simp [queue, hfirst, h]
    · have herase : (entry :: entries).eraseP (fun entry => entry.1 = k') =
          entry :: entries.eraseP fun entry => entry.1 = k' := by simp [hfirst]
      rw [herase]
      by_cases h : k' = k
      · -- the queue is that of the entries behind
        subst h
        simpa [queue, hfirst] using ih
      · rw [if_neg h] at ih ⊢
        simp only [queue, List.filterMap_cons] at ih ⊢
        rw [ih]

theorem length_queue (entries : List (κ × α)) (k : κ) :
    (queue entries k).length = (entries.map Prod.fst).count k := by
  induction entries with
  | nil => rfl
  | cons entry entries ih =>
    rw [queue] at ih ⊢
    rw [List.map_cons, List.count_cons, ← ih]
    by_cases h : entry.1 = k
    · simp [h]
    · simp [h]

end KeyedQueue
