import Mathlib.Data.List.Basic

/-!
# Computations that record what they do

A `Traced E α` is a value together with the events recorded on the way to it.  The events of a computation that is put
together with `bind` are those of its parts, in order (`events_bind`), so a property of all events is shown part by
part (`all_bind`).
-/

structure Traced (E α : Type) where
  value : α
  events : List E

namespace Traced

variable {E α β : Type}

instance : Monad (Traced E) where
  pure a := ⟨a, []⟩
  bind x f := ⟨(f x.value).value, x.events ++ (f x.value).events⟩

def record (e : E) : Traced E Unit := ⟨(), [e]⟩

@[simp] theorem value_pure (a : α) : (pure a : Traced E α).value = a := rfl

@[simp] theorem events_pure (a : α) : (pure a : Traced E α).events = [] := rfl

@[simp] theorem value_bind (x : Traced E α) (f : α → Traced E β) : (x >>= f).value = (f x.value).value := rfl

@[simp] theorem events_bind (x : Traced E α) (f : α → Traced E β) :
    (x >>= f).events = x.events ++ (f x.value).events := rfl

@[simp] theorem events_record (e : E) : (record e).events = [e] := rfl

/-- All recorded events satisfy `P`. -/
def All (P : E → Prop) (x : Traced E α) : Prop := ∀ e ∈ x.events, P e

variable {P : E → Prop}

@[simp] theorem all_pure (a : α) : All P (pure a) ↔ True := by
  simp [All]

@[simp] theorem all_record (e : E) : All P (record e) ↔ P e := by
  simp [All]

@[simp] theorem all_bind (x : Traced E α) (f : α → Traced E β) : All P (x >>= f) ↔ All P x ∧ All P (f x.value) :=
  List.forall_mem_append

end Traced
