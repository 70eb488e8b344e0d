import Cppio.Lib.Transition
import Mathlib.Data.List.Induction
import Mathlib.Logic.Function.Basic

/-!
# Threads, mutexes and condition variables

Any number of threads run one program over shared data.  A program gives, for every program point and every value
of the data, the next action of a thread there: a step on the data, locking or unlocking a mutex, waiting on a
condition variable (which releases the mutex and falls asleep in one step), or notifying one.  A notified thread is
awake but has to lock the mutex again by its own next action; `Label.wake` is a spurious wake-up and `Label.expire`
the end of a timed wait.

`Disciplined` is the static lock discipline of a program.  It gives mutual exclusion (`Disciplined.owner_iff`) and
locates the sleepers (`Disciplined.asleep_at`), and with them the rule for assertions at program points
(`Disciplined.assertion`): an assertion about the data and about what the thread did in its current call has to be
kept by the thread's own actions and by the actions of threads that share no mutex with it.
-/

namespace Monitor

/-- The next action of a thread; `k` is the program point after it. -/
inductive Action (μ κ P D E : Type) where
  | stop
  | run (d : D) (es : List E) (k : P)
  | lock (m : μ) (k : P)
  | unlock (m : μ) (es : List E) (k : P)
  | wait (c : κ) (m : μ) (k : P)
  | notifyAll (c : κ) (k : P)
  | notifyOne (c : κ) (k : P)

/-- The program point, the data and the events after an action on the data `d`. -/
def Action.after {μ κ P D E : Type} (d : D) : Action μ κ P D E → Option (P × D × List E)
  | .stop => none
  | .run d' es k => some (k, d', es)
  | .unlock _ es k => some (k, d, es)
  | .lock _ k | .wait _ _ k | .notifyAll _ k | .notifyOne _ k => some (k, d, [])

/-- A program: the points outside every call, the points where a call may begin, the action at every point, and
the point where a timed wait goes on when its time is over. -/
structure Program (μ κ P D E : Type) where
  isIdle : P → Bool
  entry : P → Bool
  code : P → D → Action μ κ P D E
  expire : P → Option P

structure State (τ μ κ P D : Type) where
  data : D
  owner : μ → Option τ
  asleep : List (τ × κ)
  pc : τ → P

/-- What an observer sees: the start of a call, and the events of the program. -/
inductive Obs (P E : Type) where
  | call (p : P)
  | event (e : E)
deriving DecidableEq

inductive Label (τ P : Type) where
  | invoke (t : τ) (p : P)
  | step (t : τ)
  | signal (t u : τ)
  | wake (t : τ)
  | expire (t : τ)

variable {τ μ κ P D E : Type} [DecidableEq τ] [DecidableEq μ] [DecidableEq κ]

/-- All threads idle at `p`, no mutex taken, nobody asleep. -/
def State.start (d : D) (p : P) : State τ μ κ P D :=
  { data := d, owner := fun _ => none, asleep := [], pc := fun _ => p }

def State.goto (s : State τ μ κ P D) (t : τ) (k : P) : State τ μ κ P D :=
  { s with pc := Function.update s.pc t k }

omit [DecidableEq μ] [DecidableEq κ] in
theorem State.goto_self (s : State τ μ κ P D) (t : τ) (k : P) : (s.goto t k).pc t = k :=
  Function.update_self ..

omit [DecidableEq μ] [DecidableEq κ] in
theorem State.goto_of_ne (s : State τ μ κ P D) {t u : τ} (h : u ≠ t) (k : P) : (s.goto t k).pc u = s.pc u :=
  Function.update_of_ne h ..

/-- Wake `t`, whatever it sleeps on. -/
def State.rouse (s : State τ μ κ P D) (t : τ) : State τ μ κ P D :=
  { s with asleep := s.asleep.filter fun p => p.1 ≠ t }

def State.perform (s : State τ μ κ P D) (t : τ) : Action μ κ P D E → Option (State τ μ κ P D × List (τ × Obs P E))
  | .stop => none
  | .run d es k => some ({ s.goto t k with data := d }, es.map fun e => (t, .event e))
  | .lock m k =>
    if s.owner m = none then some ({ s.goto t k with owner := Function.update s.owner m (some t) }, []) else none
  | .unlock m es k =>
    some ({ s.goto t k with owner := Function.update s.owner m none }, es.map fun e => (t, .event e))
  | .wait c m k =>
    some ({ s.goto t k with owner := Function.update s.owner m none, asleep := (t, c) :: s.asleep }, [])
  | .notifyAll c k => some ({ s.goto t k with asleep := s.asleep.filter fun p => p.2 ≠ c }, [])
  | .notifyOne c k => if ∀ p ∈ s.asleep, p.2 ≠ c then some (s.goto t k, []) else none

/-- The machine of a program.  A sleeping thread takes no step; `signal t u` is `t` notifying one sleeper `u`. -/
def Program.next (prog : Program μ κ P D E) (s : State τ μ κ P D) :
    Label τ P → Option (State τ μ κ P D × List (τ × Obs P E))
  | .invoke t p =>
    if prog.isIdle (s.pc t) = true ∧ prog.entry p = true then some (s.goto t p, [(t, .call p)]) else none
  | .step t => if ∀ p ∈ s.asleep, p.1 ≠ t then s.perform t (prog.code (s.pc t) s.data) else none
  | .signal t u =>
    match prog.code (s.pc t) s.data with
    | .notifyOne c k =>
      if (∀ p ∈ s.asleep, p.1 ≠ t) ∧ (u, c) ∈ s.asleep then some ((s.rouse u).goto t k, []) else none
    | _ => none
  | .wake t => some (s.rouse t, [])
  | .expire t => (prog.expire (s.pc t)).map fun k => ((s.rouse t).goto t k, [])

def Program.machine (prog : Program μ κ P D E) : Machine (State τ μ κ P D) (Label τ P) (τ × Obs P E) :=
  ⟨prog.next⟩

/-! ### What one step can do -/

/-- The steps of the machine of a program. -/
inductive Program.Move (prog : Program μ κ P D E) (s : State τ μ κ P D) :
    State τ μ κ P D → List (τ × Obs P E) → Prop
  | invoke {t p} : prog.isIdle (s.pc t) = true → prog.entry p = true → Move prog s (s.goto t p) [(t, .call p)]
  | act {t s' es} : (∀ p ∈ s.asleep, p.1 ≠ t) → s.perform t (prog.code (s.pc t) s.data) = some (s', es) →
      Move prog s s' es
  | signal {t u c k} : (∀ p ∈ s.asleep, p.1 ≠ t) → prog.code (s.pc t) s.data = .notifyOne c k →
      Move prog s ((s.rouse u).goto t k) []
  | wake {t} : Move prog s (s.rouse t) []
  | expire {t k} : prog.expire (s.pc t) = some k → Move prog s ((s.rouse t).goto t k) []

theorem Program.move_of_next {prog : Program μ κ P D E} {s s' : State τ μ κ P D} {l : Label τ P}
    {es : List (τ × Obs P E)} (h : prog.next s l = some (s', es)) : prog.Move s s' es := by
  cases l with
  | invoke t p =>
    simp only [Program.next] at h
    split at h
    · rename_i hp
      cases h
      exact .invoke hp.1 hp.2
    · cases h
  | step t =>
    simp only [Program.next] at h
    split at h
    · rename_i hawake
      exact .act hawake h
    · cases h
  | signal t u =>
    simp only [Program.next] at h
    split at h
    · rename_i c k hcode
      split at h
      · rename_i hawake
        cases h
        exact .signal hawake.1 hcode
      · cases h
    · cases h
  | wake t =>
    cases h
    exact .wake
  | expire t =>
    obtain ⟨k, hk, h⟩ := Option.map_eq_some_iff.1 h
    cases h
    exact .expire hk

/-- The action of a thread moves it to the next point, changes the data and emits its events, nothing else is
seen. -/
theorem State.perform_after {s s' : State τ μ κ P D} {t : τ} {a : Action μ κ P D E} {es : List (τ × Obs P E)}
    (h : s.perform t a = some (s', es)) : ∃ k es', a.after s.data = some (k, s'.data, es') ∧
      s'.pc = Function.update s.pc t k ∧ es = es'.map fun e => (t, .event e) := by
  cases a with
  | stop => cases h
  | run d es' k => cases h; exact ⟨k, es', rfl, rfl, rfl⟩
  | unlock m es' k => cases h; exact ⟨k, es', rfl, rfl, rfl⟩
  | wait c m k => cases h; exact ⟨k, [], rfl, rfl, rfl⟩
  | notifyAll c k => cases h; exact ⟨k, [], rfl, rfl, rfl⟩
  | lock m k =>
    simp only [State.perform] at h
    split at h <;> cases h
    exact ⟨k, [], rfl, rfl, rfl⟩
  | notifyOne c k =>
    simp only [State.perform] at h
    split at h <;> cases h
    exact ⟨k, [], rfl, rfl, rfl⟩

/-- A step leaves the data alone and shows nothing, or it begins a call, or it is the action of a thread. -/
theorem Program.data_cases {prog : Program μ κ P D E} {s s' : State τ μ κ P D} {l : Label τ P}
    {es : List (τ × Obs P E)} (h : prog.next s l = some (s', es)) :
    (s'.data = s.data ∧ es = []) ∨ (∃ t p, prog.entry p = true ∧ s'.data = s.data ∧ es = [(t, .call p)]) ∨
      ∃ t k es', (prog.code (s.pc t) s.data).after s.data = some (k, s'.data, es') ∧
        es = es'.map fun e => (t, .event e) := by
  have hmove := Program.move_of_next h
  cases hmove with
  | @invoke t p _ hentry => exact .inr (.inl ⟨t, p, hentry, rfl, rfl⟩)
  | @act t _ _ _ hact =>
    obtain ⟨k, es', hafter, -, hes⟩ := State.perform_after hact
    exact .inr (.inr ⟨t, k, es', hafter, hes⟩)
  | signal => exact .inl ⟨rfl, rfl⟩
  | wake => exact .inl ⟨rfl, rfl⟩
  | expire => exact .inl ⟨rfl, rfl⟩

/-- A step leaves the data alone and shows at most the start of a call, or it is the action of a thread. -/
theorem Program.act_cases {prog : Program μ κ P D E} {s s' : State τ μ κ P D} {l : Label τ P}
    {es : List (τ × Obs P E)} (h : prog.next s l = some (s', es)) :
    (s'.data = s.data ∧ (es = [] ∨ ∃ t p, es = [(t, .call p)])) ∨
      ∃ t es', (prog.code (s.pc t) s.data).after s.data = some (s'.pc t, s'.data, es') ∧
        es = es'.map fun e => (t, .event e) := by
  have hmove := Program.move_of_next h
  cases hmove with
  | @invoke t p _ _ => exact .inl ⟨rfl, .inr ⟨t, p, rfl⟩⟩
  | @act t _ _ _ hact =>
    obtain ⟨k, es', hafter, hpc, hes⟩ := State.perform_after hact
    exact .inr ⟨t, es', by rw [hpc, Function.update_self]; exact hafter, hes⟩
  | signal => exact .inl ⟨rfl, .inl rfl⟩
  | wake => exact .inl ⟨rfl, .inl rfl⟩
  | expire => exact .inl ⟨rfl, .inl rfl⟩

/-- An event is shown by an action of its thread. -/
theorem Program.act_of_event {prog : Program μ κ P D E} {s s' : State τ μ κ P D} {l : Label τ P}
    {es : List (τ × Obs P E)} (h : prog.next s l = some (s', es)) {t : τ} {e : E} (hmem : (t, .event e) ∈ es) :
    ∃ es', (prog.code (s.pc t) s.data).after s.data = some (s'.pc t, s'.data, es') ∧ e ∈ es' := by
  rcases Program.act_cases h with ⟨-, rfl | ⟨u, p, rfl⟩⟩ | ⟨u, es', hafter, rfl⟩
  · cases hmem
  · simp at hmem
  · obtain ⟨e', he', heq⟩ := List.mem_map.1 hmem
    cases heq
    exact ⟨es', hafter, he'⟩

/-- What a step is for one thread: a step of others, the start of a call, an action, or the end of a timed wait. -/
theorem Program.thread_cases {prog : Program μ κ P D E} {s s' : State τ μ κ P D} {l : Label τ P}
    {es : List (τ × Obs P E)} (h : prog.next s l = some (s', es)) (t : τ) :
    (s'.pc t = s.pc t ∧ ∀ x ∈ es, x.1 ≠ t) ∨
    (∃ p, l = .invoke t p ∧ prog.isIdle (s.pc t) = true ∧ prog.entry p = true ∧ s'.pc t = p ∧ es = [(t, .call p)]) ∨
    (∃ k es', (prog.code (s.pc t) s.data).after s.data = some (k, s'.data, es') ∧ s'.pc t = k ∧
      es = es'.map fun e => (t, .event e)) ∨
    ∃ k, prog.expire (s.pc t) = some k ∧ s'.pc t = k ∧ es = [] := by
  cases l with
  | invoke u p =>
    simp only [Program.next] at h
    split at h <;> cases h
    rename_i hp
    by_cases hu : t = u
    · subst hu
      exact .inr (.inl ⟨p, rfl, hp.1, hp.2, Function.update_self .., rfl⟩)
    · exact .inl ⟨Function.update_of_ne hu _ _, by simpa using Ne.symm hu⟩
  | step u =>
    simp only [Program.next] at h
    split at h
    · obtain ⟨k, es', hafter, hpc, rfl⟩ := State.perform_after h
      by_cases hu : t = u
      · subst hu
        exact .inr (.inr (.inl ⟨k, es', hafter, by rw [hpc, Function.update_self], rfl⟩))
      · exact .inl ⟨by rw [hpc, Function.update_of_ne hu], by simpa using fun _ _ => Ne.symm hu⟩
    · cases h
  | signal u v =>
    simp only [Program.next] at h
    split at h
    · rename_i c k hcode
      split at h <;> cases h
      by_cases hu : t = u
      · subst hu
        exact .inr (.inr (.inl ⟨k, [], by rw [hcode]; rfl, Function.update_self .., rfl⟩))
      · exact .inl ⟨Function.update_of_ne hu _ _, by simp⟩
    · cases h
  | wake u =>
    cases h
    exact .inl ⟨rfl, by simp⟩
  | expire u =>
    obtain ⟨k, hk, h⟩ := Option.map_eq_some_iff.1 h
    cases h
    by_cases hu : t = u
    · subst hu
      exact .inr (.inr (.inr ⟨k, hk, Function.update_self .., rfl⟩))
    · exact .inl ⟨Function.update_of_ne hu _ _, by simp⟩

/-- Only a step of its own moves a thread. -/
theorem Program.label_of_move {prog : Program μ κ P D E} {s s' : State τ μ κ P D} {l : Label τ P}
    {es : List (τ × Obs P E)} (h : prog.next s l = some (s', es)) {t : τ} (ht : s'.pc t ≠ s.pc t) :
    (∃ p, l = .invoke t p ∧ prog.isIdle (s.pc t) = true) ∨ l = .step t ∨
      (∃ u c k, l = .signal t u ∧ prog.code (s.pc t) s.data = .notifyOne c k) ∨
      (l = .expire t ∧ (prog.expire (s.pc t)).isSome) := by
  have hself : ∀ {u : τ} {k : P}, Function.update s.pc u k t ≠ s.pc t → u = t := by
    intro u k hne
    by_contra hut
    exact hne (Function.update_of_ne (Ne.symm hut) _ _)
  cases l with
  | invoke u p =>
    simp only [Program.next] at h
    split at h <;> cases h
    rename_i hp
    obtain rfl := hself ht
    exact .inl ⟨p, rfl, hp.1⟩
  | step u =>
    simp only [Program.next] at h
    split at h
    · obtain ⟨k, -, -, hpc, -⟩ := State.perform_after h
      rw [hpc] at ht
      obtain rfl := hself ht
      exact .inr (.inl rfl)
    · cases h
  | signal u v =>
    simp only [Program.next] at h
    split at h
    · rename_i c k hcode
      split at h <;> cases h
      obtain rfl := hself ht
      exact .inr (.inr (.inl ⟨v, c, k, rfl, hcode⟩))
    · cases h
  | wake u =>
    cases h
    exact absurd rfl ht
  | expire u =>
    obtain ⟨k, hk, h⟩ := Option.map_eq_some_iff.1 h
    cases h
    obtain rfl := hself ht
    exact .inr (.inr (.inr ⟨rfl, by rw [hk]; rfl⟩))

/-- The start of a call is seen only when a thread begins one, at an entry point. -/
theorem Program.invoke_of_call {prog : Program μ κ P D E} {s s' : State τ μ κ P D} {l : Label τ P}
    {es : List (τ × Obs P E)} (h : prog.next s l = some (s', es)) {t : τ} {p : P} (hmem : (t, .call p) ∈ es) :
    l = .invoke t p ∧ prog.entry p = true := by
  rcases Program.thread_cases h t with ⟨-, hne⟩ | ⟨q, rfl, -, hentry, -, rfl⟩ | ⟨k, es', -, -, rfl⟩ | ⟨k, -, -, rfl⟩
  · exact absurd rfl (hne _ hmem)
  · simp only [List.mem_singleton, Prod.mk.injEq, Obs.call.injEq, true_and] at hmem
    subst hmem
    exact ⟨rfl, hentry⟩
  · simp at hmem
  · cases hmem

/-- Calls begin at entry points. -/
theorem Program.entry_of_call {prog : Program μ κ P D E} {ok : State τ μ κ P D → Label τ P → Prop}
    {s₀ s : State τ μ κ P D} {tr : List (τ × Obs P E)} (hrun : prog.machine.RunWhere ok s₀ tr s) {t : τ} {p : P}
    (hmem : (t, .call p) ∈ tr) : prog.entry p = true := by
  obtain ⟨past, future, htr⟩ := List.append_of_mem hmem
  obtain ⟨_, _, _, _, es, es', -, -, hnext, -⟩ := hrun.step_of_event htr
  exact (Program.invoke_of_call hnext (List.mem_append_right es (List.mem_cons_self ..))).2

/-- A thread inside a call has begun it: `callOf p` is the entry point of the call that `p` is a point of. -/
theorem Program.call_mem {prog : Program μ κ P D E} {ok : State τ μ κ P D → Label τ P → Prop} {d₀ : D} {p₀ : P}
    {s : State τ μ κ P D} {tr : List (τ × Obs P E)} (callOf : P → Option P) (h₀ : callOf p₀ = none)
    (entry : ∀ p c, prog.entry p = true → callOf p = some c → c = p)
    (act : ∀ p d k d' es, (prog.code p d).after d = some (k, d', es) → callOf k = none ∨ callOf k = callOf p)
    (expire : ∀ p k, prog.expire p = some k → callOf k = callOf p)
    (hrun : prog.machine.RunWhere ok (.start d₀ p₀) tr s) :
    ∀ t c, callOf (s.pc t) = some c → (t, .call c) ∈ tr := by
  refine hrun.invariant (fun tr s => ∀ t c, callOf (s.pc t) = some c → (t, .call c) ∈ tr) ?_ ?_
  · intro t c h
    rw [show (State.start d₀ p₀ : State τ μ κ P D).pc t = p₀ from rfl, h₀] at h
    cases h
  · intro tr s l s' es hinv _ hnext t c ht
    rcases Program.thread_cases hnext t with
      ⟨hpc, -⟩ | ⟨p, -, -, hentry, hpc, rfl⟩ | ⟨k, es', hafter, hpc, -⟩ | ⟨k, hk, hpc, -⟩
    · rw [hpc] at ht
      exact List.mem_append_left _ (hinv t c ht)
    · rw [hpc] at ht
      rw [entry p c hentry ht]
      simp
    · rw [hpc] at ht
      rcases act _ _ _ _ _ hafter with hnone | hsame
      · rw [hnone] at ht
        cases ht
      · rw [hsame] at ht
        exact List.mem_append_left _ (hinv t c ht)
    · rw [hpc, expire _ _ hk] at ht
      exact List.mem_append_left _ (hinv t c ht)

/-! ### The lock discipline -/

/-- The mutexes held after an action, for those held before it. -/
def Action.held (h : μ → Prop) : Action μ κ P D E → μ → Prop
  | .lock m _, m' => h m' ∨ m' = m
  | .unlock m _ _, m' | .wait _ m _, m' => h m' ∧ m' ≠ m
  | _, m' => h m'

/-- A thread unlocks, and waits with, only a mutex it holds. -/
def Action.Legal (h : μ → Prop) : Action μ κ P D E → Prop
  | .unlock m _ _ | .wait _ m _ => h m
  | _ => True

/-- The static discipline of a program: `holds p m` says that a thread at `p` holds `m`, and `sleepsOn p` is the
condition variable a thread at `p` may be asleep on. -/
structure Program.Disciplined (prog : Program μ κ P D E) (holds : P → μ → Prop) (sleepsOn : P → Option κ) :
    Prop where
  idle : ∀ {p}, prog.isIdle p = true → (∀ m, ¬ holds p m) ∧ sleepsOn p = none
  entry : ∀ {p}, prog.entry p = true → ∀ m, ¬ holds p m
  code : ∀ {p d k d' es}, (prog.code p d).after d = some (k, d', es) →
    (prog.code p d).Legal (holds p) ∧ ∀ m, holds k m ↔ (prog.code p d).held (holds p) m
  wait : ∀ {p d c m k}, prog.code p d = .wait c m k → sleepsOn k = some c
  expire : ∀ {p k}, prog.expire p = some k → ∀ m, holds k m ↔ holds p m

section Discipline

variable {prog : Program μ κ P D E} {holds : P → μ → Prop} {sleepsOn : P → Option κ}

/-- Every mutex is owned by the thread whose program point holds it. -/
def MutexOk (holds : P → μ → Prop) (s : State τ μ κ P D) : Prop :=
  ∀ t m, s.owner m = some t ↔ holds (s.pc t) m

omit [DecidableEq μ] [DecidableEq κ] in
private theorem MutexOk.goto {s : State τ μ κ P D} (h : MutexOk holds s) {t : τ} {k : P}
    (hk : ∀ m, holds k m ↔ holds (s.pc t) m) : MutexOk holds (s.goto t k) := by
  intro u m
  show s.owner m = some u ↔ _
  rw [h u m]
  by_cases hu : u = t
  · subst hu
    simp [State.goto, hk]
  · simp [State.goto, Function.update_of_ne hu]

omit [DecidableEq τ] [DecidableEq μ] [DecidableEq κ] in
private theorem MutexOk.exclusive {s : State τ μ κ P D} (h : MutexOk holds s) {t u : τ} {m : μ}
    (ht : holds (s.pc t) m) (hu : holds (s.pc u) m) : t = u := by
  have h₁ := (h t m).2 ht
  have h₂ := (h u m).2 hu
  rw [h₁] at h₂
  exact Option.some.inj h₂

omit [DecidableEq κ] in
private theorem MutexOk.take {s : State τ μ κ P D} (h : MutexOk holds s) {t : τ} {m : μ} {k : P}
    (hfree : s.owner m = none) (hk : ∀ m', holds k m' ↔ holds (s.pc t) m' ∨ m' = m) :
    MutexOk holds { s.goto t k with owner := Function.update s.owner m (some t) } := by
  intro u m'
  by_cases hm : m' = m <;> by_cases hu : u = t
  · subst hm hu
    simp [State.goto, hk]
  · subst hm
    have hfree' := h u m'
    simp only [hfree, reduceCtorEq, false_iff] at hfree'
    simp [State.goto, Function.update_of_ne hu, hfree', Ne.symm hu]
  · subst hu
    simp [State.goto, hk, hm, h u m']
  · simp [State.goto, Function.update_of_ne hm, Function.update_of_ne hu, h u m']

omit [DecidableEq κ] in
private theorem MutexOk.release {s : State τ μ κ P D} (h : MutexOk holds s) {t : τ} {m : μ} {k : P}
    (ht : holds (s.pc t) m) (hk : ∀ m', holds k m' ↔ holds (s.pc t) m' ∧ m' ≠ m) :
    MutexOk holds { s.goto t k with owner := Function.update s.owner m none } := by
  intro u m'
  by_cases hm : m' = m <;> by_cases hu : u = t
  · subst hm hu
    simp [State.goto, hk]
  · subst hm
    have hnot : ¬ holds (s.pc u) m' := fun hum => hu (h.exclusive hum ht)
    simp [State.goto, Function.update_of_ne hu, hnot]
  · subst hu
    simp [State.goto, hk, hm, h u m']
  · simp [State.goto, Function.update_of_ne hm, Function.update_of_ne hu, h u m']

private theorem MutexOk.move (hd : prog.Disciplined holds sleepsOn) {s s' : State τ μ κ P D}
    {es : List (τ × Obs P E)} (h : MutexOk holds s) (hs : prog.Move s s' es) : MutexOk holds s' := by
  cases hs with
  | invoke hidle hentry =>
    exact h.goto fun m => ⟨fun hm => absurd hm (hd.entry hentry m), fun hm => absurd hm ((hd.idle hidle).1 m)⟩
  | @act t _ _ _ hact =>
    obtain ⟨k, es', hafter, -, -⟩ := State.perform_after hact
    obtain ⟨hlegal, hheld⟩ := hd.code hafter
    generalize prog.code (s.pc t) s.data = a at hact hafter hlegal hheld
    cases a with
    | stop => cases hact
    | run d es k => cases hact; cases hafter; exact h.goto hheld
    | notifyAll c k => cases hact; cases hafter; exact h.goto hheld
    | unlock m es k => cases hact; cases hafter; exact h.release hlegal hheld
    | wait c m k => cases hact; cases hafter; exact h.release hlegal hheld
    | lock m k =>
      simp only [State.perform] at hact
      split at hact
      · rename_i hfree
        cases hact
        cases hafter
        exact h.take hfree hheld
      · cases hact
    | notifyOne c k =>
      simp only [State.perform] at hact
      split at hact <;> cases hact
      cases hafter
      exact h.goto hheld
  | @signal t u c k _ hcode =>
    have hheld := (hd.code (p := s.pc t) (d := s.data) (by rw [hcode]; rfl)).2
    rw [hcode] at hheld
    exact MutexOk.goto (s := s.rouse u) h hheld
  | wake => exact h
  | @expire t k hk => exact MutexOk.goto (s := s.rouse t) h (hd.expire hk)

variable {ok : State τ μ κ P D → Label τ P → Prop} {d₀ : D} {p₀ : P} {s : State τ μ κ P D}
  {tr : List (τ × Obs P E)}

/-- Mutual exclusion: in every run a mutex is owned by exactly the threads whose program point holds it. -/
theorem Program.Disciplined.owner_iff (hd : prog.Disciplined holds sleepsOn) (hp₀ : prog.isIdle p₀ = true)
    (hrun : prog.machine.RunWhere ok (.start d₀ p₀) tr s) : ∀ t m, s.owner m = some t ↔ holds (s.pc t) m := by
  refine hrun.invariant (fun _ s => MutexOk holds s) ?_ fun _ _ _ _ _ h _ hs =>
    h.move hd (Program.move_of_next hs)
  intro t m
  simpa [State.start] using (hd.idle hp₀).1 m

/-- Two threads do not hold one mutex. -/
theorem Program.Disciplined.exclusive (hd : prog.Disciplined holds sleepsOn) (hp₀ : prog.isIdle p₀ = true)
    (hrun : prog.machine.RunWhere ok (.start d₀ p₀) tr s) {t u : τ} {m : μ} (ht : holds (s.pc t) m)
    (hu : holds (s.pc u) m) : t = u :=
  MutexOk.exclusive (hd.owner_iff hp₀ hrun) ht hu

/-! ### Sleepers -/

omit [DecidableEq μ] [DecidableEq κ] in
private theorem not_mem_rouse (s : State τ μ κ P D) (t : τ) (c : κ) : (t, c) ∉ (s.rouse t).asleep := by
  simp [State.rouse]

omit [DecidableEq μ] [DecidableEq κ] in
private theorem mem_of_mem_rouse {s : State τ μ κ P D} {t u : τ} {c : κ} (h : (u, c) ∈ (s.rouse t).asleep) :
    (u, c) ∈ s.asleep :=
  (List.mem_filter.1 h).1

/-- Every sleeper is at a program point of its condition variable. -/
def SleepersOk (sleepsOn : P → Option κ) (s : State τ μ κ P D) : Prop :=
  ∀ t c, (t, c) ∈ s.asleep → sleepsOn (s.pc t) = some c

omit [DecidableEq μ] [DecidableEq κ] in
private theorem SleepersOk.goto {s s' : State τ μ κ P D} (h : SleepersOk sleepsOn s) {t : τ} {k : P}
    (hpc : s'.pc = Function.update s.pc t k) (hsub : ∀ u c, (u, c) ∈ s'.asleep → (u, c) ∈ s.asleep)
    (ht : ∀ c, (t, c) ∉ s'.asleep) : SleepersOk sleepsOn s' := by
  intro u c hu
  have hne : u ≠ t := by
    rintro rfl
    exact ht c hu
  rw [hpc, Function.update_of_ne hne]
  exact h u c (hsub u c hu)

private theorem SleepersOk.move (hd : prog.Disciplined holds sleepsOn) {s s' : State τ μ κ P D}
    {es : List (τ × Obs P E)} (h : SleepersOk sleepsOn s) (hs : prog.Move s s' es) : SleepersOk sleepsOn s' := by
  cases hs with
  | invoke hidle _ =>
    refine h.goto rfl (fun _ _ hu => hu) fun c hc => ?_
    have hc' := h _ c hc
    rw [(hd.idle hidle).2] at hc'
    cases hc'
  | @act t _ _ hawake hact =>
    have hnot : ∀ c, (t, c) ∉ s.asleep := fun c hc => hawake _ hc rfl
    generalize ha : prog.code (s.pc t) s.data = a at hact
    cases a with
    | stop => cases hact
    | run d es k => cases hact; exact h.goto rfl (fun _ _ hu => hu) hnot
    | unlock m es k => cases hact; exact h.goto rfl (fun _ _ hu => hu) hnot
    | notifyAll c k =>
      cases hact
      exact h.goto rfl (fun _ _ hu => (List.mem_filter.1 hu).1) fun c' hc' => hnot c' (List.mem_filter.1 hc').1
    | wait c m k =>
      cases hact
      intro u c' hu
      rcases List.mem_cons.1 hu with hu' | hu'
      · cases hu'
        simpa [State.goto] using hd.wait ha
      · have hne : u ≠ t := by
          rintro rfl
          exact hnot c' hu'
        show sleepsOn (Function.update s.pc t k u) = some c'
        rw [Function.update_of_ne hne]
        exact h u c' hu'
    | lock m k =>
      simp only [State.perform] at hact
      split at hact <;> cases hact
      exact h.goto rfl (fun _ _ hu => hu) hnot
    | notifyOne c k =>
      simp only [State.perform] at hact
      split at hact <;> cases hact
      exact h.goto rfl (fun _ _ hu => hu) hnot
  | @signal t u c k hawake _ =>
    exact h.goto rfl (fun _ _ hu => mem_of_mem_rouse hu) fun c' hc' => hawake _ (mem_of_mem_rouse hc') rfl
  | wake => exact fun u c hu => h u c (mem_of_mem_rouse hu)
  | expire hk => exact h.goto rfl (fun _ _ hu => mem_of_mem_rouse hu) (not_mem_rouse s _)

/-- A thread asleep on a condition variable is at one of its program points. -/
theorem Program.Disciplined.asleep_at (hd : prog.Disciplined holds sleepsOn)
    (hrun : prog.machine.RunWhere ok (.start d₀ p₀) tr s) {t : τ} {c : κ} (h : (t, c) ∈ s.asleep) :
    sleepsOn (s.pc t) = some c := by
  refine hrun.invariant (fun _ s => SleepersOk sleepsOn s) ?_ (fun _ _ _ _ _ h _ hs =>
    h.move hd (Program.move_of_next hs)) t c h
  intro t c h
  cases h

/-- A thread is asleep after a step when it was asleep before and has not moved, or when the step is its wait. -/
theorem Program.Disciplined.asleep_cases (hd : prog.Disciplined holds sleepsOn)
    (hrun : prog.machine.RunWhere ok (.start d₀ p₀) tr s) {s' : State τ μ κ P D} {l : Label τ P}
    {es : List (τ × Obs P E)} (hnext : prog.next s l = some (s', es)) {u : τ} {c : κ} (h : (u, c) ∈ s'.asleep) :
    ((u, c) ∈ s.asleep ∧ s'.pc u = s.pc u) ∨ ∃ m, prog.code (s.pc u) s.data = .wait c m (s'.pc u) := by
  have hstays : ∀ {t k}, (u, c) ∈ s.asleep → (∀ c', (t, c') ∉ s.asleep) ∨ u ≠ t →
      (u, c) ∈ s.asleep ∧ Function.update s.pc t k u = s.pc u := by
    intro t k hmem hor
    refine ⟨hmem, Function.update_of_ne ?_ _ _⟩
    rcases hor with hnot | hne
    · rintro rfl
      exact hnot c hmem
    · exact hne
  cases Program.move_of_next hnext with
  | @invoke t p hidle _ =>
    refine .inl (hstays h (.inl fun c' hc' => ?_))
    have hc' := hd.asleep_at hrun hc'
    rw [(hd.idle hidle).2] at hc'
    cases hc'
  | @act t _ _ hawake hact =>
    have hnot : ∀ c', (t, c') ∉ s.asleep := fun c' hc' => hawake _ hc' rfl
    generalize ha : prog.code (s.pc t) s.data = a at hact
    cases a with
    | stop => cases hact
    | run d es k => cases hact; exact .inl (hstays h (.inl hnot))
    | unlock m es k => cases hact; exact .inl (hstays h (.inl hnot))
    | notifyAll c' k => cases hact; exact .inl (hstays (List.mem_filter.1 h).1 (.inl hnot))
    | wait c' m k =>
      cases hact
      rcases List.mem_cons.1 h with hu | hu
      · cases hu
        exact .inr ⟨m, by rw [ha]; exact congrArg _ (Function.update_self u k s.pc).symm⟩
      · exact .inl (hstays hu (.inl hnot))
    | lock m k =>
      simp only [State.perform] at hact
      split at hact <;> cases hact
      exact .inl (hstays h (.inl hnot))
    | notifyOne c' k =>
      simp only [State.perform] at hact
      split at hact <;> cases hact
      exact .inl (hstays h (.inl hnot))
  | @signal t v c' k hawake _ =>
    exact .inl (hstays (mem_of_mem_rouse h) (.inl fun c'' hc'' => hawake _ hc'' rfl))
  | wake => exact .inl ⟨mem_of_mem_rouse h, rfl⟩
  | @expire t k _ =>
    refine .inl (hstays (mem_of_mem_rouse h) (.inr ?_))
    rintro rfl
    exact not_mem_rouse s u c h

/-! ### Assertions at program points -/

/-- The events of `t` since the start of its last call. -/
def own (t : τ) (tr : List (τ × Obs P E)) : List E :=
  tr.foldl (fun h x => if x.1 = t then match x.2 with | .call _ => [] | .event e => h ++ [e] else h) []

@[simp] theorem own_nil (t : τ) : own t ([] : List (τ × Obs P E)) = [] := rfl

@[simp] theorem own_call (t : τ) (p : P) : own t (tr ++ [(t, .call p)]) = [] := by
  simp [own]

@[simp] theorem own_event (t : τ) (e : E) : own t (tr ++ [(t, .event e)]) = own t tr ++ [e] := by
  simp [own]

theorem own_snoc_of_ne {t : τ} {x : τ × Obs P E} (h : x.1 ≠ t) : own t (tr ++ [x]) = own t tr := by
  simp [own, h]

/-- Events of other threads do not matter. -/
theorem own_append_of_ne {t : τ} {tr' : List (τ × Obs P E)} (h : ∀ x ∈ tr', x.1 ≠ t) :
    own t (tr ++ tr') = own t tr := by
  induction tr' using List.reverseRecOn with
  | nil => simp
  | append_singleton tr' x ih =>
    rw [← List.append_assoc, own_snoc_of_ne (h x (by simp))]
    exact ih fun y hy => h y (by simp [hy])

@[simp] theorem own_events (t : τ) (es : List E) :
    own t (tr ++ es.map fun e => ((t, .event e) : τ × Obs P E)) = own t tr ++ es := by
  induction es using List.reverseRecOn with
  | nil => simp
  | append_singleton es e ih => simp [← List.append_assoc, ih]

/-- The events of a call were seen. -/
theorem mem_of_own {t : τ} {e : E} (h : e ∈ own t tr) : (t, .event e) ∈ tr := by
  induction tr using List.reverseRecOn with
  | nil => cases h
  | append_singleton tr x ih =>
    obtain ⟨u, o⟩ := x
    by_cases hu : u = t
    · subst hu
      cases o with
      | call p =>
        rw [own_call] at h
        cases h
      | event e' =>
        rw [own_event] at h
        rcases List.mem_append.1 h with h | h
        · exact List.mem_append_left _ (ih h)
        · rw [List.mem_singleton.1 h]
          simp
    · rw [own_snoc_of_ne hu] at h
      exact List.mem_append_left _ (ih h)

/-- Relabel the events of a program. -/
def Obs.map {E' : Type} (f : E → E') : Obs P E → Obs P E'
  | .call p => .call p
  | .event e => .event (f e)

theorem own_append_map {E' : Type} {f : E → E'} {t : τ} {tr' : List (τ × Obs P E')}
    (h : own t tr' = (own t tr).map f) (es : List (τ × Obs P E)) :
    own t (tr' ++ es.map fun x => (x.1, x.2.map f)) = (own t (tr ++ es)).map f := by
  induction es using List.reverseRecOn with
  | nil => simpa using h
  | append_singleton es x ih =>
    obtain ⟨u, o⟩ := x
    rw [List.map_append, List.map_singleton, ← List.append_assoc, ← List.append_assoc]
    by_cases hu : u = t
    · subst hu
      cases o with
      | call p =>
        simp only [Obs.map]
        rw [own_call, own_call, List.map_nil]
      | event e =>
        simp only [Obs.map] at ih ⊢
        rw [own_event, own_event, ih, List.map_append, List.map_singleton]
    · rw [own_snoc_of_ne hu, own_snoc_of_ne hu]
      exact ih

/-- The rule for assertions at program points.  `A p h d` is about the data `d` and the events `h` of the current
call; it has to be kept by the actions of the thread itself (`act`, `expire`) and, at the points that share no
mutex with the acting thread, by the actions of others (`frame`). -/
theorem Program.Disciplined.assertion (hd : prog.Disciplined holds sleepsOn) (hp₀ : prog.isIdle p₀ = true)
    {A : P → List E → D → Prop} (h₀ : A p₀ [] d₀)
    (entry : ∀ p q h d, prog.isIdle p = true → prog.entry q = true → A p h d → A q [] d)
    (act : ∀ p h d k d' es, (prog.code p d).after d = some (k, d', es) → A p h d → A k (h ++ es) d')
    (expire : ∀ p h d k, prog.expire p = some k → A p h d → A k h d)
    (frame : ∀ p h d k d' es, (prog.code p d).after d = some (k, d', es) → A p h d →
      ∀ q h', (∀ m, holds p m → ¬ holds q m) → A q h' d → A q h' d')
    (hrun : prog.machine.RunWhere ok (.start d₀ p₀) tr s) : ∀ t, A (s.pc t) (own t tr) s.data := by
  refine (hrun.invariant (fun tr s => MutexOk holds s ∧ ∀ t, A (s.pc t) (own t tr) s.data) ?_ ?_).2
  · refine ⟨fun t m => ?_, fun _ => h₀⟩
    simpa [State.start] using (hd.idle hp₀).1 m
  · rintro tr s l s' es ⟨hm, hA⟩ - hnext
    have hmove := Program.move_of_next hnext
    refine ⟨hm.move hd hmove, fun u => ?_⟩
    cases hmove with
    | @invoke t p hidle hentry =>
      by_cases hu : u = t
      · subst hu
        simpa [State.goto] using entry _ p _ _ hidle hentry (hA u)
      · rw [own_append_of_ne (by simpa using Ne.symm hu)]
        simpa [State.goto, Function.update_of_ne hu] using hA u
    | @act t _ _ hawake hact =>
      obtain ⟨k, es', hafter, hpc, rfl⟩ := State.perform_after hact
      rw [hpc]
      by_cases hu : u = t
      · subst hu
        simpa using act _ _ _ _ _ _ hafter (hA u)
      · rw [Function.update_of_ne hu, own_append_of_ne (by simpa using fun _ _ => Ne.symm hu)]
        exact frame _ _ _ _ _ _ hafter (hA t) _ _ (fun m ht hum => hu (hm.exclusive hum ht)) (hA u)
    | @signal t v c k hawake hcode =>
      rw [List.append_nil]
      by_cases hu : u = t
      · subst hu
        have hafter : (prog.code (s.pc u) s.data).after s.data = some (k, s.data, []) := by rw [hcode]; rfl
        simpa [State.goto, State.rouse] using act _ _ _ _ _ _ hafter (hA u)
      · simpa [State.goto, State.rouse, Function.update_of_ne hu] using hA u
    | wake => simpa [State.rouse] using hA u
    | @expire t k hk =>
      rw [List.append_nil]
      by_cases hu : u = t
      · subst hu
        simpa [State.goto, State.rouse] using expire _ _ _ _ hk (hA u)
      · simpa [State.goto, State.rouse, Function.update_of_ne hu] using hA u

end Discipline

end Monitor
