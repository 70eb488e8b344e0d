import Cppio.Lib.Monitor

/-!
# Progress

Rules about runs that have to come to an end.  A schedule is no longer than a potential that its steps lower, but for
the steps of one kind, which may raise it (`Machine.length_le_of_potential`), and it can be continued to an end
(`Machine.exists_end`).  A thread that sleeps on a condition variable has its reason, or is about to be notified
(`Disciplined.noticed`).  In a state where no thread of a monitor can act, every thread is asleep, or has nothing to
do, or waits for a mutex that another one owns (`Stuck.cases`).
-/

namespace Machine

variable {State Label Event : Type} {M : Machine State Label Event} {s₀ s : State} {tr : List Event}

private theorem exec_snoc {ls : List Label} {l : Label} (h : M.exec s₀ (ls ++ [l]) = some (s, tr)) :
    ∃ s₁ tr₁ es, M.exec s₀ ls = some (s₁, tr₁) ∧ M.next s₁ l = some (s, es) ∧ tr = tr₁ ++ es := by
  induction ls generalizing s₀ tr with
  | nil =>
    simp only [List.nil_append, exec] at h
    split at h
    · cases h
    · rename_i s' es hs
      cases h
      exact ⟨s₀, [], es, rfl, hs, by simp⟩
  | cons l' ls ih =>
    simp only [List.cons_append, exec] at h
    split at h
    · cases h
    · rename_i s' es' hs
      obtain ⟨⟨s'', tr'⟩, hexec, heq⟩ := Option.map_eq_some_iff.1 h
      cases heq
      obtain ⟨s₁, tr₁, es, hexec', hnext, rfl⟩ := ih hexec
      refine ⟨s₁, es' ++ tr₁, es, ?_, hnext, (List.append_assoc ..).symm⟩
      simp only [exec, hs, hexec', Option.map_some]

/-- A schedule is no longer than the potential at its start, and what its steps of the kind `raises` add to it. -/
theorem length_le_of_potential {raises : Label → Bool} {c : Nat} (Φ : List Event → State → Nat)
    (hstep : ∀ tr s l s' es, M.Run s₀ tr s → M.next s l = some (s', es) →
      Φ (tr ++ es) s' + 1 ≤ Φ tr s + if raises l then c else 0)
    {ls : List Label} (h : M.exec s₀ ls = some (s, tr)) :
    ls.length + Φ tr s ≤ Φ [] s₀ + c * ls.countP raises := by
  induction ls using List.reverseRecOn generalizing s tr with
  | nil =>
    cases h
    simp
  | append_singleton ls l ih =>
    obtain ⟨s₁, tr₁, es, hexec, hnext, rfl⟩ := exec_snoc h
    have hle := ih hexec
    have hlt := hstep _ _ _ _ _ (RunWhere.of_exec hexec) hnext
    rw [List.length_append, List.length_singleton, List.countP_append, List.countP_singleton, Nat.mul_add]
    split at hlt <;> rename_i hraises <;> simp only [hraises, if_true, Bool.false_eq_true, if_false] <;> omega

/-- When every step that is not of the kind `raises` lowers a potential, every run can be continued by such steps to a
state where there is none. -/
theorem exists_end {raises : Label → Bool} (Φ : List Event → State → Nat)
    (hstep : ∀ tr s l s' es, M.Run s₀ tr s → M.next s l = some (s', es) → raises l = false →
      Φ (tr ++ es) s' < Φ tr s) (hrun : M.Run s₀ tr s) :
    ∃ ls s' tr', (∀ l ∈ ls, raises l = false) ∧ M.exec s ls = some (s', tr') ∧
      ∀ l, raises l = false → M.next s' l = none := by
  induction hn : Φ tr s using Nat.strongRecOn generalizing tr s with
  | _ n ih =>
    by_cases hend : ∀ l, raises l = false → M.next s l = none
    · exact ⟨[], s, [], fun l hl => absurd hl List.not_mem_nil, rfl, hend⟩
    · push Not at hend
      obtain ⟨l, hl, hne⟩ := hend
      obtain ⟨⟨s₁, es⟩, hnext⟩ := Option.ne_none_iff_exists'.1 hne
      have hlt := hstep _ _ _ _ _ hrun hnext hl
      obtain ⟨ls, s', tr', hls, hexec, hlast⟩ := ih _ (hn ▸ hlt) (hrun.step trivial hnext) rfl
      refine ⟨l :: ls, s', es ++ tr', ?_, by simp only [exec, hnext, hexec, Option.map_some], hlast⟩
      intro l' hl'
      rcases List.mem_cons.1 hl' with rfl | hl'
      · exact hl
      · exact hls l' hl'

end Machine

namespace Monitor

variable {τ μ κ P D E : Type} [DecidableEq τ] [DecidableEq μ] [DecidableEq κ]
variable {prog : Program μ κ P D E} {s s' : State τ μ κ P D} {tr es : List (τ × Obs P E)} {t u : τ}

/-! ### The acting thread and the others -/

/-- Nothing puts the thread to sleep. -/
def State.Awake (s : State τ μ κ P D) (t : τ) : Prop := ∀ p ∈ s.asleep, p.1 ≠ t

instance (s : State τ μ κ P D) (t : τ) : Decidable (s.Awake t) :=
  inferInstanceAs (Decidable (∀ p ∈ s.asleep, p.1 ≠ t))

/-- A thread that acts was awake, goes to the point after its action, and sleeps only if it waits. -/
theorem Program.act_of_step (h : prog.next s (.step t) = some (s', es)) : s.Awake t ∧
    ∃ k es', (prog.code (s.pc t) s.data).after s.data = some (k, s'.data, es') ∧
      s'.pc = Function.update s.pc t k ∧ es = (es'.map fun e => (t, .event e)) ∧
      (s'.Awake t ∨ ∃ c m, prog.code (s.pc t) s.data = .wait c m k) := by
  simp only [Program.next] at h
  split at h
  · rename_i hawake
    obtain ⟨k, es', hafter, hpc, hes⟩ := State.perform_after h
    refine ⟨hawake, k, es', hafter, hpc, hes, ?_⟩
    generalize prog.code (s.pc t) s.data = a at h hafter
    cases a with
    | stop => cases h
    | run d es k => cases h; exact .inl hawake
    | unlock m es k => cases h; exact .inl hawake
    | notifyAll c k =>
      cases h
      exact .inl fun p hp => hawake p (List.mem_filter.1 hp).1
    | wait c m k =>
      simp only [Action.after, Option.some.injEq, Prod.mk.injEq] at hafter
      obtain ⟨rfl, -⟩ := hafter
      exact .inr ⟨c, m, rfl⟩
    | lock m k =>
      simp only [State.perform] at h
      split at h <;> cases h
      exact .inl hawake
    | notifyOne c k =>
      simp only [State.perform] at h
      split at h <;> cases h
      exact .inl hawake
  · cases h

/-- The action of a thread wakes another one only if it notifies, and puts no other to sleep. -/
theorem Program.awake_of_step (h : prog.next s (.step t) = some (s', es)) (hu : u ≠ t) :
    (s.Awake u → s'.Awake u) ∧
      (s'.Awake u → s.Awake u ∨ ∃ c k, prog.code (s.pc t) s.data = .notifyAll c k) := by
  simp only [Program.next] at h
  split at h
  · generalize prog.code (s.pc t) s.data = a at h
    cases a with
    | stop => cases h
    | run d es k => cases h; exact ⟨id, .inl⟩
    | unlock m es k => cases h; exact ⟨id, .inl⟩
    | notifyAll c k =>
      cases h
      exact ⟨fun hawake p hp => hawake p (List.mem_filter.1 hp).1, fun _ => .inr ⟨c, k, rfl⟩⟩
    | wait c m k =>
      cases h
      refine ⟨fun hawake p hp => ?_, fun hawake => .inl fun p hp => hawake p (List.mem_cons_of_mem _ hp)⟩
      rcases List.mem_cons.1 hp with rfl | hp
      · exact Ne.symm hu
      · exact hawake p hp
    | lock m k =>
      simp only [State.perform] at h
      split at h <;> cases h
      exact ⟨id, .inl⟩
    | notifyOne c k =>
      simp only [State.perform] at h
      split at h <;> cases h
      exact ⟨id, .inl⟩
  · cases h

/-- A thread that waits falls asleep. -/
theorem Program.asleep_of_wait (h : prog.next s (.step t) = some (s', es)) {c : κ} {m : μ} {k : P}
    (hcode : prog.code (s.pc t) s.data = .wait c m k) : ¬ s'.Awake t := by
  simp only [Program.next, hcode, State.perform] at h
  split at h <;> cases h
  exact fun hawake => hawake _ (List.mem_cons_self ..) rfl

/-- After a notification nobody sleeps on the condition. -/
theorem Program.notified_of_step (h : prog.next s (.step t) = some (s', es)) {c : κ} {k : P}
    (hcode : prog.code (s.pc t) s.data = .notifyAll c k) : (u, c) ∉ s'.asleep := by
  simp only [Program.next, hcode, State.perform] at h
  split at h <;> cases h
  simp

/-- A notification of one sleeper of a condition that has at most one leaves nobody asleep on it. -/
theorem Program.notified_of_one {l : Label τ P} (h : prog.next s l = some (s', es)) {c : κ} {k : P}
    (hl : l = .step t ∨ ∃ v, l = .signal t v) (hcode : prog.code (s.pc t) s.data = .notifyOne c k)
    (hone : ∀ u v, (u, c) ∈ s.asleep → (v, c) ∈ s.asleep → u = v) : (u, c) ∉ s'.asleep := by
  rcases hl with rfl | ⟨v, rfl⟩
  · simp only [Program.next, hcode, State.perform] at h
    split at h
    · split at h <;> cases h
      rename_i hnone
      exact fun hmem => hnone _ hmem rfl
    · cases h
  · simp only [Program.next, hcode] at h
    split at h <;> cases h
    rename_i hasleep
    intro hmem
    obtain ⟨hmem, hne⟩ := List.mem_filter.1 hmem
    rw [hone u v hmem hasleep.2] at hne
    simp at hne

/-- The rule of condition variables.  A thread that sleeps on `c` has its reason `B`, or somebody is on the way to
notify it (`pending`): a thread falls asleep for the reason, a step that takes it away is followed by a notification,
and only this ends the way there. -/
theorem Program.Disciplined.noticed {holds : P → μ → Prop} {sleepsOn : P → Option κ}
    (hd : prog.Disciplined holds sleepsOn) {ok : State τ μ κ P D → Label τ P → Prop} {d₀ : D} {p₀ : P} {c : κ}
    (B : P → D → Prop) (pending : τ → P → Prop)
    (wait : ∀ past s t m k, prog.machine.RunWhere ok (.start d₀ p₀) past s → past <+: tr →
      prog.code (s.pc t) s.data = .wait c m k → B k s.data)
    (act : ∀ past s t k d es, prog.machine.RunWhere ok (.start d₀ p₀) past s → past <+: tr →
      (prog.code (s.pc t) s.data).after s.data = some (k, d, es) → ∀ p, B p s.data → B p d ∨ pending t k)
    (leave : ∀ past s t k d es, prog.machine.RunWhere ok (.start d₀ p₀) past s → past <+: tr → pending t (s.pc t) →
      (prog.code (s.pc t) s.data).after s.data = some (k, d, es) →
        pending t k ∨ prog.code (s.pc t) s.data = .notifyAll c k ∨
          prog.code (s.pc t) s.data = .notifyOne c k ∧ ∀ u v, (u, c) ∈ s.asleep → (v, c) ∈ s.asleep → u = v)
    (entry : ∀ t p q, prog.isIdle p = true → prog.entry q = true → pending t p → pending t q)
    (expire : ∀ t p k, prog.expire p = some k → pending t p → pending t k)
    (hrun : prog.machine.RunWhere ok (.start d₀ p₀) tr s) (ht : (t, c) ∈ s.asleep) :
    B (s.pc t) s.data ∨ ∃ u, pending u (s.pc u) := by
  induction hrun generalizing t with
  | start => cases ht
  | @step tr s l s' es hrun hok hnext ih =>
    have hnext : prog.next s l = some (s', es) := hnext
    have hpast : tr <+: tr ++ es := List.prefix_append ..
    have hkeep : ∀ p, B p s.data → B p s'.data ∨ ∃ u, pending u (s'.pc u) := by
      intro p hB
      rcases Program.act_cases hnext with ⟨hdata, -⟩ | ⟨u, es', hafter, -⟩
      · rw [hdata]
        exact .inl hB
      · exact (act tr s u _ _ _ hrun hpast hafter p hB).imp id fun h => ⟨u, h⟩
    rcases hd.asleep_cases hrun hnext ht with ⟨hmem, hpc⟩ | ⟨m, hcode⟩
    · rw [hpc]
      rcases ih (fun past s t m k hrun h => wait past s t m k hrun (h.trans hpast))
          (fun past s t k d es hrun h => act past s t k d es hrun (h.trans hpast))
          (fun past s t k d es hrun h => leave past s t k d es hrun (h.trans hpast)) hmem with hB | ⟨u, hu⟩
      · exact hkeep _ hB
      · right
        by_contra hnone
        have hgone : ¬ pending u (s'.pc u) := fun h => hnone ⟨u, h⟩
        have hmoved : s'.pc u ≠ s.pc u := fun h => hgone (h ▸ hu)
        have hleaves : ∀ k d es', (prog.code (s.pc u) s.data).after s.data = some (k, d, es') → s'.pc u = k →
            prog.code (s.pc u) s.data = .notifyAll c k ∨ prog.code (s.pc u) s.data = .notifyOne c k ∧
              ∀ u v, (u, c) ∈ s.asleep → (v, c) ∈ s.asleep → u = v :=
          fun k d es' hafter hk => (leave tr s u k d es' hrun hpast hu hafter).resolve_left (hk ▸ hgone)
        rcases Program.label_of_move hnext hmoved with
          ⟨p, rfl, hidle⟩ | rfl | ⟨v, c', k, rfl, hcode⟩ | ⟨rfl, -⟩
        · simp only [Program.next] at hnext
          split at hnext <;> cases hnext
          rename_i hentry
          rw [State.goto_self] at hgone
          exact hgone (entry u _ p hidle hentry.2 hu)
        · obtain ⟨-, k, es', hafter, hpc', -⟩ := Program.act_of_step hnext
          rcases hleaves k _ _ hafter (by rw [hpc', Function.update_self]) with hcode | ⟨hcode, hone⟩
          · exact Program.notified_of_step hnext hcode ht
          · exact Program.notified_of_one hnext (.inl rfl) hcode hone ht
        · have hk : s'.pc u = k := by
            simp only [Program.next, hcode] at hnext
            split at hnext <;> cases hnext
            exact State.goto_self ..
          rcases hleaves k s.data [] (by rw [hcode]; rfl) hk with hall | ⟨hcode', hone⟩
          · rw [hcode] at hall
            cases hall
          · exact Program.notified_of_one hnext (.inr ⟨v, rfl⟩) hcode' hone ht
        · obtain ⟨k, hk, heq⟩ := Option.map_eq_some_iff.1 hnext
          cases heq
          rw [State.goto_self] at hgone
          exact hgone (expire u _ k hk hu)
    · exact hkeep _ (wait tr s t m _ hrun hpast hcode)

/-! ### Points -/

/-- A property of points that holds at the start and at the entries, and that no step loses, holds of every thread. -/
theorem Program.point_of_run {ok : State τ μ κ P D → Label τ P → Prop} {d₀ : D} {p₀ : P} (A : P → Prop) (h₀ : A p₀)
    (entry : ∀ p, prog.entry p = true → A p)
    (act : ∀ p d k d' es, (prog.code p d).after d = some (k, d', es) → A p → A k)
    (expire : ∀ p k, prog.expire p = some k → A p → A k)
    (hrun : prog.machine.RunWhere ok (.start d₀ p₀) tr s) : ∀ t, A (s.pc t) := by
  refine hrun.invariant (fun _ s => ∀ t, A (s.pc t)) (fun _ => h₀) ?_
  intro tr s l s' es hA _ hnext t
  rcases Program.thread_cases hnext t with
    ⟨hpc, -⟩ | ⟨p, -, -, hentry, hpc, -⟩ | ⟨k, es', hafter, hpc, -⟩ | ⟨k, hk, hpc, -⟩
  · rw [hpc]
    exact hA t
  · rw [hpc]
    exact entry p hentry
  · rw [hpc]
    exact act _ _ _ _ _ hafter (hA t)
  · rw [hpc]
    exact expire _ _ hk (hA t)

/-! ### Stuck states -/

/-- No thread can act. -/
def Stuck (prog : Program μ κ P D E) (s : State τ μ κ P D) : Prop :=
  ∀ t, prog.next s (.step t) = none ∧ ∀ u, prog.next s (.signal t u) = none

/-- A thread that cannot act is asleep, or has nothing to do, or waits for a mutex. -/
theorem Stuck.cases (h : Stuck prog s) (t : τ) : ¬ s.Awake t ∨ prog.code (s.pc t) s.data = .stop ∨
    ∃ m k u, prog.code (s.pc t) s.data = .lock m k ∧ s.owner m = some u := by
  by_cases hawake : s.Awake t
  · refine .inr ?_
    obtain ⟨hstep, hsignal⟩ := h t
    simp only [Program.next, if_pos (show ∀ p ∈ s.asleep, p.1 ≠ t from hawake)] at hstep
    generalize hcode : prog.code (s.pc t) s.data = a at hstep
    cases a with
    | stop => exact .inl rfl
    | run d es k => cases hstep
    | unlock m es k => cases hstep
    | notifyAll c k => cases hstep
    | wait c m k => cases hstep
    | lock m k =>
      simp only [State.perform, ite_eq_right_iff, reduceCtorEq] at hstep
      obtain ⟨u, hu⟩ := Option.ne_none_iff_exists'.1 hstep
      exact .inr ⟨m, k, u, rfl, hu⟩
    | notifyOne c k =>
      -- somebody sleeps on the condition, and can be told
      simp only [State.perform, ite_eq_right_iff, reduceCtorEq, imp_false] at hstep
      push Not at hstep
      obtain ⟨⟨u, c'⟩, hmem, rfl⟩ := hstep
      have hnone := hsignal u
      simp only [Program.next, hcode] at hnone
      rw [if_pos ⟨hawake, hmem⟩] at hnone
      cases hnone
  · exact .inl hawake

end Monitor
