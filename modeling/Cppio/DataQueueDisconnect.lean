import Cppio.DataQueueWakeup
import Mathlib.Data.Fintype.Defs

/-!
# A reader and the loss of the connection

`setConnectionFlag(false)` clears the flag and notifies the readers without the mutex.  A reader that has found the
queue connected and is about to fall asleep misses the notification, and sleeps through the loss of the connection
(`slept_through`).  A second `setConnectionFlag(false)` finds the flag cleared and returns at once, possibly before
the first one has notified anybody.

Otherwise no reader is left behind (`no_sleep_through_loss`): as long as a reader is asleep in `read`, or about to
be, the queue is connected or the call that cleared the flag has still to notify the readers (`Watching`).
-/

namespace Cppio

namespace DataQueue

open Monitor

variable {τ : Type} {N : Nat}

/-- The calls on a queue whose connection may be lost. -/
def lossCalls : Call → Bool
  | .setConnectionFlag c => !c
  | _ => true

/-- Once a call of `setConnectionFlag(false)` has returned, no thread is asleep in `read` on an empty queue. -/
def NoSleepThroughLoss (tr : Trace τ) (s : State τ N) : Prop :=
  (∃ u, (u, .event (.ret (.setConnectionFlag false) .void)) ∈ tr) →
    ∀ t buflen, AsleepIn s t (.read buflen) → s.data.availableReadSize ≠ 0

/-- A reader that has found the queue empty and connected, and falls asleep next. -/
def Point.aboutToSleep : Point → Bool
  | .busy (.read _) .wait => true
  | _ => false

def Point.inRead : Point → Bool
  | .busy (.read _) _ => true
  | _ => false

/-- The call that cleared the flag has still to notify the readers. -/
def Point.aboutToSignal : Point → Bool
  | .busy (.setConnectionFlag false) .signalRead => true
  | _ => false

/-- A reader is asleep in `read`, or about to be. -/
def Waiting (s : State τ N) : Prop :=
  (∃ t, (s.pc t).aboutToSleep = true) ∨ ∃ p ∈ s.asleep, (s.pc p.1).inRead = true

/-- The readers are notified when none of them is between its test of the flag and its sleep; and a call of
`setConnectionFlag(false)` does not return while a reader waits and the readers are still to be notified. -/
def ReachesReaders (s : State τ N) : Label τ Point → Prop
  | .step u =>
    ((s.pc u).aboutToSignal = true → ¬ ∃ t, (s.pc t).aboutToSleep = true) ∧
      (s.pc u = .busy (.setConnectionFlag false) (.leave .void) → (∃ v, (s.pc v).aboutToSignal = true) → ¬ Waiting s)
  | _ => True

instance [Fintype τ] (s : State τ N) : Decidable (Waiting s) := inferInstanceAs (Decidable (_ ∨ _))

instance [Fintype τ] (s : State τ N) (l : Label τ Point) : Decidable (ReachesReaders s l) :=
  match l with
  | .step _ => inferInstanceAs (Decidable (_ ∧ _))
  | .invoke _ _ | .signal _ _ | .wake _ | .expire _ => isTrue trivial

/-! ### What one step can do -/

variable [DecidableEq τ] {ok : State τ N → Label τ Point → Prop} {q₀ : DataQueue N} {s s' : State τ N}
  {tr es : Trace τ} {l : Label τ Point}

/-- A lost connection stays lost. -/
theorem connected_of_next (hrun : (program N lossCalls).machine.RunWhere ok (.start q₀ .idle) tr s)
    (hnext : (program N lossCalls).next s l = some (s', es)) (hfalse : s.data.connected = false) :
    s'.data.connected = false := by
  rcases Program.data_cases hnext with ⟨hdata, -⟩ | ⟨t, p, -, hdata, -⟩ | ⟨t, k, es', hafter, -⟩
  · rw [hdata, hfalse]
  · rw [hdata, hfalse]
  · generalize s'.data = q' at hafter ⊢
    cases effect_of_after hafter with
    | flag hp =>
      have hassert := assertion_of_run hrun t
      rw [hp] at hassert
      exact Bool.not_eq_true' _ ▸ hassert.1
    | copyOut _ _ | copyIn _ | ret _ | silent => exact hfalse

/-- The flag is cleared by a thread that notifies the readers next. -/
theorem aboutToSignal_of_next (hnext : (program N lossCalls).next s l = some (s', es))
    (htrue : s.data.connected = true) (hfalse : s'.data.connected = false) :
    ∃ u, (s'.pc u).aboutToSignal = true := by
  rcases Program.act_cases hnext with ⟨hdata, -⟩ | ⟨t, es', hafter, -⟩
  · rw [hdata, htrue] at hfalse
    cases hfalse
  · have heffect := effect_of_after hafter
    generalize hq : s'.data = q' at hafter heffect hfalse
    cases heffect with
    | @flag c hp =>
      refine ⟨t, ?_⟩
      have hc : c = false := hfalse
      subst hc
      rw [hp] at hafter
      simp only [program, code, setConnectionFlagCode, Action.after, Option.some.injEq, Prod.mk.injEq] at hafter
      rw [← hafter.1]
      rfl
    | copyOut _ _ | copyIn _ | ret _ | silent =>
      rw [show _ = true from htrue] at hfalse
      cases hfalse

omit [DecidableEq τ] in
private theorem aboutToSleep_of_after {p k : Point} {q q' : DataQueue N} {es : List Event}
    (hafter : (code p q).after q = some (k, q', es)) (hk : k.aboutToSleep = true) : q.connected = true := by
  cases p with
  | idle => cases hafter
  | busy c st =>
    cases c with
    | read buflen =>
      cases st with
      | connected =>
        cases hafter
        by_contra hfalse
        rw [if_neg hfalse] at hk
        cases hk
      | _ => cases hafter <;> first | cases hk | (split at hk <;> cases hk)
    | _ =>
      cases st <;> cases hafter
      all_goals cases hk

/-- A reader gets about to sleep only by finding the queue connected. -/
theorem aboutToSleep_of_next (hnext : (program N lossCalls).next s l = some (s', es)) {t : τ}
    (ht : (s'.pc t).aboutToSleep = true) : (s.pc t).aboutToSleep = true ∨ s.data.connected = true := by
  rcases Program.thread_cases hnext t with
    ⟨hsame, -⟩ | ⟨p, -, -, hentry, rfl, -⟩ | ⟨k, es', hafter, rfl, -⟩ | ⟨k, hk, rfl, -⟩
  · rw [hsame] at ht
    exact .inl ht
  · generalize s'.pc t = p at ht hentry
    cases p with
    | idle => cases ht
    | busy c st =>
      cases st with
      | enter => cases c <;> cases ht
      | _ => cases hentry
  · exact .inr (aboutToSleep_of_after hafter ht)
  · generalize s.pc t = p at hk
    generalize s'.pc t = p' at ht hk
    cases p with
    | idle => cases hk
    | busy c st =>
      cases c <;> cases st <;> cases hk
      cases ht

/-- Readers get to wait only on a connected queue. -/
theorem waiting_of_next (hrun : (program N lossCalls).machine.RunWhere ok (.start q₀ .idle) tr s)
    (hnext : (program N lossCalls).next s l = some (s', es)) (hwaiting : Waiting s') :
    Waiting s ∨ s.data.connected = true := by
  rcases hwaiting with ⟨t, ht⟩ | ⟨⟨t, c⟩, hmem, ht⟩
  · exact (aboutToSleep_of_next hnext ht).imp (fun h => .inl ⟨t, h⟩) id
  · left
    rcases (disciplined lossCalls).asleep_cases hrun hnext hmem with ⟨hmem', hsame⟩ | ⟨m, hcode⟩
    · simp only [hsame] at ht
      exact .inr ⟨(t, c), hmem', ht⟩
    · -- the thread has just fallen asleep in `read`
      refine .inl ⟨t, ?_⟩
      simp only at ht
      generalize s'.pc t = p' at ht hcode
      generalize s.pc t = p at hcode ⊢
      cases p with
      | idle => cases hcode
      | busy call st =>
        cases call <;> cases st <;> cases hcode <;> first | rfl | cases ht

omit [DecidableEq τ] in
private theorem eq_of_aboutToSignal {p : Point} (h : p.aboutToSignal = true) :
    p = .busy (.setConnectionFlag false) .signalRead := by
  cases p with
  | idle => cases h
  | busy c st =>
    cases c with
    | setConnectionFlag c => cases c <;> cases st <;> first | rfl | cases h
    | _ => cases h

omit [DecidableEq τ] in
private theorem sleepsOn_of_inRead {p : Point} {c : Condition} (h : p.inRead = true) (hat : sleepsOn p = some c) :
    c = .readCondition := by
  cases p with
  | idle => cases h
  | busy call st =>
    cases call with
    | read buflen => cases st <;> cases hat; rfl
    | _ => cases h

/-- After the readers are notified none of them waits, unless one was about to sleep. -/
theorem not_waiting_of_signal (hrun : (program N lossCalls).machine.RunWhere ok (.start q₀ .idle) tr s) {u : τ}
    (hok : ok s (.step u)) (hsignal : (s.pc u).aboutToSignal = true) (hnone : ¬ ∃ t, (s.pc t).aboutToSleep = true)
    (hnext : (program N lossCalls).next s (.step u) = some (s', es)) : ¬ Waiting s' := by
  have hrun' : (program N lossCalls).machine.RunWhere ok (.start q₀ .idle) (tr ++ es) s' := hrun.step hok hnext
  simp only [Program.next] at hnext
  split at hnext
  · rw [eq_of_aboutToSignal hsignal] at hnext
    cases hnext
    rintro (⟨t, ht⟩ | ⟨⟨t, c⟩, hmem, ht⟩)
    · by_cases htu : t = u
      · rw [htu] at ht
        simp only [State.goto, Function.update_self] at ht
        cases ht
      · simp only [State.goto, Function.update_of_ne htu] at ht
        exact hnone ⟨t, ht⟩
    · -- `notify_all` has woken everybody who sleeps on this condition
      have hcond := sleepsOn_of_inRead ht ((disciplined lossCalls).asleep_at hrun' hmem)
      have hne := (List.mem_filter.1 hmem).2
      simp only [hcond, ne_eq, not_true_eq_false, decide_false] at hne
      cases hne
  · cases hnext

/-- A call returns by its last step. -/
private theorem leave_of_ret {u : τ} {c : Call} {r : Result} (hnext : (program N lossCalls).next s l = some (s', es))
    (hu : (u, .event (.ret c r)) ∈ es) : s.pc u = .busy c (.leave r) ∧ s'.pc u = .idle := by
  obtain ⟨es', hafter, hmem⟩ := Program.act_of_event hnext hu
  generalize s.pc u = p at hafter ⊢
  generalize s'.pc u = p' at hafter ⊢
  generalize s'.data = q' at hafter
  cases p with
  | idle => cases hafter
  | busy c' st =>
    cases c' <;> cases st <;> cases hafter <;> simp at hmem
    all_goals
      obtain ⟨rfl, rfl⟩ := hmem
      exact ⟨rfl, rfl⟩

/-! ### The invariant -/

/-- The points of `setConnectionFlag(false)` behind the store of the flag. -/
def Point.cleared : Point → Bool
  | .busy (.setConnectionFlag false) .signalRead | .busy (.setConnectionFlag false) .signalWrite
  | .busy (.setConnectionFlag false) (.leave _) => true
  | _ => false

/-- While a reader waits, the queue is connected or the readers are still to be notified; and when a call of
`setConnectionFlag(false)` has returned, no reader waits. -/
structure Watching (tr : Trace τ) (s : State τ N) : Prop where
  cleared : ∀ u, (s.pc u).cleared = true → s.data.connected = false
  waiting : Waiting s → s.data.connected = true ∨ ∃ u, (s.pc u).aboutToSignal = true
  returned : (∃ u, (u, .event (.ret (.setConnectionFlag false) .void)) ∈ tr) →
    s.data.connected = false ∧ ¬ Waiting s

/-- A thread gets behind the store of the flag only with the flag cleared. -/
private theorem cleared_of_after {p k : Point} {q q' : DataQueue N} {es : List Event}
    (hafter : (code p q).after q = some (k, q', es)) (hk : k.cleared = true) (hp : p.cleared = false) :
    q'.connected = false := by
  cases p with
  | idle => cases hafter
  | busy c st =>
    cases c with
    | setConnectionFlag c =>
      cases c with
      | true =>
        cases st <;> cases hafter
        all_goals cases hk
      | false =>
        cases st with
        | testFlag =>
          cases hafter
          by_contra htrue
          rw [if_pos (Bool.eq_true_of_not_eq_false htrue)] at hk
          cases hk
        | storeFlag => cases hafter; rfl
        | enter => cases hafter; cases hk
        | signalRead | signalWrite | leave r => cases hp
        | _ => cases hafter
    | _ =>
      cases st <;> cases hafter
      all_goals cases hk

theorem Watching.step (h : Watching tr s)
    (hrun : (program N lossCalls).machine.RunWhere ReachesReaders (.start q₀ .idle) tr s) (hok : ReachesReaders s l)
    (hnext : (program N lossCalls).next s l = some (s', es)) :
    Watching (tr ++ es) s' where
  cleared u hu := by
    by_cases hpast : (s.pc u).cleared = true
    · exact connected_of_next hrun hnext (h.cleared u hpast)
    · rcases Program.thread_cases hnext u with
        ⟨hsame, -⟩ | ⟨p, -, -, hentry, rfl, -⟩ | ⟨k, es', hafter, rfl, -⟩ | ⟨k, hk, rfl, -⟩
      · rw [hsame] at hu
        exact absurd hu hpast
      · generalize s'.pc u = p at hu hentry
        cases p with
        | idle => cases hu
        | busy c st =>
          cases st with
          | enter =>
            cases c with
            | setConnectionFlag c => cases c <;> cases hu
            | _ => cases hu
          | _ => cases hentry
      · exact cleared_of_after hafter hu (Bool.eq_false_of_not_eq_true hpast)
      · generalize s.pc u = p at hk
        generalize s'.pc u = p' at hu hk
        cases p with
        | idle => cases hk
        | busy c st =>
          cases c <;> cases st <;> cases hk
          cases hu
  waiting hwaiting := by
    cases hconnected' : s'.data.connected with
    | true => exact .inl rfl
    | false =>
      right
      cases hconnected : s.data.connected with
      | true => exact aboutToSignal_of_next hnext hconnected hconnected'
      | false =>
        have hbefore := (waiting_of_next hrun hnext hwaiting).resolve_right (by simp [hconnected])
        obtain ⟨v, hv⟩ := (h.waiting hbefore).resolve_left (by simp [hconnected])
        refine ⟨v, ?_⟩
        by_cases hsame : s'.pc v = s.pc v
        · rwa [hsame]
        · -- the thread that was to notify the readers has moved: it has notified them
          rcases Program.label_of_move hnext hsame with ⟨p, -, hidle⟩ | rfl | ⟨u, c, k, -, hcode⟩ | ⟨-, hexpire⟩
          · rw [eq_of_aboutToSignal hv] at hidle
            cases hidle
          · exact absurd hwaiting (not_waiting_of_signal hrun hok hv (hok.1 hv) hnext)
          · rw [eq_of_aboutToSignal hv] at hcode
            cases hcode
          · rw [eq_of_aboutToSignal hv] at hexpire
            cases hexpire
  returned := by
    rintro ⟨u, hu⟩
    have hsettled : s.data.connected = false ∧ ¬ Waiting s := by
      rcases List.mem_append.1 hu with hu | hu
      · exact h.returned ⟨u, hu⟩
      · -- the call returns in this step: behind the store, and not while the readers are still to be notified
        obtain ⟨hpc, hidle⟩ := leave_of_ret hnext hu
        have hfalse : s.data.connected = false := h.cleared u (by rw [hpc]; rfl)
        refine ⟨hfalse, fun hwaiting => ?_⟩
        obtain ⟨v, hv⟩ := (h.waiting hwaiting).resolve_left (by simp [hfalse])
        have hsame : s'.pc u ≠ s.pc u := by
          rw [hpc, hidle]
          exact Point.noConfusion
        rcases Program.label_of_move hnext hsame with ⟨p, -, hidle⟩ | rfl | ⟨w, c, k, -, hcode⟩ | ⟨-, hexpire⟩
        · rw [hpc] at hidle
          cases hidle
        · exact hok.2 hpc ⟨v, hv⟩ hwaiting
        · rw [hpc] at hcode
          cases hcode
        · rw [hpc] at hexpire
          cases hexpire
    -- the queue stays disconnected, so no reader gets to wait
    refine ⟨connected_of_next hrun hnext hsettled.1, fun hwaiting => ?_⟩
    rcases waiting_of_next hrun hnext hwaiting with hbefore | hconnected
    · exact hsettled.2 hbefore
    · rw [hsettled.1] at hconnected
      cases hconnected

theorem watching_of_run (hrun : (program N lossCalls).machine.RunWhere ReachesReaders (.start q₀ .idle) tr s) :
    Watching tr s := by
  induction hrun with
  | start =>
    refine ⟨fun u hu => ?_, fun hwaiting => ?_, fun hret => ?_⟩
    · cases hu
    · rcases hwaiting with ⟨t, ht⟩ | ⟨p, hp, -⟩
      · cases ht
      · cases hp
    · obtain ⟨u, hu⟩ := hret
      cases hu
  | step hrun hok hnext ih => exact ih.step hrun hok hnext

/-- In every run in which the notifications reach the readers, no reader sleeps through the loss of the connection. -/
theorem no_sleep_through_loss (hN : 1 ≤ N) (tr : Trace τ) (s : State τ N)
    (hrun : (program N lossCalls).machine.RunWhere ReachesReaders (.start (.connectedNew N hN) .idle) tr s) :
    NoSleepThroughLoss tr s := by
  rintro hret t buflen ⟨⟨st, hst⟩, cond, hmem⟩ -
  refine ((watching_of_run hrun).returned hret).2 (.inr ⟨(t, cond), hmem, ?_⟩)
  rw [hst]
  rfl

/-- A reader that is asleep when the connection is lost. -/
theorem no_sleep_through_loss_two : ∃ tr s,
    (program 2 lossCalls).machine.RunWhere ReachesReaders (.start (.connectedNew 2 (by decide)) .idle) tr s ∧
      ((true, .event (.ret (.setConnectionFlag false) .void)) ∈ tr ∧ s.pc false = .busy (.read 1) .relock ∧
        s.asleep = []) ∧ NoSleepThroughLoss tr s := by
  have h : ((((program 2 lossCalls).machine.restrict ReachesReaders).exec
      (.start (.connectedNew 2 (by decide)) .idle)
      (List.flatten [[.invoke false (.busy (.read 1) .enter)], List.replicate 5 (.step false),
        [.invoke true (.busy (.setConnectionFlag false) .enter)], List.replicate 6 (.step true)])).any fun r =>
      decide ((true, .event (.ret (.setConnectionFlag false) .void)) ∈ r.2 ∧
        r.1.pc false = .busy (.read 1) .relock ∧ r.1.asleep = [])) = true := by
    decide +kernel
  obtain ⟨⟨s, tr⟩, hexec, hs⟩ := (Option.any_eq_true _ _).1 h
  have hrun := Machine.RunWhere.of_restrict (Machine.RunWhere.of_exec hexec)
  exact ⟨tr, s, hrun, of_decide_eq_true hs, no_sleep_through_loss (by decide) tr s hrun⟩

/-- The reader finds the queue empty and connected; the connection is lost and the readers are notified; the reader
falls asleep. -/
theorem slept_through : ¬ ∀ (tr : Trace Bool) (s : State Bool 2),
    (program 2 lossCalls).machine.Run (.start (.connectedNew 2 (by decide)) .idle) tr s →
      NoSleepThroughLoss tr s := by
  intro hall
  have h : (((program 2 lossCalls).machine.exec (.start (.connectedNew 2 (by decide)) .idle)
      (List.flatten [[.invoke false (.busy (.read 1) .enter)], List.replicate 4 (.step false),
        [.invoke true (.busy (.setConnectionFlag false) .enter)], List.replicate 6 (.step true),
        [.step false]])).any fun r =>
      decide ((true, .event (.ret (.setConnectionFlag false) .void)) ∈ r.2 ∧
        r.1.pc false = .busy (.read 1) .relock ∧ (false, .readCondition) ∈ r.1.asleep ∧
        r.1.data.availableReadSize = 0)) = true := by
    decide +kernel
  obtain ⟨⟨s, tr⟩, hexec, hs⟩ := (Option.any_eq_true _ _).1 h
  obtain ⟨hret, hpc, hasleep, hempty⟩ := of_decide_eq_true hs
  exact hall tr s (Machine.RunWhere.of_exec hexec) ⟨true, hret⟩ false 1 ⟨⟨_, hpc⟩, _, hasleep⟩ hempty

end DataQueue

end Cppio
