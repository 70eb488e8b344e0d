import Cppio.InprocPairingSafety
import Cppio.Lib.Progress
import Mathlib.Data.List.Pairwise

/-!
# No missed rendezvous

`Cppio.InprocPairingSafety` says that clients and acceptors are paired one to one.  Here: they do not miss each other
(`no_missed_rendezvous`).  An acceptor sleeps only while no client with its address is queued, or a client is about to
notify the acceptors; a client sleeps only while its line has not got its queues, or the constructor that gave them to
it is about to notify it.

The constructor takes the mutex of a client's line while it holds `gs_mutex`, and no thread goes the other way.  So
when nobody can act no mutex is taken (`unowned_of_stuck`), every thread that is in a call sleeps in it, and no
address has both a client and an acceptor that wait.

The runs are those of `createClient` and `waitConnection` alone.  No factory is destroyed meanwhile: its destructor
clears `gs_connectQueue`, and a client whose line was queued there would wait for ever.
-/

namespace Cppio

namespace Inproc

open Monitor

variable {τ : Type} [DecidableEq τ] {ok : State τ → Label τ Point → Prop} {s s' : State τ} {tr es : Trace τ}

/-! ### What a wait finds -/

/-- What a thread knows when it is about to sleep: no client with the address is queued, or the line is not joined. -/
def Waits (p : Point) (w : Inproc) : Prop :=
  match p with
  | .waitConnection address _ .deadline | .waitConnection address _ .wait =>
    ∀ line ∈ w.registry.connectQueue, line.address ≠ address
  | .createClient _ st => ∀ l, st.line = some l → l < w.lines.length ∧ (st = .wait l → w.joined l = false)
  | _ => True

private theorem queueOf_connect (w : Inproc) (queue : Option Nat) (d : Direction) (l : Nat) :
    (w.connect queue).queueOf d l = w.queueOf d l := by
  rw [queueOf, lines_connect, queueOf]

/-- A thread without the mutex of a line leaves the queues of the line as they are. -/
private theorem queueOf_frame {p k : Point} {w w' : Inproc} {es : List Event} {l : Nat} (d : Direction)
    (hafter : (code p w).after w = some (k, w', es)) (hp : ¬ holds p (.line l)) (hl : l < w.lines.length) :
    w'.queueOf d l = w.queueOf d l := by
  cases p with
  | idle => cases hafter
  | createClient address st =>
    cases st with
    | create =>
      cases hafter
      exact queueOf_addClient ..
    | _ =>
      cases hafter
      rfl
  | waitConnection address timeoutInMs st =>
    cases st with
    | scan =>
      simp only [code, serverCode] at hafter
      split at hafter <;> cases hafter <;> rfl
    | construct l' =>
      cases hafter
      exact queueOf_addServer_of_ne (Nat.ne_of_lt hl)
    | setOut l' s | setIn l' s =>
      cases hafter
      refine queueOf_setQueue_of_ne (.inr ?_)
      rintro rfl
      exact hp (by simp [holds, ServerStage.holds])
    | connectOut l' s | connectIn l' s =>
      cases hafter
      exact queueOf_connect ..
    | _ =>
      cases hafter
      rfl

private theorem joined_frame {p k : Point} {w w' : Inproc} {es : List Event} {l : Nat}
    (hafter : (code p w).after w = some (k, w', es)) (hp : ¬ holds p (.line l)) (hl : l < w.lines.length) :
    w'.joined l = w.joined l := by
  rw [joined, joined, queueOf_frame _ hafter hp hl, queueOf_frame _ hafter hp hl]

/-- Lines are never removed. -/
private theorem lines_of_after {p k : Point} {w w' : Inproc} {es : List Event}
    (hafter : (code p w).after w = some (k, w', es)) : w.lines.length ≤ w'.lines.length := by
  cases p with
  | idle => cases hafter
  | createClient address st =>
    cases st with
    | create =>
      cases hafter
      simp [addClient]
    | _ =>
      cases hafter
      exact Nat.le_refl _
  | waitConnection address timeoutInMs st =>
    cases st with
    | scan =>
      simp only [code, serverCode] at hafter
      split at hafter <;> cases hafter <;> exact Nat.le_refl _
    | construct l =>
      cases hafter
      simp [addServer]
    | setOut l s | setIn l s =>
      cases hafter
      simp [setQueue]
    | connectOut l s | connectIn l s =>
      cases hafter
      rw [lines_connect]
    | _ =>
      cases hafter
      exact Nat.le_refl _

private theorem waits_act {p k : Point} {w w' : Inproc} {es : List Event}
    (hafter : (code p w).after w = some (k, w', es)) (hwaits : Waits p w) : Waits k w' := by
  cases p with
  | idle => cases hafter
  | createClient address st =>
    cases st with
    | enter =>
      cases hafter
      intro l hl
      cases hl
    | create =>
      cases hafter
      intro l hl
      cases hl
      exact ⟨by simp [addClient], ClientStage.noConfusion⟩
    | leave l =>
      cases hafter
      trivial
    | predicate l =>
      cases hafter
      have hlt := (hwaits l rfl).1
      cases hjoined : w.joined l with
      | false =>
        intro l' hl'
        cases hl'
        exact ⟨hlt, fun _ => hjoined⟩
      | true =>
        intro l' hl'
        cases hl'
        exact ⟨hlt, ClientStage.noConfusion⟩
    | test l =>
      cases hafter
      have hlt := (hwaits l rfl).1
      cases w.joined l <;> (intro l' hl'; cases hl'; exact ⟨hlt, ClientStage.noConfusion⟩)
    | notify l | unlock l | waitForConnection l | wait l | relock l =>
      cases hafter
      intro l' hl'
      cases hl'
      exact ⟨(hwaits l rfl).1, ClientStage.noConfusion⟩
  | waitConnection address timeoutInMs st =>
    cases st with
    | scan =>
      simp only [code, serverCode] at hafter
      split at hafter
      · cases hafter
        trivial
      · rename_i hnone
        cases hafter
        exact Registry.scan_eq_none (Option.map_eq_none_iff.1 hnone)
    | deadline =>
      cases hafter
      by_cases hneg : timeoutInMs < 0
      · rw [if_pos hneg]
        trivial
      · rw [if_neg hneg]
        exact hwaits
    | _ =>
      cases hafter
      trivial

/-- In every run a thread that is about to sleep knows why. -/
private theorem waits_of_run (hrun : program.machine.RunWhere ok (.start empty .idle) tr s) (t : τ) :
    Waits (s.pc t) s.data := by
  have hstart : Waits .idle empty := trivial
  refine disciplined.assertion rfl (A := fun p _ w => Waits p w) hstart ?_ ?_ ?_ ?_ hrun t
  · rintro p q h w - hentry -
    cases q with
    | idle => cases hentry
    | createClient address st =>
      cases st with
      | enter =>
        intro l hl
        cases hl
      | _ => cases hentry
    | waitConnection address timeoutInMs st =>
      cases st with
      | enter => trivial
      | _ => cases hentry
  · exact fun p h w k w' es hafter hwaits => waits_act hafter hwaits
  · rintro p h w k hexpire -
    cases p with
    | idle | createClient _ _ => cases hexpire
    | waitConnection address timeoutInMs st =>
      cases st <;> cases hexpire
      trivial
  · intro p h w k w' es hafter _ q h' hother hwaits
    cases q with
    | idle => trivial
    | createClient address st =>
      intro l hl
      obtain ⟨hlt, hnot⟩ := hwaits l hl
      refine ⟨Nat.lt_of_lt_of_le hlt (lines_of_after hafter), fun hst => ?_⟩
      subst hst
      rw [joined_frame hafter (fun hp => hother _ hp (by simp [holds, ClientStage.holds])) hlt]
      exact hnot rfl
    | waitConnection address timeoutInMs st =>
      cases st with
      | deadline | wait =>
        rw [data_unlocked hafter fun hp => hother _ hp rfl]
        exact hwaits
      | _ => trivial

/-! ### Sleeping acceptors -/

/-- A client that has queued its line and has still to notify the acceptors. -/
def Queues (p : Point) : Prop := ∃ address l, p = .createClient address (.notify l)

private theorem registry_of_after {p k : Point} {w w' : Inproc} {es : List Event}
    (hafter : (code p w).after w = some (k, w', es)) :
    (∀ line ∈ w'.registry.connectQueue, line ∈ w.registry.connectQueue) ∨ Queues k := by
  cases p with
  | idle => cases hafter
  | createClient address st =>
    cases st with
    | create =>
      cases hafter
      exact .inr ⟨address, _, rfl⟩
    | _ =>
      cases hafter
      exact .inl fun _ h => h
  | waitConnection address timeoutInMs st =>
    cases st with
    | scan =>
      simp only [code, serverCode] at hafter
      split at hafter
      · rename_i line registry htake
        cases hafter
        left
        obtain ⟨⟨line', others⟩, hscan, heq⟩ := Option.map_eq_some_iff.1 htake
        cases heq
        obtain ⟨-, before, after, hlines, rfl, -⟩ := Registry.scan_eq_some hscan
        intro c hc
        rw [hlines]
        rcases List.mem_append.1 hc with hc | hc
        · exact List.mem_append_left _ hc
        · exact List.mem_append_right _ (List.mem_cons_of_mem _ hc)
      · cases hafter
        exact .inl fun _ h => h
    | connectOut l s | connectIn l s =>
      cases hafter
      rw [registry_connect]
      exact .inl fun _ h => h
    | _ =>
      cases hafter
      exact .inl fun _ h => h

/-- An acceptor sleeps only while no client with its address is queued, or a client is about to notify it. -/
theorem acceptors_noticed (hrun : program.machine.RunWhere ok (.start empty .idle) tr s) {t : τ}
    (ht : (t, .gs) ∈ s.asleep) {address : String} {timeoutInMs : Int}
    (hpc : s.pc t = .waitConnection address timeoutInMs .relock) :
    (∀ line ∈ s.data.registry.connectQueue, line.address ≠ address) ∨ ∃ u, Queues (s.pc u) := by
  have hnoticed := disciplined.noticed
    (fun p w => ∀ address timeoutInMs, p = .waitConnection address timeoutInMs .relock →
      ∀ line ∈ w.registry.connectQueue, line.address ≠ address)
    (fun _ p => Queues p) ?_ ?_ ?_ ?_ ?_ hrun ht
  · exact hnoticed.imp (fun h => h address timeoutInMs hpc) id
  · intro past s t m k hrun _ hcode a timeout hk
    have hwaits := waits_of_run hrun t
    generalize s.pc t = p at hcode hwaits
    subst hk
    cases p with
    | idle => cases hcode
    | createClient _ st => cases st <;> cases hcode
    | waitConnection a' timeout' st =>
      cases st with
      | scan =>
        simp only [program, code, serverCode] at hcode
        split at hcode <;> cases hcode
      | _ =>
        cases hcode
        try exact hwaits
  · intro past s t k w es _ _ hafter p hreason
    exact (registry_of_after hafter).imp
      (fun hsub a timeout hp line hline => hreason a timeout hp line (hsub line hline)) id
  · rintro past s t k w es _ _ ⟨a, l, hp⟩ hafter
    rw [hp] at hafter ⊢
    cases hafter
    exact .inr (.inl rfl)
  · rintro t p q hidle - ⟨a, l, rfl⟩
    cases hidle
  · rintro t p k hexpire ⟨a, l, rfl⟩
    cases hexpire

/-! ### Sleeping clients -/

/-- The line whose client has still to be notified by a constructor that gave it its queues. -/
def ServerStage.notifies : ServerStage → Option Nat
  | .connectOut l _ | .connectIn l _ | .notifyOther l _ => some l
  | _ => none

/-- A constructor that is about to notify the client of the line `l`. -/
def Joins (l : Nat) (p : Point) : Prop :=
  ∃ address timeoutInMs st, p = .waitConnection address timeoutInMs st ∧ st.notifies = some l

/-- A line gets both its queues from a constructor that is about to notify its client. -/
private theorem joined_of_after {p k : Point} {w w' : Inproc} {h es : List Event} {l : Nat}
    (hafter : (code p w).after w = some (k, w', es)) (hat : At p h w) (hl : l < w.lines.length)
    (hnot : w.joined l = false) : w'.joined l = false ∨ Joins l k := by
  by_cases hp : holds p (.line l)
  · cases p with
    | idle => exact hp.elim
    | createClient address st =>
      cases st with
      | create => cases hp
      | _ =>
        cases hafter
        exact .inl hnot
    | waitConnection address timeoutInMs st =>
      cases st with
      | setOut l' s =>
        cases hafter
        obtain ⟨-, q, q', hand⟩ := hat
        obtain rfl : l = l' := by simpa [holds, ServerStage.holds] using hp
        left
        rw [joined, queueOf_setQueue_of_ne (.inl (by decide)), queueOf_of_line hand.client]
        rfl
      | setIn l' s =>
        cases hafter
        obtain rfl : l = l' := by simpa [holds, ServerStage.holds] using hp
        exact .inr ⟨_, _, _, rfl, rfl⟩
      | connectOut l' s | connectIn l' s =>
        cases hafter
        left
        rw [joined, queueOf_connect, queueOf_connect]
        exact hnot
      | notifyOther l' s | unlockOther l' s =>
        cases hafter
        exact .inl hnot
      | _ => cases hp
  · rw [joined_frame hafter hp hl]
    exact .inl hnot

theorem eq_of_nodup_filterMap {α β : Type} {f : α → Option β} {xs : List α} (h : (xs.filterMap f).Nodup)
    {x y : α} (hx : x ∈ xs) (hy : y ∈ xs) {b : β} (hfx : f x = some b) (hfy : f y = some b) : x = y := by
  have : Std.Symm fun a a' => ∀ b, f a = some b → ∀ b', f a' = some b' → b ≠ b' :=
    ⟨fun a a' hne b hb b' hb' heq => hne b' hb' b hb heq.symm⟩
  by_contra hne
  exact (List.pairwise_filterMap.1 h).forall hx hy hne b hfx b hfy rfl

/-- A line has one client. -/
private theorem client_unique (hrun : program.machine.RunWhere ok (.start empty .idle) tr s) {t u : τ}
    {address address' : String} {st st' : ClientStage} {l : Nat} (ht : s.pc t = .createClient address st)
    (hu : s.pc u = .createClient address' st') (hst : st.line = some l) (hst' : st'.line = some l) : t = u := by
  have hqueued : ∀ v a (st : ClientStage), s.pc v = .createClient a st → st.line = some l →
      (v, .event (.queued ⟨l, a⟩)) ∈ tr := by
    intro v a st hv hst
    have hat := (at_of_run hrun v).2
    rw [hv] at hat
    have hown : own v tr = [.queued ⟨l, a⟩] := by
      have : own v tr = (st.line.map fun l => Event.queued ⟨l, a⟩).toList := hat
      rw [this, hst]
      rfl
    exact mem_of_own (by rw [hown]; exact List.mem_singleton_self _)
  have hnodup := (inv_of_run hrun).1.distinct
  rw [queued, seen, List.map_filterMap] at hnodup
  exact congrArg Prod.fst (eq_of_nodup_filterMap hnodup (hqueued t _ _ ht hst) (hqueued u _ _ hu hst') rfl rfl)

/-- A client sleeps only while its line has not got its queues, or the constructor that gave them to it is about to
notify it. -/
theorem clients_noticed (hrun : program.machine.RunWhere ok (.start empty .idle) tr s) {t : τ} {l : Nat}
    (ht : (t, .line l) ∈ s.asleep) : s.data.joined l = false ∨ ∃ u, Joins l (s.pc u) := by
  have hnoticed := disciplined.noticed (fun _ w => l < w.lines.length ∧ w.joined l = false) (fun _ p => Joins l p)
    ?_ ?_ ?_ ?_ ?_ hrun ht
  · exact hnoticed.imp And.right id
  · intro past s t m k hrun _ hcode
    have hwaits := waits_of_run hrun t
    generalize s.pc t = p at hcode hwaits
    cases p with
    | idle => cases hcode
    | createClient _ st =>
      cases st <;> cases hcode
      exact ⟨(hwaits l rfl).1, (hwaits l rfl).2 rfl⟩
    | waitConnection _ _ st =>
      cases st with
      | scan =>
        simp only [program, code, serverCode] at hcode
        split at hcode <;> cases hcode
      | _ => cases hcode
  · rintro past s t k w es hrun _ hafter _ ⟨hlt, hnot⟩
    exact (joined_of_after hafter (at_of_run hrun t).2 hlt hnot).imp
      (fun hnot' => ⟨Nat.lt_of_lt_of_le hlt (lines_of_after hafter), hnot'⟩) id
  · rintro past s t k w es hrun _ ⟨a, timeout, st, hp, hst⟩ hafter
    rw [hp] at hafter ⊢
    cases st <;> cases hst <;> cases hafter
    · exact .inl ⟨_, _, _, rfl, rfl⟩
    · exact .inl ⟨_, _, _, rfl, rfl⟩
    · -- only the client of the line sleeps on its condition variable
      refine .inr (.inr ⟨rfl, fun u v hu hv => ?_⟩)
      have hclient : ∀ v, (v, .line l) ∈ s.asleep → ∃ a, s.pc v = .createClient a (.relock l) := by
        intro v hv
        have hat := disciplined.asleep_at hrun hv
        generalize s.pc v = p at hat
        cases p with
        | idle => cases hat
        | createClient a st =>
          cases st <;> cases hat
          exact ⟨a, rfl⟩
        | waitConnection _ _ st => cases st <;> cases hat
      obtain ⟨_, hu'⟩ := hclient u hu
      obtain ⟨_, hv'⟩ := hclient v hv
      exact client_unique hrun hu' hv' rfl rfl
  · rintro t p q hidle - ⟨a, timeout, st, rfl, -⟩
    cases hidle
  · rintro t p k hexpire ⟨a, timeout, st, rfl, hst⟩
    cases st <;> cases hst <;> cases hexpire

/-! ### Lines under way -/

/-- The line that an acceptor has taken and not yet adopted. -/
def ServerStage.serves : ServerStage → Option Nat
  | .construct l | .lockOther l _ | .setOut l _ | .setIn l _ | .connectOut l _ | .connectIn l _ | .notifyOther l _
  | .unlockOther l _ => some l
  | _ => none

/-- An acceptor that has taken the line `l` and not yet adopted it. -/
def Serves (l : Nat) (p : Point) : Prop :=
  ∃ address timeoutInMs st, p = .waitConnection address timeoutInMs st ∧ st.serves = some l

private theorem serves_of_after {p k : Point} {w w' : Inproc} {es : List Event} {l : Nat}
    (hafter : (code p w).after w = some (k, w', es)) (hp : Serves l p) :
    Serves l k ∨ ∃ server, .adopted l server ∈ es := by
  obtain ⟨address, timeoutInMs, st, rfl, hst⟩ := hp
  cases st <;> cases hst <;> cases hafter
  all_goals first
    | exact .inl ⟨_, _, _, rfl, rfl⟩
    | exact .inr ⟨_, List.mem_singleton.2 rfl⟩

private theorem serves_of_taken {p k : Point} {w w' : Inproc} {es : List Event} {address : String} {line : Handle}
    (hafter : (code p w).after w = some (k, w', es)) (hmem : .taken address line ∈ es) : Serves line.id k := by
  cases p with
  | idle => cases hafter
  | createClient _ st => cases st <;> cases hafter <;> simp at hmem
  | waitConnection a timeoutInMs st =>
    cases st with
    | scan =>
      simp only [code, serverCode] at hafter
      split at hafter
      · cases hafter
        cases List.mem_singleton.1 hmem
        exact ⟨_, _, _, rfl, rfl⟩
      · cases hafter
        cases hmem
    | _ =>
      cases hafter
      simp at hmem

/-- A line that was taken is adopted, or the acceptor is still at it. -/
theorem served_of_run (hrun : program.machine.RunWhere ok (.start empty .idle) tr s) {address : String}
    {line : Handle} (hmem : (address, line) ∈ taken tr) :
    (∃ server, (line.id, server) ∈ adoptions tr) ∨ ∃ t, Serves line.id (s.pc t) := by
  induction hrun with
  | start => cases hmem
  | @step tr s l s' es hrun _ hnext ih =>
    rw [adoptions_append]
    rw [taken_append] at hmem
    rcases List.mem_append.1 hmem with hmem | hmem
    · rcases ih hmem with ⟨server, hserver⟩ | ⟨t, ht⟩
      · exact .inl ⟨server, List.mem_append_left _ hserver⟩
      · rcases Program.thread_cases hnext t with ⟨hpc, -⟩ | ⟨p, -, hidle, -⟩ | ⟨k, es', hafter, hpc, rfl⟩ | ⟨k, hk, -⟩
        · exact .inr ⟨t, by rw [hpc]; exact ht⟩
        · obtain ⟨a, timeout, st, hp, -⟩ := ht
          rw [hp] at hidle
          cases hidle
        · rcases serves_of_after hafter ht with hserves | ⟨server, hserver⟩
          · exact .inr ⟨t, by rw [hpc]; exact hserves⟩
          · refine .inl ⟨server, List.mem_append_right _ ?_⟩
            rw [adoptions, seen_events]
            exact List.mem_filterMap.2 ⟨_, hserver, rfl⟩
        · obtain ⟨a, timeout, st, hp, hst⟩ := ht
          rw [hp] at hk
          cases st <;> cases hst <;> cases hk
    · right
      rcases Program.act_cases hnext with ⟨-, rfl | ⟨t, p, rfl⟩⟩ | ⟨t, es', hafter, rfl⟩
      · cases hmem
      · cases hmem
      · rw [taken, seen_events] at hmem
        obtain ⟨e, he, heq⟩ := List.mem_filterMap.1 hmem
        cases e <;> cases heq
        exact ⟨t, serves_of_taken hafter he⟩

/-! ### Stuck states -/

private theorem idle_of_stop {p : Point} {w : Inproc} (h : code p w = .stop) : p = .idle := by
  cases p with
  | idle => rfl
  | createClient _ st => cases st <;> cases h
  | waitConnection _ _ st =>
    cases st with
    | scan =>
      simp only [code, serverCode] at h
      split at h <;> cases h
    | _ => cases h

/-- A thread that holds a mutex and locks another one is an acceptor that locks a line. -/
private theorem line_of_lock {p k : Point} {w : Inproc} {m m' : Mutex} (hp : holds p m)
    (hcode : code p w = .lock m' k) : m = .gs ∧ ∃ l, m' = .line l := by
  cases p with
  | idle => cases hcode
  | createClient _ st => cases st <;> cases hcode <;> cases hp
  | waitConnection _ _ st =>
    cases st with
    | scan =>
      simp only [code, serverCode] at hcode
      split at hcode <;> cases hcode
    | lockOther l server =>
      cases hcode
      exact ⟨by simpa [holds, ServerStage.holds] using hp, l, rfl⟩
    | _ => cases hcode <;> cases hp

private theorem awake_of_holds (hrun : program.machine.RunWhere ok (.start empty .idle) tr s) {t : τ} {m : Mutex}
    (ht : holds (s.pc t) m) : s.Awake t := by
  rintro ⟨u, c⟩ hmem rfl
  have hat := disciplined.asleep_at hrun hmem
  generalize s.pc u = p at hat ht
  cases p with
  | idle => exact ht
  | createClient _ st =>
    cases st <;> cases hat
    cases ht
  | waitConnection _ _ st =>
    cases st <;> cases hat
    cases ht

/-- When nobody can act, an owner of a mutex is an acceptor that waits for the mutex of a line. -/
private theorem owner_of_stuck (hrun : program.machine.RunWhere ok (.start empty .idle) tr s)
    (hstuck : Stuck program s)
    {m : Mutex} {t : τ} (howner : s.owner m = some t) : m = .gs ∧ ∃ l u, s.owner (.line l) = some u := by
  have hholds := (disciplined.owner_iff rfl hrun t m).1 howner
  rcases hstuck.cases t with hasleep | hstop | ⟨m', k, u, hlock, howner'⟩
  · exact absurd (awake_of_holds hrun hholds) hasleep
  · rw [idle_of_stop hstop] at hholds
    exact hholds.elim
  · obtain ⟨hm, l, rfl⟩ := line_of_lock hholds hlock
    exact ⟨hm, l, u, howner'⟩

/-- When nobody can act, no mutex is taken. -/
theorem unowned_of_stuck (hrun : program.machine.RunWhere ok (.start empty .idle) tr s) (hstuck : Stuck program s)
    (m : Mutex) : s.owner m = none := by
  have hline : ∀ l u, s.owner (.line l) ≠ some u := fun l u howner => by cases (owner_of_stuck hrun hstuck howner).1
  by_contra hne
  obtain ⟨t, howner⟩ := Option.ne_none_iff_exists'.1 hne
  obtain ⟨-, l, u, howner'⟩ := owner_of_stuck hrun hstuck howner
  exact hline l u howner'

/-- When nobody can act, every thread is outside the calls, or a client or an acceptor that sleeps. -/
theorem asleep_of_stuck (hrun : program.machine.RunWhere ok (.start empty .idle) tr s) (hstuck : Stuck program s)
    (t : τ) : s.pc t = .idle ∨
      (∃ address l, s.pc t = .createClient address (.relock l) ∧ (t, .line l) ∈ s.asleep) ∨
        ∃ address timeoutInMs, s.pc t = .waitConnection address timeoutInMs .relock ∧ (t, .gs) ∈ s.asleep := by
  rcases hstuck.cases t with hasleep | hstop | ⟨m, k, u, -, howner⟩
  · obtain ⟨⟨u, c⟩, hmem, rfl⟩ : ∃ x ∈ s.asleep, x.1 = t := by simpa [State.Awake] using hasleep
    have hat := disciplined.asleep_at hrun hmem
    right
    cases hpc : s.pc u with
    | idle =>
      rw [hpc] at hat
      cases hat
    | createClient address st =>
      rw [hpc] at hat
      cases st <;> cases hat
      exact .inl ⟨address, _, rfl, hmem⟩
    | waitConnection address timeoutInMs st =>
      rw [hpc] at hat
      cases st <;> cases hat
      exact .inr ⟨address, timeoutInMs, rfl, hmem⟩
  · exact .inl (idle_of_stop hstop)
  · rw [unowned_of_stuck hrun hstuck m] at howner
    cases howner

/-- A client whose line is not queued is served, and a line that is served gets its queues. -/
private theorem queued_of_stuck (hrun : program.machine.RunWhere ok (.start empty .idle) tr s)
    (hstuck : Stuck program s) {t : τ} {address : String} {l : Nat}
    (hpc : s.pc t = .createClient address (.relock l)) (hasleep : (t, .line l) ∈ s.asleep) :
    ⟨l, address⟩ ∈ s.data.registry.connectQueue := by
  have hbusy : ∀ u a timeout st, s.pc u = .waitConnection a timeout st → st = .relock := by
    intro u a timeout st hu
    rcases asleep_of_stuck hrun hstuck u with h | ⟨_, _, h, -⟩ | ⟨_, _, h, -⟩ <;> rw [hu] at h <;> cases h
    rfl
  obtain ⟨hinv, -⟩ := inv_of_run hrun
  have hown : own t tr = [.queued ⟨l, address⟩] := by
    have hat := (at_of_run hrun t).2
    rw [hpc] at hat
    exact hat
  have hqueued : (⟨l, address⟩ : Handle) ∈ queued tr :=
    List.mem_filterMap.2 ⟨_, mem_of_own (by rw [hown]; exact List.mem_singleton_self _), rfl⟩
  refine (List.mem_append.1 (hinv.perm.mem_iff.2 hqueued)).resolve_left fun htaken => ?_
  obtain ⟨⟨a, line⟩, htaken, rfl⟩ := List.mem_map.1 htaken
  rcases served_of_run hrun htaken with ⟨server, hadopted⟩ | ⟨u, a', timeout, st, hu, hst⟩
  · obtain ⟨q, q', -, -, hline, -⟩ := hinv.crossed _ _ hadopted
    rcases clients_noticed hrun hasleep with hnot | ⟨u, a', timeout, st, hu, hst⟩
    · rw [joined, queueOf_of_line hline, queueOf_of_line hline] at hnot
      cases hnot
    · rw [hbusy u a' timeout st hu] at hst
      cases hst
  · rw [hbusy u a' timeout st hu] at hst
    cases hst

/-- Clients and acceptors do not miss each other.  An acceptor sleeps only while no client with its address is queued,
or a client is about to notify the acceptors; a client sleeps only while its line has not both its queues, or its
constructor is about to notify it.  When nobody can act, every thread is outside the calls, or an acceptor asleep with
no client of its address queued, or a client asleep with its line queued and no acceptor of its address there. -/
theorem no_missed_rendezvous (hrun : program.machine.RunWhere ok (.start empty .idle) tr s) :
    (∀ t address timeoutInMs, (t, .gs) ∈ s.asleep → s.pc t = .waitConnection address timeoutInMs .relock →
      (∀ line ∈ s.data.registry.connectQueue, line.address ≠ address) ∨ ∃ u, Queues (s.pc u)) ∧
    (∀ t l, (t, .line l) ∈ s.asleep → s.data.joined l = false ∨ ∃ u, Joins l (s.pc u)) ∧
    (Stuck program s → ∀ t, s.pc t = .idle ∨
      (∃ address timeoutInMs, s.pc t = .waitConnection address timeoutInMs .relock ∧
        ∀ line ∈ s.data.registry.connectQueue, line.address ≠ address) ∨
      ∃ address l, s.pc t = .createClient address (.relock l) ∧ ⟨l, address⟩ ∈ s.data.registry.connectQueue ∧
        ∀ u timeoutInMs st, s.pc u ≠ .waitConnection address timeoutInMs st) := by
  refine ⟨fun t address timeoutInMs ht => acceptors_noticed hrun ht, fun t l ht => clients_noticed hrun ht,
    fun hstuck t => ?_⟩
  -- nobody who sleeps is on the way to notify
  have hacceptor : ∀ u a timeout st, s.pc u = .waitConnection a timeout st →
      ∀ line ∈ s.data.registry.connectQueue, line.address ≠ a := by
    intro u a timeout st hu
    rcases asleep_of_stuck hrun hstuck u with h | ⟨_, _, h, -⟩ | ⟨_, _, h, hasleep⟩ <;> rw [hu] at h <;> cases h
    refine (acceptors_noticed hrun hasleep hu).resolve_right ?_
    rintro ⟨v, b, l, hv⟩
    rcases asleep_of_stuck hrun hstuck v with h | ⟨_, _, h, -⟩ | ⟨_, _, h, -⟩ <;> rw [hv] at h <;> cases h
  rcases asleep_of_stuck hrun hstuck t with hidle | ⟨address, l, hpc, hasleep⟩ | ⟨address, timeoutInMs, hpc, -⟩
  · exact .inl hidle
  · have hqueued := queued_of_stuck hrun hstuck hpc hasleep
    refine .inr (.inr ⟨address, l, hpc, hqueued, fun u timeout st hu => ?_⟩)
    exact hacceptor u address timeout st hu _ hqueued rfl
  · exact .inr (.inl ⟨address, timeoutInMs, hpc, hacceptor t address timeoutInMs _ hpc⟩)

/-- A client and an acceptor of different addresses. -/
theorem no_missed_rendezvous_pair : ∃ (tr : Trace Bool) (s : State Bool),
    program.machine.Run (.start empty .idle) tr s ∧ s.pc true = .waitConnection "b" 100 .relock ∧
      ∃ address l, s.pc false = .createClient address (.relock l) ∧ ⟨l, address⟩ ∈ s.data.registry.connectQueue ∧
        ∀ u timeoutInMs st, s.pc u ≠ .waitConnection address timeoutInMs st := by
  have h : ((program.machine.exec (.start empty .idle)
      (List.flatten [[.invoke true (.waitConnection "b" 100 .enter)], List.replicate 4 (.step true),
        [.invoke false (.createClient "a" .enter)], List.replicate 8 (.step false),
        List.replicate 4 (.step true)])).any fun r =>
      decide ((r.1.pc true = .waitConnection "b" 100 .relock ∧ r.1.pc false = .createClient "a" (.relock 0)) ∧
        ∀ t, (program.next r.1 (.step t)).isNone ∧ ∀ u, (program.next r.1 (.signal t u)).isNone)) = true := by
    decide +kernel
  obtain ⟨⟨s, tr⟩, hexec, hdecide⟩ := (Option.any_eq_true _ _).1 h
  obtain ⟨⟨hserver, hclient⟩, hnone⟩ := of_decide_eq_true hdecide
  have hrun := Machine.RunWhere.of_exec hexec
  have hstuck : Stuck program s := fun t =>
    ⟨Option.isNone_iff_eq_none.1 (hnone t).1, fun u => Option.isNone_iff_eq_none.1 ((hnone t).2 u)⟩
  refine ⟨tr, s, hrun, hserver, ?_⟩
  rcases (no_missed_rendezvous hrun).2.2 hstuck false with h | ⟨_, _, h, -⟩ | h
  · exact absurd (h.symm.trans hclient) Point.noConfusion
  · exact absurd (h.symm.trans hclient) Point.noConfusion
  · exact h

end Inproc

end Cppio
