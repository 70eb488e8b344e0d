import Cppio.InprocPairingProgress
import Cppio.InprocProcess

/-!
# Pointers to lines

`gs_connectQueue` holds raw pointers to the lines of clients.  Acceptors follow them: `waitConnection` compares the
addresses of the queued lines, and the constructor of its own line takes the mutex of the client's line and sets its
queues.  Nothing counts these pointers, and the caller of `createClient` may destroy the line as soon as it has it.

No pointer dangles (`no_dangling_line`): an acceptor follows a pointer only while the client that owns the line is
still inside `createClient`.  The reason is that a client returns only with an adopted line (`adopted_of_created`),
and that no acceptor has anything to do with a line any more once it is adopted (`unserved_of_adopted`).  A line that
is in use has both its queues, and shares none of them with a line that has it in the same direction.
-/

namespace Cppio

namespace Inproc

open Monitor

/-- The lines of clients to which a thread at this point follows a pointer. -/
def dereferenced (w : Inproc) (p : Point) : List Nat :=
  match p with
  | .waitConnection _ _ .scan => w.registry.connectQueue.map Handle.id
  | .waitConnection _ _ st => st.serves.toList
  | .idle | .createClient _ _ => []

/-- A client that is at work on the line `l`, which nobody else has got yet. -/
def Makes (l : Nat) (p : Point) : Prop := ∃ address st, p = .createClient address st ∧ st.line = some l

variable {τ : Type} {w w' : Inproc} {p k : Point} {es : List Event} {l : Nat}

theorem dereferenced_cases (h : l ∈ w.dereferenced p) :
    (∃ line ∈ w.registry.connectQueue, line.id = l) ∨ Serves l p := by
  cases p with
  | idle | createClient _ _ => cases h
  | waitConnection address timeoutInMs st =>
    cases st with
    | scan => exact .inl (List.mem_map.1 h)
    | _ => exact .inr ⟨address, timeoutInMs, _, rfl, Option.mem_toList.1 h⟩

/-! ### Clients at work -/

/-- A client keeps its line until it returns it. -/
private theorem makes_of_after (hafter : (code p w).after w = some (k, w', es)) {address : String}
    {st : ClientStage} (hp : p = .createClient address st) (hst : st.line = some l) :
    (∃ st', k = .createClient address st' ∧ st'.line = some l) ∨ .created ⟨l, address⟩ ∈ es := by
  subst hp
  cases st with
  | enter | create => cases hst
  | leave _ =>
    cases hst
    cases hafter
    exact .inr (List.mem_singleton_self _)
  | test _ | predicate _ =>
    cases hst
    cases hafter
    left
    split <;> exact ⟨_, rfl, rfl⟩
  | _ =>
    cases hst
    cases hafter
    exact .inl ⟨_, rfl, rfl⟩

private theorem makes_of_queued {line : Handle} (hafter : (code p w).after w = some (k, w', es))
    (hmem : .queued line ∈ es) : ∃ st, k = .createClient line.address st ∧ st.line = some line.id := by
  cases p with
  | idle => cases hafter
  | createClient address st =>
    cases st with
    | create =>
      cases hafter
      obtain rfl : line = ⟨w.lines.length, address⟩ := by simpa using hmem
      exact ⟨_, rfl, rfl⟩
    | _ =>
      cases hafter
      simp at hmem
  | waitConnection address timeoutInMs st =>
    cases st with
    | scan =>
      simp only [code, serverCode] at hafter
      split at hafter <;> cases hafter <;> simp at hmem
    | _ =>
      cases hafter
      simp at hmem

/-- An acceptor leaves when it has adopted a line. -/
private theorem leave_of_adopted {server : Nat} (hafter : (code p w).after w = some (k, w', es))
    (hmem : .adopted l server ∈ es) : ∃ address timeoutInMs,
      p = .waitConnection address timeoutInMs (.unlockOther l server) ∧
        k = .waitConnection address timeoutInMs (.leave (some server)) := by
  cases p with
  | idle => cases hafter
  | createClient _ st => cases st <;> cases hafter <;> simp at hmem
  | waitConnection address timeoutInMs st =>
    cases st with
    | scan =>
      simp only [code, serverCode] at hafter
      split at hafter <;> cases hafter <;> simp at hmem
    | unlockOther l' s =>
      cases hafter
      cases List.mem_singleton.1 hmem
      exact ⟨address, timeoutInMs, rfl, rfl⟩
    | _ =>
      cases hafter
      simp at hmem

/-- A line that is handed over is not the line of a server that was joined. -/
private theorem HandOver.ne_server {s c c' a b : Nat} {queue queue' : DataQueue InprocLine.queueSize}
    (hand : HandOver w l s c c' ⟨some c', some c⟩ queue queue') (hsound : Sound w) (hcrossed : Crossed w a b) :
    l ≠ b := by
  rintro rfl
  obtain ⟨q, q', hlt, -, ha, hb, -⟩ := hcrossed
  cases hb.symm.trans hand.client
  -- the lines `a` and `s` would have the same incoming queue
  have heq := hsound.unshared .incoming a s _ (queueOf_of_line ha) (queueOf_of_line hand.server)
  have := hand.lt
  omega

section Runs

variable [DecidableEq τ] {ok : State τ → Label τ Point → Prop} {s : State τ} {tr : Trace τ}

/-- The client that queued a line is at work on it, or has returned it. -/
private theorem makes_or_created (hrun : program.machine.RunWhere ok (.start empty .idle) tr s) {t : τ}
    {line : Handle} (hmem : (t, .event (.queued line)) ∈ tr) :
    (∃ st, s.pc t = .createClient line.address st ∧ st.line = some line.id) ∨ (t, .event (.created line)) ∈ tr := by
  induction hrun with
  | start => cases hmem
  | @step tr s l s' es hrun _ hnext ih =>
    rcases List.mem_append.1 hmem with hmem | hmem
    · rcases ih hmem with ⟨st, ht, hst⟩ | hcreated
      · rcases Program.thread_cases hnext t with
          ⟨hpc, -⟩ | ⟨p, -, hidle, -⟩ | ⟨k, es', hafter, hpc, rfl⟩ | ⟨k, hk, -⟩
        · exact .inl ⟨st, by rw [hpc, ht], hst⟩
        · rw [ht] at hidle
          cases hidle
        · rcases makes_of_after hafter ht hst with ⟨st', rfl, hst'⟩ | hcreated
          · exact .inl ⟨st', hpc, hst'⟩
          · exact .inr (List.mem_append_right _ (List.mem_map_of_mem hcreated))
        · rw [ht] at hk
          cases hk
      · exact .inr (List.mem_append_left _ hcreated)
    · obtain ⟨es', hafter, hqueued⟩ := Program.act_of_event hnext hmem
      exact .inl (makes_of_queued hafter hqueued)

/-- A line that was returned by `createClient` was adopted before. -/
theorem adopted_of_created (hrun : program.machine.RunWhere ok (.start empty .idle) tr s) {t : τ} {line : Handle}
    (hmem : (t, .event (.created line)) ∈ tr) : ∃ server, (line.id, server) ∈ adoptions tr := by
  induction hrun with
  | start => cases hmem
  | step hrun _ hnext ih =>
    rw [adoptions_append]
    rcases List.mem_append.1 hmem with hmem | hmem
    · obtain ⟨server, hadopted⟩ := ih hmem
      exact ⟨server, List.mem_append_left _ hadopted⟩
    · obtain ⟨es', hafter, hcreated⟩ := Program.act_of_event hnext hmem
      obtain ⟨server, hadopted⟩ := (inv_of_run hrun).2.returns t _ _ (created_of_after hafter hcreated)
      exact ⟨server, List.mem_append_left _ hadopted⟩

/-! ### Adopted lines -/

private theorem taken_of_serves (hrun : program.machine.RunWhere ok (.start empty .idle) tr s) {t : τ}
    (ht : Serves l (s.pc t)) : ∃ address, (t, .event (.taken address ⟨l, address⟩)) ∈ tr := by
  obtain ⟨address, timeoutInMs, st, hpc, hst⟩ := ht
  have hat := (at_of_run hrun t).2
  rw [hpc] at hat
  have hown : own t tr = [.taken address ⟨l, address⟩] := by
    cases st <;> cases hst <;> exact hat.1
  exact ⟨address, mem_of_own (by rw [hown]; exact List.mem_singleton_self _)⟩

/-- A line is served by one thread at most. -/
private theorem server_unique (hrun : program.machine.RunWhere ok (.start empty .idle) tr s) {t u : τ}
    (ht : Serves l (s.pc t)) (hu : Serves l (s.pc u)) : t = u := by
  obtain ⟨hinv, -⟩ := inv_of_run hrun
  obtain ⟨a, ht⟩ := taken_of_serves hrun ht
  obtain ⟨b, hu⟩ := taken_of_serves hrun hu
  have hnodup : (((taken tr).map Prod.snd).map Handle.id).Nodup := by
    have hperm := hinv.perm.map Handle.id
    rw [List.map_append] at hperm
    exact (hperm.nodup_iff.2 hinv.distinct).of_append_left
  rw [taken, seen, List.map_filterMap, List.map_filterMap] at hnodup
  exact congrArg Prod.fst (eq_of_nodup_filterMap hnodup ht hu rfl rfl)

/-- An acceptor begins to serve a line when it takes it from the queue. -/
private theorem serves_before (hafter : (code p w).after w = some (k, w', es)) (hk : Serves l k) :
    Serves l p ∨ ∃ address line registry, w.registry.takeClient address = some (line, registry) ∧ line.id = l := by
  obtain ⟨address, timeoutInMs, st', rfl, hst'⟩ := hk
  cases p with
  | idle => cases hafter
  | createClient a st => cases st <;> cases hafter
  | waitConnection a timeout st =>
    cases st with
    | scan =>
      simp only [code, serverCode] at hafter
      split at hafter
      · rename_i line registry htake
        cases hafter
        exact .inr ⟨_, line, registry, htake, Option.some.inj hst'⟩
      · cases hafter
        cases hst'
    | deadline =>
      simp only [code, serverCode, Action.after, Option.some.injEq, Prod.mk.injEq, Point.waitConnection.injEq]
        at hafter
      obtain ⟨⟨-, -, rfl⟩, -⟩ := hafter
      split at hst' <;> cases hst'
    | unlockOther _ _ =>
      cases hafter
      cases hst'
    | leave _ => cases hafter
    | _ =>
      cases hafter
      exact .inl ⟨_, _, _, rfl, hst'⟩

private theorem serves_of_next {s' : State τ} {label : Label τ Point} {es : Trace τ}
    (hnext : program.next s label = some (s', es)) {t : τ} (ht : Serves l (s'.pc t)) :
    Serves l (s.pc t) ∨
      ∃ address line registry, s.data.registry.takeClient address = some (line, registry) ∧ line.id = l := by
  rcases Program.thread_cases hnext t with
    ⟨hpc, -⟩ | ⟨p, -, -, hentry, hpc, -⟩ | ⟨k, es', hafter, hpc, -⟩ | ⟨k, hk, hpc, -⟩
  · exact .inl (by rwa [hpc] at ht)
  · obtain ⟨address, timeoutInMs, st, hst, hserves⟩ := ht
    rw [← hpc, hst] at hentry
    cases st <;> cases hentry
    cases hserves
  · exact serves_before hafter (by rwa [hpc] at ht)
  · obtain ⟨address, timeoutInMs, st, hst, hserves⟩ := ht
    rw [← hpc, hst] at hk
    generalize s.pc t = p at hk
    cases p with
    | idle | createClient _ _ => cases hk
    | waitConnection _ _ st' =>
      cases st' <;> cases hk
      cases hserves

/-- With its adoption a line ceases to be served. -/
private theorem served_of_adopted {s' : State τ} {label : Label τ Point} {es : Trace τ}
    (hnext : program.next s label = some (s', es)) {server : Nat} (hmem : (l, server) ∈ adoptions es) :
    ∃ t address timeoutInMs, s.pc t = .waitConnection address timeoutInMs (.unlockOther l server) ∧
      ¬ Serves l (s'.pc t) := by
  obtain ⟨⟨t, o⟩, hmem, heq⟩ := List.mem_filterMap.1 hmem
  cases o with
  | call _ => cases heq
  | event e =>
    cases e <;> cases heq
    obtain ⟨es', hafter, hadopted⟩ := Program.act_of_event hnext hmem
    obtain ⟨address, timeoutInMs, hp, hk⟩ := leave_of_adopted hafter hadopted
    refine ⟨t, address, timeoutInMs, hp, ?_⟩
    rw [hk]
    rintro ⟨_, _, st, hst, hserves⟩
    cases hst
    cases hserves

/-- No acceptor serves a line that is adopted. -/
theorem unserved_of_adopted (hrun : program.machine.RunWhere ok (.start empty .idle) tr s) {server : Nat}
    (hmem : (l, server) ∈ adoptions tr) (t : τ) : ¬ Serves l (s.pc t) := by
  induction hrun generalizing t with
  | start => cases hmem
  | @step tr s label s' es hrun _ hnext ih =>
    -- a line with queues is not in the registry
    have huntaken : ∀ queues queues', s.data.lines[l]? = some ⟨some queues, some queues'⟩ →
        ∀ address line registry, s.data.registry.takeClient address = some (line, registry) → line.id ≠ l := by
      rintro q q' hline address line registry htake rfl
      obtain ⟨-, -, hnone, -⟩ := (at_of_run hrun t).1.take htake
      cases hline.symm.trans hnone
    rw [adoptions_append] at hmem
    intro ht
    rcases List.mem_append.1 hmem with hmem | hmem
    · obtain ⟨q, q', -, -, hline, -⟩ := (inv_of_run hrun).1.crossed _ _ hmem
      rcases serves_of_next hnext ht with ht | ⟨address, line, registry, htake, heq⟩
      · exact ih hmem t ht
      · exact huntaken _ _ hline address line registry htake heq
    · obtain ⟨u, address, timeoutInMs, hu, hleft⟩ := served_of_adopted hnext hmem
      have hat := (at_of_run hrun u).2
      rw [hu] at hat
      obtain ⟨-, q, q', hand⟩ := hat
      rcases serves_of_next hnext ht with ht' | ⟨address, line, registry, htake, heq⟩
      · obtain rfl := server_unique hrun ht' ⟨address, timeoutInMs, _, hu, rfl⟩
        exact hleft ht
      · exact huntaken _ _ hand.client address line registry htake heq

/-- A line to which an acceptor follows a pointer was queued. -/
private theorem queued_of_dereferenced (hrun : program.machine.RunWhere ok (.start empty .idle) tr s) {t : τ}
    (h : l ∈ s.data.dereferenced (s.pc t)) : ∃ line u, line.id = l ∧ (u, .event (.queued line)) ∈ tr := by
  obtain ⟨hinv, -⟩ := inv_of_run hrun
  obtain ⟨line, hline, hid⟩ : ∃ line ∈ queued tr, line.id = l := by
    rcases dereferenced_cases h with ⟨line, hline, hid⟩ | hserves
    · exact ⟨line, hinv.perm.mem_iff.1 (List.mem_append_right _ hline), hid⟩
    · obtain ⟨address, htaken⟩ := taken_of_serves hrun hserves
      have hmem : (address, (⟨l, address⟩ : Handle)) ∈ taken tr := List.mem_filterMap.2 ⟨_, htaken, rfl⟩
      exact ⟨_, hinv.perm.mem_iff.1 (List.mem_append_left _ (List.mem_map_of_mem hmem)), rfl⟩
  obtain ⟨⟨u, o⟩, hmem, heq⟩ := List.mem_filterMap.1 hline
  cases o with
  | call _ => cases heq
  | event e =>
    cases e <;> cases heq
    exact ⟨line, u, hid, hmem⟩

/-- A line to which an acceptor follows a pointer is not one of two that were joined. -/
theorem unjoined_of_dereferenced (hrun : program.machine.RunWhere ok (.start empty .idle) tr s) {t : τ}
    (h : l ∈ s.data.dereferenced (s.pc t)) {a b : Nat} (hmem : (a, b) ∈ adoptions tr) : l ≠ a ∧ l ≠ b := by
  obtain ⟨hsound, hat⟩ := at_of_run hrun t
  have hcrossed := (inv_of_run hrun).1.crossed _ _ hmem
  obtain ⟨q, q', -, -, ha, hb, -⟩ := id hcrossed
  rcases dereferenced_cases h with ⟨line, hline, rfl⟩ | hserves
  · -- a queued line has no queues
    have hnone := hsound.queued line hline
    constructor
    · rintro rfl
      cases hnone.symm.trans ha
    · rintro rfl
      cases hnone.symm.trans hb
  · refine ⟨fun heq => unserved_of_adopted hrun hmem t (heq ▸ hserves), ?_⟩
    rintro rfl
    obtain ⟨address, timeoutInMs, st, hpc, hst⟩ := hserves
    rw [hpc] at hat
    cases st <;> cases hst
    · cases hb.symm.trans hat.2.1
    all_goals obtain ⟨-, c, c', hat⟩ := hat
    · cases hb.symm.trans hat.client
    · cases hb.symm.trans hat.client
    · cases hb.symm.trans hat.client
    all_goals exact hat.ne_server hsound hcrossed rfl

/-- An acceptor follows pointers only to lines whose clients are still in `createClient`. -/
theorem makes_of_dereferenced (hrun : program.machine.RunWhere ok (.start empty .idle) tr s) {t : τ}
    (h : l ∈ s.data.dereferenced (s.pc t)) : ∃ u, Makes l (s.pc u) := by
  obtain ⟨line, u, rfl, hqueued⟩ := queued_of_dereferenced hrun h
  rcases makes_or_created hrun hqueued with ⟨st, hu, hst⟩ | hcreated
  · exact ⟨u, line.address, st, hu, hst⟩
  · obtain ⟨server, hadopted⟩ := adopted_of_created hrun hcreated
    exact absurd rfl (unjoined_of_dereferenced hrun h hadopted).1

end Runs

end Inproc

namespace InprocProcess

variable {τ : Type} [DecidableEq τ]

/-- No pointer to a line or to a queue dangles.  In every run of a process, when an acceptor follows a pointer to the
line of a client, that client is still inside `createClient`, and nobody has got the line or destroyed it; and a line
that may be used, or is being destroyed, has both its queues, each of which no other line has in the same direction.
-/
theorem no_dangling_line (tr : Trace τ) (w : InprocProcess τ) (hrun : (machine τ).Run start tr w) :
    (∀ t l, l ∈ w.pairing.data.dereferenced (w.pairing.pc t) →
      (∃ u, Inproc.Makes l (w.pairing.pc u)) ∧ ¬ w.Lent l ∧ ∀ u, .destroyed u l ∉ tr) ∧
    ∀ l direction, w.Lent l → ∃ q < w.pairing.data.queues.length, w.pairing.data.queueOf direction l = some q ∧
      ∀ l', w.pairing.data.queueOf direction l' = some q → l' = l := by
  have hinv := inv_of_run hrun
  have hlent : ∀ l, w.Lent l → ∃ p e, Joined w tr p ∧ p.line e = l := by
    rintro l (hl | ⟨t, ht⟩)
    · exact hinv.owned.returned l hl
    · exact hinv.owned.destroying t l ht
  refine ⟨fun t l hl => ?_, fun l direction hl => ?_⟩
  · have hunjoined : ∀ p e, Joined w tr p → p.line e ≠ l := by
      intro p e hp
      obtain ⟨hclient, hserver⟩ := Inproc.unjoined_of_dereferenced hinv.pairing hl hp.adopted
      cases e
      · exact hclient.symm
      · exact hserver.symm
    refine ⟨Inproc.makes_of_dereferenced hinv.pairing hl, fun h => ?_, fun u h => ?_⟩
    · obtain ⟨p, e, hp, heq⟩ := hlent l h
      exact hunjoined p e hp heq
    · obtain ⟨p, e, hp, heq⟩ := hinv.destroyed u l h
      exact hunjoined p e hp heq
  · obtain ⟨p, e, hp, rfl⟩ := hlent l hl
    obtain ⟨hlt, -⟩ := List.getElem?_eq_some_iff.1 (hp.connected (writer direction e))
    have hqueue := hp.crossed direction e
    have hsound := hp.sound hinv.pairing
    exact ⟨_, hlt, hqueue, fun l' hl' => hsound.unshared direction l' _ _ hl' hqueue⟩

/-- An acceptor is about to take the mutex of a client's line. -/
theorem no_dangling_line_one : ∃ tr w, (machine Bool).Run start tr w ∧
    w.pairing.pc true = .waitConnection "a" 100 (.lockOther 0 1) ∧ ∃ u, Inproc.Makes 0 (w.pairing.pc u) := by
  have h : (((machine Bool).exec start
      (List.flatten [[.pair (.invoke false (.createClient "a" .enter))], List.replicate 8 (.pair (.step false)),
        [.pair (.invoke true (.waitConnection "a" 100 .enter))], List.replicate 3 (.pair (.step true))])).any fun r =>
      decide (r.1.pairing.pc true = .waitConnection "a" 100 (.lockOther 0 1))) = true := by
    decide +kernel
  obtain ⟨⟨w, tr⟩, hexec, hdecide⟩ := (Option.any_eq_true _ _).1 h
  have hpc := of_decide_eq_true hdecide
  have hrun := Machine.RunWhere.of_exec hexec
  exact ⟨tr, w, hrun, hpc, ((no_dangling_line tr w hrun).1 true 0 (by rw [hpc]; exact List.mem_singleton_self _)).1⟩

end InprocProcess

end Cppio
