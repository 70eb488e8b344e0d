import Cppio.InprocProcess
import Cppio.InprocTransport
import Cppio.MessageStream
import Cppio.ReadMessageProgress

/-!
# Receiving messages until the connection is lost

The reads on a line of a process may be those of calls of `readMessage`, one after the other and each with an empty
message, up to the first call that does not return 1; they may be made by several threads in turn.
`Reception.ofTrace` follows these calls along what is seen of the queue that the line reads from.

Whoever writes to that queue, in whatever blocks, the messages received are those at the beginning of the bytes
accepted, and when a read reports a lost connection, all messages that were accepted in full have been received
(`complete_before_loss`).
-/

namespace Cppio

open MessageProtocol

/-! ### Receptions -/

/-- The calls of `readMessage` that are behind the reads on a queue. -/
structure Reception (τ : Type) where
  /-- The messages of the calls that returned 1. -/
  received : List Message
  /-- The call in progress, or the result of the last one. -/
  current : Except Int (Reader (Int × Message))
  /-- The thread in a read of the call in progress. -/
  reading : Option τ

namespace Reception

open Monitor DataQueue

variable {τ : Type}

def start : Reception τ := { received := [], current := .ok (readMessage .empty), reading := none }

/-- The read returns, and the call goes on as `p`; when it is over with 1, the next one begins. -/
def resume (rc : Reception τ) : Reader (Int × Message) → Reception τ
  | .done (result, m) =>
    if result = 1 then ⟨rc.received ++ [m], .ok (readMessage .empty), none⟩ else ⟨rc.received, .error result, none⟩
  | .ask n k => ⟨rc.received, .ok (.ask n k), none⟩

/-- What is seen next of the queue; `none` when a read begins that is not the one the call in progress makes. -/
def observe (rc : Reception τ) : τ × Obs Point DataQueue.Event → Option (Reception τ)
  | (t, .call (.busy c _)) =>
    match c.buflen, rc.current, rc.reading with
    | none, _, _ => some rc
    | some n, .ok (.ask n' _), none => if n = n' then some { rc with reading := some t } else none
    | some _, _, _ => none
  | (_, .event (.ret c r)) =>
    match c.buflen, rc.current with
    | none, _ => some rc
    | some _, .ok (.ask _ k) => some (rc.resume (k r.readResult))
    | some _, _ => none
  | _ => some rc

/-- The calls of `readMessage` behind what is seen of a queue, if its reads are those of such calls. -/
def ofTrace (tr : DataQueue.Trace τ) : Option (Reception τ) := tr.foldlM observe start

theorem ofTrace_snoc {tr : DataQueue.Trace τ} {x : τ × Obs Point DataQueue.Event} {rc : Reception τ} :
    ofTrace (tr ++ [x]) = some rc ↔ ∃ rc₀, ofTrace tr = some rc₀ ∧ rc₀.observe x = some rc := by
  simp [ofTrace, List.foldlM_append, Option.bind_eq_some_iff]

/-- After the last call there are no more reads. -/
theorem stopped_of_fold {future : DataQueue.Trace τ} : ∀ {rc rc' : Reception τ} {result : Int},
    rc.current = .error result → future.foldlM observe rc = some rc' → rc' = rc := by
  induction future with
  | nil =>
    intro rc rc' result _ h
    simp only [List.foldlM_nil, Option.pure_def, Option.some.injEq] at h
    exact h.symm
  | cons x future ih =>
    intro rc rc' result hstopped h
    simp only [List.foldlM_cons, Option.bind_eq_bind, Option.bind_eq_some_iff] at h
    obtain ⟨rc₁, hobserve, hrest⟩ := h
    have hsame : rc₁ = rc := by
      unfold observe at hobserve
      rw [hstopped] at hobserve
      split at hobserve
      · split at hobserve <;> simp_all
      · split at hobserve <;> simp_all
      · simp_all
    subst hsame
    exact ih hstopped hrest

/-- The bytes that the read in progress has taken out of the buffer. -/
def inRead [DecidableEq τ] (rc : Reception τ) (tr : DataQueue.Trace τ) : List Byte :=
  match rc.reading with
  | some t => (own t tr).flatMap Link.moved
  | none => []

/-- What holds of the calls of `readMessage` in a run of the queue. -/
structure Inv [DecidableEq τ] {N : Nat} (tr : DataQueue.Trace τ) (s : DataQueue.State τ N) (rc : Reception τ) :
    Prop where
  inside : ∀ t c st n, s.pc t = .busy c st → c.buflen = some n → rc.reading = some t
  asked : ∀ t, rc.reading = some t →
    ∃ c st n k, s.pc t = .busy c st ∧ c.buflen = some n ∧ rc.current = .ok (.ask n k)
  encodable : ∀ m ∈ rc.received, m.Encodable
  taken : ∀ p, rc.current = .ok p → ∃ results, After (readMessage .empty) results p ∧
    (∀ r ∈ results, 0 < toInt32 r.value) ∧
    delivered tr = encodings rc.received ++ goodBytes results ++ rc.inRead tr
  stopped : ∀ result, rc.current = .error result →
    (result = ErrorCode.eTimeout.code ∨ result = ErrorCode.eConnectionLost.code) ∧
      encodings rc.received <+: delivered tr

section Runs

variable [DecidableEq τ] {N : Nat} {calls : Call → Bool} {ok : DataQueue.State τ N → Label τ Point → Prop}
  {q₀ : DataQueue N} {tr es : DataQueue.Trace τ} {s s' : DataQueue.State τ N} {l : Label τ Point}
  {rc rc' : Reception τ}

/-- The same threads are in the same reading calls. -/
def SameReads (s s' : DataQueue.State τ N) : Prop :=
  ∀ t c n, c.buflen = some n → ((∃ st, s.pc t = .busy c st) ↔ ∃ st, s'.pc t = .busy c st)

omit [DecidableEq τ] in
private theorem sameReads_of_sameCall (h : ∀ t, SameCall t s s') : SameReads s s' := by
  intro t c n _
  constructor
  · rintro ⟨st, hst⟩
    exact (h t).2 c st hst
  · rintro ⟨st, hst⟩
    exact (h t).busy hst

/-- A step that leaves the calls of `readMessage` as they are. -/
private theorem Inv.keep (h : Inv tr s rc) (hsame : SameReads s s')
    (hread : rc.inRead (tr ++ es) = rc.inRead tr ++ delivered es) : Inv (tr ++ es) s' rc where
  inside t c st n hpc hc := by
    obtain ⟨st₀, hst₀⟩ := (hsame t c n hc).2 ⟨st, hpc⟩
    exact h.inside t c st₀ n hst₀ hc
  asked t ht := by
    obtain ⟨c, st, n, k, hpc, hc, hcurrent⟩ := h.asked t ht
    obtain ⟨st', hst'⟩ := (hsame t c n hc).1 ⟨st, hpc⟩
    exact ⟨c, st', n, k, hst', hc, hcurrent⟩
  encodable := h.encodable
  taken p hp := by
    obtain ⟨results, hafter, hgood, hdelivered⟩ := h.taken p hp
    exact ⟨results, hafter, hgood, by rw [delivered_append, hread, hdelivered, List.append_assoc]⟩
  stopped result hresult := by
    obtain ⟨hcode, hpre⟩ := h.stopped result hresult
    rw [delivered_append]
    exact ⟨hcode, hpre.trans (List.prefix_append _ _)⟩

/-- What threads outside a read do is not seen by the read in progress. -/
private theorem Inv.inRead_of_ne (h : Inv tr s rc) {t : τ} {c : Call} {st : Stage} (hpc : s.pc t = .busy c st)
    (hc : c.buflen = none) (x : Obs Point DataQueue.Event) : rc.inRead (tr ++ [(t, x)]) = rc.inRead tr := by
  unfold inRead
  cases hreading : rc.reading with
  | none => rfl
  | some u =>
    have hne : t ≠ u := by
      rintro rfl
      obtain ⟨c', st', n, k, hpc', hc', -⟩ := h.asked t hreading
      rw [hpc] at hpc'
      cases hpc'
      rw [hc] at hc'
      cases hc'
    simp only
    rw [own_snoc_of_ne hne]

/-- The read in progress takes bytes out of the buffer. -/
private theorem Inv.took (h : Inv tr s rc) {t : τ} {c : Call} {st : Stage} {n : Nat} (hpc : s.pc t = .busy c st)
    (hc : c.buflen = some n) (bs : List Byte) :
    rc.inRead (tr ++ [(t, .event (.took bs))]) = rc.inRead tr ++ bs := by
  unfold inRead
  rw [h.inside t c st n hpc hc]
  simp [Link.moved]

/-- A read returns bytes: the call of `readMessage` goes on with them, or has received a message. -/
private theorem Inv.gotBytes (hN : N ≤ 2 ^ 31) (h : Inv tr s rc) {t : τ} {n : Nat}
    {k : ReadResult → Reader (Int × Message)} {bs : List Byte} (hcurrent : rc.current = .ok (.ask n k))
    (hreading : rc.reading = some t) (hown : own t tr = [.took bs]) (hle : bs.length ≤ n) (hlt : bs.length < N)
    (hne : 0 < n → bs ≠ []) {x : DataQueue.Event} (hx : delivered [(t, Obs.event x)] = [])
    (hnone : ∀ u c st n, s'.pc u = .busy c st → c.buflen ≠ some n) :
    Inv (tr ++ [(t, .event x)]) s' (rc.resume (k (.ok bs))) := by
  obtain ⟨results, hafter, hgood, hdelivered⟩ := h.taken _ hcurrent
  have hgives := hafter.givesUp (givesUp_readMessage _)
  have hfit : 0 < toInt32 (ReadResult.value (.ok bs)) := fitsInt_of_lt (hne hgives.1) (by omega)
  have hafter' := hafter.read (r := .ok bs) hle
  have hgood' : ∀ r ∈ results ++ [.ok bs], 0 < toInt32 r.value := by
    intro r hr
    rcases List.mem_append.1 hr with hr | hr
    · exact hgood r hr
    · rw [List.mem_singleton.1 hr]
      exact hfit
  have hall : delivered (tr ++ [(t, .event x)]) = encodings rc.received ++ goodBytes (results ++ [.ok bs]) := by
    rw [delivered_append, hx, List.append_nil, hdelivered, goodBytes_snoc, if_pos hfit, inRead, hreading]
    simp [hown, Link.moved, ReadResult.bytes]
  cases hk : k (.ok bs) with
  | ask n' k' =>
    rw [hk] at hafter'
    refine ⟨fun u c st n hpc hc => absurd hc (hnone u c st n hpc), fun _ hu => absurd hu (Option.some_ne_none _).symm,
      h.encodable, fun p hp => ?_, fun result hresult => ?_⟩
    · cases hp
      exact ⟨_, hafter', hgood', by rw [hall, inRead, resume, List.append_nil]⟩
    · cases hresult
  | done outcome =>
    rw [hk] at hafter'
    obtain ⟨m, hm, rfl, hbytes⟩ := hafter'.received hgood'
    rw [resume, if_pos rfl]
    refine ⟨fun u c st n hpc hc => absurd hc (hnone u c st n hpc), fun _ hu => absurd hu (Option.some_ne_none _).symm,
      fun m' hm' => ?_, fun p hp => ?_, fun result hresult => ?_⟩
    · rcases List.mem_append.1 hm' with hm' | hm'
      · exact h.encodable m' hm'
      · rw [List.mem_singleton.1 hm']
        exact hm
    · cases hp
      refine ⟨[], .start, by simp, ?_⟩
      rw [hall, hbytes]
      simp [encodings, goodBytes, inRead]
    · cases hresult

/-- A read returns an error: the call of `readMessage` returns it. -/
private theorem Inv.gotError (h : Inv tr s rc) {t : τ} {n : Nat} {k : ReadResult → Reader (Int × Message)}
    {e : ErrorCode} (hcurrent : rc.current = .ok (.ask n k)) (he : e = .eTimeout ∨ e = .eConnectionLost)
    {x : DataQueue.Event} (hx : delivered [(t, Obs.event x)] = [])
    (hnone : ∀ u c st n, s'.pc u = .busy c st → c.buflen ≠ some n) :
    Inv (tr ++ [(t, .event x)]) s' (rc.resume (k (.error e))) ∧
      (rc.resume (k (.error e))).current = .error e.code ∧ (rc.resume (k (.error e))).received = rc.received := by
  obtain ⟨results, hafter, -, hdelivered⟩ := h.taken _ hcurrent
  have hcode : toInt32 (ReadResult.value (.error e)) = e.code := toInt32_code e
  have hneg := e.code_neg
  obtain ⟨m, hm⟩ := ((hafter.givesUp (givesUp_readMessage _)).2 (.error e)).2 (by rw [hcode]; omega)
  have hresume : rc.resume (k (.error e)) = ⟨rc.received, .error e.code, none⟩ := by
    rw [hm, hcode, resume, if_neg (by omega)]
  rw [hresume]
  refine ⟨⟨fun u c st n hpc hc => absurd hc (hnone u c st n hpc), fun _ hu => absurd hu (Option.some_ne_none _).symm,
    h.encodable, fun p hp => ?_, fun result hresult => ?_⟩, rfl, rfl⟩
  · cases hp
  cases hresult
  refine ⟨by rcases he with rfl | rfl <;> simp, ?_⟩
  rw [delivered_append, hx, List.append_nil, hdelivered, List.append_assoc]
  exact List.prefix_append _ _

/-- The return of a read: what the call of `readMessage` makes of its result. -/
private theorem inv_return (hN : N ≤ 2 ^ 31) (h : Inv tr s rc) {t : τ} {c : Call} {r : DataQueue.Result} {n : Nat}
    (hpc : s.pc t = .busy c (.leave r)) (hc : c.buflen = some n) (haccounts : Accounts N c r (own t tr))
    (hidle : s'.pc t = .idle) (hother : ∀ u, u ≠ t → SameCall u s s')
    (hobserve : rc.observe (t, .event (.ret c r)) = some rc') :
    Inv (tr ++ [(t, .event (.ret c r))]) s' rc' ∧ (r = .error .eConnectionLost →
      rc'.current = .error ErrorCode.eConnectionLost.code ∧ rc'.received = rc.received) := by
  have hreading := h.inside t c _ n hpc hc
  obtain ⟨c', st, n', k, hpc', hc', hcurrent⟩ := h.asked t hreading
  rw [hpc] at hpc'
  cases hpc'
  rw [hc] at hc'
  cases hc'
  simp only [observe, hc, hcurrent, Option.some.injEq] at hobserve
  subst hobserve
  have hnone : ∀ u c st n, s'.pc u = .busy c st → c.buflen ≠ some n := by
    intro u c₁ st₁ n₁ hpc₁ hc₁
    by_cases hu : u = t
    · rw [hu, hidle] at hpc₁
      cases hpc₁
    · obtain ⟨st₀, hst₀⟩ := (hother u hu).busy hpc₁
      have hreading' := h.inside u c₁ st₀ n₁ hst₀ hc₁
      rw [hreading] at hreading'
      exact hu (Option.some.inj hreading').symm
  cases c with
  | write _ | setConnectionFlag _ => cases hc
  | read buflen | readWithTimeout buflen timeout =>
    cases hc
    cases r with
    | bytes bs =>
      obtain ⟨hle, hlt, hne, hown⟩ := haccounts
      exact ⟨h.gotBytes hN hcurrent hreading hown hle hlt hne rfl hnone, fun h => by cases h⟩
    | error e =>
      cases e with
      | eTimeout =>
        refine ⟨?_, fun h => by cases h⟩
        first
          | exact haccounts.elim
          | exact (h.gotError hcurrent (.inl rfl) rfl hnone).1
      | eConnectionLost =>
        obtain ⟨hinv, hlast⟩ := h.gotError (x := .ret _ (.error .eConnectionLost)) hcurrent (.inr rfl) rfl hnone
        exact ⟨hinv, fun _ => hlast⟩
      | eTooBigBuffer | eUnknown => exact haccounts.elim
    | count _ | void => exact haccounts.elim

/-- A step of the queue. -/
private theorem inv_next (hN : N ≤ 2 ^ 31) (h : ∀ rc, ofTrace tr = some rc → Inv tr s rc)
    (hreports : Throughout (Reports N calls) (tr ++ es)) (hnext : (program N calls).next s l = some (s', es))
    (hrc : ofTrace (tr ++ es) = some rc') : Inv (tr ++ es) s' rc' := by
  by_cases hl : ∃ t p, l = .invoke t p
  · obtain ⟨t, p, rfl⟩ := hl
    simp only [Program.next] at hnext
    split at hnext <;> cases hnext
    rename_i hp
    obtain ⟨rc, hbefore, hobserve⟩ := ofTrace_snoc.1 hrc
    have hinv := h rc hbefore
    have hidle : s.pc t = .idle := by simpa [program] using hp.1
    have hother : ∀ u, u ≠ t → (s.goto t p).pc u = s.pc u := fun u hu => s.goto_of_ne hu p
    have hself : (s.goto t p).pc t = p := s.goto_self t p
    cases p with
    | idle => cases hp.2
    | busy c st =>
      have hunread : ∀ u, rc.reading = some u → u ≠ t := by
        rintro u hu rfl
        obtain ⟨_, _, _, _, hpc, -, -⟩ := hinv.asked u hu
        rw [hidle] at hpc
        cases hpc
      cases hc : c.buflen with
      | none =>
        simp only [observe, hc, Option.some.injEq] at hobserve
        subst hobserve
        refine hinv.keep (fun u c' n hc' => ?_) ?_
        · by_cases hu : u = t
          · subst hu
            constructor
            · rintro ⟨st', hst'⟩
              rw [hidle] at hst'
              cases hst'
            · rintro ⟨st', hst'⟩
              rw [hself] at hst'
              cases hst'
              rw [hc] at hc'
              cases hc'
          · rw [hother u hu]
        · unfold inRead
          cases hreading : rc.reading with
          | none => rfl
          | some u =>
            simp only
            rw [own_snoc_of_ne (Ne.symm (hunread u hreading))]
            exact (List.append_nil _).symm
      | some n =>
        simp only [observe, hc] at hobserve
        split at hobserve
        · cases ‹some n = none›
        · rename_i n₁ n₂ k hn hcurrent hreading
          cases hn
          split at hobserve <;> cases hobserve
          rename_i hn
          subst hn
          obtain ⟨results, hafter, hgood, hdelivered⟩ := hinv.taken _ hcurrent
          refine ⟨fun u c' st' n' hpc hc' => ?_, fun u hu => ?_, hinv.encodable, fun p hp => ?_,
            fun result hresult => ?_⟩
          · by_cases hu : u = t
            · rw [hu]
            · rw [hother u hu] at hpc
              have hreading' := hinv.inside u c' st' n' hpc hc'
              rw [hreading] at hreading'
              cases hreading'
          · cases hu
            exact ⟨c, st, n, k, hself, hc, hcurrent⟩
          · rw [hcurrent] at hp
            cases hp
            refine ⟨results, hafter, hgood, ?_⟩
            have hcall : own t (tr ++ [(t, .call (.busy c st))]) = [] := own_call ..
            rw [delivered_append, hdelivered]
            simp [inRead, hreading, hcall, delivered, tookBytes]
          · rw [hcurrent] at hresult
            cases hresult
        · cases hobserve
  · rcases step_cases hnext (fun t p hp => hl ⟨t, p, hp⟩) with ⟨rfl, hsame⟩ | ⟨t, c, n, hpc, hc, rfl, hsame⟩ |
      ⟨t, buffer, hpc, rfl, hsame⟩ | ⟨t, c, r, hpc, rfl, hidle, hother⟩
    · rw [List.append_nil] at hrc
      refine (h rc' hrc).keep (sameReads_of_sameCall hsame) ?_
      rw [List.append_nil]
      exact (List.append_nil _).symm
    · obtain ⟨rc, hbefore, hobserve⟩ := ofTrace_snoc.1 hrc
      have hinv := h rc hbefore
      cases hobserve
      refine hinv.keep (sameReads_of_sameCall hsame) ?_
      rw [hinv.took hpc hc]
      simp [delivered, tookBytes]
    · obtain ⟨rc, hbefore, hobserve⟩ := ofTrace_snoc.1 hrc
      have hinv := h rc hbefore
      cases hobserve
      refine hinv.keep (sameReads_of_sameCall hsame) ?_
      rw [hinv.inRead_of_ne hpc rfl]
      exact (List.append_nil _).symm
    · obtain ⟨rc, hbefore, hobserve⟩ := ofTrace_snoc.1 hrc
      cases hc : c.buflen with
      | none =>
        simp only [observe, hc, Option.some.injEq] at hobserve
        subst hobserve
        refine (h rc hbefore).keep (fun u c' n hc' => ?_) ?_
        · by_cases hu : u = t
          · subst hu
            constructor
            · rintro ⟨st', hst'⟩
              rw [hpc] at hst'
              cases hst'
              rw [hc] at hc'
              cases hc'
            · rintro ⟨st', hst'⟩
              rw [hidle] at hst'
              cases hst'
          · constructor
            · rintro ⟨st', hst'⟩
              exact (hother u hu).2 _ st' hst'
            · rintro ⟨st', hst'⟩
              exact (hother u hu).busy hst'
        · rw [(h rc hbefore).inRead_of_ne hpc hc]
          exact (List.append_nil _).symm
      | some n =>
        obtain ⟨-, haccounts, -⟩ := hreports tr _ [] rfl
        exact (inv_return hN (h rc hbefore) hpc hc haccounts hidle hother hobserve).1

theorem inv_of_run (hN : N ≤ 2 ^ 31) (hq₀ : q₀.buffer.fifo = .empty) (hconnected : q₀.connected = true)
    (hrun : (program N calls).machine.RunWhere ok (.start q₀ .idle) tr s) :
    ∀ rc, ofTrace tr = some rc → Inv tr s rc := by
  induction hrun with
  | start =>
    intro rc hrc
    cases hrc
    refine ⟨fun t c st n hpc => ?_, fun t ht => ?_, fun m hm => absurd hm List.not_mem_nil, fun p hp => ?_,
      fun result hresult => ?_⟩
    · cases hpc
    · cases ht
    · cases hp
      exact ⟨[], .start, fun r hr => absurd hr List.not_mem_nil, rfl⟩
    · cases hresult
  | step hrun hok hnext ih =>
    exact fun rc hrc => inv_next hN ih (reports_of_run hq₀ hconnected (hrun.step hok hnext)) hnext hrc

/-- When a read reports a lost connection, the bytes accepted are the encodings of the messages received and a part
of a further one. -/
theorem lost_of_run (hN : N ≤ 2 ^ 31) (hq₀ : q₀.buffer.fifo = .empty) (hconnected : q₀.connected = true)
    (hrun : (program N calls).machine.RunWhere ok (.start q₀ .idle) tr s) (hrc : ofTrace tr = some rc)
    {past future : DataQueue.Trace τ} {t : τ} {c : Call}
    (htr : tr = past ++ (t, .event (.ret c (.error .eConnectionLost))) :: future) (hc : c.buflen.isSome) :
    ∃ part, accepted past = encodings rc.received ++ part ∧ ¬ HoldsMessage part := by
  obtain ⟨n, hc⟩ := Option.isSome_iff_exists.1 hc
  obtain ⟨-, haccounts, hlost⟩ := reports_of_run hq₀ hconnected hrun past _ future htr
  have hdrained := (hlost rfl).2 (by rw [hc]; rfl)
  obtain ⟨tr', s', l, s'', es, es', hrun', -, hnext, hpast⟩ := hrun.step_of_event htr
  obtain ⟨hes, -⟩ := return_of_next (t := t) (c := c) (r := .error .eConnectionLost) hnext (by simp)
  obtain rfl : es = [] := by
    cases es with
    | nil => rfl
    | cons x es => simp at hes
  rw [List.append_nil] at hpast
  subst hpast
  -- the calls of `readMessage` up to here, at this return, and from here on
  rw [htr, ofTrace, List.foldlM_append, Option.bind_eq_bind, Option.bind_eq_some_iff] at hrc
  obtain ⟨rc₀, hbefore, hafter⟩ := hrc
  simp only [List.foldlM_cons, Option.bind_eq_bind, Option.bind_eq_some_iff] at hafter
  obtain ⟨rc₁, hobserve, hrest⟩ := hafter
  have hinv := inv_of_run hN hq₀ hconnected hrun' rc₀ hbefore
  rw [hes] at hnext
  have hnot : ∀ u p, l ≠ .invoke u p := by
    rintro u p rfl
    have hcall : (program N calls).next s' (.invoke u p) =
        some (s'', [(t, .event (.ret c (.error .eConnectionLost)))]) := hnext
    simp only [Program.next] at hcall
    split at hcall <;> cases hcall
  rcases step_cases hnext hnot with ⟨hnil, -⟩ | ⟨_, _, _, -, -, hcons, -⟩ | ⟨_, _, -, hcons, -⟩ |
    ⟨t', c', r', hpc, hcons, hidle, hother⟩
  · cases hnil
  · cases hcons
  · cases hcons
  · cases hcons
    have hreading := hinv.inside t c _ n hpc hc
    obtain ⟨_, _, n', k, -, -, hcurrent⟩ := hinv.asked t hreading
    obtain ⟨-, hlast⟩ := inv_return hN hinv hpc hc haccounts hidle hother hobserve
    obtain ⟨hstopped, hreceived⟩ := hlast rfl
    obtain rfl := stopped_of_fold hstopped hrest
    obtain ⟨results, hresults, -, hdelivered⟩ := hinv.taken _ hcurrent
    have hown : own t past = [] := by
      cases c with
      | read _ | readWithTimeout _ _ => exact haccounts
      | write _ | setConnectionFlag _ => cases hc
    refine ⟨goodBytes results, ?_, hresults.not_holdsMessage⟩
    rw [← hdrained, hdelivered, hreceived, inRead, hreading]
    simp [hown]

end Runs

end Reception

namespace InprocProcess

variable {τ : Type} [DecidableEq τ]

/-- In every run of a process, when the reads on a line of a pair are those of calls of `readMessage` (one after the
other, each with an empty message, up to the first that does not return 1), whoever writes to the other line and in
whatever blocks: the messages received are those at the beginning of the bytes accepted, and a call that does not
return 1 returns `eTimeout` or `eConnectionLost`.  When a read reports a lost connection, the destruction of one of
the two lines has begun, and the messages received are all those that were accepted in full. -/
theorem complete_before_loss (tr : Trace τ) (w : InprocProcess τ) (hrun : (machine τ).Run start tr w) (p : Pair)
    (hp : Joined w tr p) (e : End) (rc : Reception τ)
    (hrc : Reception.ofTrace (onQueue (p.queue e) tr) = some rc) :
    encodings rc.received <+: DataQueue.accepted (onQueue (p.queue e) tr) ∧
    (∀ result, rc.current = .error result →
      result = ErrorCode.eTimeout.code ∨ result = ErrorCode.eConnectionLost.code) ∧
    ∀ past future t c, tr = past ++ .queue (p.queue e) (t, .event (.ret c (.error .eConnectionLost))) :: future →
      c.buflen.isSome → (∃ u e', .destroyed u (p.line e') ∈ past) ∧
        ∀ ms : List Message, (∀ m ∈ ms, m.Encodable) →
          (encodings ms <+: DataQueue.accepted (onQueue (p.queue e) past) ↔ ms <+: rc.received) := by
  have hqueue := run_onQueue hrun hp e
  have hfresh : (DataQueue.connectedNew InprocLine.queueSize (by decide)).buffer.fifo = .empty :=
    ByteRing.fifo_new (by decide)
  have hinv := Reception.inv_of_run (by decide) hfresh rfl hqueue rc hrc
  have hdelivered := (DataQueue.conserved_of_run hfresh hqueue).isPrefix
  refine ⟨?_, fun result hresult => (hinv.stopped result hresult).1, fun past future t c htr hc => ?_⟩
  · cases hcurrent : rc.current with
    | error result => exact (hinv.stopped result hcurrent).2.trans hdelivered
    | ok p =>
      obtain ⟨results, -, -, hall⟩ := hinv.taken p hcurrent
      rw [hall, List.append_assoc] at hdelivered
      exact (List.prefix_append _ _).trans hdelivered
  · refine ⟨(lost_of_run hrun hp htr hc).1, fun ms hms => ?_⟩
    have htr' : onQueue (p.queue e) tr = onQueue (p.queue e) past ++
        (t, .event (.ret c (.error .eConnectionLost))) :: onQueue (p.queue e) future := by
      rw [htr, onQueue_split]
    obtain ⟨part, haccepted, hpart⟩ := Reception.lost_of_run (by decide) hfresh rfl hqueue hrc htr' hc
    rw [haccepted]
    refine ⟨Message.prefixFree.isPrefix_of_append hinv.encodable hms hpart, fun hpre => ?_⟩
    exact (PrefixFree.flatMap_isPrefix hpre _).trans (List.prefix_append _ _)

/-- A message with one empty frame and the first byte of another are written, and the line is destroyed: the message
is received, and then the loss of the connection reported. -/
theorem complete_before_loss_one : ∃ (tr : Trace Bool) (w : InprocProcess Bool) (p : Pair) (rc : Reception Bool)
    (past : Trace Bool), (machine Bool).Run start tr w ∧ Joined w tr p ∧
    Reception.ofTrace (onQueue (p.queue .client) tr) = some rc ∧ rc.received = [⟨[⟨[]⟩]⟩] ∧
    .queue 0 (true, .event (.ret (.read 3) (.error .eConnectionLost))) ∈ tr ∧
    ∀ ms : List Message, (∀ m ∈ ms, m.Encodable) →
      (encodings ms <+: DataQueue.accepted (onQueue (p.queue .client) past) ↔ ms <+: rc.received) := by
  have h : (((machine Bool).exec start
      (List.flatten [[.pair (.invoke true (.waitConnection "a" 100 .enter))], List.replicate 4 (.pair (.step true)),
        [.pair (.invoke false (.createClient "a" .enter))], List.replicate 8 (.pair (.step false)),
        List.replicate 8 (.pair (.step true)), [.pair (.signal true false)], List.replicate 2 (.pair (.step true)),
        List.replicate 3 (.pair (.step false)),
        [.write false 0 [1, 0, 0, 0, 0, 0, 0, 0, 1]], List.replicate 6 (.queue 0 (.step false)),
        [.destroy false 0], List.replicate 6 (.queue 0 (.step false)),
        [.read true 1 4], List.replicate 5 (.queue 0 (.step true)),
        [.read true 1 4], List.replicate 5 (.queue 0 (.step true)),
        [.read true 1 4], List.replicate 5 (.queue 0 (.step true)),
        [.read true 1 3], List.replicate 5 (.queue 0 (.step true))])).any fun r =>
      decide (.queue 0 (true, .event (.ret (.read 3) (.error .eConnectionLost))) ∈ r.2 ∧
        (0, 1) ∈ Inproc.adoptions (onPairing r.2) ∧ r.1.pairing.data.queueOf .outgoing 0 = some 0 ∧
        (Reception.ofTrace (onQueue 0 r.2)).any (fun rc => decide (rc.received = [⟨[⟨[]⟩]⟩])) = true)) = true := by
    decide +kernel
  obtain ⟨⟨w, tr⟩, hexec, hdecide⟩ := (Option.any_eq_true _ _).1 h
  obtain ⟨hlost, hadopted, hout, hany⟩ := of_decide_eq_true hdecide
  obtain ⟨rc, hrc, hreceived⟩ := (Option.any_eq_true _ _).1 hany
  have hrun := Machine.RunWhere.of_exec hexec
  obtain ⟨p, hp, hclient, -⟩ :=
    exists_joined ((Inproc.inv_of_run (InprocProcess.inv_of_run hrun).pairing).1.crossed 0 1 hadopted) hadopted
  have hqueue : p.queue .client = 0 := by
    have hcrossed := hp.crossed .outgoing .client
    rw [hclient, hout] at hcrossed
    exact (Option.some.inj hcrossed).symm
  obtain ⟨past, future, htr⟩ := List.append_of_mem hlost
  rw [← hqueue] at hrc htr
  have hcomplete := (complete_before_loss tr w hrun p hp .client rc hrc).2.2 past future true (.read 3) htr rfl
  exact ⟨tr, w, p, rc, past, hrun, hp, hrc, of_decide_eq_true hreceived, hlost, hcomplete.2⟩

end InprocProcess

end Cppio
