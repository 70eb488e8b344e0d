import Cppio.Lib.KeyedQueue
import Cppio.SelectPoller

/-!
# The poller reports exactly the requested ready events

A call of `poll` asks `select` for what the standing registrations ask for (`askAll_spec`) and reports what is left in
the sets (`reportAll_spec`); it throws only when `select` fails (`poll_spec`).  As `select` leaves a part of what was
put in, and a descriptor belongs to one line, that is what was asked for and is ready.  The registrations are a queue
for every line (`registered_step`), so this holds after every sequence of calls (`reports_exactly`).
-/

namespace Cppio

open KeyedQueue

/-! ### Events -/

/-- The single events. -/
inductive Flag where
  | read
  | write
  | error
deriving DecidableEq, Repr

def Flag.mask : Flag → LineEvent
  | .read => .read
  | .write => .write
  | .error => .error

/-- The set for an event. -/
def FdSets.get (fds : FdSets) : Flag → FdSet
  | .read => fds.readfds
  | .write => fds.writefds
  | .error => fds.errorfds

namespace LineEvent

/-- All the events that are asked for. -/
def union (events : List LineEvent) : LineEvent := events.foldr (· ||| ·) none

/-- The events that are ready for a descriptor. -/
def ready (fds : FdSets) (fd : Int) : LineEvent :=
  (if fd ∈ fds.get .read then Flag.mask .read else none) |||
    (if fd ∈ fds.get .write then Flag.mask .write else none) |||
    (if fd ∈ fds.get .error then Flag.mask .error else none)

variable {a b : LineEvent} {f : Flag} {fds : FdSets} {fd : Int}

private theorem exists_twoPow (f : Flag) : ∃ k < 32, f.mask = BitVec.twoPow 32 k := by
  cases f
  · exact ⟨0, by decide, rfl⟩
  · exact ⟨1, by decide, rfl⟩
  · exact ⟨2, by decide, rfl⟩

theorem mask_ne_none (f : Flag) : f.mask ≠ none := by
  cases f <;> decide

/-- A mask selects one bit. -/
theorem and_mask_eq (h : a &&& f.mask ≠ none) : a &&& f.mask = f.mask := by
  obtain ⟨k, -, hk⟩ := exists_twoPow f
  rw [hk, BitVec.and_twoPow] at h ⊢
  split at h
  · rw [if_pos ‹_›]
  · exact absurd rfl h

theorem or_and_mask_ne_none : (a ||| b) &&& f.mask ≠ none ↔ a &&& f.mask ≠ none ∨ b &&& f.mask ≠ none := by
  rw [BitVec.and_or_distrib_right]
  constructor
  · intro h
    by_contra hnone
    rw [not_or, not_not, not_not] at hnone
    exact h (by rw [hnone.1, hnone.2]; rfl)
  · intro h hnone
    obtain ⟨ha, hb⟩ := BitVec.or_eq_zero_iff.1 hnone
    exact h.elim (· ha) (· hb)

theorem union_and_mask_ne_none {events : List LineEvent} :
    union events &&& f.mask ≠ none ↔ ∃ e ∈ events, e &&& f.mask ≠ none := by
  induction events with
  | nil => simp [union, none]
  | cons e events ih =>
    rw [union, List.foldr_cons, or_and_mask_ne_none, ← union, ih]
    simp

/-- What is ready for a descriptor is asked for, if every set holds the descriptor only if its event is asked for. -/
theorem and_ready (h : ∀ f, fd ∈ fds.get f → a &&& f.mask ≠ none) : a &&& ready fds fd = ready fds fd := by
  have hpart : ∀ f, a &&& (if fd ∈ fds.get f then f.mask else none) = if fd ∈ fds.get f then f.mask else none := by
    intro f
    split
    · exact and_mask_eq (h f ‹_›)
    · exact BitVec.and_zero
  rw [ready, BitVec.and_or_distrib_left, BitVec.and_or_distrib_left]
  exact congrArg₂ _ (congrArg₂ _ (hpart .read) (hpart .write)) (hpart .error)

theorem ready_ne_none : ready fds fd ≠ none ↔ ∃ f, fd ∈ fds.get f := by
  constructor
  · intro h
    by_contra hnone
    rw [not_exists] at hnone
    refine h ?_
    rw [ready, if_neg (hnone .read), if_neg (hnone .write), if_neg (hnone .error)]
    rfl
  · rintro ⟨f, hf⟩ h
    obtain ⟨hrest, herror⟩ := BitVec.or_eq_zero_iff.1 h
    obtain ⟨hread, hwrite⟩ := BitVec.or_eq_zero_iff.1 hrest
    cases f
    case read => exact absurd ((if_pos hf).symm.trans hread) (mask_ne_none .read)
    case write => exact absurd ((if_pos hf).symm.trans hwrite) (mask_ne_none .write)
    case error => exact absurd ((if_pos hf).symm.trans herror) (mask_ne_none .error)

end LineEvent

namespace SelectPoller

variable {ι : Type} {nativeHandle : ι → Option Int}

/-- The native handle of a line fits an `fd_set`. -/
def Selectable (nativeHandle : ι → Option Int) (line : ι) : Prop :=
  ∃ fd, nativeHandle line = some fd ∧ 0 ≤ fd ∧ fd < fdSetSize

/-! ### The two loops of `poll` -/

private theorem setIf_spec {fd : Int} (hfits : 0 ≤ fd ∧ fd < fdSetSize) (events mask : LineEvent) (fds : FdSet) :
    ∃ fds', setIf events mask fd fds = some fds' ∧
      ∀ fd', fd' ∈ fds' ↔ fd' ∈ fds ∨ fd' = fd ∧ events &&& mask ≠ .none := by
  rw [setIf, fdSet, if_pos hfits]
  split
  · refine ⟨_, rfl, fun fd' => ?_⟩
    rw [Finset.mem_insert, or_comm, and_iff_left ‹_›]
  · refine ⟨_, rfl, fun fd' => (or_iff_left fun h => ?_).symm⟩
    exact absurd h.2 ‹_›

private theorem ask_spec (asked : Asked) {line : ι} (events : LineEvent) {fd : Int}
    (hfd : nativeHandle line = some fd) (hfits : 0 ≤ fd ∧ fd < fdSetSize) :
    ∃ asked', ask nativeHandle asked (line, events) = some asked' ∧
      (∀ f fd', fd' ∈ asked'.fds.get f ↔ fd' ∈ asked.fds.get f ∨ fd' = fd ∧ events &&& f.mask ≠ .none) ∧
      asked.maxFd ≤ asked'.maxFd ∧ fd ≤ asked'.maxFd := by
  obtain ⟨readfds, hread, hmemread⟩ := setIf_spec hfits events .read asked.fds.readfds
  obtain ⟨writefds, hwrite, hmemwrite⟩ := setIf_spec hfits events .write asked.fds.writefds
  obtain ⟨errorfds, herror, hmemerror⟩ := setIf_spec hfits events .error asked.fds.errorfds
  refine ⟨⟨⟨readfds, writefds, errorfds⟩, if fd > asked.maxFd then fd else asked.maxFd⟩, ?_, ?_, ?_, ?_⟩
  · simp only [ask, hfd, hread, hwrite, herror, Option.bind_eq_bind, Option.bind_some]
    rfl
  · intro f fd'
    cases f
    · exact hmemread fd'
    · exact hmemwrite fd'
    · exact hmemerror fd'
  · simp only
    split <;> omega
  · simp only
    split <;> omega

private theorem foldlM_ask (pollables : List (ι × LineEvent)) : ∀ asked : Asked,
    (∀ p ∈ pollables, Selectable nativeHandle p.1) →
    ∃ asked', pollables.foldlM (ask nativeHandle) asked = some asked' ∧
      (∀ f fd, fd ∈ asked'.fds.get f ↔ fd ∈ asked.fds.get f ∨
        ∃ p ∈ pollables, nativeHandle p.1 = some fd ∧ p.2 &&& f.mask ≠ .none) ∧
      asked.maxFd ≤ asked'.maxFd ∧ ∀ p ∈ pollables, ∀ fd, nativeHandle p.1 = some fd → fd ≤ asked'.maxFd := by
  induction pollables with
  | nil =>
    intro asked _
    exact ⟨asked, rfl, fun f fd => by simp, Int.le_refl _, fun _ h => absurd h List.not_mem_nil⟩
  | cons p pollables ih =>
    intro asked h
    obtain ⟨fd, hfd, hfits⟩ := h p List.mem_cons_self
    obtain ⟨asked₁, hask, hmem, hmax, hfdmax⟩ := ask_spec asked p.2 hfd hfits
    obtain ⟨asked', hrest, hmem', hmax', hfdmax'⟩ := ih asked₁ fun q hq => h q (List.mem_cons_of_mem _ hq)
    refine ⟨asked', ?_, ?_, Int.le_trans hmax hmax', ?_⟩
    · rw [List.foldlM_cons, hask]
      exact hrest
    · intro f fd'
      rw [hmem', hmem, or_assoc, List.exists_mem_cons_iff, hfd, Option.some_inj, eq_comm]
    · intro q hq fd' hfd'
      rcases List.mem_cons.1 hq with rfl | hq
      · rw [hfd] at hfd'
        cases hfd'
        exact Int.le_trans hfdmax hmax'
      · exact hfdmax' q hq fd' hfd'

/-- `select` is asked for the events of all registrations, and told a bound of their descriptors. -/
theorem askAll_spec {pollables : List (ι × LineEvent)} (h : ∀ p ∈ pollables, Selectable nativeHandle p.1) :
    ∃ asked, askAll nativeHandle pollables = some asked ∧
      (∀ f fd, fd ∈ asked.fds.get f ↔ ∃ p ∈ pollables, nativeHandle p.1 = some fd ∧ p.2 &&& f.mask ≠ .none) ∧
      ∀ p ∈ pollables, ∀ fd, nativeHandle p.1 = some fd → fd < asked.maxFd + 1 := by
  obtain ⟨asked, hask, hmem, -, hmax⟩ := foldlM_ask pollables ⟨⟨∅, ∅, ∅⟩, 0⟩ h
  refine ⟨asked, hask, fun f fd => ?_, fun p hp fd hfd => Int.lt_add_one_of_le (hmax p hp fd hfd)⟩
  rw [hmem, or_iff_right]
  cases f <;> exact Finset.notMem_empty fd

variable [DecidableEq ι] {fds : FdSets}

private theorem report_eq (found : ι → Option LineEvent) {line : ι} (events : LineEvent) {fd : Int}
    (hfd : nativeHandle line = some fd) (hfits : 0 ≤ fd ∧ fd < fdSetSize) :
    report nativeHandle fds found (line, events) =
      some (Function.update found line (some (LineEvent.ready fds fd))) := by
  simp only [report, hfd, fdIsSet, if_pos hfits, Option.bind_eq_bind, Option.bind_some]
  congr 3
  by_cases hread : fd ∈ fds.readfds <;> by_cases hwrite : fd ∈ fds.writefds <;>
    by_cases herror : fd ∈ fds.errorfds <;>
    simp [LineEvent.ready, FdSets.get, Flag.mask, LineEvent.none, hread, hwrite, herror]

private theorem foldlM_report (pollables : List (ι × LineEvent)) : ∀ found : ι → Option LineEvent,
    (∀ p ∈ pollables, Selectable nativeHandle p.1) →
    ∃ found', pollables.foldlM (report nativeHandle fds) found = some found' ∧
      (∀ p ∈ pollables, found' p.1 = (nativeHandle p.1).map (LineEvent.ready fds)) ∧
      ∀ line, (∀ p ∈ pollables, p.1 ≠ line) → found' line = found line := by
  induction pollables with
  | nil =>
    intro found _
    exact ⟨found, rfl, fun _ h => absurd h List.not_mem_nil, fun _ _ => rfl⟩
  | cons p pollables ih =>
    intro found h
    obtain ⟨fd, hfd, hfits⟩ := h p List.mem_cons_self
    obtain ⟨found', hrest, hreported, hother⟩ := ih (Function.update found p.1 (some (LineEvent.ready fds fd)))
      fun q hq => h q (List.mem_cons_of_mem _ hq)
    refine ⟨found', ?_, ?_, ?_⟩
    · rw [List.foldlM_cons, report_eq found p.2 hfd hfits]
      exact hrest
    · intro q hq
      rcases List.mem_cons.1 hq with rfl | hq
      · -- a later registration of the same line reports the same
        by_cases hlater : ∃ q' ∈ pollables, q'.1 = q.1
        · obtain ⟨q', hq', heq⟩ := hlater
          rw [← heq]
          exact hreported q' hq'
        · rw [hother q.1 fun q' hq' heq => hlater ⟨q', hq', heq⟩, Function.update_self, hfd]
          rfl
      · exact hreported q hq
    · intro line hline
      rw [hother line fun q hq => hline q (List.mem_cons_of_mem _ hq),
        Function.update_of_ne (hline p List.mem_cons_self).symm]

/-- The events of a registered line are those that are ready. -/
theorem reportAll_spec (fds : FdSets) {pollables : List (ι × LineEvent)}
    (h : ∀ p ∈ pollables, Selectable nativeHandle p.1) :
    ∃ found, reportAll nativeHandle fds pollables = some found ∧
      (∀ p ∈ pollables, found p.1 = (nativeHandle p.1).map (LineEvent.ready fds)) ∧
      ∀ line, (∀ p ∈ pollables, p.1 ≠ line) → found line = none :=
  foldlM_report pollables _ h

/-! ### One call of `poll` -/

/-- What `select` is asked for and what is reported, for registrations that stand for every line. -/
structure Reports (nativeHandle : ι → Option Int) (standing : ι → List LineEvent) (call : SelectCall)
    (reply : SelectReply) (after : SelectPoller ι) (returned : Bool) : Prop where
  asked : ∀ line fd f, nativeHandle line = some fd →
    (fd ∈ call.fds.get f ↔ LineEvent.union (standing line) &&& f.mask ≠ .none)
  bounded : ∀ line fd, nativeHandle line = some fd → standing line ≠ [] → fd < call.nfds
  events : ∀ line, after.eventsForLine line =
    LineEvent.union (standing line) &&& (nativeHandle line).elim .none (LineEvent.ready reply.fds)
  returned : returned = true ↔ ∃ line, after.eventsForLine line ≠ .none

/-- What is known of the answer of `select`. -/
theorem selects_cases {call : SelectCall} {reply : SelectReply} (h : selects () call reply = some ()) :
    (∀ f, reply.fds.get f ⊆ call.fds.get f) ∧
      (0 ≤ reply.result → (0 < reply.result ↔ ∃ f, (reply.fds.get f).Nonempty)) := by
  rw [selects, Option.ite_none_right_eq_some] at h
  obtain ⟨⟨hread, hwrite, herror, hresult⟩, -⟩ := h
  refine ⟨fun f => ?_, fun hge => (hresult hge).trans ?_⟩
  · cases f
    · exact hread
    · exact hwrite
    · exact herror
  · constructor
    · rintro (h | h | h)
      · exact ⟨.read, h⟩
      · exact ⟨.write, h⟩
      · exact ⟨.error, h⟩
    · rintro ⟨f, h⟩
      cases f
      · exact Or.inl h
      · exact Or.inr (Or.inl h)
      · exact Or.inr (Or.inr h)

section Poll

variable {s : SelectPoller ι} {standing : ι → List LineEvent}
  (hfits : ∀ line fd, nativeHandle line = some fd → 0 ≤ fd ∧ fd < fdSetSize)
  (hdistinct : ∀ line line' fd, nativeHandle line = some fd → nativeHandle line' = some fd → line = line')
  (hqueues : ∀ line, queue s.pollables line = standing line)
  (hhandles : ∀ p ∈ s.pollables, ∃ fd, nativeHandle p.1 = some fd)

include hdistinct hqueues in
private theorem asked_iff {line : ι} {fd : Int} (hfd : nativeHandle line = some fd) (f : Flag) :
    (∃ p ∈ s.pollables, nativeHandle p.1 = some fd ∧ p.2 &&& f.mask ≠ .none) ↔
      LineEvent.union (standing line) &&& f.mask ≠ .none := by
  rw [LineEvent.union_and_mask_ne_none, ← hqueues]
  constructor
  · rintro ⟨p, hp, hp', hasked⟩
    obtain rfl := hdistinct p.1 line fd hp' hfd
    exact ⟨p.2, mem_queue.2 hp, hasked⟩
  · rintro ⟨events, hevents, hasked⟩
    exact ⟨(line, events), mem_queue.1 hevents, hfd, hasked⟩

include hdistinct hqueues hhandles in
-- the events that are ready are asked for, and a descriptor that is left belongs to a registered line
private theorem reports_of_ready {call : SelectCall} {reply : SelectReply} {after : SelectPoller ι} {returned : Bool}
    (hmem : ∀ f fd, fd ∈ call.fds.get f ↔ ∃ p ∈ s.pollables, nativeHandle p.1 = some fd ∧ p.2 &&& f.mask ≠ .none)
    (hmax : ∀ p ∈ s.pollables, ∀ fd, nativeHandle p.1 = some fd → fd < call.nfds)
    (hsub : ∀ f, reply.fds.get f ⊆ call.fds.get f)
    (hready : ∀ p ∈ s.pollables, ∀ fd, nativeHandle p.1 = some fd →
      after.eventsForLine p.1 = LineEvent.ready reply.fds fd)
    (hother : ∀ line, (∀ p ∈ s.pollables, p.1 ≠ line) → after.eventsForLine line = .none)
    (hreturned : returned = true ↔ ∃ f, (reply.fds.get f).Nonempty) :
    Reports nativeHandle standing call reply after returned := by
  have hasked : ∀ line fd f, nativeHandle line = some fd →
      (fd ∈ call.fds.get f ↔ LineEvent.union (standing line) &&& f.mask ≠ .none) := by
    intro line fd f hfd
    rw [hmem, asked_iff hdistinct hqueues hfd]
  have hregistered : ∀ line, (∀ p ∈ s.pollables, p.1 ≠ line) → standing line = [] := by
    intro line hline
    rw [← hqueues, List.eq_nil_iff_forall_not_mem]
    exact fun e he => hline _ (mem_queue.1 he) rfl
  constructor
  case asked => exact hasked
  case bounded =>
    intro line fd hfd hne
    by_contra hlt
    refine hne (hregistered line fun p hp heq => ?_)
    subst heq
    exact hlt (hmax p hp fd hfd)
  case events =>
    intro line
    by_cases hline : ∃ p ∈ s.pollables, p.1 = line
    · obtain ⟨p, hp, rfl⟩ := hline
      obtain ⟨fd, hfd⟩ := hhandles p hp
      rw [hready p hp fd hfd, hfd]
      exact (LineEvent.and_ready fun f hf => (hasked p.1 fd f hfd).1 (hsub f hf)).symm
    · rw [not_exists] at hline
      have hline : ∀ p ∈ s.pollables, p.1 ≠ line := fun p hp heq => hline p ⟨hp, heq⟩
      rw [hother line hline, hregistered line hline]
      exact BitVec.zero_and.symm
  case returned =>
    rw [hreturned]
    constructor
    · rintro ⟨f, fd, hfd⟩
      obtain ⟨p, hp, hhandle, -⟩ := (hmem f fd).1 (hsub f hfd)
      refine ⟨p.1, ?_⟩
      rw [hready p hp fd hhandle, LineEvent.ready_ne_none]
      exact ⟨f, hfd⟩
    · rintro ⟨line, hline⟩
      by_cases hregistered : ∃ p ∈ s.pollables, p.1 = line
      · obtain ⟨p, hp, rfl⟩ := hregistered
        obtain ⟨fd, hfd⟩ := hhandles p hp
        rw [hready p hp fd hfd, LineEvent.ready_ne_none] at hline
        obtain ⟨f, hf⟩ := hline
        exact ⟨f, fd, hf⟩
      · exact absurd (hother line fun p hp heq => hregistered ⟨p, hp, heq⟩) hline

include hfits hdistinct hqueues hhandles in
/-- `poll` has defined behaviour, throws exactly if `select` fails, and reports what was asked for and is ready. -/
theorem poll_spec (timeout : Int) : (poll nativeHandle s timeout).Safe ∧
    (poll nativeHandle s timeout).Ensures selects (fun outcome _ log => outcome.2.pollables = s.pollables ∧
      ∃ call reply, log = [(call, reply)] ∧ ((∃ e, outcome.1 = .error e) ↔ reply.result < 0) ∧
        ∀ returned, outcome.1 = .ok returned → Reports nativeHandle standing call reply outcome.2 returned) () := by
  have hselectable : ∀ p ∈ s.pollables, Selectable nativeHandle p.1 := by
    intro p hp
    obtain ⟨fd, hfd⟩ := hhandles p hp
    exact ⟨fd, hfd, hfits _ fd hfd⟩
  obtain ⟨asked, hask, hmem, hmax⟩ := askAll_spec hselectable
  simp only [poll, hask]
  constructor
  · intro reply
    obtain ⟨found, hreport, -⟩ := reportAll_spec reply.fds hselectable
    simp [hreport]
  · intro reply _ hselects
    obtain ⟨hsub, hresult⟩ := selects_cases hselects
    obtain ⟨found, hreport, hfound, hnone⟩ := reportAll_spec reply.fds hselectable
    simp only [hreport, Interaction.ensures_ite, Interaction.ensures_done]
    have hok : ∀ returned, ¬ ∃ e, (Except.ok returned : Except IoException Bool) = .error e := by
      rintro returned ⟨e, h⟩
      cases h
    refine ⟨fun hneg => ?_, fun hge => ⟨fun hpos => ?_, fun hzero => ?_⟩⟩
    · exact ⟨trivial, _, reply, rfl, iff_of_true ⟨_, rfl⟩ hneg, fun _ h => by cases h⟩
    · refine ⟨trivial, _, reply, rfl, iff_of_false (hok _) hge, ?_⟩
      rintro returned ⟨⟩
      refine reports_of_ready hdistinct hqueues hhandles hmem hmax hsub ?_ ?_ ?_
      · intro p hp fd hfd
        show (found p.1).getD .none = _
        rw [hfound p hp, hfd]
        rfl
      · intro line hline
        show (found line).getD .none = _
        rw [hnone line hline]
        rfl
      · exact iff_of_true rfl ((hresult (Int.not_lt.1 hge)).1 hpos)
    · refine ⟨trivial, _, reply, rfl, iff_of_false (hok _) hge, ?_⟩
      rintro returned ⟨⟩
      have hempty := mt (hresult (Int.not_lt.1 hge)).2 hzero
      refine reports_of_ready hdistinct hqueues hhandles hmem hmax hsub ?_ (fun _ _ => rfl) ?_
      · intro p hp fd hfd
        by_contra hne
        obtain ⟨f, hf⟩ := LineEvent.ready_ne_none.1 fun h => hne h.symm
        exact hempty ⟨f, fd, hf⟩
      · exact iff_of_false Bool.false_ne_true hempty

end Poll

/-! ### Runs of calls -/

/-- The registrations of a line that stand after a sequence of calls: every one is added at the end, and the oldest
one is cancelled. -/
def standing (tr : List (PollerEvent ι)) (line : ι) : List LineEvent :=
  tr.foldl (fun registrations event =>
    match event with
    | .added line' events => if line' = line then registrations ++ [events] else registrations
    | .removed line' => if line' = line then registrations.tail else registrations
    | .polled _ => registrations) []

/-- The registrations are the queues of the lines, and a registered line has a native handle. -/
structure Registered (nativeHandle : ι → Option Int) (tr : List (PollerEvent ι)) (s : SelectPoller ι) : Prop where
  queues : ∀ line, queue s.pollables line = standing tr line
  handles : ∀ p ∈ s.pollables, ∃ fd, nativeHandle p.1 = some fd

variable {tr es : List (PollerEvent ι)} {s s' : SelectPoller ι} {c : PollerCall ι}

private theorem standing_append (tr : List (PollerEvent ι)) (event : PollerEvent ι) (line : ι) :
    standing (tr ++ [event]) line =
      match event with
      | .added line' events => if line' = line then standing tr line ++ [events] else standing tr line
      | .removed line' => if line' = line then (standing tr line).tail else standing tr line
      | .polled _ => standing tr line := by
  rw [standing, List.foldl_append]
  rfl

theorem registered_step (hfits : ∀ line fd, nativeHandle line = some fd → 0 ≤ fd ∧ fd < fdSetSize)
    (hdistinct : ∀ line line' fd, nativeHandle line = some fd → nativeHandle line' = some fd → line = line')
    (h : Registered nativeHandle tr s) (hnext : next nativeHandle s c = some (s', es)) :
    Registered nativeHandle (tr ++ es) s' := by
  cases c with
  | addLine line events =>
    rw [next, addLine] at hnext
    by_cases hhandle : nativeHandle line = none
    · rw [if_pos hhandle] at hnext
      cases hnext
      rw [List.append_nil]
      exact h
    · rw [if_neg hhandle] at hnext
      cases hnext
      refine ⟨fun line' => ?_, fun p hp => ?_⟩
      · rw [standing_append, queue_append, h.queues]
      · rcases List.mem_append.1 hp with hp | hp
        · exact h.handles p hp
        · obtain rfl := List.mem_singleton.1 hp
          exact Option.ne_none_iff_exists'.1 hhandle
  | removeLine line =>
    cases hnext
    refine ⟨fun line' => ?_, fun p hp => h.handles p (List.mem_of_mem_eraseP hp)⟩
    rw [standing_append, removeLine, queue_eraseP, h.queues]
  | poll timeout reply =>
    obtain ⟨outcome, s'', log, ⟨hpollables, -⟩, heq⟩ :=
      (poll_spec hfits hdistinct h.queues h.handles timeout).2.of_map_play hnext
    cases heq
    refine ⟨fun line => ?_, fun p hp => h.handles p (hpollables ▸ hp)⟩
    rw [standing_append, hpollables, h.queues]

/-- After every sequence of calls, a call of `poll` has defined behaviour and calls `select` once.  It throws exactly
if the result of `select` is negative.  If it returns, then `select` was asked for what the standing registrations ask
for, the events of every line are those that were asked for and are ready, and `true` was returned exactly if there
are any. -/
theorem reports_exactly (hfits : ∀ line fd, nativeHandle line = some fd → 0 ≤ fd ∧ fd < fdSetSize)
    (hdistinct : ∀ line line' fd, nativeHandle line = some fd → nativeHandle line' = some fd → line = line')
    (hrun : (machine nativeHandle).Run new tr s) (timeout : Int) :
    (poll nativeHandle s timeout).Safe ∧ (poll nativeHandle s timeout).Ensures selects (fun outcome _ log =>
      ∃ call reply, log = [(call, reply)] ∧ ((∃ e, outcome.1 = .error e) ↔ reply.result < 0) ∧
        ∀ returned, outcome.1 = .ok returned →
          Reports nativeHandle (standing tr) call reply outcome.2 returned) () := by
  have hregistered : Registered nativeHandle tr s := by
    refine hrun.invariant (Registered nativeHandle) ⟨fun _ => rfl, fun _ h => absurd h List.not_mem_nil⟩ ?_
    intro tr s c s' es h _ hnext
    exact registered_step hfits hdistinct h hnext
  obtain ⟨hsafe, hpoll⟩ := poll_spec hfits hdistinct hregistered.queues hregistered.handles timeout
  exact ⟨hsafe, hpoll.mono fun outcome _ log h => h.2⟩

/-- Two lines. -/
def twoHandles : Bool → Option Int
  | false => some 3
  | true => some 4

private theorem twoHandles_injective (line line' : Bool) (fd : Int) (h : twoHandles line = some fd)
    (h' : twoHandles line' = some fd) : line = line' := by
  cases line <;> cases line'
  · rfl
  · cases h
    cases h'
  · cases h
    cases h'
  · rfl

/-- A line that is registered twice, and then once less, and another line.  One poll finds the first line ready for
writing, and the next one the second line for reading: of the first result nothing is left. -/
theorem reports_exactly_two : ∃ tr s after log, (machine twoHandles).Run new tr s ∧
    (s.pollables = [(false, .write), (true, .read)] ∧ s.eventsForLine false = .write) ∧
    (poll twoHandles s 100).play selects () [⟨1, ⟨{4}, ∅, ∅⟩, 0⟩] = some ((.ok true, after), (), log) ∧
    (after.eventsForLine false = .none ∧ after.eventsForLine true = .read) ∧ (poll twoHandles s 100).Safe ∧
    ∃ call reply, log = [(call, reply)] ∧ Reports twoHandles (standing tr) call reply after true := by
  obtain ⟨s, tr, hexec, hs⟩ : ∃ s tr, (machine twoHandles).exec new [.addLine false .read, .addLine false .write,
      .addLine true .read, .removeLine false, .poll 100 ⟨1, ⟨∅, {3}, ∅⟩, 0⟩] = some (s, tr) ∧
        s.pollables = [(false, .write), (true, .read)] ∧ s.eventsForLine false = .write := ⟨_, _, rfl, rfl, rfl⟩
  have hrun := Machine.RunWhere.of_exec hexec
  have hplay : ∀ s : SelectPoller Bool, s.pollables = [(false, .write), (true, .read)] → ∃ after log,
      (poll twoHandles s 100).play selects () [⟨1, ⟨{4}, ∅, ∅⟩, 0⟩] = some ((.ok true, after), (), log) ∧
        after.eventsForLine false = .none ∧ after.eventsForLine true = .read := by
    rintro ⟨pollables, events⟩ rfl
    exact ⟨_, _, rfl, rfl, rfl⟩
  obtain ⟨after, log, hplay, hevents⟩ := hplay s hs.1
  obtain ⟨hsafe, hpoll⟩ := reports_exactly (by rintro (_ | _) fd ⟨⟩ <;> decide) twoHandles_injective hrun 100
  obtain ⟨call, reply, hlog, -, hreports⟩ := hpoll.of_play hplay
  exact ⟨tr, s, after, log, hrun, hs, hplay, hevents, hsafe, call, reply, hlog, hreports true rfl⟩

end SelectPoller

end Cppio
