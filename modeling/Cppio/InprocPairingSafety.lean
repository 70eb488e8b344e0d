import Cppio.InprocPairing
import Mathlib.Data.List.Nodup

/-!
# One client, one acceptor

Under every schedule clients and acceptors are paired one to one (`one_to_one`): of each address the clients are taken
in the order they came, each once; an acceptor gives up only when no client with its address is queued; a client
returns only when its line is adopted; and an adopted line and its server's line are crossed over two queues that no
other line has.

The registry, the lines and the queues change only under `gs_mutex`, so what is asserted of them at the points of
`waitConnection` is not disturbed (`At`).  The rest of the invariant (`Inv`) ties them to what was seen so far.
-/

namespace Cppio

namespace Inproc

/-! ### Lines -/

section Lines

variable {w : Inproc} {direction d : Direction} {l k q : Nat} {line : Line} {queue : Option Nat}

theorem queueOf_of_line (h : w.lines[l]? = some line) : w.queueOf d l = line.queue d := by
  rw [queueOf, h]
  rfl

theorem lt_of_line (h : w.lines[l]? = some line) : l < w.lines.length := by
  by_contra hge
  rw [List.getElem?_eq_none (Nat.not_lt.1 hge)] at h
  cases h

theorem line_addClient {c : Handle} (h : w.lines[l]? = some line) : (w.addClient c).lines[l]? = some line := by
  rw [addClient, List.getElem?_append_left (lt_of_line h), h]

theorem line_addServer (h : w.lines[l]? = some line) : w.addServer.lines[l]? = some line := by
  rw [addServer, List.getElem?_append_left (lt_of_line h), h]

theorem line_setQueue_self (h : w.lines[l]? = some line) :
    (w.setQueue direction l queue).lines[l]? = some (line.setQueue queue direction) := by
  simp [setQueue, h]

theorem line_setQueue_of_ne (hne : k ≠ l) : (w.setQueue direction l queue).lines[k]? = w.lines[k]? := by
  simp [setQueue, Ne.symm hne]

theorem lines_connect (w : Inproc) (queue : Option Nat) : (w.connect queue).lines = w.lines := by
  cases queue <;> rfl

theorem registry_connect (w : Inproc) (queue : Option Nat) : (w.connect queue).registry = w.registry := by
  cases queue <;> rfl

/-- A new line of a client has no queues. -/
theorem queueOf_addClient (w : Inproc) (c : Handle) (d : Direction) (k : Nat) :
    (w.addClient c).queueOf d k = w.queueOf d k := by
  simp only [queueOf, addClient, List.getElem?_append]
  split
  · rfl
  · rename_i hge
    rw [List.getElem?_eq_none (Nat.not_lt.1 hge)]
    cases k - w.lines.length <;> cases d <;> rfl

theorem queueOf_addServer_of_ne (hne : k ≠ w.lines.length) : w.addServer.queueOf d k = w.queueOf d k := by
  simp only [queueOf, addServer, List.getElem?_append]
  split
  · rfl
  · rw [List.getElem?_eq_none (by simp; omega), List.getElem?_eq_none (by omega)]

theorem line_addServer_self (w : Inproc) :
    w.addServer.lines[w.lines.length]? = some ⟨some w.queues.length, some (w.queues.length + 1)⟩ := by
  rw [addServer, List.getElem?_concat_length]

theorem queueOf_setQueue_of_ne (hne : d ≠ direction ∨ k ≠ l) :
    (w.setQueue direction l queue).queueOf d k = w.queueOf d k := by
  by_cases hk : k = l
  · subst hk
    rcases hne with hd | hk
    · cases hline : w.lines[k]? with
      | none => simp [queueOf, setQueue, hline]
      | some line =>
        rw [queueOf_of_line hline, queueOf_of_line (line_setQueue_self hline)]
        cases d <;> cases direction <;> first | rfl | exact absurd rfl hd
    · exact absurd rfl hk
  · rw [queueOf, queueOf, line_setQueue_of_ne hk]

end Lines

/-! ### What always holds of lines and queues -/

/-- The lines in the registry are distinct and have no queues, and no queue is the incoming queue of two lines, or the
outgoing queue of two lines. -/
structure Sound (w : Inproc) : Prop where
  queued : ∀ line ∈ w.registry.connectQueue, w.lines[line.id]? = some ⟨none, none⟩
  distinct : (w.registry.connectQueue.map Handle.id).Nodup
  unshared : ∀ d l l' q, w.queueOf d l = some q → w.queueOf d l' = some q → l = l'
  allocated : ∀ d l q, w.queueOf d l = some q → q < w.queues.length

theorem sound_empty : Sound empty where
  queued := by simp [empty, Registry.empty]
  distinct := List.nodup_nil
  unshared := by simp [empty, queueOf]
  allocated := by simp [empty, queueOf]

section Sound

variable {w : Inproc} {l s q q' : Nat}

theorem Sound.addClient (h : Sound w) (address : String) : Sound (w.addClient ⟨w.lines.length, address⟩) where
  queued := by
    intro line hline
    rcases List.mem_append.1 hline with hline | hline
    · exact line_addClient (h.queued line hline)
    · rw [List.mem_singleton.1 hline, Inproc.addClient, List.getElem?_concat_length]
  distinct := by
    show ((w.registry.connectQueue ++ [_]).map Handle.id).Nodup
    rw [List.map_append, List.nodup_append]
    refine ⟨h.distinct, List.nodup_singleton _, fun i hi j hj => ?_⟩
    obtain ⟨line, hline, rfl⟩ := List.mem_map.1 hi
    obtain rfl : j = w.lines.length := List.mem_singleton.1 hj
    exact Nat.ne_of_lt (lt_of_line (h.queued line hline))
  unshared := by
    intro d l l' q hl hl'
    rw [queueOf_addClient] at hl hl'
    exact h.unshared d l l' q hl hl'
  allocated := by
    intro d l q hl
    rw [queueOf_addClient] at hl
    exact h.allocated d l q hl

/-- A line is taken out of the registry. -/
theorem Sound.take (h : Sound w) {address : String} {line : Handle} {registry : Registry}
    (htake : w.registry.takeClient address = some (line, registry)) :
    Sound { w with registry := registry } ∧ line.address = address ∧ w.lines[line.id]? = some ⟨none, none⟩ ∧
      ∀ c ∈ registry.connectQueue, c.id ≠ line.id := by
  obtain ⟨⟨line', others⟩, hscan, heq⟩ := Option.map_eq_some_iff.1 htake
  cases heq
  obtain ⟨haddress, before, after, hlines, rfl, -⟩ := Registry.scan_eq_some hscan
  have hmem : ∀ c ∈ before ++ after, c ∈ w.registry.connectQueue := by
    intro c hc
    rw [hlines]
    rcases List.mem_append.1 hc with hc | hc
    · exact List.mem_append_left _ hc
    · exact List.mem_append_right _ (List.mem_cons_of_mem _ hc)
  have hdistinct := h.distinct
  rw [hlines, List.map_append, List.map_cons, List.nodup_middle, List.nodup_cons, ← List.map_append] at hdistinct
  refine ⟨⟨fun c hc => h.queued c (hmem c hc), hdistinct.2, h.unshared, h.allocated⟩, haddress, ?_, ?_⟩
  · exact h.queued line (by rw [hlines]; simp)
  · exact fun c hc heq => hdistinct.1 (heq ▸ List.mem_map_of_mem hc)

theorem Sound.addServer (h : Sound w) : Sound w.addServer := by
  have hself := line_addServer_self w
  have hfresh : ∀ d k q, w.queueOf d k = some q → w.addServer.queueOf d w.lines.length ≠ some q := by
    intro d k q hk hq
    have hlt := h.allocated d k q hk
    rw [queueOf_of_line hself] at hq
    cases d <;> cases hq <;> omega
  refine ⟨fun line hline => line_addServer (h.queued line hline), h.distinct, fun d l l' q hl hl' => ?_,
    fun d l q hl => ?_⟩
  · by_cases hw : l = w.lines.length <;> by_cases hw' : l' = w.lines.length
    · rw [hw, hw']
    · rw [queueOf_addServer_of_ne hw'] at hl'
      rw [hw] at hl
      exact absurd hl (hfresh d l' q hl')
    · rw [queueOf_addServer_of_ne hw] at hl
      rw [hw'] at hl'
      exact absurd hl' (hfresh d l q hl)
    · rw [queueOf_addServer_of_ne hw] at hl
      rw [queueOf_addServer_of_ne hw'] at hl'
      exact h.unshared d l l' q hl hl'
  · have hlength : w.addServer.queues.length = w.queues.length + 2 := by simp [Inproc.addServer]
    by_cases hw : l = w.lines.length
    · rw [hw, queueOf_of_line hself] at hl
      cases d <;> cases hl <;> omega
    · rw [queueOf_addServer_of_ne hw] at hl
      have := h.allocated d l q hl
      omega

/-- A line that is not in the registry gets a queue that no line has in this direction. -/
theorem Sound.setQueue (h : Sound w) {d : Direction} {line : Line} (hline : w.lines[l]? = some line)
    (hnot : ∀ c ∈ w.registry.connectQueue, c.id ≠ l) (hlt : q < w.queues.length)
    (hunshared : ∀ k, w.queueOf d k ≠ some q) : Sound (w.setQueue d l (some q)) := by
  have hself : (w.setQueue d l (some q)).queueOf d l = some q := by
    rw [queueOf_of_line (line_setQueue_self hline)]
    cases d <;> rfl
  refine ⟨fun c hc => ?_, h.distinct, fun d' k k' q' hk hk' => ?_, fun d' k q' hk => ?_⟩
  · rw [line_setQueue_of_ne (hnot c hc)]
    exact h.queued c hc
  · by_cases hd : d' = d
    · subst hd
      by_cases hl : k = l <;> by_cases hl' : k' = l
      · rw [hl, hl']
      · rw [queueOf_setQueue_of_ne (.inr hl')] at hk'
        rw [hl, hself] at hk
        cases hk
        exact absurd hk' (hunshared k')
      · rw [queueOf_setQueue_of_ne (.inr hl)] at hk
        rw [hl', hself] at hk'
        cases hk'
        exact absurd hk (hunshared k)
      · rw [queueOf_setQueue_of_ne (.inr hl)] at hk
        rw [queueOf_setQueue_of_ne (.inr hl')] at hk'
        exact h.unshared d' k k' q' hk hk'
    · rw [queueOf_setQueue_of_ne (.inl hd)] at hk hk'
      exact h.unshared d' k k' q' hk hk'
  · by_cases hd : d' = d ∧ k = l
    · obtain ⟨rfl, rfl⟩ := hd
      rw [hself] at hk
      cases hk
      exact hlt
    · rw [queueOf_setQueue_of_ne (by tauto)] at hk
      exact h.allocated d' k q' hk

theorem Sound.connect (h : Sound w) (queue : Option Nat) : Sound (w.connect queue) := by
  have hqueueOf : ∀ d k, (w.connect queue).queueOf d k = w.queueOf d k := by
    intro d k
    rw [queueOf, lines_connect, queueOf]
  have hlength : (w.connect queue).queues.length = w.queues.length := by
    cases queue <;> simp [Inproc.connect]
  refine ⟨?_, ?_, fun d l l' q hl hl' => ?_, fun d l q hl => ?_⟩
  · rw [registry_connect, lines_connect]
    exact h.queued
  · rw [registry_connect]
    exact h.distinct
  · rw [hqueueOf] at hl hl'
    exact h.unshared d l l' q hl hl'
  · rw [hqueueOf] at hl
    rw [hlength]
    exact h.allocated d l q hl

end Sound

/-! ### Assertions -/

/-- While the line `l` is handed over to the new line `s`: the queues of `s` are `q` and `q'`, of which `l` has got
those in `line`. -/
structure HandOver (w : Inproc) (l s q q' : Nat) (line : Line) (queue queue' : DataQueue InprocLine.queueSize) :
    Prop where
  lt : l < s
  ne : q ≠ q'
  client : w.lines[l]? = some line
  server : w.lines[s]? = some ⟨some q, some q'⟩
  serverIn : w.queues[q]? = some queue
  serverOut : w.queues[q']? = some queue'
  unqueued : ∀ c ∈ w.registry.connectQueue, c.id ≠ l
  unsharedOut : line.outQueue = none → ∀ k, w.queueOf .outgoing k ≠ some q
  unsharedIn : line.inQueue = none → ∀ k, w.queueOf .incoming k ≠ some q'

/-- A client's line and its server's line are crossed over two connected queues. -/
def Crossed (w : Inproc) (l s : Nat) : Prop := ∃ q q', l < s ∧ q ≠ q' ∧ w.lines[l]? = some ⟨some q', some q⟩ ∧
  w.lines[s]? = some ⟨some q, some q'⟩ ∧ w.queues[q]? = some connectedQueue ∧ w.queues[q']? = some connectedQueue

/-- The line of a client, once it has one. -/
def ClientStage.line : ClientStage → Option Nat
  | .enter | .create => none
  | .notify l | .unlock l | .waitForConnection l | .test l | .predicate l | .wait l | .relock l | .leave l => some l

def AtServer (address : String) (st : ServerStage) (h : List Event) (w : Inproc) : Prop :=
  match st with
  | .enter | .scan | .wait | .relock => h = []
  | .deadline | .leave none => h = [] ∧ ∀ line ∈ w.registry.connectQueue, line.address ≠ address
  | .construct l => h = [.taken address ⟨l, address⟩] ∧ w.lines[l]? = some ⟨none, none⟩ ∧
      ∀ c ∈ w.registry.connectQueue, c.id ≠ l
  | .lockOther l s | .setOut l s => h = [.taken address ⟨l, address⟩] ∧
      ∃ q q', HandOver w l s q q' ⟨none, none⟩ newQueue newQueue
  | .setIn l s => h = [.taken address ⟨l, address⟩] ∧ ∃ q q', HandOver w l s q q' ⟨none, some q⟩ newQueue newQueue
  | .connectOut l s => h = [.taken address ⟨l, address⟩] ∧
      ∃ q q', HandOver w l s q q' ⟨some q', some q⟩ newQueue newQueue
  | .connectIn l s => h = [.taken address ⟨l, address⟩] ∧
      ∃ q q', HandOver w l s q q' ⟨some q', some q⟩ newQueue connectedQueue
  | .notifyOther l s | .unlockOther l s => h = [.taken address ⟨l, address⟩] ∧
      ∃ q q', HandOver w l s q q' ⟨some q', some q⟩ connectedQueue connectedQueue
  | .leave (some s) => ∃ l, h = [.taken address ⟨l, address⟩, .adopted l s]

/-- The assertion at a point. -/
def At (p : Point) (h : List Event) (w : Inproc) : Prop :=
  match p with
  | .idle => True
  | .createClient address st => h = (st.line.map fun l => .queued ⟨l, address⟩).toList
  | .waitConnection address _ st => AtServer address st h w

section HandOver

variable {w : Inproc} {l s q q' : Nat}

theorem handOver_addServer (h : Sound w) (hline : w.lines[l]? = some ⟨none, none⟩)
    (hnot : ∀ c ∈ w.registry.connectQueue, c.id ≠ l) : HandOver w.addServer l w.lines.length w.queues.length
      (w.queues.length + 1) ⟨none, none⟩ newQueue newQueue := by
  have hfresh : ∀ d k, w.addServer.queueOf d k = some w.queues.length ∨
      w.addServer.queueOf d k = some (w.queues.length + 1) → k = w.lines.length := by
    intro d k hk
    by_contra hne
    rw [queueOf_addServer_of_ne hne] at hk
    rcases hk with hk | hk
    · exact absurd (h.allocated d k _ hk) (by omega)
    · exact absurd (h.allocated d k _ hk) (by omega)
  have hself := line_addServer_self w
  refine ⟨lt_of_line hline, by omega, line_addServer hline, hself, by simp [addServer], by simp [addServer], hnot, ?_,
    ?_⟩
  · intro _ k hk
    rw [hfresh _ k (.inl hk), queueOf_of_line hself] at hk
    exact absurd (Option.some.inj hk) (by omega)
  · intro _ k hk
    rw [hfresh _ k (.inr hk), queueOf_of_line hself] at hk
    exact absurd (Option.some.inj hk) (by omega)

theorem HandOver.setOut {queue queue' : DataQueue InprocLine.queueSize}
    (h : HandOver w l s q q' ⟨none, none⟩ queue queue') :
    HandOver (w.setQueue .outgoing l (some q)) l s q q' ⟨none, some q⟩ queue queue' where
  lt := h.lt
  ne := h.ne
  client := line_setQueue_self h.client
  server := by rw [line_setQueue_of_ne (Nat.ne_of_gt h.lt), h.server]
  serverIn := h.serverIn
  serverOut := h.serverOut
  unqueued := h.unqueued
  unsharedOut := by simp
  unsharedIn := by
    intro hnone k
    rw [queueOf_setQueue_of_ne (.inl (by decide))]
    exact h.unsharedIn rfl k

theorem HandOver.setIn {queue queue' : DataQueue InprocLine.queueSize}
    (h : HandOver w l s q q' ⟨none, some q⟩ queue queue') :
    HandOver (w.setQueue .incoming l (some q')) l s q q' ⟨some q', some q⟩ queue queue' where
  lt := h.lt
  ne := h.ne
  client := line_setQueue_self h.client
  server := by rw [line_setQueue_of_ne (Nat.ne_of_gt h.lt), h.server]
  serverIn := h.serverIn
  serverOut := h.serverOut
  unqueued := h.unqueued
  unsharedOut := by simp
  unsharedIn := by simp

theorem HandOver.connectOut (h : HandOver w l s q q' ⟨some q', some q⟩ newQueue newQueue) :
    HandOver (w.connect (some q')) l s q q' ⟨some q', some q⟩ newQueue connectedQueue where
  lt := h.lt
  ne := h.ne
  client := h.client
  server := h.server
  serverIn := by simp [connect, h.ne.symm, h.serverIn]
  serverOut := by
    simp [connect, h.serverOut]
    rfl
  unqueued := h.unqueued
  unsharedOut := by simp
  unsharedIn := by simp

theorem HandOver.connectIn (h : HandOver w l s q q' ⟨some q', some q⟩ newQueue connectedQueue) :
    HandOver (w.connect (some q)) l s q q' ⟨some q', some q⟩ connectedQueue connectedQueue where
  lt := h.lt
  ne := h.ne
  client := h.client
  server := h.server
  serverIn := by
    simp [connect, h.serverIn]
    rfl
  serverOut := by simp [connect, h.ne, h.serverOut]
  unqueued := h.unqueued
  unsharedOut := by simp
  unsharedIn := by simp

theorem HandOver.crossed (h : HandOver w l s q q' ⟨some q', some q⟩ connectedQueue connectedQueue) : Crossed w l s :=
  ⟨q, q', h.lt, h.ne, h.client, h.server, h.serverIn, h.serverOut⟩

end HandOver

private theorem lt_of_queue {w : Inproc} {q : Nat} {queue : DataQueue InprocLine.queueSize}
    (h : w.queues[q]? = some queue) : q < w.queues.length := by
  by_contra hge
  rw [List.getElem?_eq_none (Nat.not_lt.1 hge)] at h
  cases h

private theorem atServer_act {address : String} {timeoutInMs : Int} {st : ServerStage} {k : Point} {w w' : Inproc}
    {h es : List Event} (hafter : (serverCode address timeoutInMs w st).after w = some (k, w', es)) (hw : Sound w)
    (hat : AtServer address st h w) : Sound w' ∧ At k (h ++ es) w' := by
  cases st with
  | enter | relock | wait =>
    cases hafter
    rw [List.append_nil]
    exact ⟨hw, hat⟩
  | scan =>
    obtain rfl : h = [] := hat
    simp only [serverCode] at hafter
    split at hafter
    · rename_i line registry htake
      cases hafter
      obtain ⟨hsound, haddress, hline, hnot⟩ := hw.take htake
      refine ⟨hsound, ?_, hline, hnot⟩
      rw [List.nil_append, ← haddress]
    · rename_i hnone
      cases hafter
      exact ⟨hw, rfl, Registry.scan_eq_none (Option.map_eq_none_iff.1 hnone)⟩
  | construct l =>
    cases hafter
    obtain ⟨hown, hline, hnot⟩ := hat
    rw [List.append_nil]
    exact ⟨hw.addServer, hown, _, _, handOver_addServer hw hline hnot⟩
  | lockOther l s =>
    cases hafter
    rw [List.append_nil]
    exact ⟨hw, hat⟩
  | setOut l s =>
    cases hafter
    obtain ⟨hown, q, q', hand⟩ := hat
    have hin : w.queueOf .incoming s = some q := queueOf_of_line hand.server
    rw [hin, List.append_nil]
    exact ⟨hw.setQueue hand.client hand.unqueued (lt_of_queue hand.serverIn) (hand.unsharedOut rfl), hown, q, q',
      hand.setOut⟩
  | setIn l s =>
    cases hafter
    obtain ⟨hown, q, q', hand⟩ := hat
    have hout : w.queueOf .outgoing s = some q' := queueOf_of_line hand.server
    rw [hout, List.append_nil]
    exact ⟨hw.setQueue hand.client hand.unqueued (lt_of_queue hand.serverOut) (hand.unsharedIn rfl), hown, q, q',
      hand.setIn⟩
  | connectOut l s =>
    cases hafter
    obtain ⟨hown, q, q', hand⟩ := hat
    have hout : w.queueOf .outgoing s = some q' := queueOf_of_line hand.server
    rw [hout, List.append_nil]
    exact ⟨hw.connect _, hown, q, q', hand.connectOut⟩
  | connectIn l s =>
    cases hafter
    obtain ⟨hown, q, q', hand⟩ := hat
    have hin : w.queueOf .incoming s = some q := queueOf_of_line hand.server
    rw [hin, List.append_nil]
    exact ⟨hw.connect _, hown, q, q', hand.connectIn⟩
  | notifyOther l s =>
    cases hafter
    rw [List.append_nil]
    exact ⟨hw, hat⟩
  | unlockOther l s =>
    cases hafter
    exact ⟨hw, l, by rw [hat.1]; rfl⟩
  | deadline =>
    cases hafter
    rw [List.append_nil]
    refine ⟨hw, ?_⟩
    by_cases hneg : timeoutInMs < 0
    · rw [if_pos hneg]
      exact hat
    · rw [if_neg hneg]
      exact hat.1
  | leave result =>
    cases hafter
    exact ⟨hw, trivial⟩

/-- The actions of a thread keep what always holds, and lead from assertion to assertion. -/
theorem at_act {p k : Point} {w w' : Inproc} {h es : List Event} (hafter : (code p w).after w = some (k, w', es))
    (hw : Sound w) (hat : At p h w) : Sound w' ∧ At k (h ++ es) w' := by
  cases p with
  | idle => cases hafter
  | createClient address st =>
    cases st with
    | create =>
      cases hafter
      obtain rfl : h = [] := hat
      exact ⟨hw.addClient address, rfl⟩
    | test l | predicate l =>
      cases hafter
      rw [List.append_nil]
      refine ⟨hw, ?_⟩
      cases w.joined l <;> exact hat
    | leave l =>
      cases hafter
      exact ⟨hw, trivial⟩
    | _ =>
      cases hafter
      rw [List.append_nil]
      exact ⟨hw, hat⟩
  | waitConnection address timeoutInMs st => exact atServer_act hafter hw hat

/-- Without `gs_mutex` nothing is changed. -/
theorem data_unlocked {p k : Point} {w w' : Inproc} {es : List Event}
    (hafter : (code p w).after w = some (k, w', es)) (hp : ¬ holds p .gs) : w' = w := by
  cases p with
  | idle => cases hafter
  | createClient address st =>
    cases st with
    | create => exact absurd rfl hp
    | _ => cases hafter; rfl
  | waitConnection address timeoutInMs st =>
    cases st with
    | enter | relock => cases hafter; rfl
    | _ => exact absurd rfl hp

/-- Without `gs_mutex` nothing is asserted of the registry, the lines and the queues. -/
theorem at_unlocked {p : Point} {w w' : Inproc} {h : List Event} (hp : ¬ holds p .gs) (hat : At p h w) :
    At p h w' := by
  cases p with
  | idle => trivial
  | createClient address st => exact hat
  | waitConnection address timeoutInMs st =>
    cases st with
    | enter | relock => exact hat
    | _ => exact absurd rfl hp

section Runs

open Monitor

variable {τ : Type} [DecidableEq τ] {ok : State τ → Label τ Point → Prop} {s : State τ} {tr : Trace τ}

/-- In every run every thread is at a point whose assertion holds. -/
theorem at_of_run (hrun : program.machine.RunWhere ok (.start empty .idle) tr s) :
    ∀ t, Sound s.data ∧ At (s.pc t) (own t tr) s.data := by
  have hstart : Sound empty ∧ At .idle [] empty := ⟨sound_empty, trivial⟩
  refine disciplined.assertion rfl (A := fun p h w => Sound w ∧ At p h w) hstart ?_ ?_ ?_ ?_ hrun
  · rintro p p' h w - hentry ⟨hw, -⟩
    refine ⟨hw, ?_⟩
    cases p' with
    | idle => cases hentry
    | createClient address st =>
      cases st with
      | enter => rfl
      | _ => cases hentry
    | waitConnection address timeoutInMs st =>
      cases st with
      | enter => rfl
      | _ => cases hentry
  · exact fun p h w k w' es hafter hA => at_act hafter hA.1 hA.2
  · rintro p h w k hk ⟨hw, hat⟩
    refine ⟨hw, ?_⟩
    cases p with
    | idle | createClient _ _ => cases hk
    | waitConnection address timeoutInMs st =>
      cases st with
      | deadline =>
        cases hk
        exact hat
      | _ => cases hk
  · rintro p h w k w' es hafter ⟨hw, hat⟩ p' h' hother ⟨-, hat'⟩
    refine ⟨(at_act hafter hw hat).1, ?_⟩
    by_cases hp : holds p .gs
    · exact at_unlocked (hother .gs hp) hat'
    · rw [data_unlocked hafter hp]
      exact hat'

/-! ### What was seen -/

/-- The events of a trace, through a filter. -/
def seen {α : Type} (f : Event → Option α) (tr : Trace τ) : List α :=
  tr.filterMap fun x =>
    match x.2 with
    | .event e => f e
    | .call _ => none

omit [DecidableEq τ] in
theorem seen_append {α : Type} (f : Event → Option α) (tr tr' : Trace τ) :
    seen f (tr ++ tr') = seen f tr ++ seen f tr' :=
  List.filterMap_append ..

omit [DecidableEq τ] in
theorem seen_events {α : Type} (f : Event → Option α) (t : τ) (es : List Event) :
    seen f (es.map fun e => ((t, .event e) : τ × Obs Point Event)) = es.filterMap f := by
  simp only [seen, List.filterMap_map]
  rfl

/-- The lines put into the registry, in this order. -/
def queued (tr : Trace τ) : List Handle :=
  seen (fun | .queued line => some line | _ => none) tr

/-- The lines taken out of the registry, in this order, with the address of the acceptor. -/
def taken (tr : Trace τ) : List (String × Handle) :=
  seen (fun | .taken address line => some (address, line) | _ => none) tr

/-- The adopted lines, with the lines of their servers. -/
def adoptions (tr : Trace τ) : List (Nat × Nat) :=
  seen (fun | .adopted line server => some (line, server) | _ => none) tr

/-- What ties the registry, the lines and the queues to what was seen. -/
structure Inv (tr : Trace τ) (w : Inproc) : Prop where
  order : ∀ address, (queued tr).filter (fun line => line.address = address) =
    ((taken tr).filter fun x => x.1 = address).map Prod.snd ++
      w.registry.connectQueue.filter fun line => line.address = address
  perm : ((taken tr).map Prod.snd ++ w.registry.connectQueue).Perm (queued tr)
  distinct : ((queued tr).map Handle.id).Nodup
  numbered : ∀ line ∈ queued tr, line.id < w.lines.length
  crossed : ∀ l s, (l, s) ∈ adoptions tr → Crossed w l s

/-- From `w` to `w'` lines keep their queues, and queues stay connected. -/
structure Keeps (w w' : Inproc) : Prop where
  length : w.lines.length ≤ w'.lines.length
  line : ∀ l q q' : Nat, w.lines[l]? = some ⟨some q, some q'⟩ → w'.lines[l]? = some ⟨some q, some q'⟩
  queue : ∀ q : Nat, w.queues[q]? = some connectedQueue → w'.queues[q]? = some connectedQueue

end Runs

theorem Keeps.refl (w : Inproc) : Keeps w w := ⟨Nat.le_refl _, fun _ _ _ h => h, fun _ h => h⟩

theorem Crossed.keep {w w' : Inproc} {l s : Nat} (h : Crossed w l s) (hkeep : Keeps w w') : Crossed w' l s := by
  obtain ⟨q, q', hlt, hne, hl, hs, hq, hq'⟩ := h
  exact ⟨q, q', hlt, hne, hkeep.line _ _ _ hl, hkeep.line _ _ _ hs, hkeep.queue _ hq, hkeep.queue _ hq'⟩

theorem keeps_setQueue {w : Inproc} {l : Nat} {line : Line} {d : Direction} {queue : Option Nat}
    (hline : w.lines[l]? = some line) (hnone : line.inQueue = none) : Keeps w (w.setQueue d l queue) where
  length := by simp [setQueue]
  line := by
    intro k q q' hk
    have hne : k ≠ l := by
      rintro rfl
      rw [hk] at hline
      cases hline
      cases hnone
    rw [line_setQueue_of_ne hne, hk]
  queue := fun _ h => h

theorem keeps_connect (w : Inproc) (queue : Option Nat) : Keeps w (w.connect queue) where
  length := by rw [lines_connect]
  line := by
    intro l q q' h
    rw [lines_connect, h]
  queue := by
    intro q h
    cases queue with
    | none => exact h
    | some q' =>
      simp only [connect, List.getElem?_modify, h, Option.map_eq_map, Option.map_some]
      split <;> rfl

/-- The actions of a thread keep the queues of lines. -/
theorem keeps_of_after {p k : Point} {w w' : Inproc} {h es : List Event}
    (hafter : (code p w).after w = some (k, w', es)) (hat : At p h w) : Keeps w w' := by
  cases p with
  | idle => cases hafter
  | createClient address st =>
    cases st with
    | create =>
      cases hafter
      exact ⟨by simp [addClient], fun l q q' h => line_addClient h, fun q h => h⟩
    | _ =>
      cases hafter
      exact .refl w
  | waitConnection address timeoutInMs st =>
    cases st with
    | scan =>
      simp only [code, serverCode] at hafter
      split at hafter
      · cases hafter
        exact ⟨Nat.le_refl _, fun _ _ _ h => h, fun _ h => h⟩
      · cases hafter
        exact .refl w
    | construct l =>
      cases hafter
      refine ⟨by simp [addServer], fun l q q' h => line_addServer h, fun q h => ?_⟩
      rw [addServer, List.getElem?_append_left (lt_of_queue h), h]
    | setOut l s =>
      cases hafter
      obtain ⟨-, q, q', hand⟩ := hat
      exact keeps_setQueue hand.client rfl
    | setIn l s =>
      cases hafter
      obtain ⟨-, q, q', hand⟩ := hat
      exact keeps_setQueue hand.client rfl
    | connectOut l s | connectIn l s =>
      cases hafter
      exact keeps_connect w _
    | _ =>
      cases hafter
      exact .refl w

section Seen

open Monitor

variable {τ : Type} {tr tr' : Trace τ} {w w' : Inproc}

theorem queued_append (tr tr' : Trace τ) : queued (tr ++ tr') = queued tr ++ queued tr' := seen_append ..

theorem taken_append (tr tr' : Trace τ) : taken (tr ++ tr') = taken tr ++ taken tr' := seen_append ..

theorem adoptions_append (tr tr' : Trace τ) : adoptions (tr ++ tr') = adoptions tr ++ adoptions tr' := seen_append ..

theorem inv_start : Inv ([] : Trace τ) empty where
  order := fun _ => rfl
  perm := .refl _
  distinct := List.nodup_nil
  numbered := by simp [queued, seen]
  crossed := by simp [adoptions, seen]

/-- A step that leaves the registry alone. -/
theorem Inv.other (h : Inv tr w) (hqueued : queued tr' = []) (htaken : taken tr' = [])
    (hregistry : w'.registry = w.registry) (hkeep : Keeps w w')
    (hcrossed : ∀ l s, (l, s) ∈ adoptions tr' → Crossed w' l s) : Inv (tr ++ tr') w' := by
  refine ⟨fun address => ?_, ?_, ?_, fun line hline => ?_, fun l s hls => ?_⟩
  · rw [queued_append, taken_append, hqueued, htaken, hregistry, List.append_nil, List.append_nil]
    exact h.order address
  · rw [queued_append, taken_append, hqueued, htaken, hregistry, List.append_nil, List.append_nil]
    exact h.perm
  · rw [queued_append, hqueued, List.append_nil]
    exact h.distinct
  · rw [queued_append, hqueued, List.append_nil] at hline
    exact Nat.lt_of_lt_of_le (h.numbered line hline) hkeep.length
  · rw [adoptions_append] at hls
    rcases List.mem_append.1 hls with hls | hls
    · exact (h.crossed l s hls).keep hkeep
    · exact hcrossed l s hls

/-- A client puts its line into the registry. -/
theorem Inv.queue (h : Inv tr w) (t : τ) (address : String) :
    Inv (tr ++ [(t, .event (.queued ⟨w.lines.length, address⟩))]) (w.addClient ⟨w.lines.length, address⟩) := by
  set line : Handle := ⟨w.lines.length, address⟩ with hline
  have hqueued : queued [((t, .event (.queued line)) : τ × Obs Point Event)] = [line] := rfl
  have htaken : taken [((t, .event (.queued line)) : τ × Obs Point Event)] = [] := rfl
  refine ⟨fun a => ?_, ?_, ?_, fun c hc => ?_, fun l s hls => ?_⟩
  · rw [queued_append, taken_append, hqueued, htaken, List.append_nil, List.filter_append, h.order a]
    show _ = _ ++ (w.registry.connectQueue ++ [line]).filter _
    rw [List.filter_append, List.append_assoc]
  · rw [queued_append, taken_append, hqueued, htaken, List.append_nil]
    show (_ ++ (w.registry.connectQueue ++ [line])).Perm _
    rw [← List.append_assoc]
    exact h.perm.append_right _
  · rw [queued_append, hqueued, List.map_append, List.nodup_append]
    refine ⟨h.distinct, List.nodup_singleton _, fun i hi j hj => ?_⟩
    obtain ⟨c, hc, rfl⟩ := List.mem_map.1 hi
    obtain rfl : j = w.lines.length := List.mem_singleton.1 hj
    exact Nat.ne_of_lt (h.numbered c hc)
  · have hlength : (w.addClient line).lines.length = w.lines.length + 1 := by simp [addClient]
    rw [queued_append, hqueued] at hc
    rcases List.mem_append.1 hc with hc | hc
    · have := h.numbered c hc
      omega
    · -- the new line has the next number
      have hid : c.id = w.lines.length := by rw [List.mem_singleton.1 hc]
      omega
  · rw [adoptions_append] at hls
    rcases List.mem_append.1 hls with hls | hls
    · exact (h.crossed l s hls).keep ⟨by simp [addClient], fun _ _ _ => line_addClient, fun _ h => h⟩
    · cases hls

/-- An acceptor takes a line out of the registry. -/
theorem Inv.take (h : Inv tr w) (t : τ) {address : String} {line : Handle} {registry : Registry}
    (htake : w.registry.takeClient address = some (line, registry)) :
    Inv (tr ++ [(t, .event (.taken address line))]) { w with registry := registry } := by
  have hqueued : queued [((t, .event (.taken address line)) : τ × Obs Point Event)] = [] := rfl
  have htaken : taken [((t, .event (.taken address line)) : τ × Obs Point Event)] = [(address, line)] := rfl
  obtain ⟨⟨line', others⟩, hscan, heq⟩ := Option.map_eq_some_iff.1 htake
  cases heq
  obtain ⟨haddress, before, after, hlines, rfl, hbefore⟩ := Registry.scan_eq_some hscan
  refine ⟨fun a => ?_, ?_, ?_, fun c hc => ?_, fun l s hls => ?_⟩
  · rw [queued_append, taken_append, hqueued, htaken, List.append_nil, h.order a, hlines]
    by_cases ha : address = a
    · -- the line is the first of its address
      have hnone : before.filter (fun c => c.address = a) = [] := by
        rw [List.filter_eq_nil_iff]
        intro c hc
        have := hbefore c hc
        rw [ha] at this
        simpa using this
      have haddress' : line.address = a := haddress.trans ha
      simp [hnone, ha, haddress']
    · have haddress' : line.address ≠ a := by rwa [haddress]
      simp [ha, haddress']
  · rw [queued_append, taken_append, hqueued, htaken, List.append_nil, List.map_append]
    refine List.Perm.trans ?_ h.perm
    -- the line is taken from between the others
    have hmiddle : (line :: (before ++ after)).Perm (before ++ line :: after) := List.perm_middle.symm
    rw [hlines, List.append_assoc]
    exact hmiddle.append_left _
  · rw [queued_append, hqueued, List.append_nil]
    exact h.distinct
  · rw [queued_append, hqueued, List.append_nil] at hc
    exact h.numbered c hc
  · rw [adoptions_append] at hls
    rcases List.mem_append.1 hls with hls | hls
    · exact h.crossed l s hls
    · cases hls

/-- The actions of a thread keep the invariant. -/
theorem Inv.act (hinv : Inv tr w) {p k : Point} {h es : List Event} (t : τ)
    (hafter : (code p w).after w = some (k, w', es)) (hat : At p h w) :
    Inv (tr ++ es.map fun e => (t, .event e)) w' := by
  have hkeep := keeps_of_after hafter hat
  cases p with
  | idle => cases hafter
  | createClient address st =>
    cases st with
    | create =>
      cases hafter
      exact hinv.queue t address
    | _ =>
      cases hafter
      exact hinv.other rfl rfl rfl hkeep fun l s hls => by cases hls
  | waitConnection address timeoutInMs st =>
    cases st with
    | scan =>
      simp only [code, serverCode] at hafter
      split at hafter
      · rename_i line registry htake
        cases hafter
        exact hinv.take t htake
      · cases hafter
        exact hinv.other rfl rfl rfl hkeep fun l s hls => by cases hls
    | connectOut l s | connectIn l s =>
      cases hafter
      exact hinv.other rfl rfl (registry_connect ..) hkeep fun l s hls => by cases hls
    | unlockOther l s =>
      cases hafter
      obtain ⟨-, q, q', hand⟩ := hat
      refine hinv.other rfl rfl rfl hkeep fun l' s' hls => ?_
      -- the mutex of the adopted line is given back only when both lines have both queues
      cases List.mem_singleton.1 hls
      exact hand.crossed
    | _ =>
      cases hafter
      exact hinv.other rfl rfl rfl hkeep fun l s hls => by cases hls

end Seen

/-! ### Lines that have their queues -/

/-- The line that has both its queues from a server's line that is still being constructed. -/
def ServerStage.joins : ServerStage → Option Nat
  | .connectOut l _ | .connectIn l _ | .notifyOther l _ | .unlockOther l _ => some l
  | _ => none

private theorem holds_of_joins {address : String} {timeoutInMs : Int} {st : ServerStage} {l : Nat}
    (h : st.joins = some l) : holds (.waitConnection address timeoutInMs st) (.line l) := by
  cases st <;> cases h <;> simp [holds, ServerStage.holds]

private theorem joins_of_after {address : String} {timeoutInMs : Int} {st : ServerStage} {k : Point} {w w' : Inproc}
    {es : List Event} {l : Nat} (hafter : (serverCode address timeoutInMs w st).after w = some (k, w', es))
    (h : st.joins = some l) :
    (∃ st', k = .waitConnection address timeoutInMs st' ∧ st'.joins = some l) ∨ ∃ s, es = [.adopted l s] := by
  cases st <;> cases h <;> cases hafter <;> first | exact .inl ⟨_, rfl, rfl⟩ | exact .inr ⟨_, rfl⟩

/-- A line has an incoming queue only if it had one, or a constructor has just given it one, or it is new. -/
private theorem incoming_of_after {p k : Point} {w w' : Inproc} {es : List Event} {l : Nat}
    (hafter : (code p w).after w = some (k, w', es)) (hl : (w'.queueOf .incoming l).isSome) :
    (w.queueOf .incoming l).isSome ∨ l = w.lines.length ∨
      ∃ address timeoutInMs st, k = .waitConnection address timeoutInMs st ∧ st.joins = some l := by
  cases p with
  | idle => cases hafter
  | createClient address st =>
    cases st with
    | create =>
      cases hafter
      rw [queueOf_addClient] at hl
      exact .inl hl
    | _ =>
      cases hafter
      exact .inl hl
  | waitConnection address timeoutInMs st =>
    cases st with
    | scan =>
      simp only [code, serverCode] at hafter
      split at hafter <;> cases hafter <;> exact .inl hl
    | construct l' =>
      cases hafter
      by_cases hnew : l = w.lines.length
      · exact .inr (.inl hnew)
      · rw [queueOf_addServer_of_ne hnew] at hl
        exact .inl hl
    | setOut l' s =>
      cases hafter
      rw [queueOf_setQueue_of_ne (.inl (by decide))] at hl
      exact .inl hl
    | setIn l' s =>
      cases hafter
      by_cases heq : l = l'
      · subst heq
        exact .inr (.inr ⟨address, timeoutInMs, .connectOut l s, rfl, rfl⟩)
      · rw [queueOf_setQueue_of_ne (.inr heq)] at hl
        exact .inl hl
    | connectOut l' s | connectIn l' s =>
      cases hafter
      rw [queueOf, lines_connect] at hl
      exact .inl hl
    | _ =>
      cases hafter
      exact .inl hl

/-- A client is about to return only after it has seen both queues of its line. -/
private theorem leave_of_after {p : Point} {w w' : Inproc} {es : List Event} {address : String} {l : Nat}
    (hafter : (code p w).after w = some (.createClient address (.leave l), w', es)) :
    (p = .createClient address (.test l) ∨ p = .createClient address (.predicate l)) ∧ w.joined l = true := by
  cases p with
  | idle => cases hafter
  | createClient address' st =>
    cases st with
    | test l' | predicate l' =>
      simp only [code, clientCode, Monitor.Action.after, Option.some.injEq, Prod.mk.injEq,
        Point.createClient.injEq] at hafter
      obtain ⟨⟨rfl, hstage⟩, -, -⟩ := hafter
      split at hstage
      · rename_i hjoined
        cases hstage
        exact ⟨by simp, hjoined⟩
      · cases hstage
    | _ => cases hafter
  | waitConnection address' timeoutInMs st =>
    cases st with
    | scan =>
      simp only [code, serverCode] at hafter
      split at hafter <;> cases hafter
    | _ => cases hafter

/-- A line that is put into the registry has no queues. -/
private theorem queued_of_after {p k : Point} {w w' : Inproc} {es : List Event} {line : Handle}
    (hafter : (code p w).after w = some (k, w', es)) (hmem : .queued line ∈ es) :
    w'.queueOf .incoming line.id = none := by
  cases p with
  | idle => cases hafter
  | createClient address st =>
    cases st with
    | create =>
      cases hafter
      obtain rfl : line = ⟨w.lines.length, address⟩ := by simpa using hmem
      rw [queueOf_addClient, queueOf, List.getElem?_eq_none (Nat.le_refl _)]
      rfl
    | leave l =>
      cases hafter
      simp at hmem
    | _ =>
      cases hafter
      cases hmem
  | waitConnection address timeoutInMs st =>
    cases st with
    | scan =>
      simp only [code, serverCode] at hafter
      split at hafter <;> cases hafter <;> simp at hmem
    | unlockOther l s | leave result =>
      cases hafter
      simp at hmem
    | _ =>
      cases hafter
      cases hmem

/-- A queued line with an incoming queue is adopted, or about to be; and a client returns only with an adopted
line. -/
structure Joined {τ : Type} (tr : Trace τ) (s : State τ) : Prop where
  joins : ∀ line ∈ queued tr, (s.data.queueOf .incoming line.id).isSome →
    (∃ server, (line.id, server) ∈ adoptions tr) ∨
    ∃ t address timeoutInMs st, s.pc t = .waitConnection address timeoutInMs st ∧ st.joins = some line.id
  returns : ∀ t address l, s.pc t = .createClient address (.leave l) → ∃ server, (l, server) ∈ adoptions tr

section Runs

open Monitor

variable {τ : Type} [DecidableEq τ] {ok : State τ → Label τ Point → Prop} {s s' : State τ} {tr es : Trace τ}
  {l : Label τ Point}

private theorem inv_step (hinv : Inv tr s.data) (hat : ∀ t, Sound s.data ∧ At (s.pc t) (own t tr) s.data)
    (hnext : program.next s l = some (s', es)) : Inv (tr ++ es) s'.data := by
  rcases Program.act_cases hnext with ⟨hdata, hes⟩ | ⟨t, es', hafter, rfl⟩
  · rw [hdata]
    rcases hes with rfl | ⟨t, p, rfl⟩ <;> exact hinv.other rfl rfl rfl (.refl _) fun _ _ h => by cases h
  · exact hinv.act t hafter (hat t).2

/-- A constructor that has given a line its queues goes on to adopt it. -/
private theorem joins_step (hnext : program.next s l = some (s', es)) {t : τ} {address : String} {timeoutInMs : Int}
    {st : ServerStage} {line : Nat} (ht : s.pc t = .waitConnection address timeoutInMs st)
    (hst : st.joins = some line) : (∃ server, (line, server) ∈ adoptions es) ∨
      ∃ st', s'.pc t = .waitConnection address timeoutInMs st' ∧ st'.joins = some line := by
  rcases Program.thread_cases hnext t with ⟨hpc, -⟩ | ⟨p, -, hidle, -⟩ | ⟨k, es', hafter, hpc, rfl⟩ | ⟨k, hk, -⟩
  · exact .inr ⟨st, by rw [hpc, ht], hst⟩
  · rw [ht] at hidle
    cases hidle
  · rw [ht] at hafter
    rcases joins_of_after hafter hst with ⟨st', rfl, hst'⟩ | ⟨server, rfl⟩
    · exact .inr ⟨st', hpc, hst'⟩
    · exact .inl ⟨server, List.mem_singleton.2 rfl⟩
  · rw [ht] at hk
    cases st <;> cases hst <;> cases hk

private theorem Joined.keep (h : Joined tr s) (hnext : program.next s l = some (s', es)) {line : Handle}
    (hline : line ∈ queued tr) (hin : (s.data.queueOf .incoming line.id).isSome) :
    (∃ server, (line.id, server) ∈ adoptions (tr ++ es)) ∨
      ∃ t address timeoutInMs st, s'.pc t = .waitConnection address timeoutInMs st ∧ st.joins = some line.id := by
  rw [adoptions_append]
  rcases h.joins line hline hin with ⟨server, hmem⟩ | ⟨t, address, timeoutInMs, st, ht, hst⟩
  · exact .inl ⟨server, List.mem_append_left _ hmem⟩
  · rcases joins_step hnext ht hst with ⟨server, hmem⟩ | ⟨st', ht', hst'⟩
    · exact .inl ⟨server, List.mem_append_right _ hmem⟩
    · exact .inr ⟨t, address, timeoutInMs, st', ht', hst'⟩

private theorem joined_step (hrun : program.machine.RunWhere ok (.start empty .idle) tr s) (hinv : Inv tr s.data)
    (h : Joined tr s) (hnext : program.next s l = some (s', es)) : Joined (tr ++ es) s' := by
  have hat := at_of_run hrun
  refine ⟨fun line hline hin => ?_, fun t address l' ht => ?_⟩
  · rw [queued_append] at hline
    rcases Program.act_cases hnext with ⟨hdata, hes⟩ | ⟨t, es', hafter, rfl⟩
    · have hnone : queued es = [] := by rcases hes with rfl | ⟨t, p, rfl⟩ <;> rfl
      rw [hnone, List.append_nil] at hline
      rw [hdata] at hin
      exact h.keep hnext hline hin
    · rcases List.mem_append.1 hline with hline | hline
      · rcases incoming_of_after hafter hin with hin | hnew | ⟨address, timeoutInMs, st, hpc, hst⟩
        · exact h.keep hnext hline hin
        · exact absurd hnew (Nat.ne_of_lt (hinv.numbered line hline))
        · exact .inr ⟨t, address, timeoutInMs, st, hpc, hst⟩
      · -- a line that was just queued has no queues
        rw [queued, seen_events] at hline
        obtain ⟨e, hmem, he⟩ := List.mem_filterMap.1 hline
        cases e <;> cases he
        rw [queued_of_after hafter hmem] at hin
        cases hin
  · rw [adoptions_append]
    rcases Program.thread_cases hnext t with
      ⟨hpc, -⟩ | ⟨p, -, -, hentry, hpc, -⟩ | ⟨k, es', hafter, hpc, rfl⟩ | ⟨k, hk, hpc, -⟩
    · rw [hpc] at ht
      obtain ⟨server, hmem⟩ := h.returns t address l' ht
      exact ⟨server, List.mem_append_left _ hmem⟩
    · rw [← hpc, ht] at hentry
      cases hentry
    · -- the client holds the mutex of its line, so no constructor is at work on the line
      rw [← hpc, ht] at hafter
      obtain ⟨hpoint, hjoined⟩ := leave_of_after hafter
      have hown : own t tr = [.queued ⟨l', address⟩] := by
        have hat' := (hat t).2
        rcases hpoint with hpoint | hpoint <;> rw [hpoint] at hat' <;> exact hat'
      have hholds : holds (s.pc t) (.line l') := by
        rcases hpoint with hpoint | hpoint <;> rw [hpoint] <;> simp [holds, ClientStage.holds]
      have hqueued : (⟨l', address⟩ : Handle) ∈ queued tr :=
        List.mem_filterMap.2 ⟨_, mem_of_own (by rw [hown]; exact List.mem_singleton_self _), rfl⟩
      have hin : (s.data.queueOf .incoming l').isSome := by
        simp only [joined, Bool.and_eq_true] at hjoined
        exact hjoined.1
      rcases h.joins _ hqueued hin with ⟨server, hmem⟩ | ⟨u, address', timeoutInMs, st, hu, hst⟩
      · exact ⟨server, List.mem_append_left _ hmem⟩
      · have hholds' : holds (s.pc u) (.line l') := by
          rw [hu]
          exact holds_of_joins hst
        -- two threads that hold the mutex of the line are one
        obtain rfl := disciplined.exclusive rfl hrun hholds hholds'
        rcases hpoint with hpoint | hpoint <;> rw [hpoint] at hu <;> cases hu
    · rw [← hpc, ht] at hk
      generalize s.pc t = p at hk
      cases p with
      | idle | createClient _ _ => cases hk
      | waitConnection _ _ st => cases st <;> cases hk

theorem inv_of_run (hrun : program.machine.RunWhere ok (.start empty .idle) tr s) :
    Inv tr s.data ∧ Joined tr s := by
  induction hrun with
  | start =>
    refine ⟨inv_start, fun line hline => ?_, fun t address l h => ?_⟩
    · cases hline
    · cases h
  | step hrun _ hnext ih =>
    obtain ⟨hinv, hjoined⟩ := ih
    exact ⟨inv_step hinv (at_of_run hrun) hnext, joined_step hrun hinv hjoined hnext⟩

end Runs

/-! ### One to one -/

/-- A queue of one of the two lines of a connection. -/
def Carries (w : Inproc) (l server q : Nat) : Prop :=
  ∃ direction, w.queueOf direction l = some q ∨ w.queueOf direction server = some q

private theorem incoming_of_carries {w : Inproc} {l server q : Nat} (h : Crossed w l server)
    (hq : Carries w l server q) : ∃ k, (k = l ∨ k = server) ∧ w.queueOf .incoming k = some q := by
  obtain ⟨q₁, q₂, -, -, hl, hs, -⟩ := h
  obtain ⟨direction, hq⟩ := hq
  rw [queueOf_of_line hl, queueOf_of_line hs] at hq
  have hl' : w.queueOf .incoming l = some q₂ := queueOf_of_line hl
  have hs' : w.queueOf .incoming server = some q₁ := queueOf_of_line hs
  cases direction with
  | incoming =>
    rcases hq with hq | hq
    · exact ⟨l, .inl rfl, hl'.trans hq⟩
    · exact ⟨server, .inr rfl, hs'.trans hq⟩
  | outgoing =>
    rcases hq with hq | hq
    · exact ⟨server, .inr rfl, hs'.trans hq⟩
    · exact ⟨l, .inl rfl, hl'.trans hq⟩

/-- Two connections that share a queue are the same. -/
theorem eq_of_carries {w : Inproc} (hw : Sound w) {l server l' server' q : Nat} (h : Crossed w l server)
    (h' : Crossed w l' server') (hq : Carries w l server q) (hq' : Carries w l' server' q) :
    l = l' ∧ server = server' := by
  obtain ⟨k, hk, hin⟩ := incoming_of_carries h hq
  obtain ⟨k', hk', hin'⟩ := incoming_of_carries h' hq'
  obtain rfl := hw.unshared _ _ _ _ hin hin'
  obtain ⟨q₁, q₂, hlt, -, hl, hs, -⟩ := h
  obtain ⟨q₁', q₂', hlt', -, hl', hs', -⟩ := h'
  have hserver : w.queueOf .incoming server = some q₁ := queueOf_of_line hs
  have hserver' : w.queueOf .incoming server' = some q₁' := queueOf_of_line hs'
  have hclient : w.queueOf .outgoing l = some q₁ := queueOf_of_line hl
  have hclient' : w.queueOf .outgoing l' = some q₁' := queueOf_of_line hl'
  rcases hk with rfl | rfl <;> rcases hk' with rfl | rfl
  · rw [hl] at hl'
    cases hl'
    exact ⟨rfl, hw.unshared _ _ _ _ hserver hserver'⟩
  · -- a client's line is older than its server's line
    rw [hl] at hs'
    cases hs'
    have hin : w.queueOf .incoming l' = some q₁ := queueOf_of_line hl'
    have := hw.unshared _ _ _ _ hserver hin
    omega
  · rw [hs] at hl'
    cases hl'
    have hin : w.queueOf .incoming l = some q₂ := queueOf_of_line hl
    have := hw.unshared _ _ _ _ hserver' hin
    omega
  · rw [hs] at hs'
    cases hs'
    exact ⟨hw.unshared _ _ _ _ hclient hclient', rfl⟩

theorem accepted_of_after {p k : Point} {w w' : Inproc} {es : List Event} {address : String}
    {result : Option Nat} (hafter : (code p w).after w = some (k, w', es)) (hmem : .accepted address result ∈ es) :
    ∃ timeoutInMs, p = .waitConnection address timeoutInMs (.leave result) := by
  cases p with
  | idle => cases hafter
  | createClient _ st =>
    cases st <;> cases hafter <;> simp at hmem
  | waitConnection address' timeoutInMs st =>
    cases st with
    | scan =>
      simp only [code, serverCode] at hafter
      split at hafter <;> cases hafter <;> simp at hmem
    | leave result' =>
      cases hafter
      cases List.mem_singleton.1 hmem
      exact ⟨timeoutInMs, rfl⟩
    | _ =>
      cases hafter
      simp at hmem

theorem created_of_after {p k : Point} {w w' : Inproc} {es : List Event} {line : Handle}
    (hafter : (code p w).after w = some (k, w', es)) (hmem : .created line ∈ es) :
    p = .createClient line.address (.leave line.id) := by
  cases p with
  | idle => cases hafter
  | createClient address st =>
    cases st with
    | leave l =>
      cases hafter
      cases List.mem_singleton.1 hmem
      rfl
    | _ =>
      cases hafter
      simp at hmem
  | waitConnection address' timeoutInMs st =>
    cases st with
    | scan =>
      simp only [code, serverCode] at hafter
      split at hafter <;> cases hafter <;> simp at hmem
    | _ =>
      cases hafter
      simp at hmem

/-- In every run, of each address the lines taken by acceptors are the first of those queued, in this order, and no
line is taken twice.  When a `waitConnection` returns without a line, no line with its address is queued; when it
returns one, that line has adopted the line it took.  A `createClient` returns only with an adopted line.  An adopted
line and its server's line are crossed, and two connections share no queue. -/
theorem one_to_one {τ : Type} [DecidableEq τ] (tr : Trace τ) (s : State τ)
    (hrun : program.machine.Run (.start empty .idle) tr s) :
    (∀ address, ((taken tr).filter fun x => x.1 = address).map Prod.snd <+:
      (queued tr).filter fun line => line.address = address) ∧
    ((taken tr).map fun x => x.2.id).Nodup ∧
    (∀ l s' es t, program.machine.next s l = some (s', es) →
      (∀ address, (t, .event (.accepted address none)) ∈ es →
        ∀ line ∈ s.data.registry.connectQueue, line.address ≠ address) ∧
      (∀ address server, (t, .event (.accepted address (some server))) ∈ es →
        ∃ line, (address, line) ∈ taken tr ∧ (line.id, server) ∈ adoptions tr) ∧
      ∀ line, (t, .event (.created line)) ∈ es → ∃ server, (line.id, server) ∈ adoptions tr) ∧
    (∀ l server, (l, server) ∈ adoptions tr → Crossed s.data l server) ∧
    ∀ l server l' server' q, (l, server) ∈ adoptions tr → (l', server') ∈ adoptions tr →
      Carries s.data l server q → Carries s.data l' server' q → l = l' ∧ server = server' := by
  obtain ⟨hinv, hjoined⟩ := inv_of_run hrun
  have hat := at_of_run hrun
  refine ⟨fun address => ⟨_, (hinv.order address).symm⟩, ?_, fun l s' es t hnext => ⟨?_, ?_, ?_⟩, hinv.crossed, ?_⟩
  · -- what was taken was queued, under different numbers
    have hperm := hinv.perm.map Handle.id
    rw [List.map_append, List.map_map] at hperm
    exact (hperm.nodup_iff.2 hinv.distinct).of_append_left
  · intro address hmem
    obtain ⟨es', hafter, he⟩ := Monitor.Program.act_of_event hnext hmem
    obtain ⟨timeoutInMs, hpc⟩ := accepted_of_after hafter he
    have hat' := (hat t).2
    rw [hpc] at hat'
    exact hat'.2
  · intro address server hmem
    obtain ⟨es', hafter, he⟩ := Monitor.Program.act_of_event hnext hmem
    obtain ⟨timeoutInMs, hpc⟩ := accepted_of_after hafter he
    have hat' := (hat t).2
    rw [hpc] at hat'
    obtain ⟨l, hown⟩ := hat'
    have htaken : .taken address ⟨l, address⟩ ∈ Monitor.own t tr := by
      rw [hown]
      simp
    have hadopted : .adopted l server ∈ Monitor.own t tr := by
      rw [hown]
      simp
    exact ⟨⟨l, address⟩, List.mem_filterMap.2 ⟨_, Monitor.mem_of_own htaken, rfl⟩,
      List.mem_filterMap.2 ⟨_, Monitor.mem_of_own hadopted, rfl⟩⟩
  · intro line hmem
    obtain ⟨es', hafter, he⟩ := Monitor.Program.act_of_event hnext hmem
    exact hjoined.returns t line.address line.id (created_of_after hafter he)
  · intro l server l' server' q hmem hmem' hq hq'
    obtain ⟨⟨t, _⟩, -, -⟩ := List.mem_filterMap.1 hmem
    exact eq_of_carries (hat t).1 (hinv.crossed _ _ hmem) (hinv.crossed _ _ hmem') hq hq'

/-- An acceptor that waits first, and a client that waits for it. -/
theorem one_to_one_pair : ∃ (tr : Trace Bool) (s : State Bool), program.machine.Run (.start empty .idle) tr s ∧
    adoptions tr = [(0, 1)] ∧ (false, .event (.created ⟨0, "a"⟩)) ∈ tr ∧ Crossed s.data 0 1 := by
  have h : ((program.machine.exec (.start empty .idle)
      (List.flatten [[.invoke true (.waitConnection "a" 100 .enter)], List.replicate 4 (.step true),
        [.invoke false (.createClient "a" .enter)], List.replicate 8 (.step false), List.replicate 8 (.step true),
        [.signal true false], List.replicate 2 (.step true), List.replicate 3 (.step false)])).any fun r =>
      decide (adoptions r.2 = [(0, 1)] ∧ (false, .event (.created ⟨0, "a"⟩)) ∈ r.2)) = true := by decide +kernel
  obtain ⟨⟨s, tr⟩, hexec, hdecide⟩ := (Option.any_eq_true _ _).1 h
  obtain ⟨hadoptions, hcreated⟩ := of_decide_eq_true hdecide
  have hrun := Machine.RunWhere.of_exec hexec
  obtain ⟨-, -, -, hcrossed, -⟩ := one_to_one tr s hrun
  exact ⟨tr, s, hrun, hadoptions, hcreated, hcrossed 0 1 (by rw [hadoptions]; exact List.mem_singleton_self _)⟩

end Inproc

end Cppio
