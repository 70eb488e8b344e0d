import Mathlib.Data.List.Nodup
import Cppio.NamedPipes

/-!
# The names of private pipes

The name of a private pipe is the address of the acceptor and the text of a counter, with nothing in between.  A name
can be taken in two ways only if an address is another one with a piece of such a text behind it, that is a `-` or the
text of an integer (`newPipeAddress_inj`).  Exactly if there are no such addresses, and no NUL cuts a name short, the
names stay apart (`neverCollide_iff`).
-/

namespace Cppio

open Decimal PipeServer

variable {ι : Type}

/-- The names generated so far, with their acceptors. -/
def generatedNames (tr : List (PipeEvent ι)) : List (ι × List Byte) :=
  tr.filterMap fun
    | .generated i name => some (i, name)
    | .called .. => none

/-- The number of calls of `waitConnection` of an acceptor. -/
def waitConnections [DecidableEq ι] (tr : List (PipeEvent ι)) (i : ι) : Nat := (generatedNames tr).countP (·.1 = i)

/-- The environment of a client that is told a name. -/
def tells (told : List Byte) (_ : Unit) : PipeCall → PipeReply → Option Unit
  | .readFile .., reply => if reply.data = told then some () else none
  | _, _ => some ()

/-- The names of private pipes are different from each other and from the public ones, and a client that is told a
name by an acceptor opens a pipe that is not public and was not made by another acceptor. -/
structure KeptApart (acceptor : ι → NamedPipeAcceptor) (tr : List (PipeEvent ι)) : Prop where
  distinct : ((generatedNames tr).map fun n => pipeName n.2).Nodup
  notPublic : ∀ n ∈ generatedNames tr, ∀ j, pipeName n.2 ≠ pipeName (acceptor j).address
  joined : ∀ i pipe told reply, .called i (.writeFile pipe told) reply ∈ tr → ∀ address,
    (NamedPipeLine.new address).Ensures (tells told) (fun result _ log => ∀ line, result = .ok line →
      ∃ log' name opened, log = log' ++ [(.createFile name, opened)] ∧ opened.value = line.pipe ∧
        (∀ j, name ≠ pipeName (acceptor j).address) ∧
        ∀ j type size reply', .called j (.createNamedPipe name type size) reply' ∈ tr → j = i) ()

/-- In every run of the acceptors with less than `2 ^ 32` calls of each the names stay apart, whatever the counters
start with. -/
def NeverCollide [DecidableEq ι] (acceptor : ι → NamedPipeAcceptor) : Prop :=
  ∀ counter waitingPipe tr s, (machine acceptor).Run (start counter waitingPipe) tr s →
    (∀ i, waitConnections tr i < 2 ^ 32) → KeptApart acceptor tr

/-- No address has a NUL, and none is another one with a `-` or the text of a counter behind it. -/
structure Apart (acceptor : ι → NamedPipeAcceptor) : Prop where
  noNul : ∀ i, 0 ∉ (acceptor i).address
  minus : ∀ i j, (acceptor j).address ≠ (acceptor i).address ++ [45]
  counter : ∀ i j c, (acceptor j).address ≠ (acceptor i).newPipeAddress c

/-! ### Names -/

section Names

variable {acceptor : ι → NamedPipeAcceptor}

private theorem exists_counter {c : Int32} {y : Int} (hge : min c.toInt 0 ≤ y) (hle : y ≤ max c.toInt 0) :
    ∃ d : Int32, d.toInt = y := by
  have hmin := c.le_toInt
  have hmax := c.toInt_lt
  exact ⟨.ofInt y, Int32.toInt_ofInt_of_le (by omega) (by omega)⟩

-- an address that goes on where another one ends goes on with a piece of the text of a counter
private theorem eq_nil_of_append (h : Apart acceptor) {i j : ι} {c d : Int32} {s : List Byte}
    (haddress : (acceptor j).address = (acceptor i).address ++ s)
    (htext : intText c.toInt = s ++ intText d.toInt) : s = [] := by
  by_contra hne
  rcases eq_intText_of_append htext hne with rfl | ⟨y, rfl, hge, hle⟩
  · exact h.minus i j haddress
  · obtain ⟨e, he⟩ := exists_counter hge hle
    exact h.counter i j e (by rw [haddress, ← he, NamedPipeAcceptor.newPipeAddress])

private theorem address_eq (h : Apart acceptor) {i j : ι} {c d : Int32}
    (heq : (acceptor i).newPipeAddress c = (acceptor j).newPipeAddress d) :
    (acceptor i).address = (acceptor j).address := by
  rcases List.append_eq_append_iff.1 heq with ⟨s, haddress, htext⟩ | ⟨s, haddress, htext⟩
  · rw [haddress, eq_nil_of_append h haddress htext, List.append_nil]
  · rw [haddress, eq_nil_of_append h haddress htext, List.append_nil]

/-- A name determines its acceptor and its counter. -/
theorem newPipeAddress_inj (h : Apart acceptor) (hdistinct : Function.Injective fun i => (acceptor i).address)
    {i j : ι} {c d : Int32} (heq : (acceptor i).newPipeAddress c = (acceptor j).newPipeAddress d) :
    i = j ∧ c = d := by
  obtain rfl : i = j := hdistinct (address_eq h heq)
  exact ⟨rfl, Int32.toInt_inj.1 (intText_injective (List.append_cancel_left heq))⟩

theorem pipeName_of_notMem {address : List Byte} (h : 0 ∉ address) : pipeName address = pipePrefix ++ address := by
  rw [pipeName, CString.contents_of_notMem]
  rw [List.mem_append]
  exact not_or.2 ⟨by decide, h⟩

theorem zero_notMem_newPipeAddress (h : Apart acceptor) (i : ι) (c : Int32) :
    0 ∉ (acceptor i).newPipeAddress c := by
  rw [NamedPipeAcceptor.newPipeAddress, List.mem_append]
  refine not_or.2 ⟨h.noNul i, fun hmem => ?_⟩
  rcases of_mem_intText hmem with hminus | hdigit
  · exact absurd hminus (by decide)
  · exact absurd hdigit (by decide)

theorem pipeName_inj {address address' : List Byte} (h : 0 ∉ address) (h' : 0 ∉ address')
    (heq : pipeName address = pipeName address') : address = address' := by
  rw [pipeName_of_notMem h, pipeName_of_notMem h'] at heq
  exact List.append_cancel_left heq

end Names

/-! ### Runs -/

section Runs

variable {acceptor : ι → NamedPipeAcceptor} {tr es : List (PipeEvent ι)}

theorem generatedNames_append (tr es : List (PipeEvent ι)) :
    generatedNames (tr ++ es) = generatedNames tr ++ generatedNames es :=
  List.filterMap_append ..

private theorem generatedNames_called (tr : List (PipeEvent ι)) (i : ι) (c : PipeCall) (reply : PipeReply) :
    generatedNames (tr ++ [.called i c reply]) = generatedNames tr := by
  rw [generatedNames_append]
  exact List.append_nil _

/-- A call uses names that were generated for its acceptor. -/
def PipeCall.Uses (names : List (ι × List Byte)) (i : ι) : PipeCall → Prop
  | .createNamedPipe name .. => ∃ n, (i, n) ∈ names ∧ name = pipeName n
  | .writeFile _ data => (i, data) ∈ names
  | _ => True

theorem PipeCall.Uses.append {names : List (ι × List Byte)} {i : ι} {c : PipeCall} (h : c.Uses names i)
    (names' : List (ι × List Byte)) : c.Uses (names ++ names') i := by
  cases c with
  | createNamedPipe name =>
    obtain ⟨n, hn, hname⟩ := h
    exact ⟨n, List.mem_append_left _ hn, hname⟩
  | writeFile pipe data => exact List.mem_append_left _ h
  | _ => trivial

theorem only_connectPipe (names : List (ι × List Byte)) (i : ι) (pipe msec : Int) :
    (connectPipe pipe msec).Only (PipeCall.Uses names i) := by
  refine ⟨trivial, fun event => ⟨trivial, fun connected => ?_⟩⟩
  refine Interaction.Only.bind ?_ fun ret => ⟨trivial, fun _ => trivial⟩
  simp [PipeCall.Uses]

theorem only_giveUp (names : List (ι × List Byte)) (i : ι) :
    NamedPipeAcceptor.giveUp.Only (PipeCall.Uses names i) :=
  ⟨trivial, fun _ => ⟨trivial, fun _ => trivial⟩⟩

/-- `waitConnection` makes and tells the name it generated. -/
theorem only_waitConnection {names : List (ι × List Byte)} {i : ι} {this : NamedPipeAcceptor} {counter : Int32}
    (h : (i, this.newPipeAddress counter) ∈ names) (timeoutInMs : Int) :
    (this.waitConnection counter timeoutInMs).Only (PipeCall.Uses names i) := by
  refine ⟨⟨_, h, rfl⟩, fun created => ⟨trivial, fun _ => (only_connectPipe names i _ _).bind fun ret => ?_⟩⟩
  rw [Interaction.only_ite]
  refine ⟨fun _ => only_giveUp names i, fun _ => ⟨h, fun _ => ⟨trivial, fun _ => ⟨trivial, fun _ => ⟨trivial, ?_⟩⟩⟩⟩⟩
  intro waitingPipe
  refine (only_connectPipe names i _ _).bind fun ret => ?_
  rw [Interaction.only_ite]
  exact ⟨fun _ => only_giveUp names i, fun _ => ⟨trivial, fun _ => trivial⟩⟩

variable [DecidableEq ι] {s s' : PipeServer ι} {l : PipeStep ι} {counter : ι → Int32}

/-- What a step can do. -/
theorem next_cases (h : next acceptor s l = some (s', es)) :
    (∃ i timeoutInMs, s' = { s with
        counter := Function.update s.counter i (s.counter i + 1),
        calls := s.calls ++ [(i, (acceptor i).waitConnection (s.counter i) timeoutInMs)] } ∧
      es = [.generated i ((acceptor i).newPipeAddress (s.counter i))]) ∨
    ∃ k i c rest reply, s.calls[k]? = some (i, .call c rest) ∧ s'.counter = s.counter ∧
      s'.calls = s.calls.set k (i, rest reply) ∧ es = [.called i c reply] := by
  cases l with
  | waitConnection i timeoutInMs =>
    cases h
    exact Or.inl ⟨i, timeoutInMs, rfl, rfl⟩
  | reply k reply =>
    rw [next] at h
    split at h
    case h_2 => cases h
    case h_1 i c rest hcall =>
      obtain ⟨s₁, hs₁, heq⟩ := Option.map_eq_some_iff.1 h
      cases heq
      have hcounter : s₁.counter = s.counter ∧ s₁.calls = s.calls := by
        cases c with
        | loadWaitingPipe =>
          rw [respond, Option.ite_none_right_eq_some] at hs₁
          cases hs₁.2
          exact ⟨rfl, rfl⟩
        | _ =>
          cases hs₁
          exact ⟨rfl, rfl⟩
      exact Or.inr ⟨k, i, c, rest, reply, hcall, hcounter.1, rfl, rfl⟩

/-- The names are those of different calls, numbered for each acceptor, and only such names are used. -/
structure Numbered (acceptor : ι → NamedPipeAcceptor) (counter : ι → Int32) (tr : List (PipeEvent ι))
    (s : PipeServer ι) : Prop where
  counted : ∀ i, s.counter i = counter i + .ofNat (waitConnections tr i)
  numbers : ∃ calls : List (ι × Nat), calls.Nodup ∧ (∀ n ∈ calls, n.2 < waitConnections tr n.1) ∧
    generatedNames tr = calls.map fun n => (n.1, (acceptor n.1).newPipeAddress (counter n.1 + .ofNat n.2))
  underWay : ∀ call ∈ s.calls, call.2.Only (PipeCall.Uses (generatedNames tr) call.1)
  made : ∀ i c reply, .called i c reply ∈ tr → c.Uses (generatedNames tr) i

private theorem waitConnections_generated (tr : List (PipeEvent ι)) (i j : ι) (name : List Byte) :
    waitConnections (tr ++ [.generated i name]) j = waitConnections tr j + if i = j then 1 else 0 := by
  rw [waitConnections, generatedNames_append, List.countP_append]
  simp [waitConnections, generatedNames, List.countP_cons]

private theorem numbered_generated (h : Numbered acceptor counter tr s) (i : ι) (timeoutInMs : Int) :
    Numbered acceptor counter (tr ++ [.generated i ((acceptor i).newPipeAddress (s.counter i))]) { s with
      counter := Function.update s.counter i (s.counter i + 1),
      calls := s.calls ++ [(i, (acceptor i).waitConnection (s.counter i) timeoutInMs)] } := by
  have hnames := generatedNames_append tr [.generated i ((acceptor i).newPipeAddress (s.counter i))]
  have hcount := waitConnections_generated tr i
  constructor
  case counted =>
    intro j
    rw [hcount]
    show Function.update s.counter i (s.counter i + 1) j = _
    by_cases hij : i = j
    · subst hij
      rw [if_pos rfl, Function.update_self, h.counted i, Int32.ofNat_add, Int32.add_assoc]
      rfl
    · rw [if_neg hij, Function.update_of_ne (Ne.symm hij)]
      exact h.counted j
  case numbers =>
    obtain ⟨calls, hnodup, hlt, heq⟩ := h.numbers
    refine ⟨calls ++ [(i, waitConnections tr i)], ?_, ?_, ?_⟩
    · -- the numbers of the calls so far are smaller
      refine List.nodup_append.2 ⟨hnodup, List.nodup_singleton _, fun n hn n' hn' heq => ?_⟩
      obtain rfl := List.mem_singleton.1 hn'
      subst heq
      exact Nat.lt_irrefl _ (hlt _ hn)
    · intro n hn
      rw [hcount]
      rcases List.mem_append.1 hn with hn | hn
      · exact Nat.lt_of_lt_of_le (hlt n hn) (Nat.le_add_right _ _)
      · obtain rfl := List.mem_singleton.1 hn
        rw [if_pos rfl]
        exact Nat.lt_succ_self _
    · rw [hnames, heq, List.map_append, List.map_singleton, ← h.counted i]
      rfl
  case underWay =>
    intro call hcall
    rw [hnames]
    rcases List.mem_append.1 hcall with hcall | hcall
    · exact (h.underWay call hcall).mono fun c hc => hc.append _
    · obtain rfl := List.mem_singleton.1 hcall
      exact only_waitConnection (List.mem_append_right _ List.mem_cons_self) timeoutInMs
  case made =>
    intro j c reply hmem
    rw [hnames]
    rcases List.mem_append.1 hmem with hmem | hmem
    · exact (h.made j c reply hmem).append _
    · cases List.mem_singleton.1 hmem

private theorem numbered_called (h : Numbered acceptor counter tr s) {k : Nat} {i : ι} {c : PipeCall}
    {rest : PipeReply → Windows (Option NamedPipeLine)} {reply : PipeReply}
    (hcall : s.calls[k]? = some (i, .call c rest)) (hcounter : s'.counter = s.counter)
    (hcalls : s'.calls = s.calls.set k (i, rest reply)) :
    Numbered acceptor counter (tr ++ [.called i c reply]) s' := by
  have hnames := generatedNames_called tr i c reply
  have hcount : waitConnections (tr ++ [.called i c reply]) = waitConnections tr := by
    funext j
    rw [waitConnections, hnames]
    rfl
  have honly := h.underWay _ (List.mem_of_getElem? hcall)
  constructor
  case counted =>
    rw [hcount, hcounter]
    exact h.counted
  case numbers =>
    rw [hcount, hnames]
    exact h.numbers
  case underWay =>
    intro call hmem
    rw [hnames]
    rw [hcalls] at hmem
    rcases List.mem_or_eq_of_mem_set hmem with hmem | rfl
    · exact h.underWay call hmem
    · exact honly.2 reply
  case made =>
    intro j c' reply' hmem
    rw [hnames]
    rcases List.mem_append.1 hmem with hmem | hmem
    · exact h.made j c' reply' hmem
    · cases List.mem_singleton.1 hmem
      exact honly.1

theorem numbered_of_run {waitingPipe : ι → Int}
    (hrun : (machine acceptor).Run (start counter waitingPipe) tr s) : Numbered acceptor counter tr s := by
  refine hrun.invariant (Numbered acceptor counter) ?_ ?_
  · refine ⟨fun i => (Int32.add_zero _).symm, ⟨[], List.nodup_nil, ?_, rfl⟩, ?_, ?_⟩
    · exact fun _ h => absurd h List.not_mem_nil
    · exact fun _ h => absurd h List.not_mem_nil
    · exact fun _ _ _ h => absurd h List.not_mem_nil
  · intro tr s l s' es h _ hnext
    rcases next_cases hnext with ⟨i, timeoutInMs, rfl, rfl⟩ | ⟨k, i, c, rest, reply, hcall, hcounter, hcalls, rfl⟩
    · exact numbered_generated h i timeoutInMs
    · exact numbered_called h hcall hcounter hcalls

end Runs

/-! ### Staying apart -/

/-- A client opens the pipe it is told. -/
theorem new_opens (told address : List Byte) :
    (NamedPipeLine.new address).Ensures (tells told) (fun result _ log => ∀ line, result = .ok line →
      ∃ log' opened, log = log' ++ [(.createFile (pipeName told), opened)] ∧ opened.value = line.pipe) () := by
  have htold : ∀ serverPipe (log : List (PipeCall × PipeReply)),
      (NamedPipeLine.openTold serverPipe).Ensures (tells told) (fun result _ log' => ∀ line, result = .ok line →
        ∃ log'' opened, log ++ log' = log'' ++ [(.createFile (pipeName told), opened)] ∧ opened.value = line.pipe)
        () := by
    intro serverPipe log
    simp only [NamedPipeLine.openTold, throwLastError, Interaction.ensures_call, Interaction.ensures_ite,
      Interaction.ensures_done]
    rintro read ⟨⟩ hread closed ⟨⟩ -
    rw [tells, Option.ite_none_right_eq_some] at hread
    refine ⟨fun _ line h => (by cases h), fun _ pipe _ _ => ⟨fun _ _ _ _ line h => (by cases h), fun _ line h => ?_⟩⟩
    cases h
    refine ⟨log ++ [(.readFile serverPipe 1024, read), (.closeHandle serverPipe, closed)], pipe, ?_, rfl⟩
    rw [hread.1, List.append_assoc]
    rfl
  simp only [NamedPipeLine.new, throwLastError, Interaction.ensures_call, Interaction.ensures_ite,
    Interaction.ensures_done]
  rintro serverPipe ⟨⟩ -
  refine ⟨fun _ _ _ _ line h => (by cases h), fun _ set _ _ => ⟨fun _ error _ _ => ⟨?_, fun _ => ?_⟩, fun _ => ?_⟩⟩
  · exact fun _ _ _ _ line h => (by cases h)
  · exact htold serverPipe.value [_, _, _]
  · exact htold serverPipe.value [_, _]

section KeptApart

variable [DecidableEq ι] {acceptor : ι → NamedPipeAcceptor}

private theorem ofNat_inj {k n : Nat} (hk : k < 2 ^ 32) (hn : n < 2 ^ 32) (h : Int32.ofNat k = .ofNat n) : k = n := by
  have hword : UInt32.ofNat k = .ofNat n := congrArg Int32.toUInt32 h
  rw [← UInt32.toNat_inj, UInt32.toNat_ofNat_of_lt' hk, UInt32.toNat_ofNat_of_lt' hn] at hword
  exact hword

/-- Less than `2 ^ 32` calls of each acceptor have different names. -/
theorem keptApart_of_numbered (h : Apart acceptor) (hdistinct : Function.Injective fun i => (acceptor i).address)
    {counter : ι → Int32} {tr : List (PipeEvent ι)} {s : PipeServer ι} (hnumbered : Numbered acceptor counter tr s)
    (hfew : ∀ i, waitConnections tr i < 2 ^ 32) : KeptApart acceptor tr := by
  obtain ⟨calls, hnodup, hlt, hnames⟩ := hnumbered.numbers
  have hname : ∀ n ∈ generatedNames tr, ∃ c, n.2 = (acceptor n.1).newPipeAddress c := by
    intro n hn
    rw [hnames] at hn
    obtain ⟨call, -, rfl⟩ := List.mem_map.1 hn
    exact ⟨_, rfl⟩
  have hpublic : ∀ n ∈ generatedNames tr, ∀ j, pipeName n.2 ≠ pipeName (acceptor j).address := by
    intro n hn j heq
    obtain ⟨c, hc⟩ := hname n hn
    rw [hc] at heq
    exact h.counter n.1 j c (pipeName_inj (zero_notMem_newPipeAddress h _ _) (h.noNul j) heq).symm
  constructor
  case distinct =>
    rw [hnames, List.map_map]
    refine List.Nodup.map_on ?_ hnodup
    rintro ⟨i, k⟩ hk ⟨j, n⟩ hn heq
    have hname := pipeName_inj (zero_notMem_newPipeAddress h _ _) (zero_notMem_newPipeAddress h _ _) heq
    obtain ⟨hij, hcounter⟩ := newPipeAddress_inj h hdistinct hname
    obtain rfl : i = j := hij
    have hk : k < 2 ^ 32 := Nat.lt_trans (hlt _ hk) (hfew i)
    have hn : n < 2 ^ 32 := Nat.lt_trans (hlt _ hn) (hfew i)
    rw [ofNat_inj hk hn ((Int32.add_right_inj _).1 hcounter)]
  case notPublic => exact hpublic
  case joined =>
    intro i pipe told reply hmem address
    have htold : (i, told) ∈ generatedNames tr := hnumbered.made _ _ _ hmem
    refine (new_opens told address).mono fun result _ log hopens line hline => ?_
    obtain ⟨log', opened, hlog, hpipe⟩ := hopens line hline
    refine ⟨log', pipeName told, opened, hlog, hpipe, hpublic _ htold, fun j type size reply' hmade => ?_⟩
    obtain ⟨n, hn, heq⟩ := hnumbered.made _ _ _ hmade
    obtain ⟨c, hc⟩ := hname _ htold
    obtain ⟨d, hd⟩ := hname _ hn
    rw [show told = _ from hc, show n = _ from hd] at heq
    have hinj := pipeName_inj (zero_notMem_newPipeAddress h _ _) (zero_notMem_newPipeAddress h _ _) heq
    exact (newPipeAddress_inj h hdistinct hinj).1.symm

private theorem waitConnections_le (tr : List (PipeEvent ι)) (i : ι) : waitConnections tr i ≤ tr.length :=
  Nat.le_trans List.countP_le_length (List.length_filterMap_le _ _)

-- one call
private theorem notPublic_of_neverCollide (h : NeverCollide acceptor) (i j : ι) (c : Int32) :
    pipeName ((acceptor i).newPipeAddress c) ≠ pipeName (acceptor j).address := by
  have hexec : (machine acceptor).exec (start (fun _ => c) fun _ => 0) [.waitConnection i 0] =
      some (_, [.generated i ((acceptor i).newPipeAddress c)]) := rfl
  have hfew := fun k => waitConnections_le [.generated i ((acceptor i).newPipeAddress c)] k
  have hapart := h _ _ _ _ (.of_exec hexec) fun k => Nat.lt_of_le_of_lt (hfew k) (show 1 < 2 ^ 32 by decide)
  exact hapart.notPublic (i, _) List.mem_cons_self j

-- two calls, of different acceptors
private theorem distinct_of_neverCollide (h : NeverCollide acceptor) {i j : ι} (hij : i ≠ j) (counter : ι → Int32) :
    (acceptor i).newPipeAddress (counter i) ≠ (acceptor j).newPipeAddress (counter j) := by
  intro heq
  have hcounter : Function.update counter i (counter i + 1) j = counter j := Function.update_of_ne hij.symm _ _
  have hexec : (machine acceptor).exec (start counter fun _ => 0) [.waitConnection i 0, .waitConnection j 0] =
      some (_, [.generated i ((acceptor i).newPipeAddress (counter i)),
        .generated j ((acceptor j).newPipeAddress (Function.update counter i (counter i + 1) j))]) := rfl
  rw [hcounter, ← heq] at hexec
  have hfew := fun k => waitConnections_le [.generated i ((acceptor i).newPipeAddress (counter i)),
    .generated j ((acceptor i).newPipeAddress (counter i))] k
  have hapart := h _ _ _ _ (.of_exec hexec) fun k => Nat.lt_of_le_of_lt (hfew k) (show 2 < 2 ^ 32 by decide)
  exact absurd List.mem_cons_self (List.nodup_cons.1 hapart.distinct).1

/-- The names of private pipes never collide if and only if no address has a NUL and none is another one with a `-` or
the text of a counter behind it. -/
theorem neverCollide_iff (hdistinct : Function.Injective fun i => (acceptor i).address) :
    NeverCollide acceptor ↔ Apart acceptor := by
  constructor
  · intro h
    constructor
    case noNul =>
      intro i hmem
      refine notPublic_of_neverCollide h i i 0 ?_
      rw [pipeName, pipeName, NamedPipeAcceptor.newPipeAddress, ← List.append_assoc,
        CString.contents_append_of_mem (List.mem_append_right _ hmem)]
    case minus =>
      intro i j heq
      have hij : i ≠ j := by
        rintro rfl
        exact absurd (congrArg List.length heq) (by simp)
      refine distinct_of_neverCollide h hij (fun k => if k = i then -1 else 1) ?_
      rw [if_pos rfl, if_neg hij.symm, NamedPipeAcceptor.newPipeAddress, NamedPipeAcceptor.newPipeAddress, heq,
        List.append_assoc]
      exact congrArg _ (show intText (-1) = 45 :: intText 1 by decide)
    case counter =>
      intro i j c heq
      exact notPublic_of_neverCollide h i j c (by rw [heq])
  · intro h counter waitingPipe tr s hrun hfew
    exact keptApart_of_numbered h hdistinct (numbered_of_run hrun) hfew

end KeptApart

/-- Two acceptors. -/
def acceptors (address address' : List Byte) : Bool → NamedPipeAcceptor
  | false => { address := address, pipe := 1 }
  | true => { address := address', pipe := 2 }

private theorem acceptors_injective {address address' : List Byte} (h : address ≠ address') :
    Function.Injective fun i => (acceptors address address' i).address := by
  intro i j heq
  cases i <;> cases j
  · rfl
  · exact absurd heq h
  · exact absurd heq h.symm
  · rfl

/-- Addresses of the same length. -/
theorem neverCollide_iff_foo : NeverCollide (acceptors (ascii "foo") (ascii "bar")) := by
  have hlen : ∀ i, (acceptors (ascii "foo") (ascii "bar") i).address.length = 3 := by decide
  refine (neverCollide_iff (acceptors_injective (by decide))).2 ⟨by decide, by decide, fun i j c heq => ?_⟩
  have hlen' := congrArg List.length heq
  rw [NamedPipeAcceptor.newPipeAddress, List.length_append, hlen, hlen] at hlen'
  exact intText_ne_nil c.toInt (List.eq_nil_of_length_eq_zero (by omega))

/-- A private pipe of the acceptor at `foo` has the public name of the acceptor at `foo1`. -/
theorem not_neverCollide :
    (Function.Injective fun i => (acceptors (ascii "foo") (ascii "foo1") i).address) ∧
      ¬ NeverCollide (acceptors (ascii "foo") (ascii "foo1")) :=
  ⟨acceptors_injective (by decide), fun h => notPublic_of_neverCollide h false true 1 (by decide)⟩

end Cppio
