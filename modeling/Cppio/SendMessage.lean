import Cppio.MessageProtocol

/-!
# Sending messages

`sendMessage` stores the result of a write in a `size_t` and never looks at it.  It works exactly on the lines that
never return an error and accept the whole message soon enough, and on messages whose size fits an `int`
(`handles_iff`): an error code moves the data pointer backwards, in front of the bytes already accepted, and the call
returns 1 in the end.

The loop is followed along its two variables as natural numbers, `t` bytes to write from offset `d` on, until a
negative result takes them apart (`sendLoop_accepts`, `accepts_of_sendLoop`).
-/

namespace Cppio

variable {σ : Type}

/-- `write` returns a number of bytes, not more than it was given, or a negative code. -/
def IoLine.WriteContract (line : IoLine σ) : Prop :=
  ∀ bytes s, bytes ≠ [] → -2 ^ 63 ≤ (line.write bytes s).1 ∧ (line.write bytes s).1 ≤ bytes.length

/-- Offered the bytes, and then again and again what is left of them, the line returns no error and accepts all of
them within `n` calls. -/
def IoLine.AcceptsWithin (line : IoLine σ) : Nat → List Byte → σ → Prop
  | _, [], _ => True
  | 0, _ :: _, _ => False
  | n + 1, bytes, s =>
    0 ≤ (line.write bytes s).1 ∧
      line.AcceptsWithin n (bytes.drop (line.write bytes s).1.toNat) (line.write bytes s).2

theorem IoLine.acceptsWithin_succ {line : IoLine σ} {n : Nat} {bytes : List Byte} {s : σ} (hne : bytes ≠ []) :
    line.AcceptsWithin (n + 1) bytes s ↔ 0 ≤ (line.write bytes s).1 ∧
      line.AcceptsWithin n (bytes.drop (line.write bytes s).1.toNat) (line.write bytes s).2 := by
  cases bytes with
  | nil => exact absurd rfl hne
  | cons b bytes => rfl

theorem IoLine.AcceptsWithin.mono {line : IoLine σ} {n n' : Nat} (hn : n ≤ n') : ∀ {bytes : List Byte} {s : σ},
    line.AcceptsWithin n bytes s → line.AcceptsWithin n' bytes s := by
  induction n generalizing n' with
  | zero =>
    intro bytes s h
    cases bytes with
    | nil => cases n' <;> trivial
    | cons b bytes => exact h.elim
  | succ n ih =>
    intro bytes s h
    obtain ⟨n', rfl⟩ := Nat.exists_eq_add_of_le' (Nat.le_trans (Nat.le_add_left 1 n) hn)
    cases bytes with
    | nil => trivial
    | cons b bytes => exact ⟨h.1, ih (Nat.le_of_add_le_add_right hn) h.2⟩

namespace MessageProtocol

/-- What the handling of every outcome of a write asks of a call of `sendMessage`. -/
structure Handles (m : Message) (sent : Sent σ) : Prop where
  count : sent.calls.length ≤ m.messageSize
  slices : ∀ before c after, sent.calls = before ++ c :: after →
    c.bytes ≠ [] ∧ c.offset = ((accepted before).length : Int) ∧ accepted before ++ c.bytes <+: m.writeMessage
  returns_one : sent.result = 1 ↔ accepted sent.calls = m.writeMessage
  stops : accepted sent.calls ≠ m.writeMessage → ∃ before c, sent.calls = before ++ [c] ∧
    (∀ b ∈ before, 0 < b.result) ∧ c.result ≤ 0 ∧ sent.result = c.result

/-! ### One iteration -/

@[simp] theorem accepted_nil : accepted [] = [] := rfl

@[simp] theorem accepted_cons (c : WriteCall) (calls : List WriteCall) :
    accepted (c :: calls) = c.bytes.take c.result.toNat ++ accepted calls := rfl

theorem start_towrite (m : Message) : (SendState.start m).towrite = toInt32 m.messageSize := by
  rw [SendState.start]

theorem bytesAt_eq_drop {buffer : List Byte} {outside : Int → Byte} {d t : Nat} (h : d + t = buffer.length) :
    bytesAt buffer outside d t = buffer.drop d := by
  refine List.ext_getElem (by simp [bytesAt]; omega) fun i hi hi' => ?_
  simp only [bytesAt, List.length_map, List.length_range] at hi
  have hin : 0 ≤ (d : Int) + i ∧ (d : Int) + i < buffer.length := by omega
  have hidx : ((d : Int) + i).toNat = d + i := by omega
  simp only [bytesAt, List.getElem_map, List.getElem_range, if_pos hin, hidx, List.getElem_drop]
  rw [List.getD_eq_getElem?_getD, List.getElem?_eq_getElem (by omega), Option.getD_some]

theorem length_bytesAt (buffer : List Byte) (outside : Int → Byte) (i : Int) (n : Nat) :
    (bytesAt buffer outside i n).length = n := by
  rw [bytesAt, List.length_map, List.length_range]

theorem next_of_le {t d r : Nat} (h : r ≤ t) (ht : d + t < 2 ^ 31) :
    SendState.next ⟨t, d⟩ r = ⟨(t - r : Nat), (d + r : Nat)⟩ := by
  have hr : toSizeT r = r := by rw [toSizeT, Int.emod_eq_of_lt] <;> omega
  have ht' : toSizeT t = t := by rw [toSizeT, Int.emod_eq_of_lt] <;> omega
  have hsub : (t : Int) - r = (t - r : Nat) := by omega
  simp only [SendState.next, hr, ht', hsub]
  rw [toInt32_of_lt (by omega), Int.bmod_eq_of_le (by omega) (by omega)]
  rfl

/-- A negative result moves the data pointer back. -/
theorem data_next_of_neg {t : Int} {d : Nat} {r : Int} (hr : r < 0) (hlow : -2 ^ 63 ≤ r) (hd : d < 2 ^ 31) :
    (SendState.next ⟨t, d⟩ r).data = d + r := by
  have hr' : toSizeT r = r + 2 ^ 64 := by unfold toSizeT; omega
  have hadd : (d : Int) + (r + 2 ^ 64) = d + r + ((2 ^ 64 : Nat) : Int) := by omega
  simp only [SendState.next, hr']
  rw [hadd, Int.add_bmod_right, Int.bmod_eq_of_le (by omega) (by omega)]

section

variable {line : IoLine σ} {buffer : List Byte} {outside : Int → Byte} {fuel : Nat} {st : SendState} {s : σ}
  {sent : Sent σ}

theorem sendLoop_done (h : st.towrite ≤ 0) :
    sendLoop line buffer outside (fuel + 1) st s = some { result := 1, calls := [], line := s } := by
  rw [sendLoop, if_neg (Int.not_lt.2 h)]

/-- A call of `write` is followed by the rest of the loop. -/
theorem sendLoop_call (h : 0 < st.towrite) {bytes : List Byte}
    (hbytes : bytesAt buffer outside st.data st.towrite.toNat = bytes) :
    sendLoop line buffer outside (fuel + 1) st s = some sent ↔
      ∃ sent',
        sendLoop line buffer outside fuel (st.next (line.write bytes s).1) (line.write bytes s).2 = some sent' ∧
        sent = { sent' with calls := ⟨st.data, bytes, (line.write bytes s).1⟩ :: sent'.calls } := by
  rw [sendLoop, if_pos h, hbytes, Option.map_eq_some_iff]
  simp only [eq_comm]

/-- Whatever the line does, `sendMessage` returns 1 if it returns. -/
theorem sendLoop_result (h : sendLoop line buffer outside fuel st s = some sent) : sent.result = 1 := by
  induction fuel generalizing st s sent with
  | zero => cases h
  | succ fuel ih =>
    by_cases hpos : 0 < st.towrite
    · obtain ⟨sent', h', rfl⟩ := (sendLoop_call hpos rfl).1 h
      exact (ih h' : sent'.result = 1)
    · rw [sendLoop_done (Int.not_lt.1 hpos)] at h
      cases h
      rfl

/-- The first call begins at the data pointer. -/
theorem sendLoop_offset (h : sendLoop line buffer outside fuel st s = some sent) {c : WriteCall}
    {calls : List WriteCall} (hcalls : sent.calls = c :: calls) : c.offset = st.data := by
  cases fuel with
  | zero => cases h
  | succ fuel =>
    by_cases hpos : 0 < st.towrite
    · obtain ⟨sent', -, rfl⟩ := (sendLoop_call hpos rfl).1 h
      cases hcalls
      rfl
    · rw [sendLoop_done (Int.not_lt.1 hpos)] at h
      cases h
      cases hcalls

end

/-! ### Lines that accept the whole message -/

/-- The bytes from offset `d` on were accepted in these calls, each of which was given all that was left. -/
structure SendsRest (buffer : List Byte) (d : Nat) (calls : List WriteCall) : Prop where
  all : accepted calls = buffer.drop d
  slices : ∀ before c after, calls = before ++ c :: after → c.bytes ≠ [] ∧
    c.offset = ((d + (accepted before).length : Nat) : Int) ∧ accepted before ++ c.bytes = buffer.drop d

private theorem sendsRest_nil {buffer : List Byte} {d : Nat} (h : d = buffer.length) : SendsRest buffer d [] where
  all := by rw [h, List.drop_length]; rfl
  slices before c after hsplit := by simp at hsplit

private theorem sendsRest_cons {buffer : List Byte} {d r : Nat} {calls : List WriteCall} (hd : d < buffer.length)
    (hr : d + r ≤ buffer.length) (h : SendsRest buffer (d + r) calls) :
    SendsRest buffer d (⟨d, buffer.drop d, r⟩ :: calls) := by
  have hsplit : buffer.drop d = (buffer.drop d).take r ++ buffer.drop (d + r) := by
    rw [← List.drop_drop, List.take_append_drop]
  have hlen : ((buffer.drop d).take r).length = r := by
    rw [List.length_take, List.length_drop]
    omega
  refine ⟨by rw [accepted_cons, Int.toNat_natCast, h.all, ← hsplit], fun before c after hcalls => ?_⟩
  cases before with
  | nil =>
    cases hcalls
    exact ⟨List.length_pos_iff.1 (by rw [List.length_drop]; omega), rfl, rfl⟩
  | cons b before =>
    cases hcalls
    obtain ⟨hne, hoffset, hbytes⟩ := h.slices before c after rfl
    rw [accepted_cons, Int.toNat_natCast, List.length_append, hlen]
    refine ⟨hne, by rw [hoffset, Nat.add_assoc], ?_⟩
    rw [List.append_assoc, hbytes, ← hsplit]

/-- On a line that accepts what is left of the buffer within `n` calls, the loop returns 1 after at most `n` calls. -/
theorem sendLoop_accepts {line : IoLine σ} (hline : line.WriteContract) {buffer : List Byte}
    (outside : Int → Byte) (hsize : buffer.length < 2 ^ 31) {n : Nat} : ∀ {d t : Nat} {s : σ}, d + t = buffer.length →
    line.AcceptsWithin n (buffer.drop d) s →
      ∃ sent, sendLoop line buffer outside (n + 1) ⟨t, d⟩ s = some sent ∧ sent.calls.length ≤ n ∧
        SendsRest buffer d sent.calls := by
  induction n with
  | zero =>
    intro d t s hdt hacc
    cases hrest : buffer.drop d with
    | nil =>
      have hd := List.drop_eq_nil_iff.1 hrest
      have ht : (t : Int) ≤ 0 := by omega
      exact ⟨_, sendLoop_done ht, Nat.le_refl _, sendsRest_nil (by omega)⟩
    | cons b bytes =>
      rw [hrest] at hacc
      exact hacc.elim
  | succ n ih =>
    intro d t s hdt hacc
    rcases Nat.eq_zero_or_pos t with rfl | hpos
    · exact ⟨_, sendLoop_done (Int.le_refl 0), Nat.zero_le _, sendsRest_nil hdt⟩
    · have hne : buffer.drop d ≠ [] := List.length_pos_iff.1 (by rw [List.length_drop]; omega)
      obtain ⟨hnonneg, hacc'⟩ := (IoLine.acceptsWithin_succ hne).1 hacc
      obtain ⟨r, hr⟩ := Int.eq_ofNat_of_zero_le hnonneg
      have hle := (hline (buffer.drop d) s hne).2
      rw [hr, List.length_drop] at hle
      rw [hr, Int.toNat_natCast, List.drop_drop] at hacc'
      obtain ⟨sent, hloop, hcount, hrest⟩ := ih (d := d + r) (t := t - r) (by omega) hacc'
      refine ⟨_, (sendLoop_call (Int.natCast_pos.2 hpos) (bytesAt_eq_drop hdt)).2 ⟨sent, ?_, rfl⟩,
        Nat.succ_le_succ hcount, ?_⟩
      · rwa [hr, next_of_le (by omega) (by omega)]
      · rw [hr]
        exact sendsRest_cons (by omega) (by omega) hrest

theorem sendMessage_accepts {line : IoLine σ} (hline : line.WriteContract) (outside : Int → Byte) {m : Message}
    (hsize : m.messageSize < 2 ^ 31) {n : Nat} {s : σ} (hacc : line.AcceptsWithin n m.writeMessage s) :
    ∃ sent, sendMessage line outside (n + 1) m s = some sent ∧ sent.calls.length ≤ n ∧
      SendsRest m.writeMessage 0 sent.calls := by
  have hlen := Message.length_writeMessage m
  have hstart : SendState.start m = ⟨m.writeMessage.length, (0 : Nat)⟩ := by
    rw [SendState.start, toInt32_of_lt hsize, hlen]
    rfl
  rw [sendMessage, hstart]
  exact sendLoop_accepts hline outside (by rw [hlen]; exact hsize) (Nat.zero_add _) hacc

/-- Conversely: when every call begins behind the bytes accepted before it and all of the buffer is accepted in the
end, then the loop had just the right number of bytes to write and the line accepted them without an error. -/
theorem accepts_of_sendLoop {line : IoLine σ} (hline : line.WriteContract) {buffer : List Byte}
    {outside : Int → Byte} {fuel : Nat} : ∀ {d t : Nat} {s : σ} {sent : Sent σ},
    sendLoop line buffer outside fuel ⟨t, d⟩ s = some sent → d + t < 2 ^ 31 → d + t ≤ buffer.length →
    (∀ before c after, sent.calls = before ++ c :: after → c.offset = ((d + (accepted before).length : Nat) : Int)) →
    d + (accepted sent.calls).length = buffer.length →
      d + t = buffer.length ∧ line.AcceptsWithin sent.calls.length (buffer.drop d) s := by
  induction fuel with
  | zero =>
    intro d t s sent h
    cases h
  | succ fuel ih =>
    intro d t s sent h hsize hle hoffset hall
    rcases Nat.eq_zero_or_pos t with rfl | hpos
    · rw [sendLoop_done (Int.le_refl 0)] at h
      cases h
      have hd : d = buffer.length := hall
      refine ⟨hd, ?_⟩
      rw [List.drop_eq_nil_iff.2 (Nat.le_of_eq hd.symm)]
      trivial
    · obtain ⟨sent', h', rfl⟩ := (sendLoop_call (Int.natCast_pos.2 hpos) rfl).1 h
      have hlen : (bytesAt buffer outside d t).length = t := length_bytesAt ..
      have hcontract := hline (bytesAt buffer outside d t) s (List.length_pos_iff.1 (by omega))
      simp only [Int.toNat_natCast] at h' hoffset hall ⊢
      generalize hres : (line.write (bytesAt buffer outside d t) s).1 = result at h' hoffset hall hcontract
      rw [hlen] at hcontract
      rcases Int.lt_or_le result 0 with hneg | hnonneg
      · -- no call can follow, as it would begin before the accepted bytes; but the buffer is not yet accepted
        rw [accepted_cons, Int.toNat_of_nonpos (Int.le_of_lt hneg), List.take_zero, List.nil_append] at hall
        cases hcalls : sent'.calls with
        | nil =>
          rw [hcalls, accepted_nil, List.length_nil] at hall
          omega
        | cons c calls =>
          have hdata := data_next_of_neg (t := t) hneg hcontract.1 (show d < 2 ^ 31 by omega)
          have hfirst := hoffset [⟨d, bytesAt buffer outside d t, result⟩] c calls (by rw [hcalls]; rfl)
          rw [sendLoop_offset h' hcalls, hdata, accepted_cons, Int.toNat_of_nonpos (Int.le_of_lt hneg),
            List.take_zero, List.nil_append, accepted_nil, List.length_nil] at hfirst
          omega
      · obtain ⟨r, rfl⟩ := Int.eq_ofNat_of_zero_le hnonneg
        -- the call accepts a part of what is left, and the loop goes on behind it
        have hrt : r ≤ t := by omega
        have htake : ((bytesAt buffer outside d t).take r).length = r := by
          rw [List.length_take, hlen]
          omega
        rw [next_of_le hrt hsize] at h'
        rw [accepted_cons, Int.toNat_natCast, List.length_append, htake] at hall
        obtain ⟨hdt, hacc⟩ := ih h' (by omega) (by omega)
          (fun before c after hcalls => by
            have := hoffset (⟨d, bytesAt buffer outside d t, r⟩ :: before) c after (by rw [hcalls]; rfl)
            rwa [accepted_cons, Int.toNat_natCast, List.length_append, htake, ← Nat.add_assoc] at this)
          (by omega)
        have hdt' : d + t = buffer.length := by omega
        rw [bytesAt_eq_drop hdt'] at hres
        have hne : buffer.drop d ≠ [] := List.length_pos_iff.1 (by rw [List.length_drop]; omega)
        refine ⟨hdt', (IoLine.acceptsWithin_succ hne).2 ⟨?_, ?_⟩⟩
        · rw [hres]
          exact hnonneg
        · rw [bytesAt_eq_drop hdt'] at hacc
          rwa [hres, Int.toNat_natCast, List.drop_drop]

/-- `sendMessage` handles every outcome of the line's writes if and only if the size of the message fits an `int` and
the line returns no error and accepts all of the message within as many calls as it has bytes. -/
theorem handles_iff (line : IoLine σ) (hline : line.WriteContract) (outside : Int → Byte) (m : Message) (s : σ) :
    (∃ fuel sent, sendMessage line outside fuel m s = some sent ∧ Handles m sent) ↔
      m.messageSize < 2 ^ 31 ∧ line.AcceptsWithin m.messageSize m.writeMessage s := by
  have hlen := Message.length_writeMessage m
  have hpos := Message.four_le_messageSize m
  constructor
  · rintro ⟨fuel, sent, hsend, hhandles⟩
    have hall := hhandles.returns_one.1 (sendLoop_result hsend)
    rcases Int.lt_or_le 0 (toInt32 m.messageSize) with htowrite | htowrite
    · obtain ⟨t, ht⟩ := Int.eq_ofNat_of_zero_le (Int.le_of_lt htowrite)
      have hle := toInt32_le m.messageSize
      have hlt := toInt32_lt m.messageSize
      rw [sendMessage, SendState.start, ht] at hsend
      obtain ⟨heq, hacc⟩ := accepts_of_sendLoop (d := 0) hline hsend (by omega) (by omega)
        (fun before c after hcalls => by rw [Nat.zero_add]; exact (hhandles.slices before c after hcalls).2.1)
        (by rw [hall, Nat.zero_add])
      exact ⟨by omega, hacc.mono hhandles.count⟩
    · -- with nothing to write the call returns at once, before anything was accepted
      cases fuel with
      | zero => cases hsend
      | succ fuel =>
        rw [← start_towrite] at htowrite
        rw [sendMessage, sendLoop_done htowrite] at hsend
        cases hsend
        rw [accepted_nil] at hall
        rw [← hall, List.length_nil] at hlen
        omega
  · rintro ⟨hsize, hacc⟩
    obtain ⟨sent, hsend, hcount, hrest⟩ := sendMessage_accepts hline outside hsize hacc
    refine ⟨_, sent, hsend, hcount, fun before c after hcalls => ?_, ?_, ?_⟩
    · obtain ⟨hne, hoffset, hbytes⟩ := hrest.slices before c after hcalls
      rw [Nat.zero_add] at hoffset
      exact ⟨hne, hoffset, by rw [hbytes]; exact List.prefix_refl _⟩
    · exact iff_of_true (sendLoop_result hsend) hrest.all
    · exact fun h => absurd hrest.all h

/-- A line that accepts three bytes at a time. -/
def threes : IoLine Unit where
  read _ s := (.ok [], s)
  write bytes s := (min 3 bytes.length, s)

theorem handles_iff_threes : ∃ fuel sent,
    sendMessage threes (fun _ => 0) fuel ⟨[⟨[7]⟩]⟩ () = some sent ∧ Handles ⟨[⟨[7]⟩]⟩ sent := by
  refine (handles_iff threes (fun bytes _ _ => ?_) (fun _ => 0) ⟨[⟨[7]⟩]⟩ ()).2
    ⟨by decide, by decide, by decide, by decide, trivial⟩
  simp only [threes]
  omega

/-- A line whose connection is lost. -/
def lostLine : IoLine Unit where
  read _ s := (.error .eConnectionLost, s)
  write _ s := (ErrorCode.eConnectionLost.code, s)

private theorem accepted_lostLine {buffer : List Byte} {outside : Int → Byte} {fuel : Nat} : ∀ {st : SendState}
    {sent : Sent Unit}, sendLoop lostLine buffer outside fuel st () = some sent → accepted sent.calls = [] := by
  induction fuel with
  | zero =>
    intro st sent h
    cases h
  | succ fuel ih =>
    intro st sent h
    by_cases hpos : 0 < st.towrite
    · obtain ⟨sent', h', rfl⟩ := (sendLoop_call hpos rfl).1 h
      rw [accepted_cons, ih h', List.append_nil]
      rfl
    · rw [sendLoop_done (Int.not_lt.1 hpos)] at h
      cases h
      rfl

/-- When the connection is lost `sendMessage` does not return the error: it returns nothing but 1, although nothing
was accepted. -/
theorem not_handles_lostLine : ¬ ∀ (line : IoLine Unit) (m : Message), line.WriteContract →
    ∃ fuel sent, sendMessage line (fun _ => 0) fuel m () = some sent ∧ Handles m sent := by
  intro hall
  obtain ⟨fuel, sent, hsend, hhandles⟩ := hall lostLine .empty fun bytes _ _ => by
    simp only [lostLine, ErrorCode.code]
    omega
  have hone := hhandles.returns_one.1 (sendLoop_result hsend)
  rw [accepted_lostLine hsend] at hone
  exact absurd hone (by decide)

end MessageProtocol

end Cppio
