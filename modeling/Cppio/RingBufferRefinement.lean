import Cppio.Lib.FifoRuns
import Cppio.RingBufferWordsSafety

/-!
# The ring buffer on machine words is a bounded queue

Three levels of one design: a queue of at most `N - 1` bytes, the ring buffer on numbers, and the ring buffer on
machine words, whose additions and subtractions wrap.  Whatever calls are made on a fresh ring buffer of `N` slots on
machine words, its answers are those of the queue (`refines_fifo`).
-/

namespace Cppio

namespace WordRing

/-- A call that transfers bytes, or one that asks for a size. -/
inductive Request where
  | transfer (c : Call)
  | availableReadSize
  | availableWriteSize

def machine : Machine WordRing Request (BoundedFifo.Answer Byte) where
  next rb request :=
    match request with
    | .transfer (.read buflen) =>
      let result := (rb.read 0 buflen).value
      some (result.after, [.popped buflen.toNat result.count.toNat result.bytes])
    | .transfer (.write buffer buflen) =>
      let result := (rb.write buffer 0 buflen).value
      some (result.after, [.pushed (buffer.bytes 0 buflen.toNat) result.count.toNat])
    | .availableReadSize => some (rb, [.queued rb.availableReadSize.value.toNat])
    | .availableWriteSize => some (rb, [.free rb.availableWriteSize.value.toNat])

/-- The ring buffer on words holds the bytes of the queue, and its numbers fit. -/
structure Represents {N : Nat} (rb : WordRing) (q : BoundedFifo Byte (N - 1)) : Prop where
  fits : rb.Fits
  size : rb.data.length = N
  items : rb.ring.contents = q.items

variable {N : Nat} {rb : WordRing} {q : BoundedFifo Byte (N - 1)}

theorem represents_new (hN : 1 ≤ N) (hmax : N < 2 ^ 64) : Represents (new N) (.empty : BoundedFifo Byte (N - 1)) := by
  obtain ⟨-, hfits, hlen⟩ := afterCalls_refines hN hmax []
  exact ⟨hfits, hlen, RingBuffer.new_contents N⟩

theorem Represents.room (h : Represents rb q) : rb.ring.availableWriteSize = q.room := by
  have hsize : rb.ring.size = N := h.size
  rw [RingBuffer.availableWriteSize_eq h.fits.valid, hsize, h.items]
  rfl

theorem Represents.read (h : Represents rb q) (buflen : UInt64) :
    Represents (rb.read 0 buflen).value.after (q.pop buflen.toNat) ∧
      (rb.read 0 buflen).value.count.toNat = min buflen.toNat q.items.length ∧
      (rb.read 0 buflen).value.bytes = q.items.take buflen.toNat := by
  have hword := (read_spec h.fits buflen).1
  obtain ⟨hcount, hbytes, -, -, hcontents⟩ := RingBuffer.read_spec h.fits.valid buflen.toNat
  rw [← hword] at hcount hbytes hcontents
  obtain ⟨-, hfits, hlen⟩ := h.fits.apply (.read buflen)
  rw [h.items] at hcount hbytes hcontents
  exact ⟨⟨hfits, hlen.trans h.size, hcontents⟩, hcount, hbytes⟩

theorem Represents.write (h : Represents rb q) (buffer : Memory) (buflen : UInt64) :
    Represents (rb.write buffer 0 buflen).value.after (q.push (buffer.bytes 0 buflen.toNat)) ∧
      (rb.write buffer 0 buflen).value.count.toNat = min (buffer.bytes 0 buflen.toNat).length q.room := by
  have hword := (write_spec h.fits buffer buflen).1
  obtain ⟨hcount, -, -, hcontents⟩ := RingBuffer.write_spec h.fits.valid (buffer.bytes 0 buflen.toNat)
  have hsize : rb.ring.size = N := h.size
  rw [← hword, hsize, h.items] at hcount hcontents
  obtain ⟨-, hfits, hlen⟩ := h.fits.apply (.write buffer buflen)
  exact ⟨⟨hfits, hlen.trans h.size, hcontents⟩, hcount⟩

/-- The queue follows every call, with the same answer. -/
private theorem Represents.step (h : Represents rb q) {request : Request} {rb' : WordRing}
    {es : List (BoundedFifo.Answer Byte)} (hnext : machine.next rb request = some (rb', es)) :
    ∃ op q', BoundedFifo.machine.next q op = some (q', es) ∧ Represents rb' q' := by
  cases request with
  | transfer c =>
    cases c with
    | read buflen =>
      cases hnext
      obtain ⟨hafter, hcount, hbytes⟩ := h.read buflen
      rw [hcount, hbytes]
      exact ⟨.pop buflen.toNat, _, rfl, hafter⟩
    | write buffer buflen =>
      cases hnext
      obtain ⟨hafter, hcount⟩ := h.write buffer buflen
      rw [hcount]
      exact ⟨.push (buffer.bytes 0 buflen.toNat), _, rfl, hafter⟩
  | availableReadSize =>
    cases hnext
    rw [(availableReadSize_spec h.fits).1, ← RingBuffer.length_contents h.fits.valid, h.items]
    exact ⟨.queued, q, rfl, h⟩
  | availableWriteSize =>
    cases hnext
    rw [(availableWriteSize_spec h.fits).1, h.room]
    exact ⟨.free, q, rfl, h⟩

/-- Every run of calls of a ring buffer of `N` slots, in 64-bit arithmetic, is a run of a queue of at most `N - 1`
bytes, with the same answers; and what was written is what was read, followed by what is in the buffer. -/
theorem refines_fifo (hN : 1 ≤ N) (hmax : N < 2 ^ 64) (tr : List (BoundedFifo.Answer Byte)) (rb : WordRing)
    (hrun : machine.Run (new N) tr rb) : ∃ q : BoundedFifo Byte (N - 1), BoundedFifo.machine.Run .empty tr q ∧
      rb.ring.contents = q.items ∧ BoundedFifo.pushed tr = BoundedFifo.popped tr ++ rb.ring.contents := by
  obtain ⟨q, hqueue, hrep⟩ := hrun.simulates BoundedFifo.machine
    (fun rb (q : BoundedFifo Byte (N - 1)) => Represents rb q) (represents_new hN hmax)
    fun _ _ _ _ _ h _ hnext => h.step hnext
  exact ⟨q, hqueue, hrep.items, by rw [hrep.items]; exact BoundedFifo.conserved_of_run hqueue⟩

/-- Four slots: a write that wraps and finds room for two bytes only. -/
theorem refines_fifo_four : ∃ tr rb, machine.Run (new 4) tr rb ∧
    tr = [.pushed [7, 7] 2, .popped 1 1 [7], .pushed [8, 8, 8] 2, .queued 3, .free 0] ∧
      ∃ q : BoundedFifo Byte (4 - 1), BoundedFifo.machine.Run .empty tr q ∧ rb.ring.contents = q.items := by
  have h : ((machine.exec (new 4) [.transfer (.write (fun _ => 7) 2), .transfer (.read 1),
      .transfer (.write (fun _ => 8) 3), .availableReadSize, .availableWriteSize]).any fun r =>
        decide (r.2 = [.pushed [7, 7] 2, .popped 1 1 [7], .pushed [8, 8, 8] 2, .queued 3, .free 0])) = true := by
    decide +kernel
  obtain ⟨⟨rb, tr⟩, hexec, hs⟩ := (Option.any_eq_true _ _).1 h
  have hrun := Machine.RunWhere.of_exec hexec
  obtain ⟨q, hqueue, hitems, -⟩ := refines_fifo (by decide) (by decide) tr rb hrun
  exact ⟨tr, rb, hrun, of_decide_eq_true hs, q, hqueue, hitems⟩

end WordRing

end Cppio
