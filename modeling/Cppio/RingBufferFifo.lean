import Cppio.RingBuffer
import Mathlib.Data.List.Induction

/-!
# The ring buffer is a bounded queue

A valid ring buffer of `N` slots represents the queue `contents` of at most `N - 1` bytes.  A transfer is one or two
block copies, and every block copy moves a prefix of what is left to move: `contents_copyIn` and `contents_copyOut`
describe one copy on each side of the write and read pointer, and `write_spec` and `read_spec` put the copies of
one call together.  `ByteRing N` carries the validity with the buffer; its operations refine the bounded queue
`fifo`: `write` is `push` and `read` is `pop`.
-/

namespace Cppio

open Segment

namespace RingBuffer

variable {rb : RingBuffer}

theorem length_contents (h : rb.Valid) : rb.contents.length = rb.availableReadSize := by
  obtain ⟨hw, hr⟩ := h
  unfold size at hw hr
  unfold contents availableReadSize size
  split
  · rw [length_slice (by omega)]
    split_ifs <;> omega
  · rw [List.length_append, length_slice (by omega), length_slice (by omega)]
    split_ifs <;> omega

theorem availableWriteSize_eq (h : rb.Valid) : rb.availableWriteSize = rb.size - 1 - rb.contents.length := by
  rw [length_contents h]
  obtain ⟨hw, hr⟩ := h
  unfold availableReadSize availableWriteSize
  split_ifs <;> omega

theorem length_contents_le (h : rb.Valid) : rb.contents.length ≤ rb.size - 1 := by
  rw [length_contents h]
  obtain ⟨hw, hr⟩ := h
  unfold availableReadSize
  split_ifs <;> omega

/-! ### One block copy -/

private theorem contents_copyIn (h : rb.Valid) (hle : rb.rdptr ≤ rb.wrptr) (xs : List Byte)
    (rb' : RingBuffer) (hxs : xs.length ≤ rb.size - rb.wrptr) (hend : xs.length = rb.size - rb.wrptr → 0 < rb.rdptr)
    (hd : rb'.data = overwrite rb.data rb.wrptr xs) (hr' : rb'.rdptr = rb.rdptr)
    (hw' : rb'.wrptr = if rb.wrptr + xs.length = rb.size then 0 else rb.wrptr + xs.length) :
    rb'.Valid ∧ rb'.size = rb.size ∧ rb'.contents = rb.contents ++ xs := by
  obtain ⟨hw, hr⟩ := h
  have hsize : rb'.size = rb.size := by
    unfold size at hw hxs ⊢
    rw [hd, length_overwrite (by omega)]
  have hlen : rb.wrptr ≤ rb.data.length := Nat.le_of_lt hw
  unfold Valid
  rw [hsize, hr', hw']
  split
  · rename_i hwrap
    have hpos : 0 < rb.rdptr := hend (by omega)
    refine ⟨⟨by omega, hr⟩, rfl, ?_⟩
    unfold contents
    rw [hsize, hr', hw', if_pos hwrap, hd, if_neg (by omega), if_pos hle, slice_zero, List.append_nil,
      show rb.size - rb.rdptr = rb.wrptr - rb.rdptr + xs.length by omega, slice_overwrite_extend hle hlen]
  · rename_i hwrap
    refine ⟨⟨by omega, hr⟩, rfl, ?_⟩
    unfold contents
    rw [hr', hw', if_neg hwrap, hd, if_pos (by omega), if_pos hle,
      show rb.wrptr + xs.length - rb.rdptr = rb.wrptr - rb.rdptr + xs.length by omega,
      slice_overwrite_extend hle hlen]

private theorem contents_copyIn_wrapped (h : rb.Valid) (hlt : rb.wrptr < rb.rdptr) (xs : List Byte)
    (rb' : RingBuffer) (hxs : xs.length ≤ rb.rdptr - 1 - rb.wrptr)
    (hd : rb'.data = overwrite rb.data rb.wrptr xs) (hr' : rb'.rdptr = rb.rdptr)
    (hw' : rb'.wrptr = rb.wrptr + xs.length) :
    rb'.Valid ∧ rb'.size = rb.size ∧ rb'.contents = rb.contents ++ xs := by
  obtain ⟨hw, hr⟩ := h
  have hsize : rb'.size = rb.size := by
    unfold size at hw hr ⊢
    rw [hd, length_overwrite (by omega)]
  have hlen : rb.wrptr ≤ rb.data.length := Nat.le_of_lt hw
  refine ⟨?_, hsize, ?_⟩
  · unfold Valid
    rw [hsize, hr', hw']
    omega
  · have hfront : slice (overwrite rb.data rb.wrptr xs) 0 (rb.wrptr - 0 + xs.length) =
        slice rb.data 0 (rb.wrptr - 0) ++ xs := slice_overwrite_extend (Nat.zero_le rb.wrptr) hlen
    rw [Nat.sub_zero] at hfront
    unfold contents
    rw [hsize, hr', hw', hd, if_neg (by omega), if_neg (by omega), slice_overwrite_after (by omega) hlen, hfront,
      List.append_assoc]

private theorem contents_copyOut (h : rb.Valid) (hle : rb.rdptr ≤ rb.wrptr) {n : Nat}
    (rb' : RingBuffer) (hn : n ≤ rb.wrptr - rb.rdptr) (hd : rb'.data = rb.data) (hw' : rb'.wrptr = rb.wrptr)
    (hr' : rb'.rdptr = rb.rdptr + n) : rb'.Valid ∧ rb'.size = rb.size ∧
      slice rb.data rb.rdptr n = rb.contents.take n ∧ rb'.contents = rb.contents.drop n := by
  obtain ⟨hw, hr⟩ := h
  have hsize : rb'.size = rb.size := by rw [size, hd, size]
  refine ⟨?_, hsize, ?_, ?_⟩
  · unfold Valid
    rw [hsize, hr', hw']
    omega
  · unfold contents
    rw [if_pos hle, take_slice, Nat.min_eq_left hn]
  · unfold contents
    rw [hr', hw', hd, if_pos (by omega), if_pos hle, drop_slice, Nat.sub_add_eq]

private theorem contents_copyOut_wrapped (h : rb.Valid) (hlt : rb.wrptr < rb.rdptr) {n : Nat}
    (rb' : RingBuffer) (hn : n ≤ rb.size - rb.rdptr) (hd : rb'.data = rb.data) (hw' : rb'.wrptr = rb.wrptr)
    (hr' : rb'.rdptr = if rb.rdptr + n = rb.size then 0 else rb.rdptr + n) : rb'.Valid ∧ rb'.size = rb.size ∧
      slice rb.data rb.rdptr n = rb.contents.take n ∧ rb'.contents = rb.contents.drop n := by
  obtain ⟨hw, hr⟩ := h
  have hsize : rb'.size = rb.size := by rw [size, hd, size]
  have hback : (slice rb.data rb.rdptr (rb.size - rb.rdptr)).length = rb.size - rb.rdptr := by
    unfold size at hr ⊢
    exact length_slice (by omega)
  refine ⟨?_, hsize, ?_, ?_⟩
  · unfold Valid
    rw [hsize, hr', hw']
    split <;> omega
  · unfold contents
    rw [if_neg (by omega), List.take_append_of_le_length (by omega), take_slice, Nat.min_eq_left hn]
  · unfold contents
    rw [hsize, hr', hw', hd, if_neg (Nat.not_le_of_lt hlt), List.drop_append_of_le_length (by omega), drop_slice]
    split
    · rename_i hend
      rw [if_pos (Nat.zero_le _), show rb.size - rb.rdptr - n = 0 by omega, slice_zero, List.nil_append,
        Nat.sub_zero]
    · rw [if_neg (by omega), Nat.sub_add_eq]

/-! ### One call -/

private theorem write_wrapped_spec (h : rb.Valid) (hlt : rb.wrptr < rb.rdptr) (buffer : List Byte) :
    (rb.write buffer).count = min buffer.length (rb.rdptr - 1 - rb.wrptr) ∧ (rb.write buffer).after.Valid ∧
      (rb.write buffer).after.size = rb.size ∧
      (rb.write buffer).after.contents = rb.contents ++ buffer.take (rb.rdptr - 1 - rb.wrptr) := by
  rw [write, if_neg (by omega)]
  refine ⟨Nat.min_comm _ _, ?_⟩
  have hlen : (buffer.take (min (rb.rdptr - 1 - rb.wrptr) buffer.length)).length =
      min (rb.rdptr - 1 - rb.wrptr) buffer.length := by simp
  have hcopy := contents_copyIn_wrapped h hlt (buffer.take (min (rb.rdptr - 1 - rb.wrptr) buffer.length))
    ({ rb with data := overwrite rb.data rb.wrptr (buffer.take (min (rb.rdptr - 1 - rb.wrptr) buffer.length)),
                      wrptr := rb.wrptr + min (rb.rdptr - 1 - rb.wrptr) buffer.length })
    (by omega) rfl rfl (by rw [hlen])
  refine ⟨hcopy.1, hcopy.2.1, hcopy.2.2.trans ?_⟩
  rw [List.take_eq_take_min, Nat.min_assoc, Nat.min_self, ← List.take_eq_take_min]

/-- The first copy of `write` stops at the end of the storage, one slot before it if the read pointer is at the start;
where it leaves bytes of the buffer, it has come that far. -/
theorem firstCopy_spec {size wrptr rdptr length tocopy : Nat} (hw : wrptr < size)
    (h : (if rdptr = 0 ∧ min (size - wrptr) length = size - wrptr then min (size - wrptr) length - 1
      else min (size - wrptr) length) = tocopy) :
    tocopy ≤ size - wrptr ∧ tocopy ≤ length ∧ (tocopy = size - wrptr → 0 < rdptr) ∧
      (tocopy < length → rdptr = 0 ∧ tocopy = size - 1 - wrptr ∨ 0 < rdptr ∧ tocopy = size - wrptr) := by
  subst h
  split
  · rename_i hlast
    refine ⟨?_, ?_, ?_, fun _ => Or.inl ⟨hlast.1, ?_⟩⟩ <;> omega
  · rename_i hfree
    refine ⟨Nat.min_le_left _ _, Nat.min_le_right _ _, ?_, fun hmore => Or.inr ?_⟩ <;> omega

/-- `write` accepts as many bytes as there is room for and appends them to the queue. -/
theorem write_spec (h : rb.Valid) (buffer : List Byte) :
    (rb.write buffer).count = min buffer.length (rb.size - 1 - rb.contents.length) ∧
      (rb.write buffer).after.Valid ∧ (rb.write buffer).after.size = rb.size ∧
      (rb.write buffer).after.contents = rb.contents ++ buffer.take (rb.size - 1 - rb.contents.length) := by
  obtain ⟨hw, hr⟩ := id h
  have hlen := length_contents h
  unfold availableReadSize at hlen
  rcases Nat.lt_or_ge rb.wrptr rb.rdptr with hlt | hle
  · have hroom : rb.size - 1 - rb.contents.length = rb.rdptr - 1 - rb.wrptr := by
      rw [hlen, if_neg (by omega), if_neg (by omega)]
      omega
    rw [hroom]
    exact write_wrapped_spec h hlt buffer
  · have hroom : rb.size - 1 - rb.contents.length = rb.size - 1 - (rb.wrptr - rb.rdptr) := by
      rw [hlen]
      split_ifs <;> omega
    rw [hroom, write, if_pos hle]
    dsimp only
    -- the length of the first block copy
    generalize htocopy : (if rb.rdptr = 0 ∧ min (rb.size - rb.wrptr) buffer.length = rb.size - rb.wrptr then
      min (rb.size - rb.wrptr) buffer.length - 1 else min (rb.size - rb.wrptr) buffer.length) = tocopy
    obtain ⟨hspace, hbuffer, hend, hfull⟩ := firstCopy_spec hw htocopy
    clear htocopy
    have htake : (buffer.take tocopy).length = tocopy := by
      rw [List.length_take, Nat.min_eq_left hbuffer]
    obtain ⟨hvalid, hsize, hcontents⟩ := contents_copyIn h hle (buffer.take tocopy)
      ({ rb with data := overwrite rb.data rb.wrptr (buffer.take tocopy),
                        wrptr := if rb.wrptr + tocopy = rb.size then 0 else rb.wrptr + tocopy })
      (htake.symm ▸ hspace) (htake.symm ▸ hend) rfl rfl (by rw [htake])
    split
    · rename_i hmore
      rcases hfull hmore with ⟨h0, heq⟩ | ⟨hpos, heq⟩
      · rw [if_pos h0]
        have hall : rb.size - 1 - (rb.wrptr - rb.rdptr) = tocopy := by
          rw [h0, Nat.sub_zero, heq]
        rw [hall]
        exact ⟨(Nat.min_eq_right hbuffer).symm, hvalid, hsize, hcontents⟩
      · rw [if_neg (Nat.ne_of_gt hpos), if_neg (by omega)]
        -- the write pointer is back at the start of the storage, before the read pointer
        have hend : rb.wrptr + tocopy = rb.size := by omega
        have hrest : rb.size - 1 - (rb.wrptr - rb.rdptr) = tocopy + (rb.rdptr - 1 - 0) := by omega
        rw [if_pos hend] at hvalid hsize hcontents ⊢
        obtain ⟨hcount', hvalid', hsize', hcontents'⟩ := write_wrapped_spec hvalid hpos (buffer.drop tocopy)
        refine ⟨?_, hvalid', hsize'.trans hsize, ?_⟩
        · simp only [hcount', List.length_drop, hrest]
          omega
        · rw [hcontents', hcontents, List.append_assoc, ← List.take_add, hrest]
    · rename_i hall
      have hlength : buffer.length = tocopy := Nat.le_antisymm (Nat.not_lt.1 hall) hbuffer
      have hle' : tocopy ≤ rb.size - 1 - (rb.wrptr - rb.rdptr) := by omega
      refine ⟨?_, hvalid, hsize, hcontents.trans ?_⟩
      · rw [hlength, Nat.min_eq_left hle']
      · rw [List.take_of_length_le (Nat.le_of_eq hlength), List.take_of_length_le (hlength ▸ hle')]

/-- Giving out `n` bytes serves a request for `buflen` where `n` is all that is asked for or all that is queued. -/
private theorem contents_served {n buflen : Nat} (hn : n = min buflen rb.contents.length) :
    rb.contents.take n = rb.contents.take buflen ∧ rb.contents.drop n = rb.contents.drop buflen := by
  subst hn
  exact ⟨List.take_eq_take_min.symm, List.drop_eq_drop_min.symm⟩

private theorem read_straight_spec (h : rb.Valid) (hle : rb.rdptr ≤ rb.wrptr) (buflen : Nat) :
    (rb.read buflen).count = min buflen rb.contents.length ∧ (rb.read buflen).bytes = rb.contents.take buflen ∧
      (rb.read buflen).after.Valid ∧ (rb.read buflen).after.size = rb.size ∧
      (rb.read buflen).after.contents = rb.contents.drop buflen := by
  have hlen : rb.contents.length = rb.wrptr - rb.rdptr := by
    rw [length_contents h, availableReadSize]
    split_ifs <;> omega
  rw [read]
  split
  · rename_i heq
    have hnil : rb.contents = [] := List.length_eq_zero_iff.1 (by omega)
    refine ⟨by simp [hnil], by simp [hnil], h, rfl, by simp [hnil]⟩
  · rw [if_pos (by omega)]
    obtain ⟨hvalid, hsize, hbytes, hcontents⟩ := contents_copyOut h hle
      (n := min (rb.wrptr - rb.rdptr) buflen)
      ({ rb with rdptr := rb.rdptr + min (rb.wrptr - rb.rdptr) buflen }) (by omega) rfl rfl rfl
    have hcount : min (rb.wrptr - rb.rdptr) buflen = min buflen rb.contents.length := by
      rw [hlen, Nat.min_comm]
    obtain ⟨htake, hdrop⟩ := contents_served hcount
    exact ⟨hcount, hbytes.trans htake, hvalid, hsize, hcontents.trans hdrop⟩

/-- `read` gives out as many bytes as are queued, oldest first, and leaves the rest. -/
theorem read_spec (h : rb.Valid) (buflen : Nat) :
    (rb.read buflen).count = min buflen rb.contents.length ∧ (rb.read buflen).bytes = rb.contents.take buflen ∧
      (rb.read buflen).after.Valid ∧ (rb.read buflen).after.size = rb.size ∧
      (rb.read buflen).after.contents = rb.contents.drop buflen := by
  rcases Nat.lt_or_ge rb.wrptr rb.rdptr with hlt | hle
  · obtain ⟨hw, hr⟩ := id h
    have hlen : rb.contents.length = rb.size - rb.rdptr + rb.wrptr := by
      rw [length_contents h, availableReadSize, if_neg (by omega), if_neg (by omega)]
    rw [read, if_neg (by omega), if_neg (by omega)]
    generalize htocopy : min (rb.size - rb.rdptr) buflen = tocopy
    obtain ⟨hvalid, hsize, hbytes, hcontents⟩ := contents_copyOut_wrapped h hlt (n := tocopy)
      ({ rb with rdptr := if rb.rdptr + tocopy = rb.size then 0 else rb.rdptr + tocopy }) (by omega) rfl rfl
      rfl
    dsimp only
    split
    · rename_i hmore
      have hend : rb.rdptr + tocopy = rb.size := by omega
      rw [if_pos hend] at hvalid hsize hcontents ⊢
      split
      · rename_i hempty
        have hcount : tocopy = min buflen rb.contents.length := by omega
        obtain ⟨htake, hdrop⟩ := contents_served hcount
        exact ⟨hcount, hbytes.trans htake, hvalid, hsize, hcontents.trans hdrop⟩
      · rw [if_neg (by omega)]
        -- the read pointer is back at the start of the storage, before the write pointer
        obtain ⟨hcount', hbytes', hvalid', hsize', hcontents'⟩ :=
          read_straight_spec hvalid (Nat.zero_le _) (buflen - tocopy)
        rw [hcontents] at hcount' hbytes' hcontents'
        refine ⟨?_, ?_, hvalid', hsize'.trans hsize, ?_⟩
        · simp only [hcount', List.length_drop]
          omega
        · show slice rb.data rb.rdptr tocopy ++ _ = _
          rw [hbytes', hbytes, ← List.take_add]
          congr 1
          omega
        · rw [hcontents', List.drop_drop]
          congr 1
          omega
    · rename_i hall
      have hcount : tocopy = min buflen rb.contents.length := by omega
      obtain ⟨htake, hdrop⟩ := contents_served hcount
      exact ⟨hcount, hbytes.trans htake, hvalid, hsize, hcontents.trans hdrop⟩
  · exact read_straight_spec h hle buflen

/-! ### Runs of calls -/

/-- A call of a ring buffer; `write` is given the caller's buffer. -/
inductive Call where
  | read (buflen : Nat)
  | write (buffer : List Byte)

def apply (rb : RingBuffer) : Call → RingBuffer
  | .read buflen => (rb.read buflen).after
  | .write buffer => (rb.write buffer).after

/-- A fresh ring buffer of `N` slots after a sequence of calls. -/
def afterCalls (N : Nat) (calls : List Call) : RingBuffer := calls.foldl apply (new N)

theorem new_valid {N : Nat} (hN : 1 ≤ N) : (new N).Valid := by
  simp only [Valid, new, size, List.length_replicate]
  omega

theorem new_contents (N : Nat) : (new N).contents = [] := by
  simp [contents, new]

private theorem afterCalls_snoc (N : Nat) (calls : List Call) (c : Call) :
    afterCalls N (calls ++ [c]) = (afterCalls N calls).apply c := by
  simp [afterCalls]

private theorem afterCalls_valid {N : Nat} (hN : 1 ≤ N) (calls : List Call) :
    (afterCalls N calls).Valid ∧ (afterCalls N calls).size = N := by
  induction calls using List.reverseRecOn with
  | nil => exact ⟨new_valid hN, by simp [afterCalls, new, size]⟩
  | append_singleton calls c ih =>
    rw [afterCalls_snoc]
    cases c with
    | read buflen =>
      obtain ⟨-, -, hvalid, hsize, -⟩ := read_spec ih.1 buflen
      exact ⟨hvalid, hsize.trans ih.2⟩
    | write buffer =>
      obtain ⟨-, hvalid, hsize, -⟩ := write_spec ih.1 buffer
      exact ⟨hvalid, hsize.trans ih.2⟩

/-- In every run of calls from a fresh buffer of `N` slots the buffer is a queue of at most `N - 1` bytes: `write`
returns the number of bytes there is room for and appends that many, `read` returns the number of bytes present
and delivers them in order, and both sizes are exact. -/
theorem bounded_fifo {N : Nat} (hN : 1 ≤ N) : ∃ q : List Call → List Byte, q [] = [] ∧ ∀ calls,
    (q calls).length ≤ N - 1 ∧
    (afterCalls N calls).availableReadSize = (q calls).length ∧
    (afterCalls N calls).availableWriteSize = N - 1 - (q calls).length ∧
    (∀ b : List Byte, ((afterCalls N calls).write b).count = min b.length (N - 1 - (q calls).length) ∧
      q (calls ++ [.write b]) = q calls ++ b.take (min b.length (N - 1 - (q calls).length))) ∧
    (∀ k, ((afterCalls N calls).read k).count = min k (q calls).length ∧
      ((afterCalls N calls).read k).bytes = (q calls).take (min k (q calls).length) ∧
      q (calls ++ [.read k]) = (q calls).drop (min k (q calls).length)) := by
  refine ⟨fun calls => (afterCalls N calls).contents, new_contents N, fun calls => ?_⟩
  obtain ⟨hvalid, hsize⟩ := afterCalls_valid hN calls
  have hle := length_contents_le hvalid
  have hroom := availableWriteSize_eq hvalid
  rw [hsize] at hle hroom
  refine ⟨hle, (length_contents hvalid).symm, hroom, fun b => ?_, fun k => ?_⟩
  · obtain ⟨hcount, -, -, hcontents⟩ := write_spec hvalid b
    rw [hsize] at hcount hcontents
    refine ⟨hcount, ?_⟩
    dsimp only
    rw [afterCalls_snoc, Nat.min_comm, ← List.take_eq_take_min]
    exact hcontents
  · obtain ⟨hcount, hbytes, -, -, hcontents⟩ := read_spec hvalid k
    refine ⟨hcount, ?_, ?_⟩
    · rw [hbytes, ← List.take_eq_take_min]
    · dsimp only
      rw [afterCalls_snoc]
      exact hcontents.trans List.drop_eq_drop_min

theorem bounded_fifo_four : ∃ q : List Call → List Byte, q [] = [] ∧ ∀ calls,
    (q calls).length ≤ 4 - 1 ∧
    (afterCalls 4 calls).availableReadSize = (q calls).length ∧
    (afterCalls 4 calls).availableWriteSize = 4 - 1 - (q calls).length ∧
    (∀ b : List Byte, ((afterCalls 4 calls).write b).count = min b.length (4 - 1 - (q calls).length) ∧
      q (calls ++ [.write b]) = q calls ++ b.take (min b.length (4 - 1 - (q calls).length))) ∧
    (∀ k, ((afterCalls 4 calls).read k).count = min k (q calls).length ∧
      ((afterCalls 4 calls).read k).bytes = (q calls).take (min k (q calls).length) ∧
      q (calls ++ [.read k]) = (q calls).drop (min k (q calls).length)) :=
  bounded_fifo (by decide)

end RingBuffer

/-! ### Valid ring buffers -/

/-- A ring buffer of `N` slots whose pointers lie in the storage. -/
structure ByteRing (N : Nat) where
  ring : RingBuffer
  valid : ring.Valid
  size_eq : ring.size = N

namespace ByteRing

variable {N : Nat}

def new (N : Nat) (hN : 1 ≤ N) : ByteRing N where
  ring := .new N
  valid := RingBuffer.new_valid hN
  size_eq := by simp [RingBuffer.new, RingBuffer.size]

/-- The buffer after `read`. -/
def read (r : ByteRing N) (buflen : Nat) : ByteRing N where
  ring := (r.ring.read buflen).after
  valid := (RingBuffer.read_spec r.valid buflen).2.2.1
  size_eq := (RingBuffer.read_spec r.valid buflen).2.2.2.1.trans r.size_eq

/-- The buffer after `write`. -/
def write (r : ByteRing N) (buffer : List Byte) : ByteRing N where
  ring := (r.ring.write buffer).after
  valid := (RingBuffer.write_spec r.valid buffer).2.1
  size_eq := (RingBuffer.write_spec r.valid buffer).2.2.1.trans r.size_eq

/-- The queue a ring buffer represents. -/
def fifo (r : ByteRing N) : BoundedFifo Byte (N - 1) where
  items := r.ring.contents
  bounded := by
    have := RingBuffer.length_contents_le r.valid
    rwa [r.size_eq] at this

@[simp] theorem fifo_new (hN : 1 ≤ N) : (new N hN).fifo = .empty :=
  BoundedFifo.ext (RingBuffer.new_contents N)

@[simp] theorem fifo_read (r : ByteRing N) (buflen : Nat) : (r.read buflen).fifo = r.fifo.pop buflen :=
  BoundedFifo.ext (RingBuffer.read_spec r.valid buflen).2.2.2.2

@[simp] theorem fifo_write (r : ByteRing N) (buffer : List Byte) : (r.write buffer).fifo = r.fifo.push buffer := by
  apply BoundedFifo.ext
  have h := (RingBuffer.write_spec r.valid buffer).2.2.2
  rwa [r.size_eq] at h

@[simp] theorem read_bytes (r : ByteRing N) (buflen : Nat) :
    (r.ring.read buflen).bytes = r.fifo.items.take buflen :=
  (RingBuffer.read_spec r.valid buflen).2.1

@[simp] theorem read_count (r : ByteRing N) (buflen : Nat) :
    (r.ring.read buflen).count = min buflen r.fifo.items.length :=
  (RingBuffer.read_spec r.valid buflen).1

@[simp] theorem write_count (r : ByteRing N) (buffer : List Byte) :
    (r.ring.write buffer).count = min buffer.length r.fifo.room := by
  have h := (RingBuffer.write_spec r.valid buffer).1
  rwa [r.size_eq] at h

@[simp] theorem availableReadSize_eq (r : ByteRing N) : r.ring.availableReadSize = r.fifo.items.length :=
  (RingBuffer.length_contents r.valid).symm

@[simp] theorem availableWriteSize_eq (r : ByteRing N) : r.ring.availableWriteSize = r.fifo.room := by
  have h := RingBuffer.availableWriteSize_eq r.valid
  rwa [r.size_eq] at h

end ByteRing

end Cppio
