import Cppio.Message

/-!
# The buffer codec is exact

`Message.readMessage` reads back what `writeMessage` wrote, whatever follows it in memory, and accepts nothing else:
a message it returns is encoded by the first bytes of the buffer.  The length check comes after the length word was
read, so the word can come from past the buffer; but then the check fails (`readFrames_ok` carries the bound
`current ≤ bufferLength` from one frame to the next).
-/

namespace Cppio

/-! ### Pieces of a memory -/

namespace Memory

@[simp] theorem length_bytes (memory : Memory) (i n : Nat) : (memory.bytes i n).length = n := by
  simp [bytes]

theorem bytes_add (memory : Memory) (i m n : Nat) :
    memory.bytes i (m + n) = memory.bytes i m ++ memory.bytes (i + m) n := by
  simp [bytes, List.range_add, Function.comp_def, Nat.add_assoc]

theorem bytes_isPrefix (memory : Memory) (i : Nat) {m n : Nat} (h : m ≤ n) :
    memory.bytes i m <+: memory.bytes i n := by
  obtain ⟨k, rfl⟩ := Nat.exists_eq_add_of_le h
  rw [bytes_add]
  exact List.prefix_append _ _

theorem take_bytes (memory : Memory) (i : Nat) {m n : Nat} (h : m ≤ n) :
    (memory.bytes i n).take m = memory.bytes i m := by
  simp [bytes, ← List.map_take, List.take_range, Nat.min_eq_left h]

theorem drop_bytes (memory : Memory) (i : Nat) {m n : Nat} (h : m ≤ n) :
    (memory.bytes i n).drop m = memory.bytes (i + m) (n - m) := by
  obtain ⟨k, rfl⟩ := Nat.exists_eq_add_of_le h
  rw [bytes_add, Nat.add_sub_cancel_left, List.drop_left' (length_bytes ..)]

/-- Where a piece of memory is a concatenation, its parts lie one behind the other. -/
theorem bytes_eq_append {memory : Memory} {i n : Nat} {xs ys : List Byte} (h : memory.bytes i n = xs ++ ys) :
    memory.bytes i xs.length = xs ∧ memory.bytes (i + xs.length) ys.length = ys := by
  have hn : n = xs.length + ys.length := by rw [← length_bytes memory i n, h, List.length_append]
  rw [hn, bytes_add] at h
  exact List.append_inj h (length_bytes _ _ _)

theorem word_lt (memory : Memory) (i : Nat) : memory.word i < 2 ^ 32 := by
  have h := wordValue_lt (memory.bytes i 4)
  rwa [length_bytes] at h

theorem littleEndian_word (memory : Memory) (i : Nat) : littleEndian 4 (memory.word i) = memory.bytes i 4 := by
  have h := littleEndian_wordValue (memory.bytes i 4)
  rwa [length_bytes] at h

theorem word_of_bytes {memory : Memory} {i n : Nat} (h : memory.bytes i 4 = littleEndian 4 n) (hn : n < 2 ^ 32) :
    memory.word i = n := by
  rw [word, h, wordValue_littleEndian_of_lt hn]

end Memory

theorem toSsize_of_lt {n : Nat} (h : n < 2 ^ 63) : toSsize n = n := by
  unfold toSsize
  rw [Int.bmod_eq_of_le] <;> omega

namespace Message

/-! ### Reading back -/

/-- A frame that stands in front of others in a memory. -/
theorem frame_of_bytes {memory : Memory} {current n : Nat} {f : Frame} {fs : List Frame}
    (hbytes : memory.bytes current n = (f :: fs).flatMap Frame.encoded) (hf : f.size < 2 ^ 32) :
    n = f.size + 4 + (fs.flatMap Frame.encoded).length ∧ memory.word current = f.size ∧
      memory.bytes (current + 4) f.size = f.data ∧
      memory.bytes (current + 4 + f.size) (fs.flatMap Frame.encoded).length = fs.flatMap Frame.encoded := by
  have hn : n = f.size + 4 + (fs.flatMap Frame.encoded).length := by
    rw [← Memory.length_bytes memory current n, hbytes, List.flatMap_cons, List.length_append, Frame.length_encoded]
  rw [List.flatMap_cons] at hbytes
  obtain ⟨hframe, hrest⟩ := Memory.bytes_eq_append hbytes
  obtain ⟨hword, hdata⟩ := Memory.bytes_eq_append hframe
  rw [length_littleEndian] at hword hdata
  rw [Frame.length_encoded, Nat.add_comm f.size 4, ← Nat.add_assoc] at hrest
  exact ⟨hn, Memory.word_of_bytes hword hf, hdata, hrest⟩

private theorem readFrames_encoded {memory : Memory} {bufferLength : Nat} (hlen : bufferLength < 2 ^ 63)
    (fs : List Frame) : ∀ (current n : Nat) (msg : Message), (∀ f ∈ fs, f.size < 2 ^ 32) →
      memory.bytes current n = fs.flatMap Frame.encoded → current + n ≤ bufferLength →
      readFrames memory bufferLength fs.length current msg = .ok ⟨msg.frames ++ fs⟩ := by
  induction fs with
  | nil =>
    intro current n msg _ _ _
    simp [readFrames]
  | cons f fs ih =>
    intro current n msg hfit hbytes hle
    obtain ⟨hn, hword, hdata, hrest⟩ := frame_of_bytes hbytes (hfit f (List.mem_cons_self ..))
    have hfits : ∀ g ∈ fs, g.size < 2 ^ 32 := fun g hg => hfit g (List.mem_cons_of_mem _ hg)
    rw [List.length_cons, readFrames, hword, toSsize_of_lt hlen, if_neg (by omega), hdata,
      ih _ _ _ hfits hrest (by omega)]
    simp [addFrame]

/-- A buffer that starts with the encoding of a message is read back, whatever lies behind. -/
theorem readMessage_of_bytes {m : Message} (hm : m.Encodable) {memory : Memory} {bufferLength : Nat}
    (hlen : bufferLength < 2 ^ 63) (hle : m.messageSize ≤ bufferLength)
    (hbytes : memory.bytes 0 m.messageSize = m.writeMessage) : readMessage memory bufferLength = .ok m := by
  rw [writeMessage] at hbytes
  obtain ⟨hcount, hframes⟩ := Memory.bytes_eq_append hbytes
  rw [length_littleEndian] at hcount hframes
  rw [readMessage, Memory.word_of_bytes hcount hm.1,
    readFrames_encoded hlen m.frames _ _ empty hm.2 hframes (by rw [messageSize_eq] at hle; omega)]
  rfl

/-! ### Accepting nothing else -/

private theorem readFrames_ok {memory : Memory} {bufferLength : Nat} (hlen : bufferLength < 2 ^ 63) (n : Nat) :
    ∀ (current : Nat) (msg m : Message), readFrames memory bufferLength n current msg = .ok m →
      current ≤ bufferLength → ∃ fs : List Frame, m.frames = msg.frames ++ fs ∧ fs.length = n ∧
        (∀ f ∈ fs, f.size < 2 ^ 32) ∧ current + (fs.flatMap Frame.encoded).length ≤ bufferLength ∧
        memory.bytes current (fs.flatMap Frame.encoded).length = fs.flatMap Frame.encoded := by
  induction n with
  | zero =>
    intro current msg m h hle
    cases h
    exact ⟨[], by simp, rfl, by simp, by simpa using hle, by simp [Memory.bytes]⟩
  | succ n ih =>
    intro current msg m h hle
    simp only [readFrames] at h
    split at h
    · cases h
    · rename_i hfits
      rw [toSsize_of_lt hlen] at hfits
      obtain ⟨fs, hframes, hlength, hsizes, hend, hbytes⟩ := ih _ _ _ h (by omega)
      have hsize : (Frame.mk (memory.bytes (current + 4) (memory.word current))).size = memory.word current :=
        Memory.length_bytes _ _ _
      refine ⟨⟨memory.bytes (current + 4) (memory.word current)⟩ :: fs, ?_, by rw [List.length_cons, hlength], ?_,
        ?_, ?_⟩
      · rw [hframes, addFrame, List.append_assoc]
        rfl
      · intro f hf
        rcases List.mem_cons.1 hf with rfl | hf
        · rw [hsize]
          exact Memory.word_lt _ _
        · exact hsizes f hf
      · rw [List.flatMap_cons, List.length_append, Frame.length_encoded, hsize]
        omega
      · rw [List.flatMap_cons, List.length_append, Frame.length_encoded, hsize, Nat.add_comm (memory.word current),
          Memory.bytes_add, Memory.bytes_add, ← Nat.add_assoc, hbytes, Frame.encoded, hsize,
          Memory.littleEndian_word]

/-- A message that is returned is encoded by the first bytes of the buffer. -/
theorem bytes_of_readMessage {memory : Memory} {bufferLength : Nat} (hlen : bufferLength < 2 ^ 63)
    (hmin : 4 ≤ bufferLength) {m : Message} (h : readMessage memory bufferLength = .ok m) :
    m.Encodable ∧ m.messageSize ≤ bufferLength ∧ memory.bytes 0 m.messageSize = m.writeMessage := by
  obtain ⟨fs, hframes, hlength, hsizes, hend, hbytes⟩ := readFrames_ok hlen _ _ _ _ h hmin
  have hm : m.frames = fs := by rw [hframes]; rfl
  rw [messageSize_eq, hm, Encodable, hm, hlength]
  refine ⟨⟨Memory.word_lt _ _, hsizes⟩, by omega, ?_⟩
  rw [Nat.add_comm, Memory.bytes_add, Nat.zero_add, hbytes, writeMessage, hm, hlength, Memory.littleEndian_word]

/-- The buffer codec is exact in both directions.  The second half needs no hypothesis on the memory past the
buffer: a message is returned only if the buffer starts with its encoding, and otherwise `length_error` is thrown. -/
theorem buffer_codec_exact :
    (∀ m : Message, m.Encodable → m.writeMessage.length = m.messageSize ∧
      ∀ (t : List Byte) (memory : Memory) (bufferLength : Nat),
        memory.bytes 0 (m.messageSize + t.length) = m.writeMessage ++ t →
        m.messageSize ≤ bufferLength → bufferLength < 2 ^ 63 → readMessage memory bufferLength = .ok m) ∧
    (∀ (memory : Memory) (bufferLength : Nat), 4 ≤ bufferLength → bufferLength < 2 ^ 63 →
      (∀ m, readMessage memory bufferLength = .ok m →
        m.messageSize ≤ bufferLength ∧ m.writeMessage = memory.bytes 0 m.messageSize) ∧
      ((∀ m : Message, m.Encodable → ¬ m.writeMessage <+: memory.bytes 0 bufferLength) →
        ∃ e : LengthError, readMessage memory bufferLength = .error e)) := by
  refine ⟨fun m hm => ⟨length_writeMessage m, fun t memory bufferLength hbytes hle hlen => ?_⟩,
    fun memory bufferLength hmin hlen => ⟨fun m h => ?_, fun hnone => ?_⟩⟩
  · have hstart := (Memory.bytes_eq_append hbytes).1
    rw [length_writeMessage] at hstart
    exact readMessage_of_bytes hm hlen hle hstart
  · obtain ⟨-, hle, hbytes⟩ := bytes_of_readMessage hlen hmin h
    exact ⟨hle, hbytes.symm⟩
  · cases h : readMessage memory bufferLength with
    | error e => exact ⟨e, rfl⟩
    | ok m =>
      obtain ⟨hm, hle, hbytes⟩ := bytes_of_readMessage hlen hmin h
      refine absurd ?_ (hnone m hm)
      rw [← hbytes]
      exact Memory.bytes_isPrefix memory 0 hle

/-- A message of one frame `01 02`, written and read back with four zero bytes behind it. -/
theorem buffer_codec_exact_pair :
    readMessage (fun i => ([1, 0, 0, 0, 2, 0, 0, 0, 1, 2] : List Byte).getD i 0) 14 = .ok ⟨[⟨[1, 2]⟩]⟩ ∧
      (⟨[⟨[1, 2]⟩]⟩ : Message).messageSize ≤ 14 :=
  have h := (buffer_codec_exact.1 ⟨[⟨[1, 2]⟩]⟩ (by decide)).2 [0, 0, 0, 0]
    (fun i => ([1, 0, 0, 0, 2, 0, 0, 0, 1, 2] : List Byte).getD i 0) 14 (by decide) (by decide) (by decide)
  ⟨h, ((buffer_codec_exact.2 _ 14 (by decide) (by decide)).1 _ h).1⟩

end Message

end Cppio
