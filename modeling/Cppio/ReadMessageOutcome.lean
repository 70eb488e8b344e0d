import Cppio.ReadMessage

/-!
# What a call of `readMessage` leaves behind

A call of `readMessage` on any line either takes the whole encoding of a message off it and returns 1 with that
message, or returns the first result that is not positive; in the second case the message keeps the frames that were
complete by then (`readMessage_outcome`).  So the message is empty after a failure just when the line fails before the
end of the first frame (`failed_empty_iff`).
-/

namespace Cppio

variable {σ : Type}

/-- A read puts at most as many bytes into the buffer as were asked for. -/
def IoLine.WithinRequest (line : IoLine σ) : Prop :=
  ∀ n s bytes, 0 < n → (line.read n s).1 = .ok bytes → bytes.length ≤ n

/-- The bytes of the reads whose result is positive. -/
def goodBytes (results : List ReadResult) : List Byte :=
  results.flatMap fun r => if 0 < toInt32 r.value then r.bytes else []

theorem goodBytes_append (results results' : List ReadResult) :
    goodBytes (results ++ results') = goodBytes results ++ goodBytes results' :=
  List.flatMap_append ..

/-- One of the results is not positive. -/
def Fails (results : List ReadResult) : Prop := ∃ r ∈ results, toInt32 r.value ≤ 0

theorem Fails.append_right {results : List ReadResult} (h : Fails results) (results' : List ReadResult) :
    Fails (results' ++ results) := by
  obtain ⟨r, hr, hle⟩ := h
  exact ⟨r, List.mem_append_right _ hr, hle⟩

theorem IoLine.WithinRequest.length_bytes_le {line : IoLine σ} (hline : line.WithinRequest) {n : Nat} (hn : 0 < n)
    (s : σ) : (line.read n s).1.bytes.length ≤ n := by
  cases hread : (line.read n s).1 with
  | ok bytes => exact hline n s bytes hn hread
  | error e => exact Nat.zero_le _

/-- A loop over partial reads collects the bytes it waits for, or stops short of them at a failure. -/
theorem readLoop_outcome {line : IoLine σ} (hline : line.WithinRequest) (len : Nat) (got : List Byte) :
    got.length ≤ len → ∀ s,
    ((readLoop len got).run line.read s).1 = .ok (got ++ goodBytes ((readLoop len got).answers line.read s)) ∧
        (got ++ goodBytes ((readLoop len got).answers line.read s)).length = len ∨
      ∃ result, ((readLoop len got).run line.read s).1 = .error result ∧ result ≤ 0 ∧
        (got ++ goodBytes ((readLoop len got).answers line.read s)).length < len ∧
        Fails ((readLoop len got).answers line.read s) := by
  induction got using readLoop.induct len with
  | case1 got hlt ih =>
    intro _ s
    rw [readLoop, if_pos hlt]
    simp only [Dialogue.run, Dialogue.answers]
    have hbytes := hline.length_bytes_le (Nat.sub_pos_of_lt hlt) s
    generalize (line.read (len - got.length) s).1 = r at hbytes ⊢
    generalize (line.read (len - got.length) s).2 = s'
    by_cases hpos : 0 < toInt32 r.value
    · have hgood : ∀ rs, goodBytes (r :: rs) = r.bytes ++ goodBytes rs := fun rs => by
        rw [goodBytes, List.flatMap_cons, if_pos hpos, goodBytes]
      have hfails : ∀ rs, Fails rs → Fails (r :: rs) := by
        rintro rs ⟨r', hr', hle⟩
        exact ⟨r', List.mem_cons_of_mem _ hr', hle⟩
      simp only [if_pos hpos, hgood, ← List.append_assoc]
      rcases ih r hpos (by rw [List.length_append]; omega) s' with h | ⟨result, hrun, hle, hshort, hfail⟩
      · exact .inl h
      · exact .inr ⟨result, hrun, hle, hshort, hfails _ hfail⟩
    · simp only [if_neg hpos, Dialogue.run, Dialogue.answers]
      refine .inr ⟨_, rfl, by omega, ?_, r, List.mem_singleton_self r, by omega⟩
      simpa [goodBytes, if_neg hpos] using hlt
  | case2 got hge =>
    intro hle s
    rw [readLoop, if_neg hge]
    refine .inl ⟨?_, ?_⟩
    · simp [Dialogue.run, Dialogue.answers, goodBytes]
    · simp only [Dialogue.answers, goodBytes, List.flatMap_nil, List.append_nil]
      omega

/-! ### Whole frames -/

/-- The bytes do not start with a whole frame. -/
def NoFrame (bytes : List Byte) : Prop := ∀ f : Frame, f.size < 2 ^ 32 → ¬ f.encoded <+: bytes

theorem noFrame_of_length_lt {bytes : List Byte} (h : bytes.length < 4) : NoFrame bytes := by
  intro f _ hfirst
  have hle := hfirst.length_le
  rw [Frame.length_encoded] at hle
  omega

theorem noFrame_of_body {word body : List Byte} (hword : word.length = 4) (hbody : body.length < wordValue word) :
    NoFrame (word ++ body) := by
  rintro f hf ⟨rest, h⟩
  rw [Frame.encoded, List.append_assoc] at h
  obtain ⟨hw, hb⟩ := List.append_inj h (by rw [length_littleEndian, hword])
  have hsize : wordValue word = f.size := by rw [← hw, wordValue_littleEndian_of_lt hf]
  have hlen := congrArg List.length hb
  rw [List.length_append] at hlen
  unfold Frame.size at hsize
  omega

theorem Frame.eq_of_encoded {f g : Frame} (hf : f.size < 2 ^ 32) (hg : g.size < 2 ^ 32) {xs ys : List Byte}
    (h : f.encoded ++ xs = g.encoded ++ ys) : f = g ∧ xs = ys := by
  rw [encoded, encoded, List.append_assoc, List.append_assoc] at h
  obtain ⟨hword, hrest⟩ := List.append_inj h (by rw [length_littleEndian, length_littleEndian])
  have hsize : f.size = g.size := by
    rw [← wordValue_littleEndian_of_lt (w := 4) hf, ← wordValue_littleEndian_of_lt (w := 4) hg, hword]
  obtain ⟨hdata, hxs⟩ := List.append_inj hrest hsize
  cases f
  cases g
  exact ⟨congrArg Frame.mk hdata, hxs⟩

/-- Bytes that end short of a frame hold no more frames than those before it. -/
theorem not_prefix_of_noFrame {fs gs : List Frame} (hfs : ∀ f ∈ fs, f.size < 2 ^ 32) (hgs : ∀ g ∈ gs, g.size < 2 ^ 32)
    {rest : List Byte} (hrest : NoFrame rest) (hlt : fs.length < gs.length) :
    ¬ gs.flatMap Frame.encoded <+: fs.flatMap Frame.encoded ++ rest := by
  induction fs generalizing gs with
  | nil =>
    cases gs with
    | nil => exact absurd hlt (Nat.lt_irrefl _)
    | cons g gs =>
      intro h
      rw [List.flatMap_cons, List.flatMap_nil, List.nil_append] at h
      exact hrest g (hgs g (List.mem_cons_self ..)) ((List.prefix_append _ _).trans h)
  | cons f fs ih =>
    cases gs with
    | nil => exact absurd hlt (Nat.not_lt_zero _)
    | cons g gs =>
      rintro ⟨more, h⟩
      rw [List.flatMap_cons, List.flatMap_cons, List.append_assoc, List.append_assoc] at h
      obtain ⟨-, hlater⟩ := Frame.eq_of_encoded (hgs g (List.mem_cons_self ..)) (hfs f (List.mem_cons_self ..)) h
      exact ih (fun f hf => hfs f (List.mem_cons_of_mem _ hf)) (fun g hg => hgs g (List.mem_cons_of_mem _ hg))
        (Nat.lt_of_succ_lt_succ hlt) ⟨more, hlater⟩

/-! ### Whole calls -/

namespace MessageProtocol

/-- The frames read by a call are those that the good results hold in full. -/
theorem readFrames_outcome {line : IoLine σ} (hline : line.WithinRequest) (n : Nat) : ∀ (m : Message) (s : σ),
    ∃ fs rest, (∀ f ∈ fs, f.size < 2 ^ 32) ∧ ((readFrames n m).run line.read s).1.2 = ⟨m.frames ++ fs⟩ ∧
      goodBytes ((readFrames n m).answers line.read s) = fs.flatMap Frame.encoded ++ rest ∧
      (fs.length = n ∧ rest = [] ∧ ((readFrames n m).run line.read s).1.1 = 1 ∨
        fs.length < n ∧ NoFrame rest ∧ ((readFrames n m).run line.read s).1.1 ≤ 0 ∧
          Fails ((readFrames n m).answers line.read s)) := by
  induction n with
  | zero => exact fun m s => ⟨[], [], by simp, by simp [readFrames, Dialogue.run], rfl, .inl ⟨rfl, rfl, rfl⟩⟩
  | succ n ih =>
    intro m s
    rw [readFrames, Dialogue.run_bind, Dialogue.answers_bind]
    rcases readLoop_outcome hline 4 [] (Nat.zero_le _) s with
      ⟨hword, hwordlen⟩ | ⟨result, hword, hle, hshort, hfails⟩
    · rw [hword]
      rw [List.nil_append] at hwordlen
      simp only [List.nil_append]
      generalize (readLoop 4 []).answers line.read s = wordResults at hwordlen ⊢
      generalize ((readLoop 4 []).run line.read s).2 = s₁
      have hlt := wordValue_lt (goodBytes wordResults)
      rw [hwordlen] at hlt
      rw [Dialogue.run_bind, Dialogue.answers_bind]
      rcases readLoop_outcome hline (wordValue (goodBytes wordResults)) [] (Nat.zero_le _) s₁ with
        ⟨hbody, hbodylen⟩ | ⟨result, hbody, hle, hshort, hfails⟩
      · rw [hbody]
        rw [List.nil_append] at hbodylen
        simp only [List.nil_append]
        generalize (readLoop (wordValue (goodBytes wordResults)) []).answers line.read s₁ = bodyResults at hbodylen ⊢
        generalize ((readLoop (wordValue (goodBytes wordResults)) []).run line.read s₁).2 = s₂
        -- the frame is complete, and the loop goes on behind it
        obtain ⟨fs, rest, hsizes, hframes, hbytes, hend⟩ := ih (m.addFrame ⟨goodBytes bodyResults⟩) s₂
        have hsize : (Frame.mk (goodBytes bodyResults)).size = wordValue (goodBytes wordResults) := hbodylen
        have hencoded : (Frame.mk (goodBytes bodyResults)).encoded =
            goodBytes wordResults ++ goodBytes bodyResults := by
          have h := littleEndian_wordValue (goodBytes wordResults)
          rw [hwordlen] at h
          rw [Frame.encoded, hsize, h]
        refine ⟨⟨goodBytes bodyResults⟩ :: fs, rest, ?_, ?_, ?_, ?_⟩
        · exact List.forall_mem_cons.2 ⟨by rw [hsize]; exact hlt, hsizes⟩
        · rw [hframes, Message.addFrame, List.append_assoc]
          rfl
        · rw [goodBytes_append, goodBytes_append, hbytes, List.flatMap_cons, hencoded, List.append_assoc,
            List.append_assoc]
        · rcases hend with ⟨hlen, hrest, hone⟩ | ⟨hlen, hrest, hle, hfails⟩
          · exact .inl ⟨by rw [List.length_cons, hlen], hrest, hone⟩
          · exact .inr ⟨by rw [List.length_cons]; omega, hrest, hle,
              Fails.append_right (Fails.append_right hfails _) _⟩
      · -- the line fails inside the body
        rw [hbody]
        rw [List.nil_append] at hshort
        refine ⟨[], goodBytes wordResults ++ goodBytes ((readLoop _ []).answers line.read s₁), by simp, ?_, ?_,
          .inr ⟨Nat.succ_pos n, noFrame_of_body hwordlen hshort, hle, Fails.append_right ?_ _⟩⟩
        · simp [Dialogue.run]
        · simp [Dialogue.answers, goodBytes_append]
        · simpa [Dialogue.answers] using hfails
    · -- the line fails inside the length word
      rw [hword]
      rw [List.nil_append] at hshort
      refine ⟨[], goodBytes ((readLoop 4 []).answers line.read s), by simp, ?_, ?_,
        .inr ⟨Nat.succ_pos n, noFrame_of_length_lt hshort, hle, ?_⟩⟩
      · simp [Dialogue.run]
      · simp [Dialogue.answers]
      · simpa [Dialogue.answers] using hfails

/-- The bytes start with the number of frames, some, and a whole frame. -/
def HoldsFirstFrame (bytes : List Byte) : Prop :=
  ∃ (frames : Nat) (f : Frame), 0 < frames ∧ frames < 2 ^ 32 ∧ f.size < 2 ^ 32 ∧
    littleEndian 4 frames ++ f.encoded <+: bytes

/-- The bytes start with the encoding of a message. -/
def HoldsMessage (bytes : List Byte) : Prop := ∃ m : Message, m.Encodable ∧ m.writeMessage <+: bytes

/-- A call with an empty message takes the encoding of a message off the line and returns 1 with it, or it fails
before the good results hold the encoding of a message; then the message keeps the frames they hold. -/
theorem readMessage_outcome {line : IoLine σ} (hline : line.WithinRequest) (s : σ) :
    (∃ m : Message, m.Encodable ∧ ((readMessage .empty).run line.read s).1 = (1, m) ∧
      goodBytes ((readMessage .empty).answers line.read s) = m.writeMessage) ∨
    (((readMessage .empty).run line.read s).1.1 ≤ 0 ∧ Fails ((readMessage .empty).answers line.read s) ∧
      ¬ HoldsMessage (goodBytes ((readMessage .empty).answers line.read s)) ∧
      (((readMessage .empty).run line.read s).1.2 = .empty ↔
        ¬ HoldsFirstFrame (goodBytes ((readMessage .empty).answers line.read s)))) := by
  rw [readMessage, Dialogue.run_bind, Dialogue.answers_bind]
  rcases readLoop_outcome hline 4 [] (Nat.zero_le _) s with
    ⟨hword, hwordlen⟩ | ⟨result, hword, hle, hshort, hfails⟩
  · rw [hword]
    rw [List.nil_append] at hwordlen
    simp only [List.nil_append]
    generalize (readLoop 4 []).answers line.read s = wordResults at hwordlen ⊢
    generalize ((readLoop 4 []).run line.read s).2 = s₁
    have hlt := wordValue_lt (goodBytes wordResults)
    have hcount := littleEndian_wordValue (goodBytes wordResults)
    rw [hwordlen] at hlt hcount
    generalize hn : wordValue (goodBytes wordResults) = n at hlt hcount
    obtain ⟨fs, rest, hsizes, hframes, hbytes, hend⟩ := readFrames_outcome hline n .empty s₁
    have hframes : ((readFrames n .empty).run line.read s₁).1.2 = ⟨fs⟩ := hframes
    rw [goodBytes_append, ← hcount, hbytes]
    rcases hend with ⟨rfl, rfl, hone⟩ | ⟨hshort, hrest, hle, hfails⟩
    · exact .inl ⟨⟨fs⟩, ⟨hlt, hsizes⟩, Prod.ext hone hframes, by rw [List.append_nil]; rfl⟩
    · refine .inr ⟨hle, Fails.append_right hfails _, ?_, ?_⟩
      · rintro ⟨m, ⟨hmlen, hmsizes⟩, more, hm⟩
        rw [Message.writeMessage, List.append_assoc] at hm
        obtain ⟨hword', hlater⟩ := List.append_inj hm (by rw [length_littleEndian, length_littleEndian])
        -- a message would announce the same number of frames, more than the good results hold
        have hlen : m.frames.length = n := by
          rw [← wordValue_littleEndian_of_lt (w := 4) hmlen, hword', wordValue_littleEndian_of_lt hlt]
        exact not_prefix_of_noFrame hsizes hmsizes hrest (by omega) ⟨more, hlater⟩
      · rw [hframes]
        cases fs with
        | nil =>
          refine ⟨fun _ => ?_, fun _ => rfl⟩
          rintro ⟨frames, f, -, -, hf, more, hfirst⟩
          rw [List.append_assoc, List.flatMap_nil, List.nil_append] at hfirst
          obtain ⟨-, hlater⟩ := List.append_inj hfirst (by rw [length_littleEndian, length_littleEndian])
          exact hrest f hf ⟨more, hlater⟩
        | cons f fs =>
          have hne : (⟨f :: fs⟩ : Message) ≠ .empty := by simp [Message.empty]
          refine ⟨fun h => absurd h hne, fun hnot => absurd ?_ hnot⟩
          refine ⟨n, f, by omega, hlt, hsizes f (List.mem_cons_self ..), fs.flatMap Frame.encoded ++ rest, ?_⟩
          rw [List.flatMap_cons, List.append_assoc, List.append_assoc]
  · rw [hword]
    rw [List.nil_append] at hshort
    refine .inr ⟨hle, ?_, ?_, fun _ => ?_, fun _ => rfl⟩
    · simpa [Dialogue.answers] using hfails
    · rintro ⟨m, -, hm⟩
      have hlen := hm.length_le
      have hmin := Message.four_le_messageSize m
      simp only [Dialogue.answers, List.append_nil, Message.length_writeMessage] at hlen
      omega
    · rintro ⟨frames, f, -, -, -, hfirst⟩
      have hlen := hfirst.length_le
      simp only [Dialogue.answers, List.append_nil, List.length_append, length_littleEndian,
        Frame.length_encoded] at hlen
      omega

/-- A failed call leaves the message empty just when the line does not fail between the end of the first frame and
the end of the message. -/
theorem failed_empty_iff (line : IoLine σ) (hline : line.WithinRequest) (s : σ) :
    (((readMessage .empty).run line.read s).1.1 ≤ 0 → ((readMessage .empty).run line.read s).1.2 = .empty) ↔
      ¬ (HoldsFirstFrame (goodBytes ((readMessage .empty).answers line.read s)) ∧
        ¬ HoldsMessage (goodBytes ((readMessage .empty).answers line.read s))) := by
  rcases readMessage_outcome hline s with ⟨m, hm, hrun, hbytes⟩ | ⟨hle, -, hnone, hempty⟩
  · rw [hrun, hbytes]
    refine ⟨fun _ h => h.2 ⟨m, hm, List.prefix_refl _⟩, fun _ h => ?_⟩
    exact absurd h (show ¬ (1 : Int) ≤ 0 by decide)
  · rw [hempty]
    exact ⟨fun h hboth => h hle hboth.1, fun h _ hfirst => h ⟨hfirst, hnone⟩⟩

/-- A line that delivers a list of bytes and is then lost. -/
def finite : IoLine (List Byte) where
  read n s := (if s = [] then .error .eConnectionLost else .ok (s.take n), s.drop n)
  write bytes s := (bytes.length, s)

theorem finite_withinRequest : finite.WithinRequest := by
  intro n s bytes _ h
  simp only [finite] at h
  split at h
  · cases h
  · cases h
    rw [List.length_take]
    exact Nat.min_le_left _ _

/-- A line that is lost inside the first frame. -/
theorem failed_empty_iff_short : ((readMessage .empty).run finite.read [1, 0, 0, 0, 2, 0, 0, 0, 7]).1 = (-2, .empty) ∧
    ¬ (HoldsFirstFrame (goodBytes ((readMessage .empty).answers finite.read [1, 0, 0, 0, 2, 0, 0, 0, 7])) ∧
      ¬ HoldsMessage (goodBytes ((readMessage .empty).answers finite.read [1, 0, 0, 0, 2, 0, 0, 0, 7]))) := by
  have h : ((readMessage .empty).run finite.read [1, 0, 0, 0, 2, 0, 0, 0, 7]).1 = (-2, .empty) := by decide +kernel
  exact ⟨h, (failed_empty_iff finite finite_withinRequest _).1 fun _ => by rw [h]⟩

/-- A line that is lost behind the first of two frames: the call fails with that frame in the message. -/
theorem failed_not_empty : ¬ ∀ line : IoLine (List Byte), line.WithinRequest → ∀ s,
    ((readMessage .empty).run line.read s).1.1 ≤ 0 → ((readMessage .empty).run line.read s).1.2 = .empty := by
  intro hall
  have h : ((readMessage .empty).run finite.read [2, 0, 0, 0, 1, 0, 0, 0, 7]).1 = (-2, ⟨[⟨[7]⟩]⟩) := by decide +kernel
  have hempty := hall finite finite_withinRequest [2, 0, 0, 0, 1, 0, 0, 0, 7] (by rw [h]; decide)
  rw [h] at hempty
  exact absurd hempty (by decide)

end MessageProtocol

end Cppio
