import LiburingServer.WsSplitting
import LiburingServer.WebServer

/-! What `get_ws_frames` returns and keeps when the bytes are arbitrary. The size of a frame is a 64-bit number
that is stored in an `int` and computed from misplaced bytes when less than a header is pending: the frames
returned are those that the headers declare, and the pending data are sound, as far as this size is right. -/

namespace LiburingServer

open StateTransition

variable {fuel : ℕ} {data data' : ReceivingDataInfo} {read : WsRead} {code : ℤ} {out : List Bytes}

/-! ### Complete frames -/

/-- A frame is as long as its own header declares. -/
def CompleteFrame (f : Bytes) : Prop := f.length = declaredSize (peek f fun _ => 0)

instance : DecidablePred CompleteFrame := fun f =>
  inferInstanceAs (Decidable (f.length = declaredSize (peek f fun _ => 0)))

/-- Only the first ten bytes declare a size, and only bytes of the frame. -/
theorem declaredSize_congr {b b' : ℕ → UInt8} (h : ∀ i < 10, i < declaredSize b → b i = b' i) :
    declaredSize b' = declaredSize b := by
  have hsix := six_le_declaredSize b
  have hone : b 1 = b' 1 := h 1 (by omega) (by omega)
  by_cases h126 : (b 1).toNat % 128 = 126
  · have hsize : declaredSize b = 8 + bigEndian b 2 2 := by simp [declaredSize, h126]
    have hlength : bigEndian b 2 2 = bigEndian b' 2 2 := bigEndian_congr fun i hi =>
      h (2 + i) (by omega) (by omega)
    rw [hsize, hlength]
    simp [declaredSize, ← hone, h126]
  · by_cases h127 : (b 1).toNat % 128 = 127
    · have hsize : declaredSize b = 14 + bigEndian b 2 8 := by simp [declaredSize, h127]
      have hlength : bigEndian b 2 8 = bigEndian b' 2 8 := bigEndian_congr fun i hi =>
      h (2 + i) (by omega) (by omega)
      rw [hsize, hlength]
      simp [declaredSize, ← hone, h127]
    · simp [declaredSize, ← hone, h126, h127]

/-- The first `n` bytes of a buffer are a complete frame if the header there declares this size. -/
theorem completeFrame_take {b : Bytes} (beyond : ℕ → UInt8) {n : ℕ} (hn : n ≤ b.length) :
    CompleteFrame (b.take n) ↔ n = declaredSize (peek b beyond) := by
  have hlength : (b.take n).length = n := List.length_take_of_le hn
  have hagree : ∀ i < n, peek (b.take n) (fun _ => 0) i = peek b beyond i := by
    intro i hi
    have hib : i < b.length := by omega
    have hin : i < (b.take n).length := by omega
    simp only [peek, List.getD_eq_getElem?_getD, List.getElem?_eq_getElem hib, List.getElem?_eq_getElem hin,
      List.getElem_take, Option.getD_some]
  unfold CompleteFrame
  rw [hlength]
  constructor
  · intro h
    exact h.trans (declaredSize_congr fun i _ hi => hagree i (by omega)).symm
  · intro h
    exact h.trans (declaredSize_congr fun i _ hi => (hagree i (by omega)).symm).symm

theorem payloadLength_eq (b : UInt8) : (b &&& 0x7f).toNat = b.toNat % 128 := by
  rw [UInt8.toNat_and]
  exact Nat.and_two_pow_sub_one_eq_mod b.toNat 7

/-- The decoder stays inside a complete frame. -/
theorem CompleteFrame.decodes {f : Bytes} (h : CompleteFrame f) : ∃ r, decodeWebsocketFrame f = some r := by
  have hsix := six_le_declaredSize (peek f fun _ => 0)
  unfold CompleteFrame at h
  obtain ⟨first, second, rest, rfl⟩ : ∃ first second rest, f = first :: second :: rest := by
    match f, (by omega : 6 ≤ f.length) with
    | first :: second :: rest, _ => exact ⟨first, second, rest, rfl⟩
  have hbyte : peek (first :: second :: rest) (fun _ => 0) 1 = second := rfl
  have henough : ¬rest.length < (if second &&& 0x7f = 126 then 2 else if second &&& 0x7f = 127 then 8 else 0) + 4 := by
    have h126 : second &&& 0x7f = 126 ↔ second.toNat % 128 = 126 := by
      rw [← payloadLength_eq, ← UInt8.toNat_inj]
      rfl
    have h127 : second &&& 0x7f = 127 ↔ second.toNat % 128 = 127 := by
      rw [← payloadLength_eq, ← UInt8.toNat_inj]
      rfl
    simp only [declaredSize, hbyte, List.length_cons] at h
    simp only [h126, h127]
    split_ifs at h ⊢ <;> omega
  unfold decodeWebsocketFrame
  dsimp only
  rw [if_neg henough]
  split_ifs <;> exact ⟨_, rfl⟩

/-- If the call completes the pending frame, the size on record (or else the size read off the misplaced bytes)
is the one that the header of the pending frame declares. -/
def SizedRight (data : ReceivingDataInfo) (chunk : Bytes) : Prop :=
  data.buffer ≠ [] → ∀ length, pendingLength data chunk = .known length →
    requiredLength length data.buffer ≤ chunk.length →
      data.buffer.length + requiredLength length data.buffer =
        declaredSize (peek (data.buffer ++ chunk) fun _ => 0)

/-- No header of a frame that the splitting loop returns declares a size of `2 ^ 64` bytes or more. -/
def NoneWraps (data : ReceivingDataInfo) (read : WsRead) : Prop :=
  ∀ frames buffer kept, splitStart data read.chunk = some (frames, buffer, kept) →
    ∀ s, FrameStart read.beyond buffer s → splitRound read.beyond s ≠ none →
      declaredSize (peek s.2 (read.beyond s.1)) < 2 ^ 64

theorem fillPending_frames (length : ℤ) (pending chunk : Bytes) : (fillPending length pending chunk).1 =
    if requiredLength length pending ≤ chunk.length then
      [(pending ++ chunk).take (pending.length + requiredLength length pending)] else [] := by
  rcases Nat.lt_trichotomy (requiredLength length pending) chunk.length with hless | heq | hmore
  · rw [fillPending_of_lt hless, if_pos hless.le, List.take_length_add_append]
  · rw [fillPending_of_eq heq, if_pos heq.le, heq, List.take_length_add_append, List.take_length]
  · rw [fillPending_of_gt hmore, if_neg (Nat.not_le.mpr hmore)]

/-- The frame completed before the splitting loop is the one that its header declares. -/
theorem sizedRight_iff {frames : List Bytes} {buffer : Bytes} {kept : ReceivingDataInfo} {chunk : Bytes}
    (hstart : splitStart data chunk = some (frames, buffer, kept)) :
    SizedRight data chunk ↔ ∀ f ∈ frames, CompleteFrame f := by
  unfold splitStart at hstart
  split at hstart
  · rename_i hpending
    cases hlength : pendingLength data chunk with
    | smallRead => simp [hlength] at hstart
    | invalidRange => simp [hlength] at hstart
    | known length =>
        simp only [hlength, Option.some.injEq] at hstart
        have hframes := fillPending_frames length data.buffer chunk
        simp only [hstart] at hframes
        have hsized : SizedRight data chunk ↔ (requiredLength length data.buffer ≤ chunk.length →
            data.buffer.length + requiredLength length data.buffer =
              declaredSize (peek (data.buffer ++ chunk) fun _ => 0)) := by
          refine ⟨fun h => h (List.ne_nil_of_length_pos hpending) length hlength, fun h _ length' hlength' => ?_⟩
          obtain rfl : length = length' := by simpa [hlength] using hlength'
          exact h
        rw [hsized, hframes]
        split_ifs with hreq
        · rw [List.forall_mem_singleton,
            completeFrame_take (fun _ => 0) (by rw [List.length_append]; omega)]
          simp [hreq]
        · simp [hreq]
  · rename_i hempty
    obtain ⟨rfl, -⟩ : [] = frames ∧ _ := by simpa using hstart
    have hnil : data.buffer = [] := by simpa using hempty
    simp [SizedRight, hnil]

/-- The frames of the splitting loop are those that their headers declare. -/
theorem noneWraps_iff {beyond : ℕ → ℕ → UInt8} {buffer : Bytes} {t : ℕ × Bytes}
    (hrun : Loops.run (splitRound beyond) fuel (0, buffer) = some t) :
    (∀ s, FrameStart beyond buffer s → splitRound beyond s ≠ none →
        declaredSize (peek s.2 (beyond s.1)) < 2 ^ 64) ↔
      ∀ s ∈ Loops.trace (splitRound beyond) fuel (0, buffer), CompleteFrame (splitFrame beyond s) := by
  refine forall_congr' fun s => ?_
  rw [Loops.mem_trace_iff hrun, and_imp]
  refine forall_congr' fun hs => forall_congr' fun hgoes => ?_
  obtain ⟨u, hu⟩ := Option.ne_none_iff_exists'.mp hgoes
  have hfits := (splitRound_eq_some.mp hu).1.2
  have hless := declaredSize_lt (peek s.2 (beyond s.1))
  have hsix := six_le_declaredSize (peek s.2 (beyond s.1))
  rw [splitFrame, completeFrame_take (beyond s.1) hfits, splitLength, getWsFrameLength_eq]
  omega

/-- One call returns complete frames exactly if the sizes it cuts at are those declared. -/
theorem complete_step (h : getWsFrames fuel data read = some (data', code, out)) :
    SizedRight data read.chunk ∧ NoneWraps data read ↔ ∀ f ∈ out, CompleteFrame f := by
  rcases getWsFrames_cases h with ⟨hsmall, hstart, -, -, rfl⟩ |
    ⟨-, frames, buffer, kept, rest, last, hstart, hsplit, -⟩
  · refine iff_of_true ⟨fun _ length hlength => ?_, fun _ _ _ hsome => ?_⟩ (by simp)
    · cases hsmall.symm.trans hlength
    · cases hstart.symm.trans hsome
  · rw [splitFrames_eq_run] at hsplit
    obtain ⟨t, hrun, heq⟩ := Option.map_eq_some_iff.mp hsplit
    obtain ⟨rfl, -⟩ : _ = out ∧ _ := by simpa only [Prod.mk.injEq] using heq
    have hwraps : NoneWraps data read ↔ ∀ s, FrameStart read.beyond buffer s → splitRound read.beyond s ≠ none →
        declaredSize (peek s.2 (read.beyond s.1)) < 2 ^ 64 := by
      refine ⟨fun hnone => hnone frames buffer kept hstart, fun hnone frames' buffer' kept' hstart' => ?_⟩
      obtain ⟨rfl, rfl, rfl⟩ : frames = frames' ∧ buffer = buffer' ∧ kept = kept' := by
        simpa using hstart.symm.trans hstart'
      exact hnone
    rw [sizedRight_iff hstart, hwraps, noneWraps_iff hrun]
    simp only [List.mem_append, List.mem_map]
    constructor
    · rintro ⟨hfirst, hloop⟩ f (hf | ⟨s, hs, rfl⟩)
      · exact hfirst f hf
      · exact hloop s hs
    · intro hall
      exact ⟨fun f hf => hall f (Or.inl hf), fun s hs => hall _ (Or.inr ⟨s, hs, rfl⟩)⟩

/-- **Complete frames.** In every run of calls that return, every frame returned is as long as its header declares,
and the decoder stays inside it, exactly if no call completes a pending frame at another size than the one
declared, and none returns a frame for a header that declares `2 ^ 64` bytes or more. -/
theorem ws_frames_complete_iff (fuel : ℕ) (reads : List WsRead) (data : ReceivingDataInfo)
    (results : List (ℤ × List Bytes)) (hrun : Runs.exec (getWsFrames fuel) {} reads = some (data, results)) :
    (∀ r ∈ results, ∀ f ∈ r.2, CompleteFrame f ∧ ∃ d, decodeWebsocketFrame f = some d) ↔
      Runs.Along (getWsFrames fuel) (fun data read => SizedRight data read.chunk ∧ NoneWraps data read) {}
        reads := by
  rw [Runs.along_iff_forall_outputs (R := fun r : ℤ × List Bytes => ∀ f ∈ r.2, CompleteFrame f)
    (fun _ _ _ (_, _) hcall => complete_step hcall) hrun]
  constructor
  · exact fun h r hr f hf => (h r hr f hf).1
  · exact fun h r hr f hf => ⟨h r hr f hf, (h r hr f hf).decodes⟩

/-- A masked text frame without payload. -/
def emptyText : Bytes := [0x81, 0x80, 1, 2, 3, 4]

theorem ws_frames_complete_text :
    ∃ results, Runs.exec (getWsFrames 7) {} [⟨emptyText, fun _ _ => 0⟩] = some ({}, results) ∧
      ∀ r ∈ results, ∀ f ∈ r.2, CompleteFrame f ∧ ∃ d, decodeWebsocketFrame f = some d := by
  have hrun : Runs.exec (getWsFrames 7) {} [⟨emptyText, fun _ _ => 0⟩] = some ({}, [(1, [emptyText])]) := by
    decide
  refine ⟨_, hrun, (ws_frames_complete_iff 7 _ {} _ hrun).mpr ⟨⟨fun hne => absurd rfl hne, ?_⟩, by simp [Runs.Along]⟩⟩
  rintro frames buffer kept hstart s hs -
  obtain ⟨-, rfl, -⟩ : [] = frames ∧ emptyText = buffer ∧ _ := by simpa [splitStart] using hstart
  -- the loop takes the frame, and then nothing is left
  have hstates : s ∈ [(0, emptyText), (1, [])] := by
    refine Loops.reaches_invariant (fun s t hs ht => ?_) (List.mem_cons_self ..) hs
    simp only [List.mem_cons, List.not_mem_nil, or_false] at hs
    rcases hs with rfl | rfl
    · have hfirst : splitRound (fun _ _ => 0) (0, emptyText) = some (1, []) := by decide
      obtain rfl := Option.some.inj (hfirst.symm.trans ht)
      simp
    · cases ht
  simp only [List.mem_cons, List.not_mem_nil, or_false] at hstates
  rcases hstates with rfl | rfl <;> decide

/-- A header declares `2 ^ 64 - 7` payload bytes: seven bytes of it are returned as a frame, and the decoder reads
the masking key behind them. -/
theorem ws_frame_incomplete :
    Runs.exec (getWsFrames 16) {} [⟨longHeader 0xf9, fun _ _ => 0⟩] =
        some (⟨-1, [0xff, 0xff, 0xf9]⟩, [(1, [(longHeader 0xf9).take 7])]) ∧
      ¬CompleteFrame ((longHeader 0xf9).take 7) ∧ decodeWebsocketFrame ((longHeader 0xf9).take 7) = none := by
  decide

/-! ### Sound pending data -/

/-- Of a pending frame either the size is unknown and at most ten bytes are there, or the size on record is the one
that its header declares, and exceeds what is there. -/
def PendingSound (data : ReceivingDataInfo) : Prop :=
  data.buffer ≠ [] → data.length = -1 ∧ data.buffer.length ≤ 10 ∨
    data.length = declaredSize (peek data.buffer fun _ => 0) ∧ (data.buffer.length : ℤ) < data.length

instance : DecidablePred PendingSound := fun data =>
  inferInstanceAs (Decidable (data.buffer ≠ [] → _ ∨ _))

/-- The call subtracts the size of the pending data from no smaller number. -/
def NoUnderflow (data : ReceivingDataInfo) (read : WsRead) : Prop :=
  data.buffer ≠ [] →
    (data.length = -1 → 10 ≤ data.buffer.length + read.chunk.length → data.buffer.length ≤ 10) ∧
      ∀ length, pendingLength data read.chunk = .known length → (data.buffer.length : ℤ) ≤ length

/-- A size that the call reads off the misplaced bytes is not below what is pending, and if the chunk does not reach
it, it is the one that the header of the pending frame declares. -/
def SizedSoundly (data : ReceivingDataInfo) (chunk : Bytes) : Prop :=
  data.buffer ≠ [] → data.length = -1 → 10 ≤ data.buffer.length + chunk.length →
    (data.buffer.length : ℤ) ≤ headerLength data.buffer chunk ∧
      (((data.buffer.length + chunk.length : ℕ) : ℤ) < headerLength data.buffer chunk →
        headerLength data.buffer chunk = declaredSize (peek (data.buffer ++ chunk) fun _ => 0))

/-- An unfinished frame of which more than ten bytes are left at the end of the chunk declares less than `2 ^ 31`
bytes. -/
def RestFitsInt (data : ReceivingDataInfo) (read : WsRead) : Prop :=
  ∀ frames buffer kept, splitStart data read.chunk = some (frames, buffer, kept) →
    ∀ s, FrameStart read.beyond buffer s → splitRound read.beyond s = none → 10 < s.2.length →
      declaredSize (peek s.2 (read.beyond s.1)) < 2 ^ 31

/-- The size on record is an `int`, and it is known only of frames of which ten bytes are there. -/
structure SizeInRange (data : ReceivingDataInfo) : Prop where
  bounds : -2 ^ 31 ≤ data.length ∧ data.length < 2 ^ 31
  header : data.buffer ≠ [] → data.length ≠ -1 → 10 ≤ data.buffer.length

theorem sizeInRange_empty : SizeInRange {} := ⟨by decide, fun hne => absurd rfl hne⟩

theorem pendingLength_eq_known {chunk : Bytes} {length : ℤ} : pendingLength data chunk = .known length ↔
    (data.length = -1 ∧ 10 ≤ data.buffer.length + chunk.length ∧ data.buffer.length ≤ 10 ∧
      length = headerLength data.buffer chunk) ∨ (data.length ≠ -1 ∧ length = data.length) := by
  unfold pendingLength
  split_ifs with hunknown hshort hlong
  · simp only [false_iff]
    omega
  · simp only [false_iff]
    omega
  · rw [PendingLength.known.injEq]
    constructor
    · intro h
      exact Or.inl ⟨hunknown, by omega, by omega, h.symm⟩
    · rintro (⟨-, -, -, heq⟩ | ⟨hne, -⟩)
      · exact heq.symm
      · exact absurd hunknown hne
  · rw [PendingLength.known.injEq]
    constructor
    · intro h
      exact Or.inr ⟨hunknown, h.symm⟩
    · rintro (⟨heq, -⟩ | ⟨-, heq⟩)
      · exact absurd heq hunknown
      · exact heq.symm

theorem requiredLength_of_le {length : ℤ} {pending : Bytes} (hle : (pending.length : ℤ) ≤ length)
    (hlt : length < 2 ^ 31) : (requiredLength length pending : ℤ) = length - pending.length := by
  unfold requiredLength
  omega

section Rest

variable {beyond : ℕ → ℕ → UInt8} {buffer : Bytes} {s t : ℕ × Bytes} {kept : ReceivingDataInfo}

/-- Where the loop ends. -/
theorem frameStart_last (hrun : Loops.run (splitRound beyond) fuel (0, buffer) = some t) :
    FrameStart beyond buffer s ∧ splitRound beyond s = none ↔ s = t := by
  have hend := Loops.mem_eval_of_run hrun
  constructor
  · exact fun hs => Part.mem_unique (mem_eval.mpr hs) hend
  · rintro rfl
    exact mem_eval.mp hend

theorem keepRest_inRange (hkept : SizeInRange kept) (beyond : ℕ → UInt8) (rest : Bytes) :
    SizeInRange (keepRest kept beyond rest) := by
  unfold keepRest
  split_ifs with hpos hlong
  · refine ⟨?_, fun _ _ => hlong.le⟩
    dsimp only
    exact toInt_bounds _
  · refine ⟨?_, fun _ hne => absurd rfl hne⟩
    dsimp only
    decide
  · exact hkept

/-- The beginning of a frame that is left is sound pending data exactly if its size fits an `int`. -/
theorem keepRest_sound_iff (hkept : kept.buffer = [])
    (hrun : Loops.run (splitRound beyond) fuel (0, buffer) = some t) :
    (∀ s, FrameStart beyond buffer s → splitRound beyond s = none → 10 < s.2.length →
        declaredSize (peek s.2 (beyond s.1)) < 2 ^ 31) ↔ PendingSound (keepRest kept (beyond t.1) t.2) := by
  obtain ⟨-, hends⟩ := (frameStart_last hrun).mpr rfl
  have honly : (∀ s, FrameStart beyond buffer s → splitRound beyond s = none → 10 < s.2.length →
      declaredSize (peek s.2 (beyond s.1)) < 2 ^ 31) ↔
      (10 < t.2.length → declaredSize (peek t.2 (beyond t.1)) < 2 ^ 31) := by
    constructor
    · obtain ⟨hs, hnone⟩ := (frameStart_last hrun).mpr rfl
      exact fun h => h t hs hnone
    · intro h s hs hnone
      obtain rfl := (frameStart_last hrun).mp ⟨hs, hnone⟩
      exact h
  rw [honly]
  unfold keepRest
  split_ifs with hpos hlong
  · have hsame : declaredSize (peek t.2 fun _ => 0) = declaredSize (peek t.2 (beyond t.1)) :=
      declaredSize_congr fun i hi _ => peek_congr _ _ (by omega)
    have hunfinished : t.2.length < splitLength beyond t := by
      unfold splitRound at hends
      split_ifs at hends
      omega
    rw [splitLength, getWsFrameLength_eq] at hunfinished
    have hbounds := toInt_bounds (getWsFrameLength (peek t.2 (beyond t.1)))
    unfold PendingSound
    dsimp only
    rw [hsame]
    constructor
    · intro h _
      have hfits := h hlong
      rw [getWsFrameLength_eq, Nat.mod_eq_of_lt (by omega), toInt_eq hfits]
      exact Or.inr ⟨rfl, by omega⟩
    · intro h _
      rcases h (List.ne_nil_of_length_pos hpos) with ⟨-, hten⟩ | ⟨heq, -⟩
      · omega
      · omega
  · refine iff_of_true (fun h => absurd h hlong) fun _ => Or.inl ⟨rfl, ?_⟩
    dsimp only
    omega
  · refine iff_of_true (fun h => ?_) fun hne => absurd hkept hne
    omega

end Rest

/-- Either the frame is completed and nothing is pending, or the whole chunk becomes pending. -/
theorem fillPending_kept (length : ℤ) (pending chunk : Bytes) :
    (requiredLength length pending ≤ chunk.length ∧ (fillPending length pending chunk).2.2 = {}) ∨
      (chunk.length < requiredLength length pending ∧
        fillPending length pending chunk = ([], [], ⟨length, pending ++ chunk⟩)) := by
  rcases Nat.lt_trichotomy (requiredLength length pending) chunk.length with hless | heq | hmore
  · exact Or.inl ⟨hless.le, by rw [fillPending_of_lt hless]⟩
  · exact Or.inl ⟨heq.le, by rw [fillPending_of_eq heq]⟩
  · exact Or.inr ⟨hmore, fillPending_of_gt hmore⟩

section Known

variable {chunk : Bytes} {length : ℤ}

theorem length_inRange (hrange : SizeInRange data) (hlength : pendingLength data chunk = .known length) :
    -2 ^ 31 ≤ length ∧ length < 2 ^ 31 := by
  rcases pendingLength_eq_known.mp hlength with ⟨-, -, -, heq⟩ | ⟨-, heq⟩
  · rw [heq]
    exact toInt_bounds _
  · rw [heq]
    exact hrange.bounds

theorem noUnderflow_iff (hne : data.buffer ≠ []) (hlength : pendingLength data read.chunk = .known length) :
    NoUnderflow data read ↔ (data.buffer.length : ℤ) ≤ length := by
  refine ⟨fun h => (h hne).2 length hlength, fun hle _ => ⟨fun hunknown _ => ?_, fun length' hlength' => ?_⟩⟩
  · rcases pendingLength_eq_known.mp hlength with ⟨-, -, hten, -⟩ | ⟨hknown, -⟩
    · exact hten
    · exact absurd hunknown hknown
  · obtain rfl : length = length' := by simpa [hlength] using hlength'
    exact hle

/-- What `SizedSoundly` says when the size is computed, and when it is on record. -/
theorem sizedSoundly_iff (hne : data.buffer ≠ []) (hsound : PendingSound data)
    (hlength : pendingLength data chunk = .known length) :
    SizedSoundly data chunk ↔ (data.buffer.length : ℤ) ≤ length ∧
      (data.length = -1 → ((data.buffer.length + chunk.length : ℕ) : ℤ) < length →
        length = declaredSize (peek (data.buffer ++ chunk) fun _ => 0)) := by
  rcases pendingLength_eq_known.mp hlength with ⟨hunknown, hten, -, heq⟩ | ⟨hknown, heq⟩
  · rw [heq]
    constructor
    · intro h
      obtain ⟨hle, hdeclared⟩ := h hne hunknown hten
      exact ⟨hle, fun _ => hdeclared⟩
    · rintro ⟨hle, hdeclared⟩ _ _ _
      exact ⟨hle, hdeclared hunknown⟩
  · rcases hsound hne with ⟨hunknown, -⟩ | ⟨-, hless⟩
    · exact absurd hunknown hknown
    · rw [heq]
      exact iff_of_true (fun _ hunknown => absurd hunknown hknown) ⟨hless.le, fun hunknown => absurd hunknown hknown⟩

/-- The call that makes the whole chunk pending. -/
theorem sound_too_little (hne : data.buffer ≠ []) (hrange : SizeInRange data) (hsound : PendingSound data)
    (hlength : pendingLength data chunk = .known length)
    (hmore : chunk.length < requiredLength length data.buffer) :
    SizeInRange ⟨length, data.buffer ++ chunk⟩ ∧
      (SizedSoundly data chunk ↔ (data.buffer.length : ℤ) ≤ length ∧
        PendingSound ⟨length, data.buffer ++ chunk⟩) := by
  have hbounds := length_inRange hrange hlength
  have hcases := pendingLength_eq_known.mp hlength
  have hnil : data.buffer ++ chunk ≠ [] := by simp [hne]
  refine ⟨⟨hbounds, fun _ hknown => ?_⟩, ?_⟩
  · rw [List.length_append]
    rcases hcases with ⟨-, hten, -, -⟩ | ⟨hdata, -⟩
    · exact hten
    · exact (hrange.header hne hdata).trans (Nat.le_add_right _ _)
  · rw [sizedSoundly_iff hne hsound hlength]
    refine and_congr_right fun hle => ?_
    have hreq := requiredLength_of_le hle hbounds.2
    have hunfinished : ((data.buffer.length + chunk.length : ℕ) : ℤ) < length := by omega
    constructor
    · intro h _
      refine Or.inr ⟨?_, by rwa [List.length_append]⟩
      rcases hcases with ⟨hunknown, -, -, -⟩ | ⟨hknown, heq⟩
      · exact h hunknown hunfinished
      · -- the header of a pending frame of known size is among the pending bytes
        have hten := hrange.header hne hknown
        have hdeclared := ((hsound hne).resolve_left fun hunknown => hknown hunknown.1).1
        have hsame : declaredSize (peek (data.buffer ++ chunk) fun _ => 0) =
            declaredSize (peek data.buffer fun _ => 0) := by
          refine declaredSize_congr fun i hi _ => ?_
          have hin : i < data.buffer.length := by omega
          simp only [peek, List.getD_eq_getElem?_getD, List.getElem?_append_left hin]
        rw [hsame]
        exact heq.trans hdeclared
    · intro h _ _
      rcases h hnil with ⟨hminus, -⟩ | ⟨hdeclared, -⟩
      · dsimp only at hminus
        omega
      · exact hdeclared

end Known

/-- One call keeps the pending data sound and does not underflow, exactly if the sizes it computes are right. -/
theorem sound_step (hrange : SizeInRange data) (hsound : PendingSound data)
    (h : getWsFrames fuel data read = some (data', code, out)) :
    SizeInRange data' ∧
      (SizedSoundly data read.chunk ∧ RestFitsInt data read ↔ NoUnderflow data read ∧ PendingSound data') := by
  rcases getWsFrames_cases h with ⟨hsmall, hstart, -, rfl, -⟩ |
    ⟨-, frames, buffer, kept, rest, last, hstart, hsplit, rfl⟩
  · -- too small a read leaves the pending data as they are
    have hshort : data'.length = -1 ∧ data'.buffer.length + read.chunk.length < 10 := by
      unfold pendingLength at hsmall
      split_ifs at hsmall with hunknown hless
      exact ⟨hunknown, hless⟩
    refine ⟨hrange, iff_of_true ⟨fun _ _ hten => ?_, fun _ _ _ hsome => ?_⟩ ⟨fun _ => ⟨fun _ hten => ?_, ?_⟩, hsound⟩⟩
    · omega
    · cases hstart.symm.trans hsome
    · omega
    · intro length hlength
      cases hsmall.symm.trans hlength
  · rw [splitFrames_eq_run] at hsplit
    obtain ⟨t, hrun, heq⟩ := Option.map_eq_some_iff.mp hsplit
    obtain ⟨-, rfl, rfl⟩ : _ ∧ t.2 = rest ∧ t.1 = last := by simpa only [Prod.mk.injEq] using heq
    have hrest : RestFitsInt data read ↔ ∀ s, FrameStart read.beyond buffer s → splitRound read.beyond s = none →
        10 < s.2.length → declaredSize (peek s.2 (read.beyond s.1)) < 2 ^ 31 := by
      refine ⟨fun hfits => hfits frames buffer kept hstart, fun hfits frames' buffer' kept' hstart' => ?_⟩
      obtain ⟨rfl, rfl, rfl⟩ : frames = frames' ∧ buffer = buffer' ∧ kept = kept' := by
        simpa using hstart.symm.trans hstart'
      exact hfits
    rw [hrest]
    unfold splitStart at hstart
    split at hstart
    · rename_i hpending
      have hne := List.ne_nil_of_length_pos hpending
      cases hlength : pendingLength data read.chunk with
      | smallRead => simp [hlength] at hstart
      | invalidRange => simp [hlength] at hstart
      | known length =>
          simp only [hlength, Option.some.injEq] at hstart
          rw [noUnderflow_iff hne hlength]
          rcases fillPending_kept length data.buffer read.chunk with ⟨hreq, hkept⟩ | ⟨hmore, hall⟩
          · -- the pending frame is completed, and the rest of the chunk is split
            obtain rfl : kept = {} := by rw [← hkept, hstart]
            have hempty : ({} : ReceivingDataInfo).buffer = [] := rfl
            refine ⟨keepRest_inRange sizeInRange_empty _ _, ?_⟩
            rw [keepRest_sound_iff hempty hrun, sizedSoundly_iff hne hsound hlength]
            refine and_congr_left fun _ => and_iff_left_of_imp fun hle _ hless => ?_
            have hexact := requiredLength_of_le hle (length_inRange hrange hlength).2
            omega
          · -- nothing is left for the splitting loop
            obtain ⟨rfl, rfl, rfl⟩ : [] = frames ∧ [] = buffer ∧ ⟨length, data.buffer ++ read.chunk⟩ = kept := by
              simpa using hall.symm.trans hstart
            obtain rfl : (0, []) = t := (frameStart_last hrun).mp ⟨.refl, rfl⟩
            obtain ⟨hrange', hiff⟩ := sound_too_little hne hrange hsound hlength hmore
            refine ⟨hrange', ?_⟩
            rw [hiff]
            refine and_iff_left_of_imp fun _ s hs hends hlong => ?_
            obtain rfl := (frameStart_last hrun).mp ⟨hs, hends⟩
            simp at hlong
    · rename_i hempty
      have hnil : data.buffer = [] := by simpa using hempty
      obtain ⟨rfl, rfl, rfl⟩ : [] = frames ∧ read.chunk = buffer ∧ data = kept := by simpa using hstart
      refine ⟨keepRest_inRange hrange _ _, ?_⟩
      rw [keepRest_sound_iff hnil hrun]
      refine and_congr_left fun _ => iff_of_true ?_ ?_
      · exact fun hne => absurd hnil hne
      · exact fun hne => absurd hnil hne

/-- **Sound pending data.** In every run of calls that return, the pending data are sound between the calls and no
call underflows, exactly if every size that a call reads off the misplaced bytes is one that the frame declares
or is reached by the chunk, and every unfinished frame that it leaves declares less than `2 ^ 31` bytes. -/
theorem pending_sound_iff (fuel : ℕ) (reads : List WsRead) (data : ReceivingDataInfo)
    (results : List (ℤ × List Bytes)) (hrun : Runs.exec (getWsFrames fuel) {} reads = some (data, results)) :
    Runs.Throughout (getWsFrames fuel) PendingSound {} reads ∧ Runs.Along (getWsFrames fuel) NoUnderflow {} reads ↔
      Runs.Along (getWsFrames fuel) (fun data read => SizedSoundly data read.chunk ∧ RestFitsInt data read) {}
        reads :=
  Runs.throughout_and_along_iff (I := SizeInRange) (fun _ _ _ _ hrange hsound hcall => sound_step hrange hsound hcall)
    sizeInRange_empty (fun hne => absurd rfl hne) hrun

/-- A text frame of which two bytes are missing. -/
def unfinishedText : Bytes := [0x81, 0x87, 1, 2, 3, 4, 5, 6, 7, 8, 9]

theorem pending_sound_unfinished :
    ∃ results, Runs.exec (getWsFrames 12) {} [⟨unfinishedText, fun _ _ => 0⟩] = some (⟨13, unfinishedText⟩, results) ∧
      Runs.Along (getWsFrames 12) (fun data read => SizedSoundly data read.chunk ∧ RestFitsInt data read) {}
        [⟨unfinishedText, fun _ _ => 0⟩] := by
  have hrun : Runs.exec (getWsFrames 12) {} [⟨unfinishedText, fun _ _ => 0⟩] =
      some (⟨13, unfinishedText⟩, [(1, [])]) := by decide
  have hlast : PendingSound ⟨13, unfinishedText⟩ := by decide
  refine ⟨_, hrun, (pending_sound_iff 12 _ _ _ hrun).mp ⟨⟨fun hne => absurd rfl hne, ?_⟩, ?_⟩⟩
  · exact ⟨⟨13, unfinishedText⟩, (1, []), by decide, hlast⟩
  · exact ⟨fun hne => absurd rfl hne, fun _ _ _ => trivial⟩

/-- Eleven bytes of a frame of `2 ^ 32 - 1` bytes are pending: the size on record is `-1`, and the next call, of
whatever is read, forms a range that ends before it begins. -/
theorem pending_unsound :
    Runs.exec (getWsFrames 16) {} [⟨[0x81, 0xff, 0, 0, 0, 0, 0xff, 0xff, 0xff, 0xf1, 1], fun _ _ => 0⟩] =
        some (⟨-1, [0x81, 0xff, 0, 0, 0, 0, 0xff, 0xff, 0xff, 0xf1, 1]⟩, [(1, [])]) ∧
      ¬PendingSound ⟨-1, [0x81, 0xff, 0, 0, 0, 0, 0xff, 0xff, 0xff, 0xf1, 1]⟩ ∧
      ∀ fuel read, getWsFrames fuel ⟨-1, [0x81, 0xff, 0, 0, 0, 0, 0xff, 0xff, 0xff, 0xf1, 1]⟩ read = none := by
  refine ⟨by decide, by decide, fun fuel read => ?_⟩
  have henough : ¬11 + read.chunk.length < 10 := by omega
  simp [getWsFrames, pendingLength, henough]

end LiburingServer
