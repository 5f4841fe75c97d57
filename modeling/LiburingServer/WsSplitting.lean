import LiburingServer.WsFrames
import LiburingServer.Lib.Loops

/-! `get_ws_frames` on arbitrary bytes. The splitting loop cuts the buffer at the sizes that the headers declare,
computed modulo 2 ^ 64: whatever they are no byte is lost, and the loop goes on for ever only at a header of
whose size nothing is left. -/

namespace LiburingServer

open StateTransition

/-! ### Declared sizes -/

/-- The size of the frame that a header declares, as an unbounded number: two bytes, the extended length, the
masking key and the payload. -/
def declaredSize (buffer : ℕ → UInt8) : ℕ :=
  let payloadLength := (buffer 1).toNat % 128
  if payloadLength = 126 then 2 + 2 + 4 + bigEndian buffer 2 2
  else if payloadLength = 127 then 2 + 8 + 4 + bigEndian buffer 2 8
  else 2 + 4 + payloadLength

/-- The header is of the 64-bit form and declares `2 ^ 64 - 14` payload bytes. -/
def DeclaresNothing (buffer : ℕ → UInt8) : Prop :=
  (buffer 1).toNat % 128 = 127 ∧ bigEndian buffer 2 8 = 2 ^ 64 - 14

theorem bigEndian_lt (buffer : ℕ → UInt8) (start count : ℕ) : bigEndian buffer start count < 256 ^ count := by
  induction count with
  | zero => simp [bigEndian]
  | succ count ih =>
      have hbyte := (buffer (start + count)).toNat_lt
      rw [bigEndian, pow_succ]
      omega

theorem getWsFrameLength_eq (buffer : ℕ → UInt8) : getWsFrameLength buffer = declaredSize buffer % 2 ^ 64 := by
  have hshort := bigEndian_lt buffer 2 2
  have hlong := bigEndian_lt buffer 2 8
  unfold getWsFrameLength declaredSize
  dsimp only
  split_ifs <;> omega

theorem six_le_declaredSize (buffer : ℕ → UInt8) : 6 ≤ declaredSize buffer := by
  unfold declaredSize
  dsimp only
  split_ifs <;> omega

/-- Only sizes of the 64-bit form can exceed an `ulong`, and by less than fourteen. -/
theorem declaredSize_lt (buffer : ℕ → UInt8) : declaredSize buffer < 2 ^ 64 + 14 := by
  have hshort := bigEndian_lt buffer 2 2
  have hlong := bigEndian_lt buffer 2 8
  unfold declaredSize
  dsimp only
  split_ifs <;> omega

theorem getWsFrameLength_eq_zero_iff (buffer : ℕ → UInt8) :
    getWsFrameLength buffer = 0 ↔ DeclaresNothing buffer := by
  have hshort := bigEndian_lt buffer 2 2
  have hlong := bigEndian_lt buffer 2 8
  rw [getWsFrameLength_eq]
  unfold declaredSize DeclaresNothing
  dsimp only
  split_ifs <;> omega

/-! ### The splitting loop -/

/-- What the loop takes for the size of its next frame, in round `s.1` with the buffer `s.2`. -/
def splitLength (beyond : ℕ → ℕ → UInt8) (s : ℕ × Bytes) : ℕ := getWsFrameLength (peek s.2 (beyond s.1))

/-- One round of the loop. -/
def splitRound (beyond : ℕ → ℕ → UInt8) (s : ℕ × Bytes) : Option (ℕ × Bytes) :=
  if 5 < s.2.length ∧ splitLength beyond s ≤ s.2.length then some (s.1 + 1, s.2.drop (splitLength beyond s))
  else none

/-- The frame that a round returns. -/
def splitFrame (beyond : ℕ → ℕ → UInt8) (s : ℕ × Bytes) : Bytes := s.2.take (splitLength beyond s)

variable {beyond : ℕ → ℕ → UInt8} {fuel round last : ℕ} {frames out : List Bytes} {buffer rest : Bytes}
  {s t : ℕ × Bytes}

theorem splitRound_eq_some : splitRound beyond s = some t ↔
    (5 < s.2.length ∧ splitLength beyond s ≤ s.2.length) ∧ t = (s.1 + 1, s.2.drop (splitLength beyond s)) := by
  unfold splitRound
  split_ifs with h
  · simp [h, eq_comm]
  · simp [h]

theorem splitFrames_of_none (h : splitRound beyond (round, buffer) = none) :
    splitFrames beyond (fuel + 1) round frames buffer = some (frames, buffer, round) := by
  have hends : ¬(5 < buffer.length ∧ getWsFrameLength (peek buffer (beyond round)) ≤ buffer.length) := by
    intro hround
    have hgoes : splitRound beyond (round, buffer) =
        some (round + 1, buffer.drop (splitLength beyond (round, buffer))) := if_pos hround
    cases h.symm.trans hgoes
  rw [splitFrames]
  dsimp only
  split_ifs with hlong hfits
  · exact absurd ⟨hlong, hfits⟩ hends
  · rfl
  · rfl

theorem splitFrames_of_some (h : splitRound beyond (round, buffer) = some t) :
    splitFrames beyond (fuel + 1) round frames buffer =
      splitFrames beyond fuel t.1 (frames ++ [splitFrame beyond (round, buffer)]) t.2 := by
  obtain ⟨⟨hlong, hfits⟩, rfl⟩ := splitRound_eq_some.mp h
  rw [splitFrames, if_pos hlong]
  exact if_pos hfits

/-- The splitting loop is a loop in the sense of `Loops`, and returns a frame in each of its rounds. -/
theorem splitFrames_eq_run (beyond : ℕ → ℕ → UInt8) (fuel round : ℕ) (frames : List Bytes) (buffer : Bytes) :
    splitFrames beyond fuel round frames buffer =
      (Loops.run (splitRound beyond) fuel (round, buffer)).map fun s =>
        (frames ++ (Loops.trace (splitRound beyond) fuel (round, buffer)).map (splitFrame beyond), s.2, s.1) := by
  induction fuel generalizing round frames buffer with
  | zero => rfl
  | succ fuel ih =>
      cases hround : splitRound beyond (round, buffer) with
      | none =>
          rw [splitFrames_of_none hround, Loops.run_succ_of_none hround, Loops.trace_succ_of_none hround]
          simp
      | some t =>
          rw [splitFrames_of_some hround, Loops.run_succ_of_some hround, Loops.trace_succ_of_some hround, ih]
          simp

/-- Whatever the headers declare, the loop cuts the buffer into the frames it returns and the rest. -/
theorem splitFrames_conserves (h : splitFrames beyond fuel round frames buffer = some (out, rest, last)) :
    frames.flatten ++ buffer = out.flatten ++ rest := by
  induction fuel generalizing round frames buffer with
  | zero => cases h
  | succ fuel ih =>
      cases hround : splitRound beyond (round, buffer) with
      | none =>
          rw [splitFrames_of_none hround] at h
          obtain ⟨rfl, rfl, -⟩ : frames = out ∧ buffer = rest ∧ round = last := by simpa using h
          rfl
      | some t =>
          rw [splitFrames_of_some hround] at h
          obtain ⟨-, rfl⟩ := splitRound_eq_some.mp hround
          have hrest := ih h
          rwa [List.flatten_append, List.flatten_singleton, List.append_assoc, splitFrame,
            List.take_append_drop] at hrest

/-! ### The parts of a call -/

theorem toInt_eq {n : ℕ} (h : n < 2 ^ 31) : toInt n = n := by
  unfold toInt
  rw [Int.bmod_def]
  omega

theorem toInt_bounds (n : ℕ) : -2 ^ 31 ≤ toInt n ∧ toInt n < 2 ^ 31 := by
  unfold toInt
  rw [Int.bmod_def]
  omega

section Fill

variable {length : ℤ} {pending chunk : Bytes}

theorem fillPending_of_lt (h : requiredLength length pending < chunk.length) :
    fillPending length pending chunk = ([pending ++ chunk.take (requiredLength length pending)],
      chunk.drop (requiredLength length pending), {}) := by
  simp only [fillPending, if_pos h]

theorem fillPending_of_eq (h : requiredLength length pending = chunk.length) :
    fillPending length pending chunk = ([pending ++ chunk], [], {}) := by
  simp only [fillPending, h, lt_self_iff_false, if_false, if_true]

theorem fillPending_of_gt (h : chunk.length < requiredLength length pending) :
    fillPending length pending chunk = ([], [], ⟨length, pending ++ chunk⟩) := by
  simp only [fillPending, if_neg (Nat.lt_asymm h), if_neg (Nat.ne_of_gt h)]

end Fill

/-- What a call has when it enters the splitting loop: the frame completed before it, the rest of the chunk and
the pending data. A read that is too small and a range that ends before it begins do not get there. -/
def splitStart (data : ReceivingDataInfo) (chunk : Bytes) : Option (List Bytes × Bytes × ReceivingDataInfo) :=
  if 0 < data.buffer.length then
    match pendingLength data chunk with
    | .smallRead => none
    | .invalidRange => none
    | .known length => some (fillPending length data.buffer chunk)
  else some ([], chunk, data)

variable {data data' : ReceivingDataInfo} {read : WsRead} {code : ℤ}

theorem getWsFrames_of_start (fuel : ℕ) {start : List Bytes × Bytes × ReceivingDataInfo}
    (h : splitStart data read.chunk = some start) :
    getWsFrames fuel data read = splitRest fuel read start.1 start.2.1 start.2.2 := by
  unfold splitStart at h
  unfold getWsFrames
  split at h
  · rename_i hpending
    rw [if_pos hpending]
    cases hlength : pendingLength data read.chunk with
    | known length =>
        simp only [hlength, Option.some.injEq] at h
        subst h
        rfl
    | smallRead => simp [hlength] at h
    | invalidRange => simp [hlength] at h
  · rename_i hpending
    rw [if_neg hpending]
    obtain rfl := Option.some.inj h
    rfl

/-- A call that returns has closed the connection after too small a read, or has run the splitting loop. -/
theorem getWsFrames_cases (h : getWsFrames fuel data read = some (data', code, out)) :
    (pendingLength data read.chunk = .smallRead ∧ splitStart data read.chunk = none ∧ code = -1 ∧
      data' = data ∧ out = []) ∨
      code = 1 ∧ ∃ frames buffer kept rest last, splitStart data read.chunk = some (frames, buffer, kept) ∧
        splitFrames read.beyond fuel 0 frames buffer = some (out, rest, last) ∧
        data' = keepRest kept (read.beyond last) rest := by
  cases hstart : splitStart data read.chunk with
  | some start =>
      rw [getWsFrames_of_start _ hstart] at h
      obtain ⟨⟨out', rest, last⟩, hsplit, heq⟩ := Option.map_eq_some_iff.mp h
      obtain ⟨rfl, rfl, rfl⟩ : _ ∧ _ ∧ _ := by simpa only [Prod.mk.injEq] using heq
      exact Or.inr ⟨rfl, start.1, start.2.1, start.2.2, rest, last, rfl, hsplit, rfl⟩
  | none =>
      unfold splitStart at hstart
      unfold getWsFrames at h
      split at hstart
      · rename_i hpending
        rw [if_pos hpending] at h
        cases hlength : pendingLength data read.chunk with
        | known length => simp [hlength] at hstart
        | smallRead =>
            simp only [hlength, Option.some.injEq, Prod.mk.injEq] at h
            obtain ⟨rfl, rfl, rfl⟩ := h
            exact Or.inl ⟨rfl, rfl, rfl, rfl, rfl⟩
        | invalidRange => simp [hlength] at h
      · cases hstart

/-! ### Enough rounds -/

/-- A splitting loop that ends does so with any bound above the number of the frames that it returns. -/
theorem splitFrames_fuel (fuel' : ℕ)
    (h : splitFrames beyond fuel round frames buffer = some (out, rest, last)) :
    ∃ more, out = frames ++ more ∧ more.length < fuel ∧
      (more.length < fuel' → splitFrames beyond fuel' round frames buffer = some (out, rest, last)) := by
  rw [splitFrames_eq_run] at h
  obtain ⟨s, hrun, heq⟩ := Option.map_eq_some_iff.mp h
  simp only [Prod.mk.injEq] at heq
  obtain ⟨rfl, rfl, rfl⟩ := heq
  have hless := Loops.length_trace_lt hrun
  refine ⟨_, rfl, by rwa [List.length_map], fun hfuel => ?_⟩
  rw [List.length_map] at hfuel
  obtain ⟨hrun', htrace⟩ := Loops.run_of_length_trace_lt hrun hfuel
  rw [splitFrames_eq_run, hrun', htrace]
  rfl

/-- What a call gives the splitting loop is no longer than the chunk. -/
theorem splitStart_length_le {chunk buffer : Bytes} {kept : ReceivingDataInfo}
    (h : splitStart data chunk = some (frames, buffer, kept)) : buffer.length ≤ chunk.length := by
  unfold splitStart at h
  split at h
  · split at h
    · cases h
    · cases h
    · have heq := Option.some.inj h
      unfold fillPending at heq
      dsimp only at heq
      split_ifs at heq
      · obtain ⟨-, rfl, -⟩ := by simpa only [Prod.mk.injEq] using heq
        rw [List.length_drop]
        omega
      · obtain ⟨-, rfl, -⟩ := by simpa only [Prod.mk.injEq] using heq
        exact Nat.zero_le _
      · obtain ⟨-, rfl, -⟩ := by simpa only [Prod.mk.injEq] using heq
        exact Nat.zero_le _
  · obtain ⟨-, rfl, -⟩ := by simpa only [Option.some.injEq, Prod.mk.injEq] using h
    exact Nat.le_refl _

theorem length_le_length_flatten {l : List Bytes} (h : ∀ f ∈ l, f ≠ []) : l.length ≤ l.flatten.length := by
  induction l with
  | nil => exact Nat.le_refl 0
  | cons f l ih =>
      have hf := List.length_pos_of_ne_nil (h f (List.mem_cons_self ..))
      have hl := ih fun g hg => h g (List.mem_cons_of_mem _ hg)
      rw [List.flatten_cons, List.length_append, List.length_cons]
      omega

/-- A call that returns does so with more rounds as well. -/
theorem getWsFrames_of_le {fuel' : ℕ} (h : getWsFrames fuel data read = some (data', code, out))
    (hle : fuel ≤ fuel') : getWsFrames fuel' data read = some (data', code, out) := by
  rcases getWsFrames_cases h with
    ⟨hsmall, hstart, rfl, rfl, rfl⟩ | ⟨rfl, frames, buffer, kept, rest, last, hstart, hsplit, rfl⟩
  · unfold splitStart at hstart
    unfold getWsFrames
    split at hstart
    · rename_i hpending
      rw [if_pos hpending, hsmall]
    · cases hstart
  · obtain ⟨more, -, hless, hagain⟩ := splitFrames_fuel fuel' hsplit
    rw [getWsFrames_of_start _ hstart, splitRest, hagain (hless.trans_le hle)]
    rfl

/-- A call that returns no empty frames returns after at most one round for each byte of the chunk. -/
theorem getWsFrames_of_chunk_lt {fuel' : ℕ} (h : getWsFrames fuel data read = some (data', 1, out))
    (hne : ∀ f ∈ out, f ≠ []) (hfuel : read.chunk.length < fuel') :
    getWsFrames fuel' data read = some (data', 1, out) := by
  rcases getWsFrames_cases h with ⟨-, -, hcode, -⟩ | ⟨-, frames, buffer, kept, rest, last, hstart, hsplit, rfl⟩
  · cases hcode
  · obtain ⟨more, rfl, -, hagain⟩ := splitFrames_fuel fuel' hsplit
    have hcut := splitFrames_conserves hsplit
    rw [List.flatten_append, List.append_assoc, List.append_cancel_left_eq] at hcut
    have hrounds := length_le_length_flatten fun f hf => hne f (List.mem_append_right _ hf)
    have hbuffer := splitStart_length_le hstart
    rw [hcut, List.length_append] at hbuffer
    rw [getWsFrames_of_start _ hstart, splitRest, hagain (by omega)]
    rfl

/-! ### Every byte is kept -/

theorem fillPending_conserves (length : ℤ) (pending chunk : Bytes) :
    pending ++ chunk = (fillPending length pending chunk).1.flatten ++
        ((fillPending length pending chunk).2.1 ++ (fillPending length pending chunk).2.2.buffer) ∧
      ((fillPending length pending chunk).2.1 = [] ∨ (fillPending length pending chunk).2.2.buffer = []) := by
  unfold fillPending
  dsimp only
  split_ifs
  · simp
  · simp
  · simp

theorem splitStart_conserves {chunk buffer : Bytes} {kept : ReceivingDataInfo}
    (h : splitStart data chunk = some (frames, buffer, kept)) :
    data.buffer ++ chunk = frames.flatten ++ (buffer ++ kept.buffer) ∧ (buffer = [] ∨ kept.buffer = []) := by
  unfold splitStart at h
  split at h
  · split at h
    · cases h
    · cases h
    · rename_i length _
      have hfill := fillPending_conserves length data.buffer chunk
      obtain heq := Option.some.inj h
      rwa [heq] at hfill
  · rename_i hempty
    obtain ⟨rfl, rfl, rfl⟩ : [] = frames ∧ chunk = buffer ∧ data = kept := by simpa using h
    have hnil : data.buffer = [] := by simpa using hempty
    simp [hnil]

/-- One call cuts the pending data and the chunk into the frames it returns and the new pending data. -/
theorem getWsFrames_conserves (h : getWsFrames fuel data read = some (data', 1, out)) :
    data.buffer ++ read.chunk = out.flatten ++ data'.buffer := by
  rcases getWsFrames_cases h with ⟨-, -, hcode, -, -⟩ | ⟨-, frames, buffer, kept, rest, last, hstart, hsplit, rfl⟩
  · cases hcode
  · obtain ⟨hparts, hone⟩ := splitStart_conserves hstart
    have hcut := splitFrames_conserves hsplit
    have hkept : (keepRest kept (read.beyond last) rest).buffer = rest ++ kept.buffer := by
      unfold keepRest
      split
      · rename_i hpos
        -- bytes are left only if the pending data were used up
        have hused : kept.buffer = [] := by
          refine hone.resolve_left fun hnil => ?_
          subst hnil
          obtain ⟨fuel, rfl⟩ : ∃ n, fuel = n + 1 := ⟨fuel - 1, by cases fuel <;> simp_all [splitFrames]⟩
          obtain ⟨-, rfl, -⟩ : frames = out ∧ [] = rest ∧ 0 = last := by simpa [splitFrames] using hsplit
          simp at hpos
        simp [hused]
      · rename_i hpos
        obtain rfl : rest = [] := by simpa using hpos
        rfl
    rw [hkept, hparts, ← List.append_assoc, hcut, List.append_assoc]

theorem exec_conserves {reads : List WsRead} {results : List (ℤ × List Bytes)}
    (hrun : Runs.exec (getWsFrames fuel) data reads = some (data', results)) (hcodes : ∀ r ∈ results, r.1 = 1) :
    data.buffer ++ (reads.map WsRead.chunk).flatten = (results.flatMap Prod.snd).flatten ++ data'.buffer := by
  induction reads generalizing data results with
  | nil =>
      obtain ⟨rfl, rfl⟩ : data = data' ∧ [] = results := by simpa [Runs.exec] using hrun
      simp
  | cons read reads ih =>
      cases hcall : getWsFrames fuel data read with
      | none => simp [Runs.exec, hcall] at hrun
      | some r =>
          obtain ⟨next, code, out⟩ := r
          simp only [Runs.exec, hcall, Option.map_eq_some_iff, Prod.mk.injEq] at hrun
          obtain ⟨⟨u, later⟩, hrest, rfl, rfl⟩ := hrun
          obtain rfl : code = 1 := hcodes (code, out) (by simp)
          have hfirst := getWsFrames_conserves hcall
          have hlater := ih hrest fun r hr => hcodes r (List.mem_cons_of_mem _ hr)
          calc data.buffer ++ ((read :: reads).map WsRead.chunk).flatten
              = (data.buffer ++ read.chunk) ++ (reads.map WsRead.chunk).flatten := by simp
            _ = out.flatten ++ (next.buffer ++ (reads.map WsRead.chunk).flatten) := by
                rw [hfirst, List.append_assoc]
            _ = out.flatten ++ ((later.flatMap Prod.snd).flatten ++ u.buffer) := by rw [hlater]
            _ = (((1, out) :: later).flatMap Prod.snd).flatten ++ u.buffer := by simp

/-- **Bytes of a websocket.** Whatever bytes a client sends and however they are cut into reads, as long as every
call returns `1` the frames returned and what is pending are the bytes that were read, in their order. -/
theorem ws_bytes_conserved (fuel : ℕ) (reads : List WsRead) (data : ReceivingDataInfo)
    (results : List (ℤ × List Bytes)) (hrun : Runs.exec (getWsFrames fuel) {} reads = some (data, results))
    (hcodes : ∀ r ∈ results, r.1 = 1) :
    (results.flatMap Prod.snd).flatten ++ data.buffer = (reads.map WsRead.chunk).flatten := by
  simpa using (exec_conserves hrun hcodes).symm

/-- Two reads of a header that declares `2 ^ 64 - 7` payload bytes and of the bytes behind it: the first seven of
them are returned as a frame. -/
def wrappingReads : List WsRead :=
  [⟨[0x81, 0xff, 0xff, 0xff, 0xff, 0xff, 0xff, 0xff, 0xff, 0xf9, 1, 2], fun _ _ => 0⟩,
    ⟨[3, 4, 5, 6, 7, 8], fun _ _ => 0⟩]

theorem ws_bytes_conserved_wrapping :
    ∃ data results, Runs.exec (getWsFrames 16) {} wrappingReads = some (data, results) ∧
      (results.flatMap Prod.snd).flatten ++ data.buffer = (wrappingReads.map WsRead.chunk).flatten := by
  have hsome : (Runs.exec (getWsFrames 16) {} wrappingReads).any
      (fun r => r.2.all fun result => result.1 = 1) = true := by decide
  simp only [Option.any_eq_true, List.all_eq_true, decide_eq_true_eq] at hsome
  obtain ⟨⟨data, results⟩, hrun, hcodes⟩ := hsome
  exact ⟨data, results, hrun, ws_bytes_conserved 16 wrappingReads data results hrun hcodes⟩

/-! ### When the loop ends -/

/-- The loop, entered with `buffer`, comes with `s.2` left to the beginning of its round `s.1`. -/
def FrameStart (beyond : ℕ → ℕ → UInt8) (buffer : Bytes) (s : ℕ × Bytes) : Prop :=
  Reaches (splitRound beyond) (0, buffer) s

/-- Every round that returns a frame leaves less of the buffer. -/
def RoundsShrink (beyond : ℕ → ℕ → UInt8) (buffer : Bytes) : Prop :=
  ∀ s t, FrameStart beyond buffer s → splitRound beyond s = some t → t.2.length < s.2.length

theorem roundsShrink_iff : RoundsShrink beyond buffer ↔
    ∀ s, FrameStart beyond buffer s → 5 < s.2.length → ¬DeclaresNothing (peek s.2 (beyond s.1)) := by
  constructor
  · intro h s hs hlong hnothing
    have hzero : splitLength beyond s = 0 := (getWsFrameLength_eq_zero_iff _).mpr hnothing
    have hgoes : splitRound beyond s = some (s.1 + 1, s.2.drop (splitLength beyond s)) :=
      if_pos ⟨hlong, by omega⟩
    have hless := h s _ hs hgoes
    simp [hzero] at hless
  · intro h s t hs ht
    obtain ⟨⟨hlong, -⟩, rfl⟩ := splitRound_eq_some.mp ht
    have hpos : splitLength beyond s ≠ 0 := fun hzero =>
      h s hs hlong ((getWsFrameLength_eq_zero_iff _).mp hzero)
    rw [List.length_drop]
    omega

/-- Each round leaves less, so the call returns. -/
theorem exists_getWsFrames_of_shrink {kept : ReceivingDataInfo}
    (hstart : splitStart data read.chunk = some (frames, buffer, kept)) (h : RoundsShrink read.beyond buffer) :
    ∃ r, getWsFrames (buffer.length + 1) data read = some r := by
  obtain ⟨t, ht⟩ := Loops.exists_run_of_decreasing (fun s : ℕ × Bytes => s.2.length) h (Nat.lt_succ_self _)
  rw [getWsFrames_of_start _ hstart]
  exact ⟨_, by rw [splitRest, splitFrames_eq_run, ht]; rfl⟩

/-- What a pointer reads inside the buffer does not depend on what stands behind it. -/
theorem peek_congr (beyond beyond' : ℕ → UInt8) {i : ℕ} (hi : i < buffer.length) :
    peek buffer beyond i = peek buffer beyond' i := by
  simp [peek, List.getD_eq_getElem?_getD, List.getElem?_eq_getElem hi]

theorem bigEndian_congr {b b' : ℕ → UInt8} {start count : ℕ} (h : ∀ i < count, b (start + i) = b' (start + i)) :
    bigEndian b start count = bigEndian b' start count := by
  induction count with
  | zero => rfl
  | succ count ih =>
      rw [bigEndian, bigEndian, ih fun i hi => h i (by omega), h count (Nat.lt_succ_self _)]

/-- At a header that declares nothing, with all its ten bytes in the buffer, the loop returns empty frames for
ever. -/
theorem getWsFrames_hangs {kept : ReceivingDataInfo}
    (hstart : splitStart data read.chunk = some (frames, buffer, kept)) (hs : FrameStart read.beyond buffer s)
    (hlong : 10 ≤ s.2.length) (hnothing : DeclaresNothing (peek s.2 (read.beyond s.1))) :
    getWsFrames fuel data read = none := by
  have hforever : ∀ n, Loops.run (splitRound read.beyond) n s = none := by
    intro n
    refine Loops.run_eq_none_of_invariant (I := fun u => u.2 = s.2) (fun u hu => ?_) rfl
    have hsame : DeclaresNothing (peek u.2 (read.beyond u.1)) := by
      obtain ⟨hform, hlength⟩ := hnothing
      rw [hu]
      refine ⟨?_, ?_⟩
      · rwa [peek_congr (read.beyond u.1) (read.beyond s.1) (by omega)]
      · rwa [bigEndian_congr fun i hi => peek_congr (read.beyond u.1) (read.beyond s.1) (by omega)]
    have hzero : splitLength read.beyond u = 0 := (getWsFrameLength_eq_zero_iff _).mpr hsame
    have hleft : 5 < u.2.length ∧ splitLength read.beyond u ≤ u.2.length := by
      rw [hu]
      omega
    refine ⟨_, if_pos hleft, ?_⟩
    rw [hzero]
    exact hu
  rw [getWsFrames_of_start _ hstart, splitRest, splitFrames_eq_run]
  cases hrun : Loops.run (splitRound read.beyond) fuel (0, buffer) with
  | none => rfl
  | some t =>
      have hend : t ∈ eval (splitRound read.beyond) s := reaches_eval hs ▸ Loops.mem_eval_of_run hrun
      obtain ⟨n, hn⟩ := Loops.exists_run_of_mem_eval hend
      rw [hforever n] at hn
      cases hn

/-- **Termination of the splitting loop.** Whatever data are pending and whatever the chunk is: the call returns
and each round that returns a frame leaves less to split, exactly if no header at the start of a frame, with more
than five bytes left, declares `2 ^ 64 - 14` payload bytes. -/
theorem splitting_ends_iff (data : ReceivingDataInfo) (read : WsRead) (frames : List Bytes) (buffer : Bytes)
    (kept : ReceivingDataInfo) (hstart : splitStart data read.chunk = some (frames, buffer, kept)) :
    ((∃ fuel r, getWsFrames fuel data read = some r) ∧ RoundsShrink read.beyond buffer) ↔
      ∀ s, FrameStart read.beyond buffer s → 5 < s.2.length →
        ¬DeclaresNothing (peek s.2 (read.beyond s.1)) := by
  rw [← roundsShrink_iff]
  exact ⟨And.right, fun hshrink => ⟨⟨_, exists_getWsFrames_of_shrink hstart hshrink⟩, hshrink⟩⟩

/-- A header of the 64-bit form. -/
def longHeader (last : UInt8) : Bytes := [0x81, 0xff, 0xff, 0xff, 0xff, 0xff, 0xff, 0xff, 0xff, last]

/-- The header declares one byte more than what makes its size zero. -/
theorem splitting_ends_longer :
    (∃ fuel r, getWsFrames fuel {} ⟨longHeader 0xf3, fun _ _ => 0⟩ = some r) ∧
      RoundsShrink (fun _ _ => 0) (longHeader 0xf3) := by
  refine (splitting_ends_iff {} ⟨longHeader 0xf3, fun _ _ => 0⟩ [] (longHeader 0xf3) {} rfl).mpr ?_
  intro s hs
  -- each round takes one byte, and only the first one finds the length form of ten bytes
  have hstates : s ∈ [(0, longHeader 0xf3), (1, (longHeader 0xf3).drop 1)] := by
    refine Loops.reaches_invariant (fun s t hs ht => ?_) (List.mem_cons_self ..) hs
    simp only [List.mem_cons, List.not_mem_nil, or_false] at hs
    rcases hs with rfl | rfl
    · have hfirst : splitRound (fun _ _ => 0) (0, longHeader 0xf3) = some (1, (longHeader 0xf3).drop 1) := by
        decide
      obtain rfl := Option.some.inj (hfirst.symm.trans ht)
      simp
    · have hlast : splitRound (fun _ _ => 0) (1, (longHeader 0xf3).drop 1) = none := by decide
      cases hlast.symm.trans ht
  simp only [List.mem_cons, List.not_mem_nil, or_false] at hstates
  unfold DeclaresNothing
  rcases hstates with rfl | rfl <;> decide

/-- The size of the frame is zero: an empty frame is returned, nothing is taken from the buffer, and so on. -/
theorem splitting_hangs :
    splitRound (fun _ _ => 0) (0, longHeader 0xf2) = some (1, longHeader 0xf2) ∧
      ∀ fuel, getWsFrames fuel {} ⟨longHeader 0xf2, fun _ _ => 0⟩ = none := by
  refine ⟨by decide, fun fuel => ?_⟩
  have hstart : splitStart {} (longHeader 0xf2) = some ([], longHeader 0xf2, {}) := rfl
  have hnothing : DeclaresNothing (peek (longHeader 0xf2) fun _ => 0) := ⟨by decide, by decide⟩
  exact getWsFrames_hangs hstart .refl (by decide) hnothing

end LiburingServer
