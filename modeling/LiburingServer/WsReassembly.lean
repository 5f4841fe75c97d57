import LiburingServer.WsSplitting
import LiburingServer.Lib.Framing
import Mathlib.Tactic.IntervalCases

/-! When the reassembly of websocket frames is right. The splitting loop and the known-length mode are
right for every cut of the stream; the unknown-length mode puts the new bytes before the pending ones
and computes the length of the frame from that. -/

namespace LiburingServer

/-! ### Headers -/

/-- What the reassembly relies on in a frame: its length can be read off its first ten bytes, and no
beginning of it that holds six bytes looks complete, whatever stands behind it. -/
structure IsFrame (f : Bytes) : Prop where
  six_le : 6 ≤ f.length
  lt : f.length < 2 ^ 31
  length_eq : ∀ b : ℕ → UInt8, (∀ i < f.length, i < 10 → b i = f.getD i 0) → getWsFrameLength b = f.length
  length_gt : ∀ (b : ℕ → UInt8) m, 6 ≤ m → m < f.length → (∀ i < m, b i = f.getD i 0) →
    m < getWsFrameLength b

theorem bigEndian_two (b : ℕ → UInt8) : bigEndian b 2 2 = (b 2).toNat * 256 + (b 3).toNat := by
  simp [bigEndian]

theorem bigEndian_eight (b : ℕ → UInt8) : bigEndian b 2 8 =
    (((((((b 2).toNat * 256 + (b 3).toNat) * 256 + (b 4).toNat) * 256 + (b 5).toNat) * 256 +
      (b 6).toNat) * 256 + (b 7).toNat) * 256 + (b 8).toNat) * 256 + (b 9).toNat := by
  simp [bigEndian]

theorem length_bigEndianBytes (n count : ℕ) : (bigEndianBytes n count).length = count := by
  induction count with
  | zero => rfl
  | succ count ih => rw [bigEndianBytes, List.length_cons, ih]

/-- Bytes one to nine of a frame, as its length form fills them. -/
theorem ClientFrame.encode_length (f : ClientFrame) : f.encode.length =
    (match f.form with | .bits7 => 6 | .bits16 => 8 | .bits64 => 14) + f.payload.length := by
  cases hform : f.form <;>
    simp [ClientFrame.encode, LengthForm.header, hform, length_bigEndianBytes] <;> omega

theorem ClientFrame.isFrame_bits7 (f : ClientFrame) (hform : f.form = .bits7)
    (hlen : f.encode.length < 2 ^ 31) : IsFrame f.encode := by
  have hsize : f.encode.length = 6 + f.payload.length := by rw [f.encode_length, hform]
  have hfits : f.payload.length < 126 := by simpa [hform, LengthForm.limit] using f.fits
  have hbyte : (f.encode.getD 1 0).toNat % 128 = f.payload.length := by
    simp [ClientFrame.encode, LengthForm.header, hform]
    omega
  have hread : ∀ b : ℕ → UInt8, b 1 = f.encode.getD 1 0 → getWsFrameLength b = f.encode.length := by
    intro b hb
    have h126 : f.payload.length ≠ 126 := by omega
    have h127 : f.payload.length ≠ 127 := by omega
    simp only [getWsFrameLength, hb, hbyte, if_neg h126, if_neg h127]
    omega
  refine ⟨by omega, hlen, fun b hb => hread b (hb 1 (by omega) (by omega)), fun b m hm hlt hb => ?_⟩
  rw [hread b (hb 1 (by omega))]
  exact hlt

theorem ClientFrame.isFrame_bits16 (f : ClientFrame) (hform : f.form = .bits16)
    (hlen : f.encode.length < 2 ^ 31) : IsFrame f.encode := by
  have hsize : f.encode.length = 8 + f.payload.length := by rw [f.encode_length, hform]
  have hfits : f.payload.length < 2 ^ 16 := by simpa [hform, LengthForm.limit] using f.fits
  have hbyte : (f.encode.getD 1 0).toNat % 128 = 126 := by
    simp [ClientFrame.encode, LengthForm.header, hform]
  have hext : (f.encode.getD 2 0).toNat * 256 + (f.encode.getD 3 0).toNat = f.payload.length := by
    simp [ClientFrame.encode, LengthForm.header, hform, bigEndianBytes]
    omega
  have hread : ∀ b : ℕ → UInt8, (∀ i < 6, b i = f.encode.getD i 0) →
      getWsFrameLength b = f.encode.length := by
    intro b hb
    simp only [getWsFrameLength, hb 1 (by omega), hbyte, if_true, bigEndian_two, hb 2 (by omega),
      hb 3 (by omega), hext]
    omega
  refine ⟨by omega, hlen, fun b hb => hread b fun i hi => hb i (by omega) (by omega),
    fun b m hm hlt hb => ?_⟩
  rw [hread b fun i hi => hb i (by omega)]
  exact hlt

theorem ClientFrame.isFrame_bits64 (f : ClientFrame) (hform : f.form = .bits64)
    (hlen : f.encode.length < 2 ^ 31) : IsFrame f.encode := by
  have hsize : f.encode.length = 14 + f.payload.length := by rw [f.encode_length, hform]
  have hbyte : (f.encode.getD 1 0).toNat % 128 = 127 := by
    simp [ClientFrame.encode, LengthForm.header, hform]
  -- a frame below 2 ^ 31 bytes has zeros in the upper half of its length
  have hhigh : ∀ i, 2 ≤ i → i < 6 → (f.encode.getD i 0).toNat = 0 := by
    intro i hi hlt
    interval_cases i <;> simp [ClientFrame.encode, LengthForm.header, hform, bigEndianBytes] <;> omega
  have hlow : (((f.encode.getD 6 0).toNat * 256 + (f.encode.getD 7 0).toNat) * 256 +
      (f.encode.getD 8 0).toNat) * 256 + (f.encode.getD 9 0).toNat = f.payload.length := by
    simp [ClientFrame.encode, LengthForm.header, hform, bigEndianBytes]
    omega
  have hread : ∀ b : ℕ → UInt8, (∀ i < 6, b i = f.encode.getD i 0) → getWsFrameLength b =
      ((((b 6).toNat * 256 + (b 7).toNat) * 256 + (b 8).toNat) * 256 + (b 9).toNat) + 14 := by
    intro b hb
    have h6 := (b 6).toNat_lt
    have h7 := (b 7).toNat_lt
    have h8 := (b 8).toNat_lt
    have h9 := (b 9).toNat_lt
    simp only [getWsFrameLength, hb 1 (by omega), hbyte, bigEndian_eight, hb 2 (by omega),
      hb 3 (by omega), hb 4 (by omega), hb 5 (by omega), hhigh 2 (by omega) (by omega),
      hhigh 3 (by omega) (by omega), hhigh 4 (by omega) (by omega), hhigh 5 (by omega) (by omega)]
    simp
    omega
  have hwhole : ∀ b : ℕ → UInt8, (∀ i < 10, b i = f.encode.getD i 0) →
      getWsFrameLength b = f.encode.length := by
    intro b hb
    rw [hread b fun i hi => hb i (by omega), hb 6 (by omega), hb 7 (by omega), hb 8 (by omega),
      hb 9 (by omega), hlow]
    omega
  refine ⟨by omega, hlen, fun b hb => hwhole b fun i hi => hb i (by omega) hi, fun b m hm hlt hb => ?_⟩
  by_cases hm10 : m < 10
  · rw [hread b fun i hi => hb i (by omega)]
    omega
  · rw [hwhole b fun i hi => hb i (by omega)]
    exact hlt

theorem ClientFrame.isFrame (f : ClientFrame) (hlen : f.encode.length < 2 ^ 31) :
    IsFrame f.encode := by
  cases hform : f.form with
  | bits7 => exact f.isFrame_bits7 hform hlen
  | bits16 => exact f.isFrame_bits16 hform hlen
  | bits64 => exact f.isFrame_bits64 hform hlen

/-! ### The splitting loop -/

/-- A beginning of a frame agrees with it, whatever stands behind it. -/
theorem peek_beginning {p f : Bytes} (h : p <+: f) (beyond : ℕ → UInt8) {i : ℕ} (hi : i < p.length) :
    peek p beyond i = f.getD i 0 := by
  obtain ⟨q, rfl⟩ := h
  simp [peek, List.getD_eq_getElem?_getD, List.getElem?_append_left hi, List.getElem?_eq_getElem hi]

/-- The length of a frame can be read off a buffer that begins with ten bytes of it, or with all of it. -/
theorem IsFrame.length_of_beginning {f b : Bytes} (hf : IsFrame f) (beyond : ℕ → UInt8)
    (h : b <+: f ∧ 10 ≤ b.length ∨ f <+: b) : getWsFrameLength (peek b beyond) = f.length := by
  apply hf.length_eq
  intro i hi hi10
  rcases h with ⟨h, hlen⟩ | ⟨q, rfl⟩
  · exact peek_beginning h beyond (by omega)
  · simp [peek, List.getD_eq_getElem?_getD, List.getElem?_append_left hi, List.getElem?_eq_getElem hi]

theorem IsFrame.ne_nil {f : Bytes} (hf : IsFrame f) : f ≠ [] := by
  have := hf.six_le
  rintro rfl
  simp at this

/-- What is left of a buffer after its whole frames: nothing, or the beginning of a frame. -/
def Carry (carry : Bytes) (frames : List Bytes) : Prop :=
  carry ≠ [] → ∃ f later, frames = f :: later ∧ carry <+: f ∧ carry.length < f.length

/-- The loop splits off exactly the whole frames. -/
theorem splitFrames_eq (beyond : ℕ → ℕ → UInt8) {emitted rest : List Bytes} {carry : Bytes}
    (hframes : ∀ f ∈ emitted ++ rest, IsFrame f) (hcarry : Carry carry rest) (fuel round : ℕ)
    (frames : List Bytes) (hfuel : (emitted.flatten ++ carry).length < fuel) :
    splitFrames beyond fuel round frames (emitted.flatten ++ carry) =
      some (frames ++ emitted, carry, round + emitted.length) := by
  induction emitted generalizing fuel round frames with
  | nil =>
      obtain ⟨fuel, rfl⟩ : ∃ n, fuel = n + 1 := ⟨fuel - 1, by simp at hfuel; omega⟩
      simp only [List.flatten_nil, List.nil_append, splitFrames, List.append_nil, List.length_nil,
        Nat.add_zero]
      split
      · rename_i hlong
        obtain ⟨f, later, rfl, hpre, hlt⟩ := hcarry (by rintro rfl; simp at hlong)
        have hf : IsFrame f := hframes f (by simp)
        have hgt := hf.length_gt (peek carry (beyond round)) carry.length (by omega) hlt
          fun i hi => peek_beginning hpre _ hi
        rw [if_neg (by omega)]
      · rfl
  | cons f emitted ih =>
      obtain ⟨fuel, rfl⟩ : ∃ n, fuel = n + 1 := ⟨fuel - 1, by simp at hfuel; omega⟩
      have hf : IsFrame f := hframes f (by simp)
      have hsix := hf.six_le
      have hlength := hf.length_of_beginning (b := (f :: emitted).flatten ++ carry) (beyond round)
        (Or.inr (by simp))
      simp only [List.flatten_cons, List.append_assoc, List.length_append] at hlength hfuel ⊢
      rw [splitFrames, if_pos (by simp only [List.length_append]; omega)]
      simp only [hlength]
      rw [if_pos (by simp only [List.length_append]; omega), List.take_left, List.drop_left,
        ih (fun g hg => hframes g (by simp at hg ⊢; tauto)) _ _ _
          (by simp only [List.length_append]; omega)]
      simp only [List.append_assoc, List.cons_append, List.nil_append, List.length_cons]
      congr 3
      omega

/-! ### Calls in step with the stream -/

/-- The pending data are the beginning `carry` of the next frame. Its length is known, or unknown with
at most ten bytes of it; a whole frame of ten bytes may be pending if a read follows. -/
def Synced (data : ReceivingDataInfo) (frames : List Bytes) (carry : Bytes) (reads : List WsRead) :
    Prop :=
  data.buffer = carry ∧ (carry ≠ [] → ∃ f later, frames = f :: later ∧ carry <+: f ∧
    (data.length = f.length ∧ 10 ≤ carry.length ∧ carry.length < f.length ∨
      data.length = -1 ∧ carry.length ≤ 10 ∧
        (carry.length < f.length ∨ carry.length = 10 ∧ reads ≠ [])))

/-- The call returns the frames that the chunk completes and stays in step. -/
def InStep (fuel : ℕ) (data : ReceivingDataInfo) (frames : List Bytes) (carry : Bytes) (read : WsRead)
    (reads : List WsRead) : Prop :=
  ∃ data' emitted rest carry', getWsFrames fuel data read = some (data', 1, emitted) ∧
    frames = emitted ++ rest ∧ carry ++ read.chunk = emitted.flatten ++ carry' ∧
    carry' ++ (reads.map WsRead.chunk).flatten = rest.flatten ∧ Synced data' rest carry' reads

variable {fuel : ℕ} {read : WsRead} {reads : List WsRead}

/-- The splitting loop returns the whole frames and keeps the beginning of the next one. -/
theorem splitRest_of_cut {emitted rest : List Bytes} {carry : Bytes} (data : ReceivingDataInfo)
    (hframes : ∀ f ∈ emitted ++ rest, IsFrame f) (hcarry : Carry carry rest)
    (hfuel : (emitted.flatten ++ carry).length < fuel) (frames : List Bytes) :
    splitRest fuel read frames (emitted.flatten ++ carry) data =
      some (keepRest data (read.beyond emitted.length) carry, 1, frames ++ emitted) := by
  rw [splitRest, splitFrames_eq _ hframes hcarry _ _ _ hfuel]
  simp

/-- Of an empty chunk nothing is left. -/
theorem splitRest_of_empty (hfuel : 0 < fuel) (data : ReceivingDataInfo) (frames : List Bytes) :
    splitRest fuel read frames [] data = some (data, 1, frames) := by
  have hframes : ∀ f ∈ ([] ++ [] : List Bytes), IsFrame f := by simp
  simpa [keepRest] using splitRest_of_cut data hframes (fun h => absurd rfl h) hfuel frames

/-- The beginning of a frame is kept, with the size of the frame if more than ten bytes of it are there. -/
theorem keepRest_of_beginning {f carry : Bytes} (hf : IsFrame f) (hpre : carry <+: f) (hne : carry ≠ [])
    (data : ReceivingDataInfo) (beyond : ℕ → UInt8) :
    keepRest data beyond carry = ⟨if 10 < carry.length then f.length else -1, carry⟩ := by
  unfold keepRest
  rw [if_pos (List.length_pos_of_ne_nil hne)]
  split_ifs with hlong
  · rw [hf.length_of_beginning beyond (Or.inl ⟨hpre, hlong.le⟩), toInt_eq hf.lt]
  · rfl

variable (fuel read reads) in
theorem splitRest_eq {emitted rest : List Bytes} {carry : Bytes} (data : ReceivingDataInfo)
    (hframes : ∀ f ∈ emitted ++ rest, IsFrame f) (hcarry : Carry carry rest)
    (hfuel : (emitted.flatten ++ carry).length < fuel) (hdata : data.buffer = [])
    (frames : List Bytes) :
    ∃ data', splitRest fuel read frames (emitted.flatten ++ carry) data =
      some (data', 1, frames ++ emitted) ∧ Synced data' rest carry reads := by
  refine ⟨_, splitRest_of_cut data hframes hcarry hfuel frames, ?_⟩
  by_cases hne : carry = []
  · subst hne
    simpa [keepRest, Synced] using hdata
  · obtain ⟨f, later, rfl, hpre, hlt⟩ := hcarry hne
    rw [keepRest_of_beginning (hframes f (by simp)) hpre hne]
    refine ⟨rfl, fun _ => ⟨f, later, rfl, hpre, ?_⟩⟩
    by_cases hlong : 10 < carry.length
    · exact Or.inl ⟨if_pos hlong, by omega, hlt⟩
    · exact Or.inr ⟨if_neg hlong, by omega, Or.inl hlt⟩

theorem inStep_of_empty {data : ReceivingDataInfo} {frames : List Bytes}
    (hframes : ∀ f ∈ frames, IsFrame f) (hdata : data.buffer = [])
    (hstream : read.chunk ++ (reads.map WsRead.chunk).flatten = frames.flatten)
    (hfuel : read.chunk.length < fuel) : InStep fuel data frames [] read reads := by
  obtain ⟨emitted, rest, carry, rfl, hchunk, hrest, hcarry⟩ := Framing.exists_cut hstream
  obtain ⟨data', hsplit, hsync⟩ := splitRest_eq fuel read reads data hframes hcarry
    (by rwa [← hchunk]) hdata []
  refine ⟨data', emitted, rest, carry, ?_, rfl, by simpa using hchunk, hrest, hsync⟩
  simpa [getWsFrames, hdata, hchunk] using hsplit

/-- A frame whose size is known takes what it needs: the whole chunk becomes pending, or the frame is completed
and the rest of the chunk is split. -/
theorem getWsFrames_of_size {pending f : Bytes} {later : List Bytes} (hf : IsFrame f) (hpre : pending <+: f)
    (hne : pending ≠ []) (hstream : pending ++ read.chunk <+: (f :: later).flatten) :
    (pending.length + read.chunk.length < f.length ∧ pending ++ read.chunk <+: f ∧
        getWsFrames fuel ⟨f.length, pending⟩ read =
          splitRest fuel read [] [] ⟨f.length, pending ++ read.chunk⟩) ∨
      ∃ rest, pending ++ read.chunk = f ++ rest ∧ rest.length ≤ read.chunk.length ∧
        getWsFrames fuel ⟨f.length, pending⟩ read = splitRest fuel read [f] rest {} := by
  have hle := hpre.length_le
  have hlt31 := hf.lt
  have hsix := hf.six_le
  have hreq : requiredLength f.length pending = f.length - pending.length := by
    simp only [requiredLength]
    omega
  have hstart : splitStart ⟨f.length, pending⟩ read.chunk = some (fillPending f.length pending read.chunk) := by
    have hneg : (f.length : ℤ) ≠ -1 := by omega
    simp only [splitStart, if_pos (List.length_pos_of_ne_nil hne), pendingLength, if_neg hneg]
  have hcall := getWsFrames_of_start fuel hstart
  have hwhole : f <+: (f :: later).flatten := List.prefix_append f later.flatten
  by_cases hmore : pending.length + read.chunk.length < f.length
  · refine Or.inl ⟨hmore, List.prefix_of_prefix_length_le hstream hwhole ?_, ?_⟩
    · rw [List.length_append]
      omega
    · rw [hcall, fillPending_of_gt (by omega)]
  · obtain ⟨rest, hrest⟩ := List.prefix_of_prefix_length_le hwhole hstream (by
      rw [List.length_append]
      omega)
    obtain ⟨missing, rfl⟩ := hpre
    rw [List.append_assoc, List.append_cancel_left_eq] at hrest
    have hmissing : requiredLength (pending ++ missing).length pending = missing.length := by
      rw [hreq, List.length_append]
      omega
    refine Or.inr ⟨rest, by rw [List.append_assoc, hrest], by rw [← hrest]; simp, ?_⟩
    rw [hcall]
    rcases Nat.eq_zero_or_pos rest.length with hnil | hpos
    · obtain rfl := List.eq_nil_of_length_eq_zero hnil
      rw [List.append_nil] at hrest
      rw [fillPending_of_eq (by rw [hmissing, hrest]), hrest]
    · have htake : read.chunk.take missing.length = missing := by rw [← hrest, List.take_left]
      have hdrop : read.chunk.drop missing.length = rest := by rw [← hrest, List.drop_left]
      rw [fillPending_of_lt (by rw [hmissing, ← hrest, List.length_append]; omega), hmissing, htake, hdrop]

/-- A frame whose length is known takes what it needs. -/
theorem inStep_of_known {pending f : Bytes} {later : List Bytes}
    (hframes : ∀ g ∈ f :: later, IsFrame g) (hpre : pending <+: f) (hne : pending ≠ [])
    (hstream : pending ++ read.chunk ++ (reads.map WsRead.chunk).flatten = (f :: later).flatten)
    (hten : 10 ≤ pending.length + read.chunk.length) (hfuel : read.chunk.length < fuel) :
    InStep fuel ⟨f.length, pending⟩ (f :: later) pending read reads := by
  rcases getWsFrames_of_size (hframes f (by simp)) hpre hne ⟨_, hstream⟩ with
    ⟨hmore, hpre', hcall⟩ | ⟨q, hq, hqlen, hcall⟩
  · -- too little data
    refine ⟨⟨f.length, pending ++ read.chunk⟩, [], f :: later, pending ++ read.chunk, ?_, rfl, by simp,
      hstream, rfl, fun _ => ⟨f, later, rfl, hpre', Or.inl ⟨rfl, ?_, ?_⟩⟩⟩
    · exact hcall.trans (splitRest_of_empty (Nat.zero_lt_of_lt hfuel) _ [])
    · rwa [List.length_append]
    · rwa [List.length_append]
  · have hrest : q ++ (reads.map WsRead.chunk).flatten = later.flatten := by
      rw [hq, List.append_assoc, List.flatten_cons, List.append_cancel_left_eq] at hstream
      exact hstream
    obtain ⟨emitted, rest, carry, rfl, hcut, hrest', hcarry⟩ := Framing.exists_cut hrest
    obtain ⟨data', hsplit, hsync⟩ := splitRest_eq fuel read reads {}
      (fun g hg => hframes g (List.mem_cons_of_mem _ hg)) hcarry (by rw [← hcut]; omega) rfl [f]
    refine ⟨data', f :: emitted, rest, carry, ?_, by simp, ?_, hrest', hsync⟩
    · rw [hcall, hcut]
      exact hsplit
    · rw [hq, hcut]
      simp

/-- Once the length of the pending frame has been computed, it is as if it had been known. -/
theorem getWsFrames_of_known {data : ReceivingDataInfo} {length : ℤ} (hbuffer : data.buffer ≠ [])
    (hne : length ≠ -1) (h : pendingLength data read.chunk = .known length) :
    getWsFrames fuel data read = getWsFrames fuel ⟨length, data.buffer⟩ read := by
  have h' : pendingLength ⟨length, data.buffer⟩ read.chunk = .known length := by
    simp [pendingLength, hne]
  simp only [getWsFrames, if_pos (List.length_pos_of_ne_nil hbuffer), h, h']

/-! ### Runs out of step -/

/-- The frames of a run are delivered: every call returns, the frames returned are `frames`, and no
data are pending at the end. -/
def Delivered (fuel : ℕ) (data : ReceivingDataInfo) (reads : List WsRead) (frames : List Bytes) : Prop :=
  ∃ data' results, Runs.exec (getWsFrames fuel) data reads = some (data', results) ∧
    results.flatMap Prod.snd = frames ∧ data'.buffer = []

theorem delivered_nil {data : ReceivingDataInfo} {frames : List Bytes} :
    Delivered fuel data [] frames ↔ frames = [] ∧ data.buffer = [] := by
  constructor
  · rintro ⟨data', results, hrun, hframes, hbuffer⟩
    obtain ⟨rfl, rfl⟩ : data = data' ∧ [] = results := by simpa [Runs.exec] using hrun
    exact ⟨by simpa using hframes.symm, hbuffer⟩
  · rintro ⟨rfl, hbuffer⟩
    exact ⟨data, [], rfl, rfl, hbuffer⟩

theorem delivered_cons {data data' : ReceivingDataInfo} {code : ℤ} {emitted frames : List Bytes}
    (hcall : getWsFrames fuel data read = some (data', code, emitted)) :
    Delivered fuel data (read :: reads) frames ↔
      ∃ rest, frames = emitted ++ rest ∧ Delivered fuel data' reads rest := by
  constructor
  · rintro ⟨t, results, hrun, hframes, hbuffer⟩
    simp only [Runs.exec, hcall, Option.map_eq_some_iff, Prod.mk.injEq] at hrun
    obtain ⟨⟨u, rs⟩, hrun, rfl, rfl⟩ := hrun
    exact ⟨_, by simpa using hframes.symm, u, rs, hrun, rfl, hbuffer⟩
  · rintro ⟨rest, rfl, t, results, hrun, hframes, hbuffer⟩
    exact ⟨t, (code, emitted) :: results, by simp [Runs.exec, hcall, hrun], by simp [hframes], hbuffer⟩

/-- Runs that begin with the same call are the same. -/
theorem delivered_congr {data data' : ReceivingDataInfo} {frames : List Bytes}
    (h : getWsFrames fuel data read = getWsFrames fuel data' read) :
    Delivered fuel data (read :: reads) frames ↔ Delivered fuel data' (read :: reads) frames := by
  unfold Delivered
  simp only [Runs.exec, h]

theorem splitFrames_extends {beyond : ℕ → ℕ → UInt8} {fuel round : ℕ} {frames : List Bytes}
    {buffer : Bytes} {out : List Bytes × Bytes × ℕ}
    (h : splitFrames beyond fuel round frames buffer = some out) : frames <+: out.1 := by
  induction fuel generalizing round frames buffer with
  | zero => simp [splitFrames] at h
  | succ fuel ih =>
      simp only [splitFrames] at h
      split at h
      · split at h
        · exact (List.prefix_append _ _).trans (ih h)
        · obtain rfl := Option.some.inj h
          exact List.prefix_rfl
      · obtain rfl := Option.some.inj h
        exact List.prefix_rfl

/-- The length on record is not that of the pending frame `f`, or more than `f` is already pending. -/
structure Derailed (data : ReceivingDataInfo) (f : Bytes) : Prop where
  pending : data.buffer ≠ []
  known : data.length ≠ -1
  bounds : -2 ^ 31 ≤ data.length ∧ data.length < 2 ^ 31
  wrong : data.length ≠ f.length ∨ f.length < data.buffer.length

/-- A call out of step returns nothing, or first of all a frame of another length. -/
theorem Derailed.call {data data' : ReceivingDataInfo} {code : ℤ} {emitted : List Bytes} {f : Bytes}
    (h : Derailed data f) (hf : f.length < 2 ^ 31)
    (hcall : getWsFrames fuel data read = some (data', code, emitted)) :
    (emitted = [] ∧ Derailed data' f) ∨ ∃ g more, emitted = g :: more ∧ g.length ≠ f.length := by
  obtain ⟨hpending, hknown, hbounds, hwrong⟩ := h
  have hpos := List.length_pos_of_ne_nil hpending
  simp only [getWsFrames, if_pos hpos, pendingLength, if_neg hknown, splitRest,
    Option.map_eq_some_iff, Prod.mk.injEq] at hcall
  obtain ⟨⟨out, rest, round⟩, hsplit, hdata, -, rfl⟩ := hcall
  have hreq : ((data.buffer.length + requiredLength data.length data.buffer : ℕ) : ℤ) % 2 ^ 64 =
      data.length % 2 ^ 64 := by
    simp only [requiredLength]
    omega
  -- a frame of the required length is not as long as `f`
  have hlength : data.buffer.length + requiredLength data.length data.buffer ≠ f.length := by
    intro heq
    rw [heq] at hreq
    rcases hwrong with hwrong | hwrong
    · omega
    · omega
  rcases Nat.lt_trichotomy (requiredLength data.length data.buffer) read.chunk.length with
    hless | heq | hmore
  · rw [fillPending_of_lt hless] at hsplit
    obtain ⟨more, hmore⟩ := splitFrames_extends hsplit
    refine Or.inr ⟨_, more, hmore.symm, ?_⟩
    rw [List.length_append, List.length_take, Nat.min_eq_left (by omega)]
    exact hlength
  · rw [fillPending_of_eq heq] at hsplit
    obtain ⟨more, hmore⟩ := splitFrames_extends hsplit
    refine Or.inr ⟨_, more, hmore.symm, ?_⟩
    rw [List.length_append, ← heq]
    exact hlength
  · rw [fillPending_of_gt hmore] at hsplit hdata
    cases fuel with
    | zero => simp [splitFrames] at hsplit
    | succ fuel =>
        obtain ⟨rfl, rfl, rfl⟩ : [] = out ∧ [] = rest ∧ 0 = round := by
          simpa [splitFrames] using hsplit
        obtain rfl : (⟨data.length, data.buffer ++ read.chunk⟩ : ReceivingDataInfo) = data' := by
          simpa [keepRest] using hdata
        refine Or.inl ⟨rfl, by simp [hpending], hknown, hbounds, ?_⟩
        rcases hwrong with hwrong | hwrong
        · exact Or.inl hwrong
        · refine Or.inr ?_
          simp only [List.length_append]
          omega

/-- A run that gets out of step never gets back. -/
theorem Derailed.not_delivered {data : ReceivingDataInfo} {f : Bytes} {later : List Bytes}
    (h : Derailed data f) (hf : f.length < 2 ^ 31) : ¬Delivered fuel data reads (f :: later) := by
  induction reads generalizing data with
  | nil =>
      rw [delivered_nil]
      rintro ⟨heq, -⟩
      simp at heq
  | cons read reads ih =>
      cases hcall : getWsFrames fuel data read with
      | none =>
          rintro ⟨data', results, hrun, -⟩
          simp [Runs.exec, hcall] at hrun
      | some out =>
          obtain ⟨data', code, emitted⟩ := out
          rw [delivered_cons hcall]
          rintro ⟨rest, heq, hrest⟩
          rcases h.call hf hcall with ⟨rfl, hnext⟩ | ⟨g, more, rfl, hg⟩
          · obtain rfl : f :: later = rest := by simpa using heq
            exact ih hnext hrest
          · obtain ⟨rfl, -⟩ : f = g ∧ _ := by simpa using heq
            exact hg rfl

/-! ### Cuts in a header -/

/-- A read boundary after the bytes `pending` of the frame `f`, with `chunk` and then `rest` to come,
does no harm: the length computed from the misplaced bytes is right after all, or it is `-1` and the
next call, with ten bytes of the frame pending, computes it again. -/
def Recovers (f pending chunk : Bytes) (rest : List Bytes) : Prop :=
  headerLength pending chunk = f.length ∨
    headerLength pending chunk = -1 ∧ pending.length + chunk.length = 10 ∧ 10 ≤ f.length ∧ rest ≠ []

/-- Every read boundary that falls one to nine bytes into a frame does no harm. The stream begins with
the bytes `carry`, read before the first of the chunks. -/
def HarmlessCuts (carry : Bytes) (frames chunks : List Bytes) : Prop :=
  ∀ done f later before chunk rest pending, frames = done ++ f :: later →
    chunks = before ++ chunk :: rest → carry ++ before.flatten = done.flatten ++ pending →
    pending <+: f → 1 ≤ pending.length → pending.length ≤ 9 → pending.length < f.length →
    Recovers f pending chunk rest

theorem harmlessCuts_nil (carry : Bytes) (frames : List Bytes) : HarmlessCuts carry frames [] := by
  intro done f later before chunk rest pending _ hchunks
  simp at hchunks

/-- The boundary before the first chunk, and the boundaries after it. -/
theorem harmlessCuts_cons {carry carry' chunk : Bytes} {chunks emitted rest : List Bytes}
    (hcut : carry ++ chunk = emitted.flatten ++ carry') :
    HarmlessCuts carry (emitted ++ rest) (chunk :: chunks) ↔
      (∀ done f later pending, emitted ++ rest = done ++ f :: later → carry = done.flatten ++ pending →
        pending <+: f → 1 ≤ pending.length → pending.length ≤ 9 → pending.length < f.length →
        Recovers f pending chunk chunks) ∧ HarmlessCuts carry' rest chunks := by
  constructor
  · intro h
    refine ⟨fun done f later pending hframes hcarry => ?_, ?_⟩
    · exact h done f later [] chunk chunks pending hframes rfl (by simpa using hcarry)
    · intro done f later before chunk' rest' pending hframes hchunks hcarry
      refine h (emitted ++ done) f later (chunk :: before) chunk' rest' pending ?_ ?_ ?_
      · rw [hframes, List.append_assoc]
      · rw [hchunks, List.cons_append]
      · rw [List.flatten_cons, ← List.append_assoc, hcut, List.append_assoc, hcarry]
        simp
  · rintro ⟨hfirst, hrest⟩ done f later before chunk' rest' pending hframes hchunks hcarry hpre h1 h9 hlt
    cases before with
    | nil =>
        obtain ⟨rfl, rfl⟩ : chunk = chunk' ∧ chunks = rest' := by simpa using hchunks
        exact hfirst done f later pending hframes (by simpa using hcarry) hpre h1 h9 hlt
    | cons c before =>
        obtain ⟨rfl, rfl⟩ : chunk = c ∧ chunks = before ++ chunk' :: rest' := by simpa using hchunks
        rw [List.flatten_cons, ← List.append_assoc, hcut, List.append_assoc] at hcarry
        obtain ⟨done', rfl, rfl, hz⟩ := Framing.prefix_of_cut hframes.symm hcarry.symm hlt
        exact hrest done' f later before chunk' rest' pending rfl rfl hz.symm hpre h1 h9 hlt

/-- Before the first chunk only the pending frame is cut. -/
theorem cut_at_head {carry f : Bytes} {later done : List Bytes} {g : Bytes} {later' : List Bytes}
    {pending : Bytes} (hle : carry.length < f.length ∨ carry.length = 10 ∧ 10 ≤ f.length)
    (hframes : f :: later = done ++ g :: later') (hcarry : carry = done.flatten ++ pending)
    (h1 : 1 ≤ pending.length) : done = [] ∧ f = g ∧ carry = pending := by
  cases done with
  | nil =>
      obtain ⟨rfl, -⟩ : f = g ∧ _ := by simpa using hframes
      exact ⟨rfl, rfl, by simpa using hcarry⟩
  | cons d done =>
      obtain ⟨rfl, -⟩ : f = d ∧ _ := by simpa using hframes
      have := congrArg List.length hcarry
      simp only [List.flatten_cons, List.length_append] at this
      omega

/-- With ten bytes of a frame pending the computed length is right. -/
theorem headerLength_ten {f pending : Bytes} (hf : IsFrame f)
    (hpre : pending <+: f ∨ f <+: pending) (hten : pending.length = 10) (chunk : Bytes) :
    headerLength pending chunk = f.length := by
  have htemp : tempBuffer pending chunk = pending ++ List.replicate 10 0 := by
    simp [tempBuffer, hten]
  have hlength : getWsFrameLength (peek (tempBuffer pending chunk) fun _ => 0) = f.length := by
    apply hf.length_eq
    intro i hi hi10
    rw [htemp]
    have hip : i < pending.length := by omega
    have hpeek : peek (pending ++ List.replicate 10 0) (fun _ => 0) i = peek pending (fun _ => 0) i := by
      simp [peek, List.getD_eq_getElem?_getD, List.getElem?_append_left hip]
    rw [hpeek]
    rcases hpre with hpre | ⟨q, rfl⟩
    · exact peek_beginning hpre _ hip
    · simp [peek, List.getD_eq_getElem?_getD, List.getElem?_append_left hi]
  rw [headerLength, hlength, toInt_eq hf.lt]

theorem headerLength_bounds (pending chunk : Bytes) :
    -2 ^ 31 ≤ headerLength pending chunk ∧ headerLength pending chunk < 2 ^ 31 := by
  unfold headerLength
  exact toInt_bounds _

theorem pendingLength_of_unknown {data : ReceivingDataInfo} {chunk : Bytes} (hlength : data.length = -1)
    (hshort : data.buffer.length ≤ 10) (hten : 10 ≤ data.buffer.length + chunk.length) :
    pendingLength data chunk = .known (headerLength data.buffer chunk) := by
  simp only [pendingLength, hlength, if_true, if_neg (Nat.not_lt.mpr hten),
    if_neg (Nat.not_lt.mpr hshort)]

/-- A length of `-1` makes the call append the chunk and leave the length unknown. -/
theorem getWsFrames_of_minus_one {data : ReceivingDataInfo} (hbuffer : data.buffer ≠ [])
    (hshort : data.buffer.length ≤ 10) (hint : read.chunk.length < 2 ^ 31) (hfuel : 0 < fuel)
    (h : pendingLength data read.chunk = .known (-1)) :
    getWsFrames fuel data read = some (⟨-1, data.buffer ++ read.chunk⟩, 1, []) := by
  have hreq : read.chunk.length < requiredLength (-1) data.buffer := by
    simp only [requiredLength]
    omega
  obtain ⟨fuel, rfl⟩ : ∃ n, fuel = n + 1 := ⟨fuel - 1, by omega⟩
  simp only [getWsFrames, if_pos (List.length_pos_of_ne_nil hbuffer), h, fillPending_of_gt hreq,
    splitRest, splitFrames]
  simp [keepRest]

/-- No call of the run takes the small-read path. -/
def NoSmallRead (fuel : ℕ) (data : ReceivingDataInfo) (reads : List WsRead) : Prop :=
  Runs.Along (getWsFrames fuel) (fun data read => ∀ data' code frames,
    getWsFrames fuel data read = some (data', code, frames) → code ≠ -1) data reads

/-- The reads an `int` can count; `fuel` is enough for the splitting loop. -/
def Sized (fuel : ℕ) (reads : List WsRead) : Prop :=
  ∀ read ∈ reads, 0 < read.chunk.length ∧ read.chunk.length < 2 ^ 31 ∧ read.chunk.length < fuel

/-- A run whose calls all return another code. -/
theorem noSmallRead_of_exec {data data' : ReceivingDataInfo} {results : List (ℤ × List Bytes)}
    (hrun : Runs.exec (getWsFrames fuel) data reads = some (data', results))
    (hcodes : ∀ r ∈ results, r.1 ≠ -1) : NoSmallRead fuel data reads := by
  induction reads generalizing data results with
  | nil => trivial
  | cons read reads ih =>
      cases hcall : getWsFrames fuel data read with
      | none => simp [Runs.exec, hcall] at hrun
      | some out =>
          obtain ⟨next, code, frames⟩ := out
          simp only [Runs.exec, hcall, Option.map_eq_some_iff, Prod.mk.injEq] at hrun
          obtain ⟨⟨t, rs⟩, hrun, rfl, rfl⟩ := hrun
          refine ⟨fun d c f h => ?_, fun d o h => ?_⟩
          · obtain ⟨rfl, rfl, rfl⟩ : next = d ∧ code = c ∧ frames = f := by simpa [hcall] using h
            exact hcodes (code, frames) (by simp)
          · obtain ⟨rfl, -⟩ : next = d ∧ _ := by simpa [hcall] using h
            exact ih hrun fun r hr => hcodes r (by simp [hr])

theorem ten_le_of_noSmallRead {data : ReceivingDataInfo} (hbuffer : data.buffer ≠ [])
    (hlength : data.length = -1) (h : NoSmallRead fuel data (read :: reads)) :
    10 ≤ data.buffer.length + read.chunk.length := by
  by_contra hsmall
  have hcall : getWsFrames fuel data read = some (data, -1, []) := by
    simp only [getWsFrames, if_pos (List.length_pos_of_ne_nil hbuffer), pendingLength, hlength,
      if_true, if_pos (show data.buffer.length + read.chunk.length < 10 by omega)]
  exact h.1 _ _ _ hcall rfl

/-- A cut that does no harm leaves the call in step, and any other cut loses the frame. -/
theorem inStep_of_recovers {data : ReceivingDataInfo} {f : Bytes} {later : List Bytes}
    (hframes : ∀ g ∈ f :: later, IsFrame g) (hpre : data.buffer <+: f) (hbuffer : data.buffer ≠ [])
    (hlength : data.length = -1) (hshort : data.buffer.length ≤ 9)
    (hstream : data.buffer ++ read.chunk ++ (reads.map WsRead.chunk).flatten = (f :: later).flatten)
    (hsized : Sized fuel (read :: reads)) (hten : 10 ≤ data.buffer.length + read.chunk.length)
    (h : Recovers f data.buffer read.chunk (reads.map WsRead.chunk)) :
    InStep fuel data (f :: later) data.buffer read reads := by
  obtain ⟨hpos, hint, hfuel⟩ := hsized read (by simp)
  have hknown := pendingLength_of_unknown hlength (by omega) hten
  rcases h with hright | ⟨hminus, hsum, hlong, hrest⟩
  · obtain ⟨data', emitted, rest, carry', hcall, hstep⟩ := inStep_of_known hframes hpre hbuffer
      hstream hten hfuel
    rw [hright] at hknown
    refine ⟨data', emitted, rest, carry', ?_, hstep⟩
    rw [getWsFrames_of_known hbuffer (by omega) hknown, hcall]
  · rw [hminus] at hknown
    have hcall := getWsFrames_of_minus_one hbuffer (by omega) hint (by omega : 0 < fuel) hknown
    have hpre' : data.buffer ++ read.chunk <+: f := by
      refine List.prefix_of_prefix_length_le ⟨_, hstream⟩ (List.prefix_append f later.flatten) ?_
      rw [List.length_append]
      omega
    refine ⟨_, [], f :: later, data.buffer ++ read.chunk, hcall, rfl, by simp, hstream, rfl, fun _ => ?_⟩
    refine ⟨f, later, rfl, hpre', Or.inr ⟨rfl, ?_, Or.inr ⟨?_, ?_⟩⟩⟩
    · rw [List.length_append]
      omega
    · rw [List.length_append]
      omega
    · simpa using hrest

theorem not_delivered_of_not_recovers {data : ReceivingDataInfo} {f : Bytes} {later : List Bytes}
    (hf : IsFrame f) (hbuffer : data.buffer ≠ []) (hlength : data.length = -1)
    (hshort : data.buffer.length ≤ 9)
    (hstream : data.buffer ++ read.chunk ++ (reads.map WsRead.chunk).flatten = (f :: later).flatten)
    (hsized : Sized fuel (read :: reads)) (hten : 10 ≤ data.buffer.length + read.chunk.length)
    (h : ¬Recovers f data.buffer read.chunk (reads.map WsRead.chunk)) :
    ¬Delivered fuel data (read :: reads) (f :: later) := by
  obtain ⟨hpos, hint, hfuel⟩ := hsized read (by simp)
  have hknown := pendingLength_of_unknown hlength (by omega) hten
  obtain ⟨hwrong, hlost⟩ := not_or.mp h
  by_cases hminus : headerLength data.buffer read.chunk = -1
  · rw [hminus] at hknown
    have hcall := getWsFrames_of_minus_one hbuffer (by omega) hint (by omega : 0 < fuel) hknown
    rw [delivered_cons hcall]
    rintro ⟨rest, heq, hrest⟩
    obtain rfl : f :: later = rest := by simpa using heq
    cases reads with
    | nil => simp [delivered_nil] at hrest
    | cons next reads =>
        by_cases hsum : data.buffer.length + read.chunk.length = 10
        · -- the frame is shorter than the ten pending bytes, so its recomputed length comes too late
          have hten' : (data.buffer ++ read.chunk).length = 10 := by rw [List.length_append, hsum]
          have hf10 : f.length < 10 := by
            by_contra hlong
            exact hlost ⟨hminus, hsum, by omega, by simp⟩
          have hf' : f <+: data.buffer ++ read.chunk := by
            refine List.prefix_of_prefix_length_le (List.prefix_append f later.flatten) ⟨_, hstream⟩ ?_
            omega
          have hnext : pendingLength ⟨-1, data.buffer ++ read.chunk⟩ next.chunk = .known f.length := by
            rw [pendingLength_of_unknown rfl hten'.le (by simp only [hten']; omega)]
            simp only [headerLength_ten hf (Or.inr hf') hten']
          rw [delivered_congr (getWsFrames_of_known (by simp [hbuffer]) (by omega) hnext)] at hrest
          refine Derailed.not_delivered (f := f) ⟨by simp [hbuffer], ?_, ?_, Or.inr ?_⟩ hf.lt hrest
          · simp only
            omega
          · have := hf.lt
            simp only
            omega
          · rw [hten']
            exact hf10
        · obtain ⟨t, results, hrun, -⟩ := hrest
          have hfault : getWsFrames fuel ⟨-1, data.buffer ++ read.chunk⟩ next = none := by
            have hlong : 10 < (data.buffer ++ read.chunk).length := by
              rw [List.length_append]
              omega
            simp only [getWsFrames, if_pos (show 0 < (data.buffer ++ read.chunk).length by omega),
              pendingLength, if_true, if_pos hlong,
              if_neg (show ¬(data.buffer ++ read.chunk).length + next.chunk.length < 10 by omega)]
          simp [Runs.exec, hfault] at hrun
  · rw [delivered_congr (getWsFrames_of_known hbuffer hminus hknown)]
    have hbounds := headerLength_bounds data.buffer read.chunk
    generalize headerLength data.buffer read.chunk = length at *
    have hderailed : Derailed ⟨length, data.buffer⟩ f := ⟨hbuffer, hminus, hbounds, Or.inl hwrong⟩
    exact hderailed.not_delivered hf.lt

/-- A call in step carries the equivalence from the rest of the run to the run. -/
theorem delivered_iff_of_inStep {data : ReceivingDataInfo} {frames : List Bytes} {carry : Bytes}
    (hstep : InStep fuel data frames carry read reads)
    (hfirst : ∀ done f later pending, frames = done ++ f :: later → carry = done.flatten ++ pending →
      pending <+: f → 1 ≤ pending.length → pending.length ≤ 9 → pending.length < f.length →
      Recovers f pending read.chunk (reads.map WsRead.chunk))
    (hsmall : NoSmallRead fuel data (read :: reads))
    (ih : ∀ data' rest carry', (∃ emitted, frames = emitted ++ rest) → Synced data' rest carry' reads →
      carry' ++ (reads.map WsRead.chunk).flatten = rest.flatten → NoSmallRead fuel data' reads →
      (Delivered fuel data' reads rest ↔ HarmlessCuts carry' rest (reads.map WsRead.chunk))) :
    Delivered fuel data (read :: reads) frames ↔
      HarmlessCuts carry frames ((read :: reads).map WsRead.chunk) := by
  obtain ⟨data', emitted, rest, carry', hcall, rfl, hcut, hrest, hsync⟩ := hstep
  have hiff := ih data' rest carry' ⟨emitted, rfl⟩ hsync hrest (hsmall.2 _ _ hcall)
  rw [delivered_cons hcall, List.map_cons, harmlessCuts_cons hcut, ← hiff]
  constructor
  · rintro ⟨rest', heq, hdel⟩
    rw [List.append_cancel_left_eq] at heq
    subst heq
    exact ⟨hfirst, hdel⟩
  · rintro ⟨-, hdel⟩
    exact ⟨rest, rfl, hdel⟩

theorem delivered_iff_of_synced {data : ReceivingDataInfo} {frames : List Bytes} {carry : Bytes}
    (hframes : ∀ f ∈ frames, IsFrame f) (hsized : Sized fuel reads)
    (hsync : Synced data frames carry reads)
    (hstream : carry ++ (reads.map WsRead.chunk).flatten = frames.flatten)
    (hsmall : NoSmallRead fuel data reads) :
    Delivered fuel data reads frames ↔ HarmlessCuts carry frames (reads.map WsRead.chunk) := by
  induction reads generalizing data frames carry with
  | nil =>
      refine iff_of_true (delivered_nil.mpr ?_) (harmlessCuts_nil _ _)
      obtain ⟨hbuffer, hpending⟩ := hsync
      have hflat : carry = frames.flatten := by simpa using hstream
      by_cases hcarry : carry = []
      · refine ⟨?_, by rw [hbuffer, hcarry]⟩
        cases frames with
        | nil => rfl
        | cons f later =>
            have hf := (hframes f (by simp)).ne_nil
            rw [hcarry] at hflat
            simp [hf] at hflat
      · obtain ⟨f, later, rfl, -, hcases⟩ := hpending hcarry
        have hlen := congrArg List.length hflat
        simp only [List.flatten_cons, List.length_append] at hlen
        rcases hcases with ⟨-, -, hlt⟩ | ⟨-, -, hlt | ⟨-, hne⟩⟩
        · omega
        · omega
        · exact absurd rfl hne
  | cons read reads ih =>
      obtain ⟨hpos, hint, hfuel⟩ := hsized read (by simp)
      have hih : ∀ data' rest carry', (∃ emitted, frames = emitted ++ rest) →
          Synced data' rest carry' reads →
          carry' ++ (reads.map WsRead.chunk).flatten = rest.flatten → NoSmallRead fuel data' reads →
          (Delivered fuel data' reads rest ↔ HarmlessCuts carry' rest (reads.map WsRead.chunk)) := by
        rintro data' rest carry' ⟨emitted, rfl⟩ hsync' hstream' hsmall'
        exact ih (fun f hf => hframes f (by simp [hf])) (fun r hr => hsized r (by simp [hr])) hsync'
          hstream' hsmall'
      have hstream' : carry ++ read.chunk ++ (reads.map WsRead.chunk).flatten = frames.flatten := by
        rw [← hstream]
        simp
      obtain ⟨rfl, hpending⟩ := hsync
      by_cases hcarry : data.buffer = []
      · have hstep : InStep fuel data frames [] read reads := by
          refine inStep_of_empty hframes hcarry ?_ hfuel
          rw [hcarry] at hstream'
          simpa using hstream'
        rw [hcarry]
        refine delivered_iff_of_inStep hstep ?_ hsmall hih
        intro done f later pending _ hnil _ h1
        have := congrArg List.length hnil
        simp only [List.length_nil, List.length_append] at this
        omega
      · obtain ⟨f, later, rfl, hpre, hcases⟩ := hpending hcarry
        have hf : IsFrame f := hframes f (by simp)
        have hsix := hf.six_le
        rcases hcases with ⟨hlength, hten, hlt⟩ | ⟨hlength, hten, hlt⟩
        · have hstep := inStep_of_known hframes hpre hcarry hstream' (by omega) hfuel
          rw [← hlength] at hstep
          refine delivered_iff_of_inStep hstep ?_ hsmall hih
          intro done g later' pending hg hc _ h1 h9 _
          obtain ⟨-, -, hpend⟩ := cut_at_head (Or.inl hlt) hg hc h1
          have := congrArg List.length hpend
          omega
        · have hsum := ten_le_of_noSmallRead hcarry hlength hsmall
          by_cases h10 : data.buffer.length = 10
          · have hknown := pendingLength_of_unknown hlength hten hsum
            rw [headerLength_ten hf (Or.inl hpre) h10] at hknown
            have hle := hpre.length_le
            obtain ⟨data', emitted, rest, carry', hcall, hstep⟩ := inStep_of_known hframes hpre
              hcarry hstream' hsum hfuel
            rw [← getWsFrames_of_known hcarry (by omega) hknown] at hcall
            refine delivered_iff_of_inStep ⟨data', emitted, rest, carry', hcall, hstep⟩ ?_ hsmall hih
            intro done g later' pending hg hc _ h1 h9 _
            obtain ⟨-, -, hpend⟩ := cut_at_head (Or.inr ⟨h10, by omega⟩) hg hc h1
            have := congrArg List.length hpend
            omega
          · have hlt' : data.buffer.length < f.length := by
              rcases hlt with hlt | ⟨h, -⟩
              · exact hlt
              · exact absurd h h10
            by_cases hrec : Recovers f data.buffer read.chunk (reads.map WsRead.chunk)
            · refine delivered_iff_of_inStep (inStep_of_recovers hframes hpre hcarry hlength
                (by omega) hstream' hsized hsum hrec) ?_ hsmall hih
              intro done g later' pending hg hc _ h1 h9 _
              obtain ⟨-, rfl, rfl⟩ := cut_at_head (Or.inl hlt') hg hc h1
              exact hrec
            · refine iff_of_false (not_delivered_of_not_recovers hf hcarry hlength (by omega) hstream'
                hsized hsum hrec) fun hharmless => hrec ?_
              exact hharmless [] f later [] read.chunk (reads.map WsRead.chunk) data.buffer rfl rfl
                (by simp) hpre (List.length_pos_of_ne_nil hcarry) (by omega) hlt'

/-- **Reassembly of a client's frames.** A stream of complete masked frames, cut into reads of which
none takes the small-read path, is delivered frame by frame with nothing left pending exactly if every
read boundary that falls one to nine bytes into a frame does no harm. -/
theorem ws_frames_delivered_iff (frames : List ClientFrame) (reads : List WsRead) (fuel : ℕ)
    (hlength : ∀ f ∈ frames, f.encode.length < 2 ^ 31) (hsized : Sized fuel reads)
    (hstream : (reads.map WsRead.chunk).flatten = (frames.map ClientFrame.encode).flatten)
    (hsmall : NoSmallRead fuel {} reads) :
    Delivered fuel {} reads (frames.map ClientFrame.encode) ↔
      HarmlessCuts [] (frames.map ClientFrame.encode) (reads.map WsRead.chunk) := by
  refine delivered_iff_of_synced ?_ hsized ⟨rfl, fun h => absurd rfl h⟩ hstream hsmall
  intro b hb
  obtain ⟨f, hf, rfl⟩ := List.mem_map.mp hb
  exact f.isFrame (hlength f hf)

/-- A frame with five payload bytes and a masking key of which the second byte is zero. -/
def helloFrame : ClientFrame where
  first := 0x81
  form := .bits7
  maskingKey := fun i => if i = 1 then 0 else 7
  payload := [1, 2, 3, 4, 5]
  fits := by decide

/-- The frame in two reads, cut after `n` bytes. -/
def helloReads (n : ℕ) : List WsRead :=
  [⟨helloFrame.encode.take n, fun _ _ => 0⟩, ⟨helloFrame.encode.drop n, fun _ _ => 0⟩]

/-- The frame is cut after ten bytes: it is delivered. -/
theorem ws_frames_delivered_ten_one :
    Sized 16 (helloReads 10) ∧ NoSmallRead 16 {} (helloReads 10) ∧
      ((helloReads 10).map WsRead.chunk).flatten = ([helloFrame].map ClientFrame.encode).flatten ∧
      Delivered 16 {} (helloReads 10) ([helloFrame].map ClientFrame.encode) := by
  have hsized : Sized 16 (helloReads 10) := by unfold Sized; decide
  have hrun : Runs.exec (getWsFrames 16) {} (helloReads 10) =
      some ({}, [(1, []), (1, [helloFrame.encode])]) := by decide
  have hsmall := noSmallRead_of_exec hrun (by decide)
  refine ⟨hsized, hsmall, by decide, (ws_frames_delivered_iff [helloFrame] (helloReads 10) 16 (by decide)
    hsized (by decide) hsmall).mpr ?_⟩
  intro done f later before chunk rest pending hframes hchunks hcarry _ h1 h9 _
  exfalso
  -- the reads have ten bytes and one byte, so no boundary lies one to nine bytes into the frame
  have hlen := congrArg List.length hcarry
  rcases before with _ | ⟨c, _ | ⟨c', before⟩⟩
  · simp only [List.flatten_nil, List.append_nil, List.length_nil, List.length_append] at hlen
    omega
  · obtain ⟨rfl, -⟩ : helloFrame.encode.take 10 = c ∧ _ := by simpa [helloReads] using hchunks
    have hten : (helloFrame.encode.take 10).length = 10 := by decide
    rcases done with _ | ⟨d, done⟩
    · simp [hten] at hlen
      omega
    · simp [helloFrame] at hframes
  · have := congrArg List.length hchunks
    simp [helloReads] at this

/-- The frame is cut after two bytes: its length is computed from a byte of the masking key, and its
first six bytes are returned as a frame. -/
theorem ws_frames_lost_two_nine :
    Sized 16 (helloReads 2) ∧ NoSmallRead 16 {} (helloReads 2) ∧ helloFrame.encode.length < 2 ^ 31 ∧
      ((helloReads 2).map WsRead.chunk).flatten = ([helloFrame].map ClientFrame.encode).flatten ∧
      ¬Delivered 16 {} (helloReads 2) ([helloFrame].map ClientFrame.encode) := by
  have hrun : Runs.exec (getWsFrames 16) {} (helloReads 2) =
      some (⟨-1, helloFrame.encode.drop 6⟩, [(1, []), (1, [helloFrame.encode.take 6])]) := by decide
  refine ⟨by unfold Sized; decide, noSmallRead_of_exec hrun (by decide), by decide, by decide, ?_⟩
  rintro ⟨t, results, hrun', -, hbuffer⟩
  rw [hrun] at hrun'
  obtain ⟨rfl, -⟩ : _ = t ∧ _ := by simpa using hrun'
  exact absurd hbuffer (by decide)

end LiburingServer
