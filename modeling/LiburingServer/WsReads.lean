import LiburingServer.WsReassembly

/-! One call of `get_ws_frames` on a well-formed stream, from no pending data or from the beginning of a frame
whose size is on record. -/

namespace LiburingServer

variable {fuel : ℕ} {read : WsRead} {data data' : ReceivingDataInfo} {frames done rest : List ClientFrame}
  {f : ClientFrame} {later : List ClientFrame} {carry : Bytes}

/-- Nothing is pending, or the beginning of the first of the frames, with the size of the frame on record. -/
def PendingSized (data : ReceivingDataInfo) (frames : List ClientFrame) : Prop :=
  data.buffer ≠ [] → ∃ f later, frames = f :: later ∧ data.buffer <+: f.encode ∧
    data.buffer.length < f.encode.length ∧ data.length = f.encode.length

/-- A call on `data` that returns the frames `done` leaves nothing pending or the beginning of the next frame.
The size of that frame is on record if more than ten bytes of it are there, or if it was on record before. -/
def PendingAfter (data : ReceivingDataInfo) (done rest : List ClientFrame) (data' : ReceivingDataInfo) : Prop :=
  data'.buffer ≠ [] → ∃ f later, rest = f :: later ∧ data'.buffer <+: f.encode ∧
    data'.buffer.length < f.encode.length ∧
    data'.length = if 10 < data'.buffer.length ∨ done = [] ∧ data.buffer ≠ [] then (f.encode.length : ℤ) else -1

/-- The frames that a piece of the stream completes, and the beginning of the next one. -/
theorem exists_clientFrames_cut {x : Bytes} (h : x <+: (frames.map ClientFrame.encode).flatten) :
    ∃ done rest carry, frames = done ++ rest ∧ x = (done.map ClientFrame.encode).flatten ++ carry ∧
      Carry carry (rest.map ClientFrame.encode) := by
  obtain ⟨y, hy⟩ := h
  obtain ⟨done', rest', carry, hframes, hx, -, hcarry⟩ := Framing.exists_cut hy
  obtain ⟨done, rest, rfl, rfl, rfl⟩ := List.map_eq_append_iff.mp hframes
  exact ⟨done, rest, carry, rfl, hx, hcarry⟩

theorem isFrame_of_mem (hlength : ∀ f ∈ frames, f.encode.length < 2 ^ 31) :
    ∀ b ∈ frames.map ClientFrame.encode, IsFrame b := by
  intro b hb
  obtain ⟨f, hf, rfl⟩ := List.mem_map.mp hb
  exact f.isFrame (hlength f hf)

/-- What the splitting loop leaves of a chunk: nothing, or the beginning of a frame that was not pending before. -/
theorem pendingAfter_keepRest (data : ReceivingDataInfo) (done : List ClientFrame) (beyond : ℕ → UInt8)
    (hlength : ∀ f ∈ rest, f.encode.length < 2 ^ 31)
    (hcarry : Carry carry (rest.map ClientFrame.encode)) (hfresh : done = [] → data.buffer = [])
    {left : ReceivingDataInfo} (hleft : left.buffer = []) :
    PendingAfter data done rest (keepRest left beyond carry) ∧ (keepRest left beyond carry).buffer = carry := by
  by_cases hne : carry = []
  · have hkept : keepRest left beyond carry = left := by simp [keepRest, hne]
    rw [hkept, hne]
    exact ⟨fun h => absurd hleft h, hleft⟩
  · obtain ⟨b, later', hrest, hpre, hlt⟩ := hcarry hne
    obtain ⟨f, later, rfl, rfl, rfl⟩ := List.map_eq_cons_iff.mp hrest
    have hframe : IsFrame f.encode := f.isFrame (hlength f (List.mem_cons_self ..))
    rw [keepRest_of_beginning hframe hpre hne]
    refine ⟨fun _ => ⟨f, later, rfl, hpre, hlt, ?_⟩, rfl⟩
    have hiff : (10 < carry.length ∨ done = [] ∧ data.buffer ≠ []) ↔ 10 < carry.length :=
      or_iff_left fun h => h.2 (hfresh h.1)
    simp only [hiff]

/-- The splitting loop on a piece of the stream that begins with a frame. -/
theorem splitRest_of_stream (read : WsRead) (data left : ReceivingDataInfo) (first : List ClientFrame) {x : Bytes}
    (hlength : ∀ f ∈ frames, f.encode.length < 2 ^ 31) (hx : x <+: (frames.map ClientFrame.encode).flatten)
    (hfuel : x.length < fuel) (hfresh : first = [] → data.buffer = []) (hleft : left.buffer = []) :
    ∃ data' done rest, frames = done ++ rest ∧ x = (done.map ClientFrame.encode).flatten ++ data'.buffer ∧
      splitRest fuel read (first.map ClientFrame.encode) x left =
        some (data', 1, (first ++ done).map ClientFrame.encode) ∧
      PendingAfter data (first ++ done) rest data' := by
  obtain ⟨done, rest, carry, rfl, rfl, hcarry⟩ := exists_clientFrames_cut hx
  have hall : ∀ b ∈ done.map ClientFrame.encode ++ rest.map ClientFrame.encode, IsFrame b := by
    rw [← List.map_append]
    exact isFrame_of_mem hlength
  have hrest : ∀ f ∈ rest, f.encode.length < 2 ^ 31 := fun f hf => hlength f (List.mem_append_right _ hf)
  have hafter := pendingAfter_keepRest data (first ++ done)
    (read.beyond (done.map ClientFrame.encode).length) hrest hcarry
    (fun h => hfresh (List.append_eq_nil_iff.mp h).1) hleft
  refine ⟨_, done, rest, rfl, by rw [hafter.2], ?_, hafter.1⟩
  rw [splitRest_of_cut left hall hcarry hfuel, List.map_append]

/-- With nothing pending the whole chunk is split. -/
theorem getWsFrames_of_fresh (hlength : ∀ f ∈ frames, f.encode.length < 2 ^ 31) (hdata : data.buffer = [])
    (hstream : read.chunk <+: (frames.map ClientFrame.encode).flatten) (hfuel : read.chunk.length < fuel) :
    ∃ data' done rest, frames = done ++ rest ∧
      read.chunk = (done.map ClientFrame.encode).flatten ++ data'.buffer ∧
      getWsFrames fuel data read = some (data', 1, done.map ClientFrame.encode) ∧
      PendingAfter data done rest data' := by
  have hcall : getWsFrames fuel data read = splitRest fuel read [] read.chunk data := by
    simp [getWsFrames, hdata]
  rw [hcall]
  exact splitRest_of_stream read data data [] hlength hstream hfuel (fun _ => hdata) hdata

/-- With a frame of known size pending, the chunk first of all continues that frame. -/
theorem getWsFrames_of_pending (hlength : ∀ g ∈ f :: later, g.encode.length < 2 ^ 31)
    (hpre : carry <+: f.encode) (hne : carry ≠ [])
    (hstream : carry ++ read.chunk <+: ((f :: later).map ClientFrame.encode).flatten)
    (hfuel : read.chunk.length < fuel) :
    ∃ data' done rest, f :: later = done ++ rest ∧
      carry ++ read.chunk = (done.map ClientFrame.encode).flatten ++ data'.buffer ∧
      getWsFrames fuel ⟨f.encode.length, carry⟩ read = some (data', 1, done.map ClientFrame.encode) ∧
      PendingAfter ⟨f.encode.length, carry⟩ done rest data' := by
  have hframe : IsFrame f.encode := f.isFrame (hlength f (List.mem_cons_self ..))
  rw [List.map_cons] at hstream
  rcases getWsFrames_of_size hframe hpre hne hstream with ⟨hmore, hpre', hcall⟩ | ⟨q, hq, hqlen, hcall⟩
  · -- too little data
    have hafter : PendingAfter ⟨f.encode.length, carry⟩ [] (f :: later) ⟨f.encode.length, carry ++ read.chunk⟩ :=
      fun _ => ⟨f, later, rfl, hpre', by rwa [List.length_append], (if_pos (Or.inr ⟨rfl, hne⟩)).symm⟩
    refine ⟨⟨f.encode.length, carry ++ read.chunk⟩, [], f :: later, rfl, by simp, ?_, hafter⟩
    exact hcall.trans (splitRest_of_empty (Nat.zero_lt_of_lt hfuel) _ [])
  · rw [hq, List.flatten_cons, List.prefix_append_right_inj] at hstream
    obtain ⟨data', done, rest, rfl, hcut, hsplit, hafter⟩ :=
      splitRest_of_stream read ⟨f.encode.length, carry⟩ {} [f]
        (fun g hg => hlength g (List.mem_cons_of_mem _ hg)) hstream (Nat.lt_of_le_of_lt hqlen hfuel)
        (fun h => absurd h (List.cons_ne_nil _ _)) rfl
    refine ⟨data', f :: done, rest, rfl, ?_, hcall.trans hsplit, hafter⟩
    rw [hq, hcut]
    simp

/-- **One call of `get_ws_frames`.** On a chunk that continues a well-formed stream of masked frames, with nothing
pending or with the beginning of a frame of known size, the call returns exactly the frames that the chunk
completes and keeps exactly the beginning of the next one, whatever stands in memory behind the chunk. -/
theorem ws_frames_of_stream (fuel : ℕ) (data : ReceivingDataInfo) (read : WsRead) (frames : List ClientFrame)
    (hlength : ∀ f ∈ frames, f.encode.length < 2 ^ 31) (hpending : PendingSized data frames)
    (hstream : data.buffer ++ read.chunk <+: (frames.map ClientFrame.encode).flatten)
    (hfuel : read.chunk.length < fuel) :
    ∃ data' done rest, frames = done ++ rest ∧
      data.buffer ++ read.chunk = (done.map ClientFrame.encode).flatten ++ data'.buffer ∧
      getWsFrames fuel data read = some (data', 1, done.map ClientFrame.encode) ∧
      PendingAfter data done rest data' := by
  by_cases hne : data.buffer = []
  · rw [hne, List.nil_append] at hstream
    rw [hne, List.nil_append]
    exact getWsFrames_of_fresh hlength hne hstream hfuel
  · obtain ⟨f, later, rfl, hpre, -, hknown⟩ := hpending hne
    obtain ⟨length, carry⟩ := data
    obtain rfl : length = f.encode.length := hknown
    exact getWsFrames_of_pending hlength hpre hne hstream hfuel

/-- Seven bytes of a frame of eleven bytes are pending; the chunk completes it and begins it again. -/
theorem ws_frames_of_stream_hello :
    PendingSized ⟨11, helloFrame.encode.take 7⟩ [helloFrame, helloFrame] ∧
      ∃ data' done rest, [helloFrame, helloFrame] = done ++ rest ∧
        helloFrame.encode.take 7 ++ (helloFrame.encode.drop 7 ++ [0x81, 0x85]) =
          (done.map ClientFrame.encode).flatten ++ data'.buffer ∧
        getWsFrames 8 ⟨11, helloFrame.encode.take 7⟩
            ⟨helloFrame.encode.drop 7 ++ [0x81, 0x85], fun _ _ => 255⟩ =
          some (data', 1, done.map ClientFrame.encode) ∧
        PendingAfter ⟨11, helloFrame.encode.take 7⟩ done rest data' := by
  have hpending : PendingSized ⟨11, helloFrame.encode.take 7⟩ [helloFrame, helloFrame] := fun _ =>
    ⟨helloFrame, [helloFrame], rfl, List.take_prefix .., by decide, by decide⟩
  exact ⟨hpending, ws_frames_of_stream 8 _ ⟨helloFrame.encode.drop 7 ++ [0x81, 0x85], fun _ _ => 255⟩ _
    (by decide) hpending (by decide) (by decide)⟩

end LiburingServer
