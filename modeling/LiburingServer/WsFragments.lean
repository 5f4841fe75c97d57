import LiburingServer.WsMessages
import LiburingServer.WsReads

/-! Fragmented messages. `websocket_process_read_cb` collects the payloads of fragments until the last frame of
the message; what it delivers is `frame_contents`, frame by frame. -/

namespace LiburingServer

/-! ### What is delivered -/

namespace WebServer

variable {N : ℕ}

/-- `frame_contents` when the loop of `websocket_process_read_cb` reaches the application code; `before` is what it
was for the frame before. -/
def frameContents (w : WebServer N) (idx : ℤ) (before frame : Bytes) : Bytes :=
  if frame = [] then before
  else
    match decodeWebsocketFrame frame, w.wsClient idx with
    | some (code, data), some client =>
        if code = 1 then if 0 < client.websocketFrames.length then client.websocketFrames ++ data else data
        else []
    | _, _ => []

/-- The frames that the loop processes, each with its `frame_contents`. -/
def loopContents (idx : ℤ) : List Bytes → Bytes → WebServer N → List (Bytes × Bytes)
  | [], _, _ => []
  | frame :: frames, before, w =>
      let contents := w.frameContents idx before frame
      (frame, contents) ::
        match w.processFrame idx frame with
        | some (w, _, false) => loopContents idx frames contents w
        | _ => []

/-- The frames that one read makes `websocket_process_read_cb` process, each with its `frame_contents`. -/
def readContents (env : WebEnv) (w : WebServer N) (i : ℕ) (buffer : Bytes) : List (Bytes × Bytes) :=
  match w.tcpClients[i]? with
  | none => []
  | some client =>
      match w.wsClient client.wsClientIdx with
      | none => []
      | some wsClient =>
          match getWsFrames (buffer.length + 1) wsClient.receivingData ⟨buffer, env.wsBeyond⟩ with
          | none => []
          | some (receivingData, code, frames) =>
              if code = 1 then
                loopContents client.wsClientIdx frames []
                  (w.setWsClient client.wsClientIdx { wsClient with receivingData })
              else []

/-- One read of client `i`: the state after `websocket_process_read_cb` and what was delivered. -/
def receiveRead (env : WebEnv) (i : ℕ) (w : WebServer N) (read : WsRead) :
    Option (WebServer N × List (Bytes × Bytes)) :=
  (w.websocketProcessReadCb { env with wsBeyond := read.beyond } i read.chunk).map fun r =>
    (r.1, w.readContents { env with wsBeyond := read.beyond } i read.chunk)

/-- Client `i` is the websocket `idx`, with these pending data and these payloads of fragments collected. -/
structure Receiving (w : WebServer N) (i : ℕ) (idx : ℤ) (data : ReceivingDataInfo) (collected : Bytes) : Prop where
  tcp : (w.tcpClients[i]?).map TcpClient.wsClientIdx = some idx
  ws : (w.wsClient idx).map (fun c => (c.receivingData, c.websocketFrames)) = some (data, collected)

end WebServer

/-! ### Frames as the loop sees them -/

namespace ClientFrame

/-- The payload without the mask. -/
def unmasked (f : ClientFrame) : Bytes := Websocket.mask f.maskingKey f.payload

/-- A ping or a pong. -/
def Control (f : ClientFrame) : Prop := f.first &&& 0xf = 0x9 ∨ f.first &&& 0xf = 0xA

instance : DecidablePred Control := fun f =>
  inferInstanceAs (Decidable (f.first &&& 0xf = 0x9 ∨ f.first &&& 0xf = 0xA))

/-- The final bit is set. -/
def Final (f : ClientFrame) : Prop := f.first &&& 0x80 ≠ 0

instance : DecidablePred Final := fun f => inferInstanceAs (Decidable (f.first &&& 0x80 ≠ 0))

/-- What a frame other than a close makes of the payloads collected; and the frame with its `frame_contents`. -/
def receive (collected : Bytes) (f : ClientFrame) : Bytes × Bytes × Bytes :=
  if f.Control then (collected, f.encode, [])
  else if f.Final then ([], f.encode, collected ++ f.unmasked)
  else (f.unmasked ++ collected, f.encode, [])

variable {f : ClientFrame} {collected : Bytes}

theorem receive_of_control (h : f.Control) : f.receive collected = (collected, f.encode, []) := if_pos h

theorem receive_of_final (collected : Bytes) (hdata : ¬f.Control) (h : f.Final) :
    f.receive collected = ([], f.encode, collected ++ f.unmasked) := by
  rw [receive, if_neg hdata, if_pos h]

theorem receive_of_fragment (hdata : ¬f.Control) (h : ¬f.Final) :
    f.receive collected = (f.unmasked ++ collected, f.encode, []) := by
  rw [receive, if_neg hdata, if_neg h]

end ClientFrame

variable {f : ClientFrame}

theorem LengthForm.header_eq {n : ℕ} {form : LengthForm} (h : n < form.limit) :
    ∃ second extension, form.header n = second :: extension ∧ 128 ≤ second.toNat ∧
      Websocket.extendedOf second = extension.length := by
  cases form with
  | bits7 =>
      have hlt : n < 126 := h
      have hsecond : (128 + n).toUInt8.toNat = 128 + n := by
        rw [Nat.toUInt8_eq, UInt8.toNat_ofNat']
        omega
      refine ⟨_, [], rfl, by omega, ?_⟩
      rw [Websocket.extendedOf, hsecond, if_neg (by omega), if_neg (by omega)]
      rfl
  | bits16 => exact ⟨254, bigEndianBytes n 2, rfl, by decide, rfl⟩
  | bits64 => exact ⟨255, bigEndianBytes n 8, rfl, by decide, rfl⟩

/-- The decoder on a frame of a client. -/
theorem ClientFrame.decode_encode (f : ClientFrame) (hclose : f.first &&& 0xf ≠ 0x8) :
    decodeWebsocketFrame f.encode = some (
      if f.first &&& 0xf = 0xA then (3, [])
      else if f.first &&& 0xf = 0x9 then (2, f.unmasked)
      else if f.Final then (1, f.unmasked) else (-2, f.unmasked)) := by
  obtain ⟨second, extension, hheader, hmask, hextension⟩ := LengthForm.header_eq f.fits
  have hencode : f.encode = f.first :: second :: (extension ++ (List.ofFn f.maskingKey ++ f.payload)) := by
    rw [ClientFrame.encode, hheader]
    rfl
  rw [hencode]
  by_cases hpong : f.first &&& 0xf = 0xA
  · have hmasked : ¬second &&& 0x80 = 0 := by
      rw [highBit_eq, if_pos hmask]
      decide
    rw [if_pos hpong]
    simp only [decodeWebsocketFrame, if_neg hmasked, if_neg hclose, if_pos hpong]
  · rw [if_neg hpong, decodeWebsocketFrame_masked _ hmask hextension hclose hpong]
    unfold ClientFrame.Final ClientFrame.unmasked
    split_ifs <;> simp_all

theorem ClientFrame.encode_ne_nil (f : ClientFrame) : f.encode ≠ [] := List.cons_ne_nil _ _

namespace WebServer

variable {N : ℕ} {w w' : WebServer N} {i : ℕ} {idx : ℤ} {data data' : ReceivingDataInfo} {collected : Bytes}
  {env : WebEnv} {read : WsRead} {frames : List ClientFrame}

theorem Receiving.exists_client (h : w.Receiving i idx data collected) :
    ∃ client, w.wsClient idx = some client ∧ client.receivingData = data ∧ client.websocketFrames = collected := by
  obtain ⟨client, hclient, heq⟩ := Option.map_eq_some_iff.mp h.ws
  simp only [Prod.mk.injEq] at heq
  exact ⟨client, hclient, heq⟩

theorem wsClient_setWsClient {client : WsClient} (h : w.wsClient idx = some client) (client' : WsClient) :
    (w.setWsClient idx client').wsClient idx = some client' := by
  unfold wsClient at h ⊢
  split_ifs at h ⊢ with hidx
  have hlt : idx.toNat < w.websocketClients.length := (List.getElem?_eq_some_iff.mp h).1
  simp [setWsClient, hlt]

theorem Receiving.setWsClient (h : w.Receiving i idx data collected) (client' : WsClient) :
    (w.setWsClient idx client').Receiving i idx client'.receivingData client'.websocketFrames := by
  obtain ⟨client, hclient, -, -⟩ := h.exists_client
  refine ⟨h.tcp, ?_⟩
  rw [wsClient_setWsClient hclient]
  rfl

/-- One frame of the loop. -/
theorem Receiving.processFrame (h : w.Receiving i idx data collected) (hclose : f.first &&& 0xf ≠ 0x8)
    (before : Bytes) : ∃ w' calls, w.processFrame idx f.encode = some (w', calls, false) ∧
      w'.Receiving i idx data (f.receive collected).1 ∧
      (f.encode, w.frameContents idx before f.encode) = (f.receive collected).2 := by
  obtain ⟨client, hclient, rfl, rfl⟩ := h.exists_client
  have hset (client' : WsClient) := h.setWsClient client'
  have hdecode := f.decode_encode hclose
  unfold WebServer.processFrame frameContents
  rw [if_neg f.encode_ne_nil, if_neg f.encode_ne_nil, hdecode, hclient]
  by_cases hpong : f.first &&& 0xf = 0xA
  · rw [ClientFrame.receive_of_control (Or.inr hpong)]
    simp only [if_pos hpong]
    exact ⟨w, [], rfl, h, rfl⟩
  · by_cases hping : f.first &&& 0xf = 0x9
    · rw [ClientFrame.receive_of_control (Or.inl hping)]
      simp only [if_neg hpong, if_pos hping]
      exact ⟨_, _, rfl, hset { client with currentlyWriting := client.currentlyWriting + 1 }, rfl⟩
    · have hdata : ¬f.Control := not_or.mpr ⟨hping, hpong⟩
      by_cases hfinal : f.Final
      · rw [ClientFrame.receive_of_final _ hdata hfinal]
        simp only [if_neg hpong, if_neg hping, if_pos hfinal]
        refine ⟨_, _, rfl, hset { client with websocketFrames := [] }, ?_⟩
        rcases Nat.eq_zero_or_pos client.websocketFrames.length with hnil | hpos
        · simp [List.eq_nil_of_length_eq_zero hnil]
        · simp [hpos]
      · rw [ClientFrame.receive_of_fragment hdata hfinal]
        simp only [if_neg hpong, if_neg hping, if_neg hfinal]
        exact ⟨_, _, rfl, hset { client with websocketFrames := f.unmasked ++ client.websocketFrames }, rfl⟩

/-- The loop over frames none of which is a close. -/
theorem Receiving.processFrames (h : w.Receiving i idx data collected)
    (hframes : ∀ f ∈ frames, f.first &&& 0xf ≠ 0x8) (before : Bytes) :
    ∃ w' calls, processFrames idx (frames.map ClientFrame.encode) w = some (w', calls, false) ∧
      w'.Receiving i idx data (Runs.trace ClientFrame.receive collected frames).1 ∧
      loopContents idx (frames.map ClientFrame.encode) before w =
        (Runs.trace ClientFrame.receive collected frames).2 := by
  induction frames generalizing w collected before with
  | nil => exact ⟨w, [], rfl, h, rfl⟩
  | cons f frames ih =>
      obtain ⟨w₁, calls, hframe, h₁, hcontents⟩ := h.processFrame (hframes f (by simp)) before
      obtain ⟨w', calls', hrest, h', hlater⟩ :=
        ih h₁ (fun g hg => hframes g (List.mem_cons_of_mem _ hg)) (w.frameContents idx before f.encode)
      refine ⟨w', calls ++ calls', ?_, h', ?_⟩
      · simp only [List.map_cons, WebServer.processFrames, hframe, hrest, Option.map_some]
      · simp only [List.map_cons, loopContents, hframe, hlater, hcontents, Runs.trace]

/-- One read whose frames are these. -/
theorem Receiving.receiveRead (env : WebEnv) (h : w.Receiving i idx data collected)
    (hframes : ∀ f ∈ frames, f.first &&& 0xf ≠ 0x8)
    (hcall : getWsFrames (read.chunk.length + 1) data read = some (data', 1, frames.map ClientFrame.encode)) :
    ∃ w', receiveRead env i w read = some (w', (Runs.trace ClientFrame.receive collected frames).2) ∧
      w'.Receiving i idx data' (Runs.trace ClientFrame.receive collected frames).1 := by
  obtain ⟨tcpClient, htcp, rfl⟩ := Option.map_eq_some_iff.mp h.tcp
  obtain ⟨client, hclient, rfl, rfl⟩ := h.exists_client
  obtain ⟨w', calls, hloop, h', hcontents⟩ :=
    (h.setWsClient { client with receivingData := data' }).processFrames hframes []
  refine ⟨w', ?_, h'⟩
  simp only [WebServer.receiveRead, websocketProcessReadCb, readContents, htcp, hclient, hcall, if_true, hloop,
    Option.map_some, hcontents]

/-- If the loop processes frames none of which is a close, it processes all that it is given. -/
theorem Receiving.eq_of_loopContents {out : List Bytes} {calls : List TcpCall} {closed : Bool} {before : Bytes}
    (h : w.Receiving i idx data collected) (hloop : WebServer.processFrames idx out w = some (w', calls, closed))
    (hframes : ∀ f ∈ frames, f.first &&& 0xf ≠ 0x8)
    (hout : (loopContents idx out before w).map Prod.fst = frames.map ClientFrame.encode) :
    out = frames.map ClientFrame.encode := by
  induction out generalizing w collected before frames calls with
  | nil => exact hout
  | cons frame out ih =>
      cases frames with
      | nil => simp [loopContents] at hout
      | cons f frames =>
          obtain rfl : frame = f.encode := by
            simp only [loopContents, List.map_cons, List.cons.injEq] at hout
            exact hout.1
          obtain ⟨w₁, calls₁, hframe, h₁, -⟩ := h.processFrame (hframes f (by simp)) before
          simp only [WebServer.processFrames, hframe] at hloop
          obtain ⟨⟨w₂, calls₂, closed₂⟩, hrest, heq⟩ := Option.map_eq_some_iff.mp hloop
          simp only [Prod.mk.injEq] at heq
          obtain ⟨rfl, -, rfl⟩ := heq
          simp only [loopContents, hframe, List.map_cons, List.cons.injEq, true_and] at hout
          rw [List.map_cons, ih h₁ hrest (fun g hg => hframes g (List.mem_cons_of_mem _ hg)) hout]

/-- A read that delivers these frames: `get_ws_frames` returns them, or closes the connection and there are none. -/
theorem Receiving.getWsFrames_of_receiveRead {o : List (Bytes × Bytes)} (h : w.Receiving i idx data collected)
    (hread : WebServer.receiveRead env i w read = some (w', o)) (hframes : ∀ f ∈ frames, f.first &&& 0xf ≠ 0x8)
    (hout : o.map Prod.fst = frames.map ClientFrame.encode) :
    ∃ data' code collected', getWsFrames (read.chunk.length + 1) data read =
      some (data', code, frames.map ClientFrame.encode) ∧ w'.Receiving i idx data' collected' := by
  obtain ⟨tcpClient, htcp, rfl⟩ := Option.map_eq_some_iff.mp h.tcp
  obtain ⟨client, hclient, rfl, rfl⟩ := h.exists_client
  simp only [WebServer.receiveRead, websocketProcessReadCb, readContents, htcp, hclient] at hread
  cases hcall : getWsFrames (read.chunk.length + 1) client.receivingData read with
  | none => simp [hcall] at hread
  | some r =>
      obtain ⟨data', code, out⟩ := r
      have hset := h.setWsClient { client with receivingData := data' }
      simp only [hcall] at hread
      by_cases hcode : code = 1
      · simp only [if_pos hcode] at hread
        obtain ⟨⟨w₁, calls⟩, hcb, heq⟩ := Option.map_eq_some_iff.mp hread
        obtain ⟨⟨w₂, calls₂, closed⟩, hloop, heq'⟩ := Option.map_eq_some_iff.mp hcb
        simp only [Prod.mk.injEq] at heq heq'
        obtain ⟨rfl, rfl⟩ := heq
        obtain ⟨rfl, -⟩ := heq'
        obtain rfl := hset.eq_of_loopContents hloop hframes hout
        obtain ⟨w₃, calls₃, hloop', h', -⟩ := hset.processFrames hframes []
        obtain ⟨rfl, -⟩ : w₃ = w₂ ∧ _ := by simpa [hloop] using hloop'.symm
        exact ⟨data', code, _, rfl, h'⟩
      · rcases getWsFrames_cases hcall with ⟨-, -, -, -, rfl⟩ | ⟨hone, -⟩
        · simp only [if_neg hcode, closeWsConnectionReq, wsClient_setWsClient hclient, Option.map_some,
            Option.some.injEq, Prod.mk.injEq] at hread
          obtain ⟨rfl, rfl⟩ := hread
          refine ⟨data', code, [], by rw [← hout, List.map_nil], ?_⟩
          have hclosed := hset.setWsClient
            { client with
              receivingData := data', currentlyWriting := client.currentlyWriting + 1, websocketFrames := [] }
          exact ⟨hclosed.tcp, hclosed.ws⟩
        · exact absurd hone hcode

/-! ### Runs -/

variable {fuel : ℕ} {reads : List WsRead} {results : List (ℤ × List Bytes)} {outs : List (List (Bytes × Bytes))}

/-- The frames that `get_ws_frames` returns over a run of reads are processed, and delivered one by one. -/
theorem Receiving.exec_of_frames (env : WebEnv) (h : w.Receiving i idx data collected)
    (hrun : Runs.exec (getWsFrames fuel) data reads = some (data', results)) (hcodes : ∀ r ∈ results, r.1 = 1)
    (hout : results.flatMap Prod.snd = frames.map ClientFrame.encode)
    (hframes : ∀ f ∈ frames, f.first &&& 0xf ≠ 0x8) :
    ∃ w' outs, Runs.exec (WebServer.receiveRead env i) w reads = some (w', outs) ∧
      outs.flatten = (Runs.trace ClientFrame.receive collected frames).2 ∧
      w'.Receiving i idx data' (Runs.trace ClientFrame.receive collected frames).1 := by
  induction reads generalizing w data collected results frames with
  | nil =>
      obtain ⟨rfl, rfl⟩ : data = data' ∧ [] = results := by simpa [Runs.exec] using hrun
      obtain rfl : frames = [] := by simpa using hout.symm
      exact ⟨w, [], rfl, rfl, h⟩
  | cons read reads ih =>
      cases hcall : getWsFrames fuel data read with
      | none => simp [Runs.exec, hcall] at hrun
      | some r =>
          obtain ⟨next, code, out⟩ := r
          simp only [Runs.exec, hcall, Option.map_eq_some_iff, Prod.mk.injEq] at hrun
          obtain ⟨⟨u, later⟩, hrest, rfl, rfl⟩ := hrun
          obtain rfl : code = 1 := hcodes (code, out) (by simp)
          rw [List.flatMap_cons] at hout
          obtain ⟨first, rest, rfl, rfl, hlater⟩ := List.map_eq_append_iff.mp hout.symm
          have hne : ∀ b ∈ first.map ClientFrame.encode, b ≠ [] := by
            intro b hb
            obtain ⟨f, -, rfl⟩ := List.mem_map.mp hb
            exact f.encode_ne_nil
          obtain ⟨w₁, hread, h₁⟩ := h.receiveRead env (fun f hf => hframes f (List.mem_append_left _ hf))
            (getWsFrames_of_chunk_lt hcall hne (Nat.lt_succ_self _))
          obtain ⟨w', outs, hexec, houts, h'⟩ := ih h₁ hrest (fun r hr => hcodes r (List.mem_cons_of_mem _ hr))
            hlater.symm fun f hf => hframes f (List.mem_append_right _ hf)
          refine ⟨w', (Runs.trace ClientFrame.receive collected first).2 :: outs, ?_, ?_, ?_⟩
          · simp only [Runs.exec, hread, hexec, Option.map_some]
          · rw [List.flatten_cons, houts, Runs.trace_append]
          · rw [Runs.trace_append]
            exact h'

/-- The frames delivered over a run of reads are those that `get_ws_frames` returns. -/
theorem Receiving.frames_of_exec (h : w.Receiving i idx data collected)
    (hfuel : ∀ read ∈ reads, read.chunk.length < fuel)
    (hrun : Runs.exec (WebServer.receiveRead env i) w reads = some (w', outs))
    (hout : outs.flatten.map Prod.fst = frames.map ClientFrame.encode)
    (hframes : ∀ f ∈ frames, f.first &&& 0xf ≠ 0x8) :
    ∃ data' results, Runs.exec (getWsFrames fuel) data reads = some (data', results) ∧
      results.flatMap Prod.snd = frames.map ClientFrame.encode := by
  induction reads generalizing w data collected outs frames with
  | nil =>
      obtain ⟨rfl, rfl⟩ : w = w' ∧ [] = outs := by simpa [Runs.exec] using hrun
      exact ⟨data, [], rfl, hout⟩
  | cons read reads ih =>
      obtain ⟨w₁, o, later, hread, hrest, rfl⟩ := Runs.exec_cons hrun
      rw [List.flatten_cons, List.map_append] at hout
      obtain ⟨first, rest, rfl, hfirst, hlater⟩ := List.map_eq_append_iff.mp hout.symm
      obtain ⟨next, code, collected', hcall, h₁⟩ := h.getWsFrames_of_receiveRead hread
        (fun f hf => hframes f (List.mem_append_left _ hf)) hfirst.symm
      obtain ⟨data', results, hexec, hresults⟩ := ih h₁ (fun r hr => hfuel r (List.mem_cons_of_mem _ hr)) hrest
        hlater.symm fun f hf => hframes f (List.mem_append_right _ hf)
      have hcall' := getWsFrames_of_le hcall (Nat.succ_le_of_lt (hfuel read (by simp)))
      refine ⟨data', (code, first.map ClientFrame.encode) :: results, ?_, ?_⟩
      · simp only [Runs.exec, hcall', hexec, Option.map_some]
      · rw [List.flatMap_cons, hresults, List.map_append]

end WebServer

/-! ### Short reads -/

section ShortReads

variable {fuel : ℕ} {data data' : ReceivingDataInfo} {read : WsRead} {reads : List WsRead}
  {results : List (ℤ × List Bytes)} {code : ℤ} {out : List Bytes}

/-- With a frame of unknown size pending, the read brings it to ten bytes. -/
def LongEnough (data : ReceivingDataInfo) (read : WsRead) : Prop :=
  data.buffer ≠ [] → data.length = -1 → 10 ≤ data.buffer.length + read.chunk.length

instance (data : ReceivingDataInfo) (read : WsRead) : Decidable (LongEnough data read) :=
  inferInstanceAs (Decidable (data.buffer ≠ [] → _ → _))

/-- A call closes the connection exactly for a read that is not long enough. -/
theorem longEnough_iff : LongEnough data read ↔
    ∀ data' code frames, getWsFrames fuel data read = some (data', code, frames) → code ≠ -1 := by
  constructor
  · rintro hlong data' code frames hcall rfl
    rcases getWsFrames_cases hcall with ⟨hsmall, hstart, -⟩ | ⟨hone, -⟩
    · have hne : data.buffer ≠ [] := by
        intro hnil
        simp [splitStart, hnil] at hstart
      unfold pendingLength at hsmall
      split_ifs at hsmall with hlength hsum
      exact absurd (hlong hne hlength) (Nat.not_le.mpr hsum)
    · cases hone
  · intro h hne hlength
    by_contra hsum
    have hcall : getWsFrames fuel data read = some (data, -1, []) := by
      simp only [getWsFrames, if_pos (List.length_pos_of_ne_nil hne), pendingLength, hlength, if_true,
        if_pos (Nat.lt_of_not_le hsum)]
    exact h _ _ _ hcall rfl

theorem noSmallRead_iff : NoSmallRead fuel data reads ↔ Runs.Along (getWsFrames fuel) LongEnough data reads :=
  ⟨Runs.Along.imp fun _ _ => longEnough_iff.mpr, Runs.Along.imp fun _ _ => longEnough_iff.mp⟩

/-- One call returns no more bytes than there are, and fewer if it closes the connection. -/
theorem getWsFrames_length (hcall : getWsFrames fuel data read = some (data', code, out)) :
    code = 1 ∧ out.flatten.length + data'.buffer.length = data.buffer.length + read.chunk.length ∨
      code ≠ 1 ∧ out.flatten.length + data'.buffer.length = data.buffer.length := by
  rcases getWsFrames_cases hcall with ⟨-, -, rfl, rfl, rfl⟩ | ⟨rfl, -⟩
  · exact Or.inr ⟨by decide, by simp⟩
  · have hlength := congrArg List.length (getWsFrames_conserves hcall)
    rw [List.length_append, List.length_append] at hlength
    exact Or.inl ⟨rfl, hlength.symm⟩

/-- A run returns no more bytes than were read, and all of them only if no call closes the connection. -/
theorem exec_length (hpos : ∀ read ∈ reads, 0 < read.chunk.length)
    (hrun : Runs.exec (getWsFrames fuel) data reads = some (data', results)) :
    (results.flatMap Prod.snd).flatten.length + data'.buffer.length ≤
        data.buffer.length + (reads.map WsRead.chunk).flatten.length ∧
      (data.buffer.length + (reads.map WsRead.chunk).flatten.length ≤
          (results.flatMap Prod.snd).flatten.length + data'.buffer.length → ∀ r ∈ results, r.1 = 1) := by
  induction reads generalizing data results with
  | nil =>
      obtain ⟨rfl, rfl⟩ : data = data' ∧ [] = results := by simpa [Runs.exec] using hrun
      simp
  | cons read reads ih =>
      cases hcall : getWsFrames fuel data read with
      | none => simp [Runs.exec, hcall] at hrun
      | some r =>
          obtain ⟨next, code, out⟩ := r
          simp only [Runs.exec, hcall, Option.map_eq_some_iff, Prod.mk.injEq] at hrun
          obtain ⟨⟨u, later⟩, hrest, rfl, rfl⟩ := hrun
          obtain ⟨hle, hall⟩ := ih (fun r hr => hpos r (List.mem_cons_of_mem _ hr)) hrest
          have hread := hpos read (List.mem_cons_self ..)
          dsimp only at hle hall
          simp only [List.flatMap_cons, List.flatten_append, List.map_cons, List.flatten_cons, List.length_append,
            List.forall_mem_cons]
          rcases getWsFrames_length hcall with ⟨hone, hlength⟩ | ⟨-, hlength⟩
          · exact ⟨by omega, fun hge => ⟨hone, hall (by omega)⟩⟩
          · exact ⟨by omega, fun hge => absurd hge (by omega)⟩

theorem forall_code_of_noSmallRead (hrun : Runs.exec (getWsFrames fuel) data reads = some (data', results))
    (hsmall : NoSmallRead fuel data reads) : ∀ r ∈ results, r.1 = 1 := by
  rw [← Runs.along_iff_forall_outputs (R := fun r : ℤ × List Bytes => r.1 = 1) ?_ hrun]
  · exact hsmall
  · rintro data read data' ⟨code, out⟩ hcall
    constructor
    · intro h
      rcases getWsFrames_cases hcall with ⟨-, -, hcode, -⟩ | ⟨hone, -⟩
      · exact absurd hcode (h data' code out hcall)
      · exact hone
    · intro hone d c fs h
      obtain ⟨-, rfl, -⟩ : data' = d ∧ code = c ∧ out = fs := by simpa [hcall] using h
      rw [show code = 1 from hone]
      decide

end ShortReads

/-! ### Messages -/

/-- A message as a client sends it: fragments whose final bit is clear, with pings and pongs between them, and the
frame that ends it. -/
structure Message where
  fragments : List ClientFrame
  last : ClientFrame
  unfinished : ∀ f ∈ fragments, f.first &&& 0xf ≠ 0x8 ∧ (f.Control ∨ ¬f.Final)
  ends : last.first &&& 0xf ≠ 0x8 ∧ ¬last.Control ∧ last.Final

namespace Message

def frames (m : Message) : List ClientFrame := m.fragments ++ [m.last]

/-- The payloads of the fragments before the last frame. -/
def payloads (m : Message) : List Bytes :=
  (m.fragments.filter fun f => ¬f.Control).map ClientFrame.unmasked

/-- What is to be delivered: nothing before the last frame, and with it the payloads in their order. -/
def deliveries (m : Message) : List (Bytes × Bytes) :=
  (m.fragments.map fun f => (f.encode, [])) ++ [(m.last.encode, m.payloads.flatten ++ m.last.unmasked)]

/-- The payloads before the last one read the same in the reverse order. -/
def Reversible (m : Message) : Prop := m.payloads.reverse.flatten = m.payloads.flatten

instance : DecidablePred Reversible := fun m =>
  inferInstanceAs (Decidable (m.payloads.reverse.flatten = m.payloads.flatten))

end Message

/-- Each fragment is put before those collected so far. -/
theorem trace_fragments {fragments : List ClientFrame} (h : ∀ f ∈ fragments, f.Control ∨ ¬f.Final)
    (collected : Bytes) : Runs.trace ClientFrame.receive collected fragments =
      (((fragments.filter fun f => ¬f.Control).map ClientFrame.unmasked).reverse.flatten ++ collected,
        fragments.map fun f => (f.encode, [])) := by
  induction fragments generalizing collected with
  | nil => rfl
  | cons f fragments ih =>
      have hrest := ih fun g hg => h g (List.mem_cons_of_mem _ hg)
      rw [Runs.trace, hrest]
      by_cases hcontrol : f.Control
      · simp [ClientFrame.receive_of_control hcontrol, hcontrol]
      · have hfinal : ¬f.Final := (h f (List.mem_cons_self ..)).resolve_left hcontrol
        simp [ClientFrame.receive_of_fragment hcontrol hfinal, hcontrol]

/-- The frames of a message deliver the payloads with all but the last one in the reverse order. -/
theorem Message.trace_frames (m : Message) : Runs.trace ClientFrame.receive [] m.frames =
    ([], (m.fragments.map fun f => (f.encode, [])) ++
      [(m.last.encode, m.payloads.reverse.flatten ++ m.last.unmasked)]) := by
  have hfragments := trace_fragments (fun f hf => (m.unfinished f hf).2) []
  have hlast := ClientFrame.receive_of_final m.payloads.reverse.flatten m.ends.2.1 m.ends.2.2
  rw [List.append_nil, ← Message.payloads] at hfragments
  rw [Message.frames, Runs.trace_append, hfragments]
  simp only [Runs.trace, hlast]

theorem Message.deliveries_eq_iff (m : Message) :
    (m.fragments.map fun f => (f.encode, [])) ++ [(m.last.encode, m.payloads.reverse.flatten ++ m.last.unmasked)] =
      m.deliveries ↔ m.Reversible := by
  simp [Message.deliveries, Message.Reversible]

/-- The frames of messages one after another deliver them in order exactly if each is reversible. -/
theorem trace_messages (messages : List Message) :
    (Runs.trace ClientFrame.receive [] (messages.flatMap Message.frames)).1 = [] ∧
      ((Runs.trace ClientFrame.receive [] (messages.flatMap Message.frames)).2 = messages.flatMap Message.deliveries ↔
        ∀ m ∈ messages, m.Reversible) := by
  induction messages with
  | nil => exact ⟨rfl, iff_of_true rfl (List.forall_mem_nil _)⟩
  | cons m messages ih =>
      obtain ⟨hempty, hiff⟩ := ih
      rw [List.flatMap_cons, Runs.trace_append, m.trace_frames, List.flatMap_cons, List.forall_mem_cons, ← hiff,
        ← m.deliveries_eq_iff]
      refine ⟨hempty, fun h => List.append_inj h ?_, fun h => ?_⟩
      · simp [Message.deliveries]
      · exact congrArg₂ _ h.1 h.2

theorem deliveries_fst (messages : List Message) : (messages.flatMap Message.deliveries).map Prod.fst =
    (messages.flatMap Message.frames).map ClientFrame.encode := by
  induction messages with
  | nil => rfl
  | cons m messages ih =>
      rw [List.flatMap_cons, List.map_append, ih, List.flatMap_cons, List.map_append]
      simp [Message.deliveries, Message.frames, Function.comp_def]

section Delivery

variable {N : ℕ} {w : WebServer N} {i : ℕ} {idx : ℤ} {data : ReceivingDataInfo} {env : WebEnv}
  {messages : List Message} {reads : List WsRead} {fuel : ℕ}

/-- Over these reads of client `i` the frames of the messages are processed one after another, `frame_contents` is
empty but for the last frame of a message, where it is the message, and no payload stays behind. -/
def DeliversInOrder (env : WebEnv) (i : ℕ) (idx : ℤ) (w : WebServer N) (reads : List WsRead)
    (messages : List Message) : Prop :=
  ∃ w' outs data', Runs.exec (WebServer.receiveRead env i) w reads = some (w', outs) ∧
    outs.flatten = messages.flatMap Message.deliveries ∧ w'.Receiving i idx data' []

/-- What is delivered if `get_ws_frames` returns the frames of the messages. -/
theorem deliversInOrder_of_delivered (hw : w.Receiving i idx data [])
    (hclose : ∀ f ∈ messages.flatMap Message.frames, f.first &&& 0xf ≠ 0x8) (hsmall : NoSmallRead fuel data reads)
    (hdel : Delivered fuel data reads ((messages.flatMap Message.frames).map ClientFrame.encode)) :
    DeliversInOrder env i idx w reads messages ↔ ∀ m ∈ messages, m.Reversible := by
  obtain ⟨data', results, hexec, hres, -⟩ := hdel
  obtain ⟨w', outs, hrun, houts, hw'⟩ :=
    hw.exec_of_frames env hexec (forall_code_of_noSmallRead hexec hsmall) hres hclose
  obtain ⟨hempty, hiff⟩ := trace_messages messages
  rw [hempty] at hw'
  rw [← hiff, ← houts]
  constructor
  · rintro ⟨w₁, outs₁, -, hrun₁, houts₁, -⟩
    obtain ⟨-, rfl⟩ : w' = w₁ ∧ outs = outs₁ := by simpa [hrun] using hrun₁
    exact houts₁
  · exact fun h => ⟨w', outs, data', hrun, h, hw'⟩

/-- If all frames of the messages are processed, `get_ws_frames` returns them and never closes the connection. -/
theorem delivered_of_deliversInOrder (hw : w.Receiving i idx data []) (hdata : data.buffer = [])
    (hclose : ∀ f ∈ messages.flatMap Message.frames, f.first &&& 0xf ≠ 0x8) (hsized : Sized fuel reads)
    (hstream : (reads.map WsRead.chunk).flatten =
      ((messages.flatMap Message.frames).map ClientFrame.encode).flatten)
    (h : DeliversInOrder env i idx w reads messages) :
    NoSmallRead fuel data reads ∧
      Delivered fuel data reads ((messages.flatMap Message.frames).map ClientFrame.encode) := by
  obtain ⟨w', outs, -, hrun, houts, -⟩ := h
  have hfst := deliveries_fst messages
  rw [← houts] at hfst
  obtain ⟨data', results, hexec, hres⟩ := hw.frames_of_exec (fun r hr => (hsized r hr).2.2) hrun hfst hclose
  obtain ⟨hle, hall⟩ := exec_length (fun r hr => (hsized r hr).1) hexec
  rw [hres, ← hstream, hdata, List.length_nil, Nat.zero_add] at hle hall
  have hempty : data'.buffer.length = 0 := by omega
  refine ⟨noSmallRead_of_exec hexec fun r hr => ?_, data', results, hexec, hres, List.eq_nil_of_length_eq_zero hempty⟩
  rw [hall (by omega) r hr]
  decide

/-- **Fragmented messages.** A client sends messages, each a sequence of fragments with pings and pongs between them,
in whatever reads. Every message is delivered with its last frame, and nothing before, exactly if the frames survive
the reassembly and the payloads before the last one of each message read the same in the reverse order. -/
theorem fragments_delivered_iff (env : WebEnv) (i : ℕ) (idx : ℤ) (w : WebServer N) (data : ReceivingDataInfo)
    (messages : List Message) (reads : List WsRead) (fuel : ℕ) (hw : w.Receiving i idx data [])
    (hdata : data.buffer = [])
    (hlength : ∀ f ∈ messages.flatMap Message.frames, f.encode.length < 2 ^ 31) (hsized : Sized fuel reads)
    (hstream : (reads.map WsRead.chunk).flatten =
      ((messages.flatMap Message.frames).map ClientFrame.encode).flatten) :
    DeliversInOrder env i idx w reads messages ↔
      Runs.Along (getWsFrames fuel) LongEnough data reads ∧
        HarmlessCuts [] ((messages.flatMap Message.frames).map ClientFrame.encode) (reads.map WsRead.chunk) ∧
          ∀ m ∈ messages, m.Reversible := by
  have hclose : ∀ f ∈ messages.flatMap Message.frames, f.first &&& 0xf ≠ 0x8 := by
    intro f hf
    obtain ⟨m, -, hfm⟩ := List.mem_flatMap.mp hf
    rcases List.mem_append.mp hfm with hfragment | hlast
    · exact (m.unfinished f hfragment).1
    · rw [List.mem_singleton.mp hlast]
      exact m.ends.1
  have hreassembled (hsmall : NoSmallRead fuel data reads) :=
    delivered_iff_of_synced (isFrame_of_mem hlength) hsized ⟨hdata, fun h => absurd rfl h⟩ hstream hsmall
  rw [← noSmallRead_iff]
  constructor
  · intro h
    obtain ⟨hsmall, hdel⟩ := delivered_of_deliversInOrder hw hdata hclose hsized hstream h
    exact ⟨hsmall, (hreassembled hsmall).mp hdel, (deliversInOrder_of_delivered hw hclose hsmall hdel).mp h⟩
  · rintro ⟨hsmall, hcuts, hreversible⟩
    exact (deliversInOrder_of_delivered hw hclose hsmall ((hreassembled hsmall).mpr hcuts)).mpr hreversible

end Delivery

/-- A text fragment, a continuation or the last frame of a message, with one payload byte. -/
def letterFrame (first : UInt8) (letter : UInt8) : ClientFrame where
  first := first
  form := .bits7
  maskingKey := fun _ => 0
  payload := [letter]
  fits := by
    change 1 < 126
    decide

/-- "ab" in two fragments, with a ping between them. -/
def twoFragments : Message where
  fragments := [letterFrame 0x01 97, letterFrame 0x89 112]
  last := letterFrame 0x80 98
  unfinished := by decide
  ends := by decide

/-- "abc" in three fragments. -/
def threeFragments : Message where
  fragments := [letterFrame 0x01 97, letterFrame 0x00 98]
  last := letterFrame 0x80 99
  unfinished := by decide
  ends := by decide

/-- A server with one client, which is a websocket. -/
def oneWebsocket : WebServer 1 where
  inotifyFd := 9
  tcpClients := [{ wsClientIdx := 0 }]
  websocketClients := [{ clientIdx := 0 }]

theorem oneWebsocket_receiving : oneWebsocket.Receiving 0 0 {} [] := ⟨rfl, rfl⟩

/-- One read with all the frames of a message. -/
def oneRead (m : Message) : List WsRead := [⟨(m.frames.map ClientFrame.encode).flatten, fun _ _ => 0⟩]

theorem fragments_delivered_two : DeliversInOrder {} 0 0 oneWebsocket (oneRead twoFragments) [twoFragments] := by
  refine (fragments_delivered_iff {} 0 0 oneWebsocket {} [twoFragments] (oneRead twoFragments) 32
    oneWebsocket_receiving rfl (by decide) (by unfold Sized; decide) (by decide)).mpr ⟨by decide, ?_, by decide⟩
  intro done f later before chunk rest pending _ hchunks hcarry _ h1 _ _
  exfalso
  -- the only read begins at the beginning of the stream
  rcases before with _ | ⟨c, before⟩
  · have hlength := congrArg List.length hcarry
    simp only [List.flatten_nil, List.append_nil, List.length_nil, List.length_append] at hlength
    omega
  · simp [oneRead] at hchunks

/-- The second fragment is put before the first one: "bac" is delivered. -/
theorem fragments_out_of_order :
    oneWebsocket.Receiving 0 0 {} [] ∧ Sized 32 (oneRead threeFragments) ∧
      ((oneRead threeFragments).map WsRead.chunk).flatten =
        (([threeFragments].flatMap Message.frames).map ClientFrame.encode).flatten ∧
      (Runs.exec (WebServer.receiveRead {} 0) oneWebsocket (oneRead threeFragments)).map (fun r => r.2.flatten) =
        some [((letterFrame 0x01 97).encode, []), ((letterFrame 0x00 98).encode, []),
          ((letterFrame 0x80 99).encode, [98, 97, 99])] ∧
      ¬DeliversInOrder {} 0 0 oneWebsocket (oneRead threeFragments) [threeFragments] := by
  have hrun : (Runs.exec (WebServer.receiveRead {} 0) oneWebsocket (oneRead threeFragments)).map
      (fun r => r.2.flatten) = some [((letterFrame 0x01 97).encode, []), ((letterFrame 0x00 98).encode, []),
        ((letterFrame 0x80 99).encode, [98, 97, 99])] := by decide
  refine ⟨oneWebsocket_receiving, by unfold Sized; decide, by decide, hrun, ?_⟩
  rintro ⟨w', outs, data', hexec, houts, -⟩
  rw [hexec, Option.map_some, Option.some.injEq, houts] at hrun
  exact absurd hrun (by decide)

end LiburingServer
