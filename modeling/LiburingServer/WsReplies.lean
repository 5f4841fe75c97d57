import LiburingServer.WsPending
import LiburingServer.WsFragments
import LiburingServer.TcpFrame

/-! What a websocket client is answered. `websocket_process_read_cb` goes through the frames of one read: it
answers each ping with a pong, the first close with a close, and then stops. -/

namespace LiburingServer

/-! ### Frames -/

/-- The frame is masked and has this opcode. -/
def HasOpcode (opcode : UInt8) : Bytes → Prop
  | first :: second :: _ => second &&& 0x80 ≠ 0 ∧ first &&& 0xf = opcode
  | _ => False

instance (opcode : UInt8) : DecidablePred (HasOpcode opcode)
  | first :: second :: _ => inferInstanceAs (Decidable (second &&& 0x80 ≠ 0 ∧ first &&& 0xf = opcode))
  | [_] => isFalse id
  | [] => isFalse id

/-- The bytes behind the masking key, without the mask. -/
def framePayload : Bytes → Bytes
  | _ :: second :: rest =>
      let extended := Websocket.extendedOf second
      (rest.drop (extended + 4)).mapIdx fun i b => b ^^^ ((rest.drop extended).take 4).getD (i % 4) 0
  | _ => []

/-- A pong for each ping before the first close, and a close for the latter. -/
def replies (frames : List Bytes) : List Bytes :=
  ((frames.takeWhile fun f => ¬HasOpcode 0x8 f).filter fun f => HasOpcode 0x9 f).map
      (fun f => makeWsFrame (framePayload f) 0xA) ++
    if ∃ f ∈ frames, HasOpcode 0x8 f then [makeWsFrame [] 0x8] else []

variable {f : Bytes} {frames : List Bytes}

@[simp] theorem replies_nil : replies [] = [] := by simp [replies]

theorem replies_cons_of_close (h : HasOpcode 0x8 f) : replies (f :: frames) = [makeWsFrame [] 0x8] := by
  simp [replies, h]

theorem replies_cons_of_ping (hclose : ¬HasOpcode 0x8 f) (hping : HasOpcode 0x9 f) :
    replies (f :: frames) = makeWsFrame (framePayload f) 0xA :: replies frames := by
  simp [replies, hclose, hping]

theorem replies_cons_of_other (hclose : ¬HasOpcode 0x8 f) (hping : ¬HasOpcode 0x9 f) :
    replies (f :: frames) = replies frames := by
  simp [replies, hclose, hping]

/-- A complete frame has a header and, masked or not, room for a masking key. -/
theorem CompleteFrame.shape (h : CompleteFrame f) :
    ∃ first second rest, f = first :: second :: rest ∧ Websocket.extendedOf second + 4 ≤ rest.length := by
  have hsix := six_le_declaredSize (peek f fun _ => 0)
  unfold CompleteFrame at h
  obtain ⟨first, second, rest, rfl⟩ : ∃ first second rest, f = first :: second :: rest := by
    match f, (by omega : 6 ≤ f.length) with
    | first :: second :: rest, _ => exact ⟨first, second, rest, rfl⟩
  refine ⟨first, second, rest, rfl, ?_⟩
  have hbyte : peek (first :: second :: rest) (fun _ => 0) 1 = second := rfl
  simp only [declaredSize, hbyte, List.length_cons] at h
  unfold Websocket.extendedOf
  split_ifs at h ⊢ <;> omega

/-- The payload of the frame of a client. -/
theorem framePayload_encode (g : ClientFrame) : framePayload g.encode = g.unmasked := by
  obtain ⟨second, extension, hheader, -, hextension⟩ := LengthForm.header_eq g.fits
  have hencode : g.encode = g.first :: second :: (extension ++ (List.ofFn g.maskingKey ++ g.payload)) := by
    rw [ClientFrame.encode, hheader]
    rfl
  have hkey : ((extension ++ (List.ofFn g.maskingKey ++ g.payload)).drop extension.length).take 4 =
      List.ofFn g.maskingKey := by
    rw [List.drop_left]
    exact List.take_left' List.length_ofFn
  have hdata : (extension ++ (List.ofFn g.maskingKey ++ g.payload)).drop (extension.length + 4) = g.payload := by
    rw [List.drop_length_add_append]
    exact List.drop_left' List.length_ofFn
  simp only [hencode, framePayload, hextension, hkey, hdata, mapIdx_ofFn]
  rfl

/-- The decoder on a complete frame, as far as its answer is concerned. -/
theorem decodeWebsocketFrame_complete (h : CompleteFrame f) :
    if HasOpcode 0x8 f then decodeWebsocketFrame f = some (-3, [])
    else if HasOpcode 0x9 f then decodeWebsocketFrame f = some (2, framePayload f)
    else ∃ code data, decodeWebsocketFrame f = some (code, data) ∧ code ≠ -3 ∧ code ≠ 2 := by
  obtain ⟨first, second, rest, rfl, hlong⟩ := h.shape
  have henough : ¬rest.length < Websocket.extendedOf second + 4 := by omega
  have hopcode (opcode : UInt8) : HasOpcode opcode (first :: second :: rest) ↔
    second &&& 0x80 ≠ 0 ∧ first &&& 0xf = opcode := Iff.rfl
  simp only [hopcode, decodeWebsocketFrame, offset_eq, if_neg henough, framePayload]
  split_ifs <;> simp_all

/-! ### The loop -/

namespace WebServer

variable {N : ℕ} {w w' : WebServer N} {i : ℕ} {idx : ℤ} {ws : WsClient} {env : WebEnv}

/-- What the frames do to the websocket client `idx` of the connection `k` and to the sets of websockets:
nothing, or it is no longer active and what it has collected is dropped. -/
structure Answered (idx : ℤ) (k : ℕ) (closed : Prop) [Decidable closed] (w w' : WebServer N) : Prop where
  all : w'.allWebsocketConnections = w.allWebsocketConnections
  active : w'.activeWebsocketConnectionsClientIdxs =
    if closed then w.activeWebsocketConnectionsClientIdxs.erase k else w.activeWebsocketConnectionsClientIdxs
  client : ∃ ws, w'.wsClient idx = some ws ∧ ws.clientIdx = k ∧ (closed → ws.websocketFrames = [])

/-- A change of the record of the client that keeps its connection. -/
theorem answered_setWsClient (hws : w.wsClient idx = some ws) (ws' : WsClient) (hk : ws'.clientIdx = ws.clientIdx) :
    Answered idx ws.clientIdx False w (w.setWsClient idx ws') :=
  ⟨rfl, by simp [setWsClient], ws', wsClient_setWsClient hws ws', hk, False.elim⟩

/-- `close_ws_connection_req` of a client that has not closed the connection itself. -/
theorem answered_closeWsConnectionReq (hws : w.wsClient idx = some ws) :
    ∃ w', w.closeWsConnectionReq idx false = some (w', [.writeConnection ws.clientIdx (makeWsFrame [] 0x8)]) ∧
      Answered idx ws.clientIdx True w w' := by
  simp only [closeWsConnectionReq, hws, Option.map_some]
  exact ⟨_, rfl, rfl, by simp [setWsClient], _, wsClient_setWsClient hws _, rfl, fun _ => rfl⟩

/-- One frame of the loop. -/
theorem answered_processFrame (hcomplete : CompleteFrame f) (hws : w.wsClient idx = some ws) :
    ∃ w', w.processFrame idx f =
        some (w', (replies [f]).map (.writeConnection ws.clientIdx), decide (HasOpcode 0x8 f)) ∧
      Answered idx ws.clientIdx (HasOpcode 0x8 f) w w' := by
  obtain ⟨first, second, rest, hf, -⟩ := hcomplete.shape
  have hne : f ≠ [] := by simp [hf]
  have hdecode := decodeWebsocketFrame_complete hcomplete
  unfold processFrame
  rw [if_neg hne, hws]
  by_cases hclose : HasOpcode 0x8 f
  · rw [if_pos hclose] at hdecode
    have hset := wsClient_setWsClient hws { ws with currentlyWriting := ws.currentlyWriting + 1 }
    obtain ⟨w', hreq, hall, hactive, hclient⟩ := answered_closeWsConnectionReq hset
    refine ⟨w', ?_, hall, by simpa [hclose, setWsClient] using hactive, by simpa [hclose] using hclient⟩
    simp [hdecode, hreq, hclose, replies_cons_of_close]
  · rw [if_neg hclose] at hdecode
    by_cases hping : HasOpcode 0x9 f
    · rw [if_pos hping] at hdecode
      refine ⟨_, ?_, by simpa [hclose] using
        answered_setWsClient hws { ws with currentlyWriting := ws.currentlyWriting + 1 } rfl⟩
      simp [hdecode, hclose, replies_cons_of_ping hclose hping]
    · rw [if_neg hping] at hdecode
      obtain ⟨code, data, hdecode, hnotClose, hnotPing⟩ := hdecode
      have hreplies : replies [f] = [] := by rw [replies_cons_of_other hclose hping, replies_nil]
      simp only [hdecode, if_neg hnotClose, if_neg hnotPing, hreplies, List.map_nil, hclose, decide_false]
      split_ifs
      · exact ⟨_, rfl, answered_setWsClient hws { ws with websocketFrames := [] } rfl⟩
      · exact ⟨_, rfl, answered_setWsClient hws { ws with websocketFrames := data ++ ws.websocketFrames } rfl⟩
      · exact ⟨w, rfl, rfl, by simp, ws, hws, rfl, False.elim⟩

/-- The loop over all frames of a read. -/
theorem answered_processFrames (hcomplete : ∀ f ∈ frames, CompleteFrame f) (hws : w.wsClient idx = some ws) :
    ∃ w', processFrames idx frames w =
        some (w', (replies frames).map (.writeConnection ws.clientIdx), decide (∃ f ∈ frames, HasOpcode 0x8 f)) ∧
      Answered idx ws.clientIdx (∃ f ∈ frames, HasOpcode 0x8 f) w w' := by
  induction frames generalizing w ws with
  | nil => exact ⟨w, by simp [processFrames, replies], rfl, by simp, ws, hws, rfl, by simp⟩
  | cons f frames ih =>
      obtain ⟨w₁, hframe, hanswered⟩ := answered_processFrame (hcomplete f (by simp)) hws
      rw [processFrames, hframe]
      by_cases hclose : HasOpcode 0x8 f
      · refine ⟨w₁, ?_, by simpa [hclose] using hanswered⟩
        simp [hclose, replies_cons_of_close]
      · obtain ⟨hall, hactive, ws₁, hws₁, hk, -⟩ := hanswered
        obtain ⟨w', hrest, hall', hactive', hclient'⟩ := ih (fun g hg => hcomplete g (List.mem_cons_of_mem _ hg)) hws₁
        rw [hk] at hrest hactive' hclient'
        rw [if_neg hclose] at hactive
        refine ⟨w', ?_, hall'.trans hall, ?_, ?_⟩
        · simp only [hclose, decide_false, hrest, Option.map_some, ← List.map_append, List.exists_mem_cons_iff,
            false_or]
          by_cases hping : HasOpcode 0x9 f
          · rw [replies_cons_of_ping hclose hping, replies_cons_of_ping hclose hping]
            simp
          · rw [replies_cons_of_other hclose hping, replies_cons_of_other hclose hping]
            simp
        · rw [hactive', hactive]
          simp [hclose]
        · simpa [hclose] using hclient'

end WebServer

/-! ### The queue of the connection -/

namespace TcpServer

variable {s s' : TcpServer} {T : ServerType}

theorem queue_addReadReq (s : TcpServer) (i j : ℕ) (event : EventType) :
    ((s.addReadReq i event).clients j).queue = (s.clients j).queue := by
  unfold addReadReq
  split
  · rfl
  · by_cases hij : j = i
    · subst hij
      simp [Client.queue]
    · rw [modifyClient_of_ne _ _ _ _ hij]
      rfl

/-- What is written to one connection goes to the end of its queue, in order. -/
theorem calls_writeConnection {k : ℕ} (hk : k < s.numClients) (T : ServerType) (buffs : List Bytes) :
    ∃ s' new, s.calls T (buffs.map (.writeConnection k)) = some s' ∧ s'.numClients = s.numClients ∧
      (s'.clients k).queue = (s.clients k).queue ++ new ∧
      new.map (fun d => (d.buff, d.ptrBuff)) = buffs.map fun b => (b, Ptr.null) := by
  induction buffs generalizing s with
  | nil => exact ⟨s, [], rfl, rfl, by simp, rfl⟩
  | cons buff buffs ih =>
      have hsame : (s.writeConnection T k buff).numClients = s.numClients := by
        rw [(alters_writeConnection T buff).rest]
      have hqueue := enqueue_queue (s := { s with nextAddr := s.nextAddr + 1 }) (i := k) T
        { buff, addr := s.nextAddr } buff.length
      obtain ⟨s', new, hcalls, hnum, hnew, hbuffs⟩ := ih (s := s.writeConnection T k buff) (hsame ▸ hk)
      refine ⟨s', ({ buff, addr := s.nextAddr } : WriteData).unwritten :: new, ?_, hnum.trans hsame, ?_, ?_⟩
      · have hcall : s.call T (.writeConnection k buff) = some (s.writeConnection T k buff) := by
          simp [call, TcpCall.slots, hk, run]
        rw [List.map_cons, calls, List.foldlM_cons, hcall]
        exact hcalls
      · have hone : ((s.writeConnection T k buff).clients k).queue =
            (s.clients k).queue ++ [({ buff, addr := s.nextAddr } : WriteData).unwritten] := hqueue
        rw [hnew, hone, List.append_assoc, List.singleton_append]
      · rw [List.map_cons, List.map_cons, hbuffs]
        rfl

end TcpServer

/-- **What a websocket client is answered.** When one read of client `i`, whose websocket is `ws`, completes
the frames `frames`: `websocket_process_read_cb` writes to the connection of `ws` and to no other; what goes to
the end of its queue is a pong for each masked ping before the first masked close, with the payload of the
ping, in order, and then one empty close frame if there is a masked close. With a close the connection is no
longer one of the active websockets, the payloads collected are dropped and nothing more is read; otherwise
both sets of websockets are as before. -/
theorem websocket_replies {N : ℕ} (env : WebEnv) (w : WebServer N) (i : ℕ) (buffer : Bytes) (client : TcpClient)
    (ws : WsClient) (hclient : w.tcpClients[i]? = some client) (hws : w.wsClient client.wsClientIdx = some ws)
    (data : ReceivingDataInfo) (frames : List Bytes)
    (hframes : getWsFrames (buffer.length + 1) ws.receivingData ⟨buffer, env.wsBeyond⟩ = some (data, 1, frames))
    (hcomplete : ∀ f ∈ frames, CompleteFrame f) :
    ∃ w' reading, w.websocketProcessReadCb env i buffer =
        some (w', (replies frames).map (.writeConnection ws.clientIdx) ++ reading) ∧
      (∀ (T : ServerType) (s : TcpServer), i < s.numClients → ws.clientIdx < s.numClients → ∃ s' new,
        s.calls T ((replies frames).map (.writeConnection ws.clientIdx) ++ reading) = some s' ∧
        (s'.clients ws.clientIdx).queue = (s.clients ws.clientIdx).queue ++ new ∧
        new.map (fun d => (d.buff, d.ptrBuff)) = (replies frames).map fun b => (b, Ptr.null)) ∧
      w'.allWebsocketConnections = w.allWebsocketConnections ∧
      if ∃ f ∈ frames, HasOpcode 0x8 f then
        reading = [] ∧
        w'.activeWebsocketConnectionsClientIdxs = w.activeWebsocketConnectionsClientIdxs.erase ws.clientIdx ∧
        ∃ ws', w'.wsClient client.wsClientIdx = some ws' ∧ ws'.websocketFrames = []
      else
        reading = [.readConnection i] ∧
        w'.activeWebsocketConnectionsClientIdxs = w.activeWebsocketConnectionsClientIdxs := by
  have hset := WebServer.wsClient_setWsClient hws { ws with receivingData := data }
  obtain ⟨w', hloop, hall, hactive, ws', hws', -, hdropped⟩ := WebServer.answered_processFrames hcomplete hset
  refine ⟨w', if ∃ f ∈ frames, HasOpcode 0x8 f then [] else [.readConnection i], ?_, fun T s hi hk => ?_, hall, ?_⟩
  · simp only [WebServer.websocketProcessReadCb, hclient, hws, hframes, if_true, hloop, Option.map_some,
      decide_eq_true_eq]
  · obtain ⟨s', new, hcalls, hnum, hqueue, hbuffs⟩ := TcpServer.calls_writeConnection hk T (replies frames)
    rw [TcpServer.calls, List.foldlM_append]
    rw [TcpServer.calls] at hcalls
    rw [hcalls]
    split
    · exact ⟨s', new, rfl, hqueue, hbuffs⟩
    · refine ⟨s'.addReadReq i .read, new, ?_, ?_, hbuffs⟩
      · simp [TcpServer.call, TcpCall.slots, TcpServer.run, hnum, hi]
      · rw [TcpServer.queue_addReadReq, hqueue]
  · split_ifs at hactive ⊢
    · exact ⟨rfl, hactive, ws', hws', hdropped ‹_›⟩
    · exact ⟨rfl, hactive⟩

/-- A ping with one byte of payload, a close, and another ping, which is not answered. -/
def pingsAndClose : Bytes :=
  [0x89, 0x81, 0, 0, 0, 1, 7] ++ [0x88, 0x80, 0, 0, 0, 0] ++ [0x89, 0x80, 0, 0, 0, 0]

/-- The one connection of the server is an active websocket. -/
def activeWebsocket : WebServer 1 :=
  { oneWebsocket with allWebsocketConnections := {0}, activeWebsocketConnectionsClientIdxs := {0} }

theorem websocket_replies_pings :
    ∃ w', activeWebsocket.websocketProcessReadCb {} 0 pingsAndClose =
        some (w', [.writeConnection 0 [0x8A, 1, 7], .writeConnection 0 [0x88, 0]]) ∧
      w'.activeWebsocketConnectionsClientIdxs = ∅ := by
  have hframes : getWsFrames (pingsAndClose.length + 1) {} ⟨pingsAndClose, fun _ _ => 0⟩ = some ({}, 1,
      [[0x89, 0x81, 0, 0, 0, 1, 7], [0x88, 0x80, 0, 0, 0, 0], [0x89, 0x80, 0, 0, 0, 0]]) := by
    decide +kernel
  obtain ⟨w', reading, hcall, -, -, hclosed⟩ := websocket_replies {} activeWebsocket 0 pingsAndClose
    { wsClientIdx := 0 } { clientIdx := 0 } rfl rfl {} _ hframes (by decide +kernel)
  rw [if_pos (by decide)] at hclosed
  obtain ⟨rfl, hactive, -⟩ := hclosed
  have hreplies : replies [[0x89, 0x81, 0, 0, 0, 1, 7], [0x88, 0x80, 0, 0, 0, 0], [0x89, 0x80, 0, 0, 0, 0]] =
      [[0x8A, 1, 7], [0x88, 0]] := by
    decide +kernel
  refine ⟨w', ?_, hactive⟩
  rw [hcall, hreplies]
  rfl

end LiburingServer
