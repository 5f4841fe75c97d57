import LiburingServer.HttpRequests
import LiburingServer.HttpResponses
import LiburingServer.WebFrame

/-! The opening handshake of a websocket, from the request of the client to the answer that it checks. -/

namespace LiburingServer

open HttpMessage

variable {N : ℕ}

/-- A request that names the key on a line of its own, and on no later line. -/
structure UpgradeRequest where
  head : Head
  before : List Field
  key : Field
  after : List Field
  method : head.first = ascii "GET"
  version : head.third = ascii "HTTP/1.1"
  target : (strtok (ascii "/") (head.second.drop 1)).head? = some (ascii "ws")
  fields : head.fields = before ++ key :: after
  name : key.name = ascii "Sec-WebSocket-Key"
  value : key.value ≠ []
  last : ∀ f ∈ after, occurs (ascii "Sec-WebSocket-Key") f.encode = false

namespace UpgradeRequest

variable (u : UpgradeRequest)

theorem secWebsocketKey : (requestOf u.head).secWebsocketKey = u.key.value := by
  have hencode : u.key.encode = ascii "Sec-WebSocket-Key: " ++ u.key.value := by
    have hname : ascii "Sec-WebSocket-Key: " = ascii "Sec-WebSocket-Key" ++ [58, 32] := by decide
    rw [Field.encode, u.name, hname]
  have hkey : occurs (ascii "Sec-WebSocket-Key") u.key.encode = true := by
    rw [occurs_iff, Field.encode, u.name, List.append_assoc]
    exact (List.prefix_append _ _).isInfix
  have hafter : (u.after.map Field.encode).filter (occurs (ascii "Sec-WebSocket-Key")) = [] := by
    refine List.filter_eq_nil_iff.mpr fun line hline => ?_
    obtain ⟨f, hf, rfl⟩ := List.mem_map.mp hline
    simp [u.last f hf]
  have hlines : u.head.lines =
      (u.head.startLine :: u.before.map Field.encode) ++ u.key.encode :: u.after.map Field.encode := by
    simp [Head.lines, u.fields]
  have hlast : (u.head.lines.filter (occurs (ascii "Sec-WebSocket-Key"))).getLast? = some u.key.encode := by
    rw [hlines, List.filter_append, List.filter_cons_of_pos hkey, hafter, List.getLast?_concat]
  unfold requestOf
  dsimp only
  rw [hlast, hencode, Option.map_some, List.drop_left, Option.getD_some]

theorem isWebsocket : (requestOf u.head).isGet = true ∧ (requestOf u.head).isWebsocket = true := by
  refine ⟨by simp [requestOf, u.method], ?_⟩
  unfold HttpRequest.isWebsocket
  rw [u.secWebsocketKey, decide_eq_true_eq]
  exact ⟨u.target, u.value⟩

/-- The request is long enough, and begins like one. -/
theorem isValidHttpReq : isValidHttpReq u.head.encode = true := by
  have hget : ascii "GET " = ascii "GET" ++ [32] := by decide
  have hlengths : (ascii "GET").length = 3 ∧ (ascii "HTTP/1.1").length = 8 := by decide
  have hsecond := List.length_pos_iff.mpr u.head.validSecond.1
  have hcut : u.head.encode = ascii "GET " ++ (u.head.second ++ 32 :: (ascii "HTTP/1.1" ++ crlf ++
      ((u.head.fields.map Field.encode).flatMap (fun line => line ++ crlf) ++ crlf))) := by
    simp [Head.encode, Head.lines, Head.startLine, u.method, u.version, hget]
  have hlength : 16 ≤ u.head.encode.length := by
    rw [hcut, hget]
    simp only [List.length_append, List.length_cons, crlf, hlengths.1, hlengths.2]
    omega
  have hprefix : (ascii "GET ").isPrefixOf u.head.encode = true := by
    rw [hcut, List.isPrefixOf_iff_prefix]
    exact List.prefix_append _ _
  simp [LiburingServer.isValidHttpReq, hlength, hprefix]

end UpgradeRequest

namespace WebServer

variable {w w' : WebServer N} {env : WebEnv} {i : ℕ}

/-- A slot for a new websocket, free or at the end, is found. -/
theorem newWsClient_isSome (hfreed : ∀ idx ∈ w.freedIndexes, (w.wsClient idx).isSome) (i : ℕ) :
    ∃ w' idx client, w.newWsClient i = some (w', idx) ∧ w'.tcpClients = w.tcpClients ∧
      i ∈ w'.activeWebsocketConnectionsClientIdxs ∧ idx ∈ w'.allWebsocketConnections ∧
      w'.wsClient idx = some client ∧ client.clientIdx = i := by
  unfold newWsClient
  dsimp only
  split
  · rename_i hne
    have hmem := Finset.min'_mem _ hne
    set idx := w.freedIndexes.min' hne
    obtain ⟨freed, hclient⟩ := Option.isSome_iff_exists.mp (hfreed idx hmem)
    obtain ⟨hpos, hget⟩ : 0 ≤ idx ∧ w.websocketClients[idx.toNat]? = some freed := by
      simpa [wsClient] using hclient
    have hlt : idx.toNat < w.websocketClients.length := (List.getElem?_eq_some_iff.mp hget).1
    rw [hclient]
    refine ⟨_, idx, { id := (freed.id + 1) % 100, clientIdx := i }, rfl, rfl, Finset.mem_insert_self ..,
      Finset.mem_insert_self .., ?_, rfl⟩
    simp [wsClient, setWsClient, hpos, hlt]
  · refine ⟨_, w.websocketClients.length, { clientIdx := i }, rfl, rfl, Finset.mem_insert_self ..,
      Finset.mem_insert_self .., ?_, rfl⟩
    simp [wsClient]

/-- The answer to a websocket request, and what the server knows of the connection then. -/
theorem websocketAcceptReadCb_isSome (hfreed : ∀ idx ∈ w.freedIndexes, (w.wsClient idx).isSome)
    (hslot : i < w.tcpClients.length) (env : WebEnv) (key : Bytes) :
    ∃ w' idx client ws, w.websocketAcceptReadCb env i key =
        some (w', [.writeConnection i (upgradeResponse (env.acceptHeaderValue key))]) ∧
      i ∈ w'.activeWebsocketConnectionsClientIdxs ∧ idx ∈ w'.allWebsocketConnections ∧
      w'.tcpClients[i]? = some client ∧ client.wsClientIdx = idx ∧ w'.wsClient idx = some ws ∧ ws.clientIdx = i := by
  obtain ⟨w₁, idx, ws, hnew, hclients, hactive, hall, hws, hidx⟩ := newWsClient_isSome hfreed i
  have hlt : i < w₁.tcpClients.length := hclients ▸ hslot
  refine ⟨w₁.setTcpClient i { w₁.tcpClients[i] with wsClientIdx := idx }, idx,
    { w₁.tcpClients[i] with wsClientIdx := idx }, ws, ?_, hactive, hall, ?_, rfl, hws, hidx⟩
  · simp [websocketAcceptReadCb, hnew, hlt, upgradeResponse]
  · simp [setTcpClient, hlt]

end WebServer

/-- **The opening handshake.** Whatever fields a websocket request has before and behind its key, the read callback
answers it and reads on from what is now a websocket for the slot. From the answer and the frames behind it the client
receives the switch of protocols, and leaves the frames; what it finds to be accepted is the digest of its own key. -/
theorem websocket_handshake (sha1 : Bytes → Bytes) (env : WebEnv) (w : WebServer N) (i : ℕ) (u : UpgradeRequest)
    (hbeyond : env.beyond.head? = some 0) (haccept : env.acceptHeaderValue = getAcceptHeaderValue sha1)
    (hslot : i < w.tcpClients.length) (hfreed : ∀ idx ∈ w.freedIndexes, (w.wsClient idx).isSome) :
    ∃ w' resp client ws,
      w.readCb env i u.head.encode = some (w', [.writeConnection i resp, .readConnection i]) ∧
      i ∈ w'.activeWebsocketConnectionsClientIdxs ∧ w'.tcpClients[i]? = some client ∧
      client.wsClientIdx ∈ w'.allWebsocketConnections ∧ w'.wsClient client.wsClientIdx = some ws ∧ ws.clientIdx = i ∧
      ∃ m : Message, (∀ frames, receive (resp ++ frames) = some (m, frames)) ∧ m.head.second = ascii "101" ∧
        m.head.values (ascii "upgrade") = [ascii "websocket"] ∧ m.head.values (ascii "connection") = [ascii "Upgrade"] ∧
        ∃ value, m.head.values (ascii "sec-websocket-accept") = [value] ∧
          Base64.decode value = some (sha1 (u.key.value ++ ascii "258EAFA5-E914-47DA-95CA-C5AB0DC85B11")) := by
  obtain ⟨w', idx, client, ws, hanswer, hactive, hall, hclient, rfl, hws, hidx⟩ :=
    WebServer.websocketAcceptReadCb_isSome hfreed hslot env u.key.value
  set value := env.acceptHeaderValue u.key.value with hvalue
  have hencoded : value = Base64.encode (sha1 (u.key.value ++ ascii "258EAFA5-E914-47DA-95CA-C5AB0DC85B11")) := by
    rw [hvalue, haccept, getAcceptHeaderValue]
  have hvalid : ValidValue value := hencoded ▸ validValue_encode _
  have hcallback : w.readCb env i u.head.encode =
      some (w', [.writeConnection i (upgradeResponse value), .readConnection i]) := by
    obtain ⟨b, beyond, hcons⟩ := List.exists_cons_of_ne_nil (List.ne_nil_of_mem (List.mem_of_mem_head? hbeyond))
    obtain rfl : b = 0 := by simpa [hcons] using hbeyond
    have hparsed : parseRequest (u.head.encode ++ env.beyond) = some (requestOf u.head) := by
      rw [hcons]
      exact (readRequest_eq_ok_iff.mp (request_parsed u.head beyond)).2
    obtain ⟨hget, hwebsocket⟩ := u.isWebsocket
    unfold WebServer.readCb
    rw [if_pos u.isValidHttpReq, hparsed]
    dsimp only
    unfold WebServer.respond
    rw [if_pos hget, if_pos hwebsocket, u.secWebsocketKey, hanswer]
    simp [hactive]
  refine ⟨w', upgradeResponse value, client, ws, hcallback, hactive, hclient, hall, hws, hidx,
    upgradeMessage value hvalid, fun frames => upgradeResponse_eq_encode hvalid ▸ receive_encode _ frames, rfl, ?_, ?_,
    value, ?_, hencoded ▸ Base64.decode_encode _⟩
  · exact (upgradeHead_values hvalid _).trans
      (by rw [if_pos (by decide +kernel), if_neg (by decide +kernel), if_neg (by decide +kernel)]; rfl)
  · exact (upgradeHead_values hvalid _).trans
      (by rw [if_neg (by decide +kernel), if_pos (by decide +kernel), if_neg (by decide +kernel)]; rfl)
  · exact (upgradeHead_values hvalid _).trans
      (by rw [if_neg (by decide +kernel), if_neg (by decide +kernel), if_pos (by decide +kernel)]; rfl)

/-- A request with the key `dGhlIHNhbXBsZSBub25jZQ==` between two other fields. -/
def sampleRequest : UpgradeRequest where
  head :=
    { first := ascii "GET"
      second := ascii "/ws/chat"
      third := ascii "HTTP/1.1"
      fields := [textField "Host" "localhost" (by decide +kernel),
        textField "Sec-WebSocket-Key" "dGhlIHNhbXBsZSBub25jZQ==" (by decide +kernel),
        textField "Sec-WebSocket-Version" "13" (by decide +kernel)]
      validFirst := by decide +kernel
      validSecond := by decide +kernel
      validThird := by decide +kernel }
  before := [textField "Host" "localhost" (by decide +kernel)]
  key := textField "Sec-WebSocket-Key" "dGhlIHNhbXBsZSBub25jZQ==" (by decide +kernel)
  after := [textField "Sec-WebSocket-Version" "13" (by decide +kernel)]
  method := rfl
  version := rfl
  target := by decide +kernel
  fields := rfl
  name := rfl
  value := by decide +kernel
  last := by decide +kernel

/-- The first client of a server asks for a websocket. -/
theorem websocket_handshake_sample :
    let env : WebEnv := { beyond := [0], acceptHeaderValue := getAcceptHeaderValue fun _ => sampleDigest }
    let w : WebServer 2 := { inotifyFd := 7, tcpClients := [{}] }
    ∃ w' resp client ws,
      w.readCb env 0 sampleRequest.head.encode = some (w', [.writeConnection 0 resp, .readConnection 0]) ∧
      0 ∈ w'.activeWebsocketConnectionsClientIdxs ∧ w'.tcpClients[0]? = some client ∧
      client.wsClientIdx ∈ w'.allWebsocketConnections ∧ w'.wsClient client.wsClientIdx = some ws ∧ ws.clientIdx = 0 ∧
      ∃ m : Message, (∀ frames, receive (resp ++ frames) = some (m, frames)) ∧ m.head.second = ascii "101" ∧
        m.head.values (ascii "upgrade") = [ascii "websocket"] ∧ m.head.values (ascii "connection") = [ascii "Upgrade"] ∧
        ∃ value, m.head.values (ascii "sec-websocket-accept") = [value] ∧ Base64.decode value = some sampleDigest :=
  websocket_handshake (fun _ => sampleDigest) _ _ 0 sampleRequest rfl rfl (by decide) (by simp)

end LiburingServer
