import LiburingServer.TcpLoop
import LiburingServer.Cache
import LiburingServer.Http
import LiburingServer.WsFrames

/-! `basic_web_server` and its callbacks: files over HTTP with the cache, websockets, and the broadcast
messages exchanged with the central thread. A callback has no result where the source indexes a vector
out of its range, dereferences a null pointer or throws. -/

namespace LiburingServer

/-- `ws_client`. -/
structure WsClient where
  currentlyWriting : ℤ := 0
  close : Bool := false
  websocketFrames : Bytes := []
  receivingData : ReceivingDataInfo := {}
  id : ℤ := -1
  clientIdx : ℕ
  deriving DecidableEq

inductive MessageType where
  | websocketBroadcast
  | broadcastFinished
  deriving DecidableEq

/-- `message_post_data`. -/
structure MessagePostData where
  msgType : MessageType := .websocketBroadcast
  buffPtr : Ptr := .null
  length : ℕ := 0
  itemIdx : ℕ := 0
  additionalInfo : ℕ := 0
  deriving DecidableEq

/-- `broadcast_data_items`; its numbers are `size_t`. -/
structure BroadcastDataItems where
  buffPtr : Ptr := .null
  dataLen : ℕ := 2 ^ 64 - 1
  uses : ℕ := 2 ^ 64 - 1
  deriving DecidableEq

/-- `--uses`. -/
def BroadcastDataItems.used (item : BroadcastDataItems) : BroadcastDataItems :=
  { item with uses := if item.uses = 0 then 2 ^ 64 - 1 else item.uses - 1 }

/-- `stored`, `received` and `finished` are bookkeeping that the source does not have: what was stored
in the cache, by path, and the items of the broadcasts that were received and reported as finished. -/
structure WebServer (N : ℕ) where
  inotifyFd : ℤ
  tcpClients : List TcpClient := []
  webCache : Cache N := {}
  websocketClients : List WsClient := []
  freedIndexes : Finset ℤ := ∅
  allWebsocketConnections : Finset ℤ := ∅
  activeWebsocketConnectionsClientIdxs : Finset ℕ := ∅
  broadcastData : List BroadcastDataItems := []
  toServerQueue : List MessagePostData := []
  toProgramQueue : List MessagePostData := []
  centralCommunicationEventfd : ℕ := 0
  stored : List (Bytes × Bytes) := []
  received : List ℕ := []
  finished : List ℕ := []

/-- What the environment contributes to a callback: the memory behind a read buffer, the descriptor
and the size of each file that is opened, what OpenSSL makes of a websocket key, what the hash tables
and `inotify_add_watch` yield. -/
structure WebEnv where
  beyond : Bytes := []
  files : ℕ → ℤ × ℕ := fun _ => (-1, 0)
  acceptHeaderValue : Bytes → Bytes := fun _ => []
  wsBeyond : ℕ → ℕ → UInt8 := fun _ _ => 0
  order : List ℕ := []
  first : ℕ := 0
  wd : ℤ := 0

/-- The value in the first four bytes of an inotify event. -/
def inotifyWatch (buff : Bytes) : ℤ :=
  toInt ((buff.take 4).reverse.foldl (fun n b => n * 256 + b.toNat) 0)

/-- `sizeof(inotify_event)`. -/
def inotifyEventSize : ℕ := 16

/-- `make_ws_frame`: a final unmasked frame. -/
def makeWsFrame (packetMsg : Bytes) (opcode : UInt8) : Bytes :=
  let size := packetMsg.length
  let header :=
    if size < 126 then [size.toUInt8]
    else if size < 65536 then 126 :: bigEndianBytes size 2
    else 127 :: bigEndianBytes size 8
  (128 ||| opcode) :: (header ++ packetMsg)

/-- `decode_websocket_frame`: a code, and the unmasked payload. -/
def decodeWebsocketFrame : Bytes → Option (ℤ × Bytes)
  | first :: second :: rest =>
      let opcode := first &&& 0xf
      if second &&& 0x80 = 0 then some (-1, [])
      else if opcode = 0x8 then some (-3, [])
      else if opcode = 0xA then some (3, [])
      else
        let length := second &&& 0x7f
        let offset := if length = 126 then 2 else if length = 127 then 8 else 0
        if rest.length < offset + 4 then none
        else
          let maskingKey := (rest.drop offset).take 4
          let data := (rest.drop (offset + 4)).mapIdx fun i b => b ^^^ maskingKey.getD (i % 4) 0
          if opcode = 0x9 then some (2, data)
          else if first &&& 0x80 = 0 then some (-2, data)
          else some (1, data)
  | _ => none

/-- Where a pointer that `fetch_item` returns points; an empty buffer has no storage. -/
def CacheFetchItem.ptr {N : ℕ} (item : CacheFetchItem N) : Ptr :=
  match item.buff with
  | some i => if item.bytes = [] then .null else .cached i
  | none => .null

namespace WebServer

variable {N : ℕ}

def setTcpClient (w : WebServer N) (i : ℕ) (client : TcpClient) : WebServer N :=
  { w with tcpClients := w.tcpClients.set i client }

/-- `websocket_clients[ws_client_idx]`. -/
def wsClient (w : WebServer N) (idx : ℤ) : Option WsClient :=
  if 0 ≤ idx then w.websocketClients[idx.toNat]? else none

def setWsClient (w : WebServer N) (idx : ℤ) (client : WsClient) : WebServer N :=
  { w with websocketClients := w.websocketClients.set idx.toNat client }

/-- `post_message_to_program`, which is only called to report a broadcast as finished. -/
def postMessageToProgram (w : WebServer N) (buffPtr : Ptr) (length itemIdx : ℕ) : WebServer N :=
  { w with
    toProgramQueue := w.toProgramQueue ++
      [{ msgType := .broadcastFinished, buffPtr, length, itemIdx, additionalInfo := 2 ^ 64 - 1 }]
    centralCommunicationEventfd := w.centralCommunicationEventfd + 1
    finished := w.finished ++ [itemIdx] }

/-! ### Connections -/

def newTcpClient (w : WebServer N) (i : ℕ) : WebServer N :=
  { w with
    tcpClients :=
      (w.tcpClients ++ List.replicate (i + 1 - w.tcpClients.length) ({} : TcpClient)).set i {} }

def killClient (w : WebServer N) (i : ℕ) : Option (WebServer N) :=
  match w.tcpClients[i]? with
  | none => none
  | some client =>
      (w.webCache.finishedWithItem i client).map fun r =>
        let w := { w.setTcpClient i { r.2 with usingFile := false } with
          webCache := r.1
          allWebsocketConnections := w.allWebsocketConnections.erase client.wsClientIdx }
        if i ∈ w.activeWebsocketConnectionsClientIdxs then
          { w with
            activeWebsocketConnectionsClientIdxs := w.activeWebsocketConnectionsClientIdxs.erase i
            freedIndexes := insert client.wsClientIdx w.freedIndexes }
        else w

def closeConnection (w : WebServer N) (i : ℕ) : Option (WebServer N × List TcpCall) :=
  (w.killClient i).map fun w => (w, [.closeConnection i])

/-- What `write_cb` and `close_cb` do for a broadcast entry: one use less, and the program is told when
there is none left. -/
def broadcastUsed (w : WebServer N) (info : ℤ) : Option (WebServer N) :=
  if info = -1 then some w
  else if info < 0 then none
  else
    match w.broadcastData[info.toNat]? with
    | none => none
    | some item =>
        let w := { w with broadcastData := w.broadcastData.set info.toNat item.used }
        some (if item.used.uses = 0 then w.postMessageToProgram item.buffPtr item.dataLen info.toNat
          else w)

/-! ### Files -/

/-- `send_file_request`; `n` numbers the files opened in one callback. The result says whether the file
could be opened. -/
def sendFileRequest (env : WebEnv) (n : ℕ) (w : WebServer N) (i : ℕ) (filepath : Bytes)
    (acceptBytes : Bool) (responseCode : ℕ) : Option (WebServer N × List TcpCall × Bool) :=
  let fileFd := (env.files n).1
  let fileSize := (env.files n).2
  if fileFd < 0 then some (w, [], false)
  else
    match w.tcpClients[i]? with
    | none => none
    | some client =>
        match w.webCache.fetchItem filepath i client with
        | none => none
        | some (cache, client, item) =>
            let headers := fileHeaders filepath fileSize acceptBytes item.found responseCode
            -- the headers are copied to a buffer whose size is computed in 64 bits
            if (fileSize + headers.length) % 2 ^ 64 < headers.length then none
            else if item.found then
              some ({ w.setTcpClient i client with webCache := cache },
                [.writeConnectionPtr i item.ptr item.size], true)
            else
              let client := { client with lastRequestedReadFilepath := filepath }
              some ({ w.setTcpClient i client with webCache := cache },
                [.customReadReq fileFd fileSize (some i) (headers ++ List.replicate fileSize 0)
                  headers.length (some filepath)], true)

def customReadCb (env : WebEnv) (w : WebServer N) (clientIdx : Option ℕ) (fd : ℤ) (buff : Bytes) :
    Option (WebServer N × List TcpCall) :=
  if fd = w.inotifyFd then
    some ({ w with webCache := w.webCache.inotifyEventHandler (inotifyWatch buff) },
      [.customReadReq w.inotifyFd inotifyEventSize none [] 0 none])
  else
    match clientIdx with
    | none => none
    | some i =>
        match w.tcpClients[i]? with
        | none => none
        | some client =>
            let filepath := client.lastRequestedReadFilepath
            match w.webCache.tryInsertItem filepath buff env.first env.wd with
            | none => none
            | some (cache, true) =>
                (cache.fetchItem filepath i client).map fun r =>
                  ({ w.setTcpClient i r.2.1 with
                      webCache := r.1, stored := w.stored ++ [(filepath, buff)] },
                    [.writeConnectionPtr i r.2.2.ptr r.2.2.size])
            | some (_, false) => some (w, [.writeConnection i buff])

/-! ### Websockets -/

/-- `new_ws_client`. -/
def newWsClient (w : WebServer N) (i : ℕ) : Option (WebServer N × ℤ) :=
  let enter (w : WebServer N) (index : ℤ) : WebServer N × ℤ :=
    ({ w with
        allWebsocketConnections := insert index w.allWebsocketConnections
        activeWebsocketConnectionsClientIdxs := insert i w.activeWebsocketConnectionsClientIdxs }, index)
  if h : w.freedIndexes.Nonempty then
    let index := w.freedIndexes.min' h
    match w.wsClient index with
    | none => none
    | some freed =>
        let w := { w with freedIndexes := w.freedIndexes.erase index }
        some (enter (w.setWsClient index { id := (freed.id + 1) % 100, clientIdx := i }) index)
  else
    some (enter { w with websocketClients := w.websocketClients ++ [{ clientIdx := i }] }
      w.websocketClients.length)

def websocketAcceptReadCb (env : WebEnv) (w : WebServer N) (i : ℕ) (secWebsocketKey : Bytes) :
    Option (WebServer N × List TcpCall) :=
  let resp := ascii "HTTP/1.1 101 Switching Protocols\r\nUpgrade: websocket\r\nConnection: Upgrade\r\n" ++
    ascii "Sec-WebSocket-Accept: " ++ env.acceptHeaderValue secWebsocketKey ++ ascii "\r\n\r\n"
  match w.newWsClient i with
  | none => none
  | some (w, index) =>
      match w.tcpClients[i]? with
      | none => none
      | some client => some (w.setTcpClient i { client with wsClientIdx := index }, [.writeConnection i resp])

def closeWsConnectionReq (w : WebServer N) (idx : ℤ) (clientAlreadyClosed : Bool) :
    Option (WebServer N × List TcpCall) :=
  (w.wsClient idx).map fun client =>
    let w := w.setWsClient idx
      { client with currentlyWriting := client.currentlyWriting + 1, websocketFrames := [] }
    let active := w.activeWebsocketConnectionsClientIdxs.erase client.clientIdx
    ({ w with activeWebsocketConnectionsClientIdxs := active },
      if clientAlreadyClosed then [] else [.writeConnection client.clientIdx (makeWsFrame [] 0x8)])

def closeWsConnectionPotentialConfirm (w : WebServer N) (idx : ℤ) :
    Option (WebServer N × List TcpCall) :=
  match w.wsClient idx with
  | none => none
  | some client =>
      if client.currentlyWriting = 1 then
        if client.close then
          (w.closeConnection client.clientIdx).map fun r =>
            ({ r.1 with freedIndexes := insert idx r.1.freedIndexes }, r.2)
        else some (w, [])
      else some (w.setWsClient idx { client with currentlyWriting := client.currentlyWriting - 1 }, [])

/-- One frame of the loop of `websocket_process_read_cb`; the result says whether the connection is
being closed. The contents of a finished message are not used. -/
def processFrame (w : WebServer N) (idx : ℤ) (frame : Bytes) : Option (WebServer N × List TcpCall × Bool) :=
  if frame = [] then some (w, [], false)
  else
    match decodeWebsocketFrame frame, w.wsClient idx with
    | some (code, data), some client =>
        if code = 1 then some (w.setWsClient idx { client with websocketFrames := [] }, [], false)
        else if code = -2 then
          some (w.setWsClient idx { client with websocketFrames := data ++ client.websocketFrames }, [], false)
        else if code = -3 then
          let w := w.setWsClient idx { client with currentlyWriting := client.currentlyWriting + 1 }
          (w.closeWsConnectionReq idx false).map fun r => (r.1, r.2, true)
        else if code = 2 then
          let w := w.setWsClient idx { client with currentlyWriting := client.currentlyWriting + 1 }
          some (w, [.writeConnection client.clientIdx (makeWsFrame data 0xA)], false)
        else some (w, [], false)
    | _, _ => none

/-- The loop over the frames; it ends with a frame that closes the connection. -/
def processFrames (idx : ℤ) : List Bytes → WebServer N → Option (WebServer N × List TcpCall × Bool)
  | [], w => some (w, [], false)
  | frame :: frames, w =>
      match w.processFrame idx frame with
      | none => none
      | some (w, calls, true) => some (w, calls, true)
      | some (w, calls, false) => (processFrames idx frames w).map fun r => (r.1, calls ++ r.2.1, r.2.2)

def websocketProcessReadCb (env : WebEnv) (w : WebServer N) (i : ℕ) (buffer : Bytes) :
    Option (WebServer N × List TcpCall) :=
  match w.tcpClients[i]? with
  | none => none
  | some client =>
      let idx := client.wsClientIdx
      match w.wsClient idx with
      | none => none
      | some wsClient =>
          match getWsFrames (buffer.length + 1) wsClient.receivingData ⟨buffer, env.wsBeyond⟩ with
          | none => none
          | some (receivingData, code, frames) =>
              let w := w.setWsClient idx { wsClient with receivingData }
              if code = 1 then
                (processFrames idx frames w).map fun r =>
                  (r.1, r.2.1 ++ if r.2.2 then [] else [.readConnection i])
              else
                -- such a small read closes the connection, but `closed` stays false
                (w.closeWsConnectionReq idx false).map fun r => (r.1, r.2 ++ [.readConnection i])

/-! ### Requests -/

/-- `get_process` of a request and the answer `404` when it fails or the request is not a `GET`. -/
def respond (env : WebEnv) (w : WebServer N) (i : ℕ) (req : HttpRequest) :
    Option (WebServer N × List TcpCall) :=
  let notFound (n : ℕ) := (w.sendFileRequest env n i (ascii "public/404.html") false 400).map fun r =>
    (r.1, r.2.1)
  let finish (r : WebServer N × List TcpCall) : WebServer N × List TcpCall :=
    (r.1, r.2 ++ if i ∈ r.1.activeWebsocketConnectionsClientIdxs then [.readConnection i] else [])
  if req.isGet then
    if req.isWebsocket then (w.websocketAcceptReadCb env i req.secWebsocketKey).map finish
    else
      match w.sendFileRequest env 0 i req.filepath req.acceptBytes 200 with
      | none => none
      | some (w, calls, true) => some (finish (w, calls))
      | some (_, _, false) => notFound 1
  else notFound 0

def readCb (env : WebEnv) (w : WebServer N) (i : ℕ) (buffer : Bytes) :
    Option (WebServer N × List TcpCall) :=
  if isValidHttpReq buffer then
    match parseRequest (buffer ++ env.beyond) with
    | none => none
    | some req => w.respond env i req
  else if i ∈ w.activeWebsocketConnectionsClientIdxs then
    (w.websocketProcessReadCb env i buffer).map fun r => (r.1, r.2 ++ [.readConnection i])
  else w.closeConnection i

/-- `write_cb`; a connection that is not a websocket is closed once its answer is written. -/
def writeCb (w : WebServer N) (i : ℕ) (info : ℤ) : Option (WebServer N × List TcpCall) :=
  match w.broadcastUsed info with
  | none => none
  | some w =>
      match w.tcpClients[i]? with
      | none => none
      | some client =>
          if client.wsClientIdx ∈ w.allWebsocketConnections then
            w.closeWsConnectionPotentialConfirm client.wsClientIdx
          else w.closeConnection i

def closeCb (w : WebServer N) (i : ℕ) (info : ℤ) : Option (WebServer N) :=
  (w.broadcastUsed info).bind fun w => w.killClient i

/-- `event_cb`: one message is taken from the queue, and what it asks for is broadcast to the active
websockets. An empty queue yields a default message. -/
def eventCb (env : WebEnv) (w : WebServer N) : WebServer N × List TcpCall :=
  let data := w.toServerQueue.headD {}
  let broadcastData := w.broadcastData ++
    List.replicate (data.itemIdx + 1 - w.broadcastData.length) ({} : BroadcastDataItems)
  let w := { w with
    toServerQueue := w.toServerQueue.tail, broadcastData, received := w.received ++ [data.itemIdx] }
  let clientIdxs := w.activeWebsocketConnectionsClientIdxs
  if clientIdxs.Nonempty then
    let item : BroadcastDataItems := ⟨data.buffPtr, data.length, clientIdxs.card⟩
    ({ w with broadcastData := broadcastData.set data.itemIdx item },
      [.broadcastMessage (visitOrder clientIdxs env.order) data.buffPtr data.length data.itemIdx])
  else (w.postMessageToProgram data.buffPtr data.length data.itemIdx, [])

end WebServer

/-- The callbacks of the web server with a cache of `N` items. -/
def webApp (N : ℕ) : App (WebServer N) WebEnv where
  acceptCb w i := some (w.newTcpClient i)
  closeCb := WebServer.closeCb
  readCb := WebServer.readCb
  writeCb _ := WebServer.writeCb
  eventCb env w := some (w.eventCb env)
  customReadCb := WebServer.customReadCb

/-- A server thread when its loop starts; it reads inotify events from then on. -/
def webStart (N : ℕ) (inotifyFd : ℤ) : Machine (WebServer N) :=
  Machine.start { inotifyFd } [(inotifyFd, inotifyEventSize)]

end LiburingServer
