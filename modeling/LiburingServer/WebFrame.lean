import LiburingServer.WebServer
import LiburingServer.TcpFrame

/-! What the callbacks of the web server change. Opening, serving and closing connections leave the
broadcasts and, but for a file read, the requested paths alone; a file read sets the path of its slot;
only the handling of queue entries and broadcast messages touches the broadcasts. -/

namespace LiburingServer

variable {N : ℕ}

/-- The cache has an item for the path that is not outdated. -/
def Cache.serves (c : Cache N) (filepath : Bytes) : Bool :=
  match c.filepathToCacheIdx filepath with
  | some i => !(c.cacheBuffer i).outdated
  | none => false

theorem Cache.lockItem_outdated (c : Cache N) (i j : Fin N) (clientIdx : ℕ) :
    ((c.lockItem i clientIdx).cacheBuffer j).outdated = (c.cacheBuffer j).outdated := by
  by_cases h : j = i
  · subst h
    simp [lockItem, modifyItem]
  · simp [lockItem, modifyItem, h]

/-- A fetch finds what the cache serves, and leaves the path of the client alone. -/
theorem Cache.fetchItem_found {c c' : Cache N} {filepath : Bytes} {clientIdx : ℕ} {client client' : TcpClient}
    {item : CacheFetchItem N} (h : c.fetchItem filepath clientIdx client = some (c', client', item)) :
    item.found = c.serves filepath ∧
      client'.lastRequestedReadFilepath = client.lastRequestedReadFilepath := by
  unfold fetchItem at h
  unfold serves
  split at h
  · rename_i hnone
    obtain ⟨-, rfl, rfl⟩ : c = c' ∧ client = client' ∧ _ := by simpa using h
    simp [hnone]
  · rename_i i hsome
    simp only [hsome]
    rw [← c.lockItem_outdated i i clientIdx]
    dsimp only at h
    split at h
    · split at h
      · obtain ⟨-, rfl, rfl⟩ := by simpa using h
        simp [*]
      · obtain ⟨-, rfl, rfl⟩ := by simpa using h
        simp [foundItem, *]
    · split at h
      · obtain ⟨-, rfl, rfl⟩ := by simpa using h
        simp [*]
      · split at h
        · cases h
        · obtain ⟨-, rfl, rfl⟩ := by simpa using h
          simp [foundItem, *]

theorem Cache.finishedWithItem_path {c c' : Cache N} {clientIdx : ℕ} {client client' : TcpClient}
    (h : c.finishedWithItem clientIdx client = some (c', client')) :
    client'.lastRequestedReadFilepath = client.lastRequestedReadFilepath := by
  unfold finishedWithItem at h
  split at h
  · split at h
    · cases h
    · obtain ⟨-, rfl⟩ := by simpa using h
      rfl
  · obtain ⟨-, rfl⟩ := by simpa using h
    rfl

/-- A call that queues data of the connection itself, or starts to read from it. -/
def TcpCall.Mild : TcpCall → Prop
  | .writeConnection _ _ => True
  | .writeConnectionPtr _ buff _ => ∀ serial, buff ≠ .item serial
  | .readConnection _ => True
  | _ => False

theorem TcpCall.Mild.ne_closeConnection {c : TcpCall} (h : c.Mild) (i : ℕ) : c ≠ .closeConnection i := by
  rintro rfl
  exact h

theorem CacheFetchItem.ptr_ne_item (item : CacheFetchItem N) (serial : ℕ) : item.ptr ≠ .item serial := by
  unfold ptr
  split
  · split <;> simp
  · simp

/-- What the web server knows of broadcasts. -/
structure Ledger where
  broadcastData : List BroadcastDataItems
  toServerQueue : List MessagePostData
  toProgramQueue : List MessagePostData
  centralCommunicationEventfd : ℕ
  received : List ℕ
  finished : List ℕ

/-- A file request for which the file could be opened, as the `opening`th of its callback. -/
structure FileRequest where
  opening : ℕ
  filepath : Bytes
  acceptBytes : Bool
  responseCode : ℕ
  deriving DecidableEq

/-- The file request that answers a request: for the file asked for, or for the page for missing files. -/
def HttpRequest.fileRequest (env : WebEnv) (req : HttpRequest) : Option FileRequest :=
  let notFound (n : ℕ) : Option FileRequest :=
    if (env.files n).1 < 0 then none else some ⟨n, ascii "public/404.html", false, 400⟩
  if req.isGet then
    if req.isWebsocket then none
    else if (env.files 0).1 < 0 then notFound 1 else some ⟨0, req.filepath, req.acceptBytes, 200⟩
  else notFound 0

namespace WebServer

def ledger (w : WebServer N) : Ledger where
  broadcastData := w.broadcastData
  toServerQueue := w.toServerQueue
  toProgramQueue := w.toProgramQueue
  centralCommunicationEventfd := w.centralCommunicationEventfd
  received := w.received
  finished := w.finished

/-- What each client has asked for last. -/
def paths (w : WebServer N) : List Bytes := w.tcpClients.map TcpClient.lastRequestedReadFilepath

/-- No websocket is marked as one to be closed; nothing in the source ever marks one. -/
def NoneClosing (w : WebServer N) : Prop := ∀ client ∈ w.websocketClients, client.close = false

/-- No path, nothing stored and nothing of the broadcasts changes. -/
structure Steady (w w' : WebServer N) : Prop where
  paths : w'.paths = w.paths
  inotifyFd : w'.inotifyFd = w.inotifyFd
  stored : w'.stored = w.stored
  ledger : w'.ledger = w.ledger
  noneClosing : w.NoneClosing → w'.NoneClosing

/-- A callback that only makes mild calls. -/
structure Keeps (w : WebServer N) (r : WebServer N × List TcpCall) : Prop where
  steady : w.Steady r.1
  calls : ∀ call ∈ r.2, call.Mild

/-- A callback that reads the file `p` for slot `i`. -/
structure ReadsFile (w : WebServer N) (i : ℕ) (p : Bytes) (r : WebServer N × List TcpCall) : Prop where
  slot : i < w.tcpClients.length
  paths : r.1.paths = w.paths.set i p
  inotifyFd : r.1.inotifyFd = w.inotifyFd
  stored : r.1.stored = w.stored
  ledger : r.1.ledger = w.ledger
  noneClosing : w.NoneClosing → r.1.NoneClosing
  calls : ∃ fd size buff amount rest, r.2 = .customReadReq fd size (some i) buff amount (some p) :: rest ∧
    ∀ call ∈ rest, call.Mild

variable {w w' w'' : WebServer N} {i : ℕ} {env : WebEnv} {cs cs' : List TcpCall}

theorem steady_refl (w : WebServer N) : w.Steady w := ⟨rfl, rfl, rfl, rfl, id⟩

theorem Steady.trans (h : w.Steady w') (h' : w'.Steady w'') : w.Steady w'' :=
  ⟨h'.paths.trans h.paths, h'.inotifyFd.trans h.inotifyFd, h'.stored.trans h.stored,
    h'.ledger.trans h.ledger, fun hw => h'.noneClosing (h.noneClosing hw)⟩

theorem Keeps.append (h : w.Keeps (w', cs)) (h' : w'.Keeps (w'', cs')) : w.Keeps (w'', cs ++ cs') :=
  ⟨h.steady.trans h'.steady, fun call hcall =>
    (List.mem_append.mp hcall).elim (h.calls call) (h'.calls call)⟩

/-- The end of a callback that does not change the web server. -/
theorem Keeps.andCall (h : w.Keeps (w', cs)) (hcs : ∀ call ∈ cs', call.Mild) : w.Keeps (w', cs ++ cs') :=
  h.append ⟨steady_refl w', hcs⟩

theorem ReadsFile.andCall {p : Bytes} (h : w.ReadsFile i p (w', cs)) (hcs : ∀ call ∈ cs', call.Mild) :
    w.ReadsFile i p (w', cs ++ cs') := by
  obtain ⟨fd, size, buff, amount, rest, hcalls, hrest⟩ := h.calls
  refine ⟨h.slot, h.paths, h.inotifyFd, h.stored, h.ledger, h.noneClosing, fd, size, buff, amount,
    rest ++ cs', ?_, fun call hcall => ?_⟩
  · simp only at hcalls
    simp [hcalls]
  · exact (List.mem_append.mp hcall).elim (hrest call) (hcs call)

theorem paths_setTcpClient {client client' : TcpClient} (h : w.tcpClients[i]? = some client)
    (hpath : client'.lastRequestedReadFilepath = client.lastRequestedReadFilepath) :
    (w.setTcpClient i client').paths = w.paths := by
  obtain ⟨hi, rfl⟩ := List.getElem?_eq_some_iff.mp h
  have hlt : i < w.paths.length := by simpa [paths] using hi
  have hget : w.paths[i] = w.tcpClients[i].lastRequestedReadFilepath := by simp [paths]
  calc (w.setTcpClient i client').paths
      = w.paths.set i client'.lastRequestedReadFilepath := by simp [setTcpClient, paths, List.map_set]
    _ = w.paths.set i w.paths[i] := by rw [hpath, hget]
    _ = w.paths := List.set_getElem_self hlt

theorem wsClient_close {idx : ℤ} {client : WsClient} (h : w.wsClient idx = some client)
    (hw : w.NoneClosing) : client.close = false := by
  unfold wsClient at h
  split at h
  · exact hw client (List.mem_of_getElem? h)
  · cases h

/-- A change of a websocket client that does not mark it as one to be closed. -/
theorem steady_setWsClient {idx : ℤ} {client client' : WsClient} (h : w.wsClient idx = some client)
    (hclose : client'.close = client.close) : w.Steady (w.setWsClient idx client') := by
  refine ⟨rfl, rfl, rfl, rfl, fun hw c hc => ?_⟩
  rcases List.mem_or_eq_of_mem_set hc with hc | rfl
  · exact hw c hc
  · exact hclose.trans (wsClient_close h hw)

theorem killClient_steady (h : w.killClient i = some w') : w.Steady w' := by
  unfold killClient at h
  split at h
  · cases h
  · rename_i client hclient
    obtain ⟨⟨cache, client'⟩, hdone, rfl⟩ := Option.map_eq_some_iff.mp h
    have hpath : client'.lastRequestedReadFilepath = client.lastRequestedReadFilepath :=
      Cache.finishedWithItem_path hdone
    have hpaths : (w.setTcpClient i { client' with usingFile := false }).paths = w.paths :=
      paths_setTcpClient hclient hpath
    dsimp only
    split
    · exact ⟨hpaths, rfl, rfl, rfl, id⟩
    · exact ⟨hpaths, rfl, rfl, rfl, id⟩

theorem closeConnection_steady {r : WebServer N × List TcpCall} (h : w.closeConnection i = some r) :
    w.Steady r.1 ∧ r.2 = [.closeConnection i] := by
  obtain ⟨w', hkill, rfl⟩ := Option.map_eq_some_iff.mp h
  exact ⟨killClient_steady hkill, rfl⟩

theorem closeWsConnectionReq_keeps {idx : ℤ} {closed : Bool} {r : WebServer N × List TcpCall}
    (h : w.closeWsConnectionReq idx closed = some r) : w.Keeps r := by
  obtain ⟨client, hclient, rfl⟩ := Option.map_eq_some_iff.mp h
  obtain ⟨hpaths, hfd, hstored, hledger, hclosing⟩ : w.Steady (w.setWsClient idx
      { client with currentlyWriting := client.currentlyWriting + 1, websocketFrames := [] }) :=
    steady_setWsClient hclient rfl
  exact ⟨⟨hpaths, hfd, hstored, hledger, hclosing⟩, by cases closed <;> simp [TcpCall.Mild]⟩

/-- A websocket whose last write is done is closed only if it is marked. -/
theorem closeWsConnectionPotentialConfirm_cases {idx : ℤ} {r : WebServer N × List TcpCall}
    (h : w.closeWsConnectionPotentialConfirm idx = some r) :
    w.Steady r.1 ∧ (r.2 = [] ∨ ¬w.NoneClosing ∧ ∃ j, r.2 = [.closeConnection j]) := by
  unfold closeWsConnectionPotentialConfirm at h
  split at h
  · cases h
  · rename_i client hclient
    split at h
    · split at h
      · rename_i hclose
        obtain ⟨r', hr', rfl⟩ := Option.map_eq_some_iff.mp h
        obtain ⟨⟨hpaths, hfd, hstored, hledger, hclosing⟩, hcalls⟩ := closeConnection_steady hr'
        refine ⟨⟨hpaths, hfd, hstored, hledger, hclosing⟩, Or.inr ⟨fun hw => ?_, _, hcalls⟩⟩
        simp [wsClient_close hclient hw] at hclose
      · obtain rfl := Option.some.inj h
        exact ⟨steady_refl w, Or.inl rfl⟩
    · obtain rfl := Option.some.inj h
      exact ⟨steady_setWsClient hclient rfl, Or.inl rfl⟩

theorem newWsClient_steady {index : ℤ} (h : w.newWsClient i = some (w', index)) : w.Steady w' := by
  unfold newWsClient at h
  dsimp only at h
  split at h
  · split at h
    · cases h
    · obtain ⟨rfl, -⟩ := by simpa using h
      refine ⟨rfl, rfl, rfl, rfl, fun hw c hc => ?_⟩
      rcases List.mem_or_eq_of_mem_set hc with hc | rfl
      · exact hw c hc
      · rfl
  · obtain ⟨rfl, -⟩ := by simpa using h
    refine ⟨rfl, rfl, rfl, rfl, fun hw c hc => ?_⟩
    rcases List.mem_append.mp hc with hc | hc
    · exact hw c hc
    · rw [List.mem_singleton.mp hc]

theorem websocketAcceptReadCb_keeps {key : Bytes} {r : WebServer N × List TcpCall}
    (h : w.websocketAcceptReadCb env i key = some r) : w.Keeps r := by
  unfold websocketAcceptReadCb at h
  dsimp only at h
  split at h
  · cases h
  · rename_i w₁ index hnew
    split at h
    · cases h
    · rename_i client hclient
      obtain rfl := Option.some.inj h
      have hpaths : (w₁.setTcpClient i { client with wsClientIdx := index }).paths = w₁.paths :=
        paths_setTcpClient hclient rfl
      exact ⟨(newWsClient_steady hnew).trans ⟨hpaths, rfl, rfl, rfl, id⟩, by simp [TcpCall.Mild]⟩

theorem processFrame_keeps {idx : ℤ} {frame : Bytes} {closed : Bool}
    (h : w.processFrame idx frame = some (w', cs, closed)) : w.Keeps (w', cs) := by
  unfold processFrame at h
  split at h
  · obtain ⟨rfl, rfl, -⟩ := by simpa using h
    exact ⟨steady_refl w, by simp⟩
  · split at h
    · rename_i client hclient
      split at h
      · obtain ⟨rfl, rfl, -⟩ := by simpa using h
        exact ⟨steady_setWsClient hclient rfl, by simp⟩
      · split at h
        · obtain ⟨rfl, rfl, -⟩ := by simpa using h
          exact ⟨steady_setWsClient hclient rfl, by simp⟩
        · split at h
          · obtain ⟨⟨w₁, cs₁⟩, hclose, heq⟩ := Option.map_eq_some_iff.mp h
            obtain ⟨rfl, rfl, -⟩ := by simpa using heq
            obtain ⟨hsteady, hcalls⟩ := closeWsConnectionReq_keeps hclose
            refine ⟨Steady.trans ?_ hsteady, hcalls⟩
            exact steady_setWsClient hclient rfl
          · split at h
            · obtain ⟨rfl, rfl, -⟩ := by simpa using h
              exact ⟨steady_setWsClient hclient rfl, by simp [TcpCall.Mild]⟩
            · obtain ⟨rfl, rfl, -⟩ := by simpa using h
              exact ⟨steady_refl w, by simp⟩
    · cases h

theorem processFrames_keeps {idx : ℤ} {frames : List Bytes} {closed : Bool}
    (h : processFrames idx frames w = some (w', cs, closed)) : w.Keeps (w', cs) := by
  induction frames generalizing w cs closed with
  | nil =>
      obtain ⟨rfl, rfl, -⟩ := by simpa [processFrames] using h
      exact ⟨steady_refl w, by simp⟩
  | cons frame frames ih =>
      unfold processFrames at h
      split at h
      · cases h
      · rename_i w₁ cs₁ hframe
        obtain ⟨rfl, rfl, -⟩ := by simpa using h
        exact processFrame_keeps hframe
      · rename_i w₁ cs₁ hframe
        obtain ⟨⟨w₂, cs₂, closed₂⟩, hrest, heq⟩ := Option.map_eq_some_iff.mp h
        obtain ⟨rfl, rfl, -⟩ := by simpa using heq
        exact (processFrame_keeps hframe).append (ih hrest)

theorem websocketProcessReadCb_keeps {buffer : Bytes} {r : WebServer N × List TcpCall}
    (h : w.websocketProcessReadCb env i buffer = some r) : w.Keeps r := by
  unfold websocketProcessReadCb at h
  dsimp only at h
  split at h
  · cases h
  · split at h
    · cases h
    · rename_i wsClient hclient
      split at h
      · cases h
      · rename_i receivingData code frames _
        have hset : w.Steady (w.setWsClient _ { wsClient with receivingData }) :=
          steady_setWsClient hclient rfl
        split at h
        · obtain ⟨⟨w₁, cs₁, closed⟩, hframes, rfl⟩ := Option.map_eq_some_iff.mp h
          obtain ⟨hsteady, hcalls⟩ := processFrames_keeps hframes
          refine Keeps.andCall ⟨hset.trans hsteady, hcalls⟩ ?_
          cases closed <;> simp [TcpCall.Mild]
        · obtain ⟨⟨w₁, cs₁⟩, hclose, rfl⟩ := Option.map_eq_some_iff.mp h
          obtain ⟨hsteady, hcalls⟩ := closeWsConnectionReq_keeps hclose
          exact Keeps.andCall ⟨hset.trans hsteady, hcalls⟩ (by simp [TcpCall.Mild])

/-! ### Files -/

/-- The file that is opened for a request: the one asked for, or the page for missing files. -/
def openedFile (env : WebEnv) (req : HttpRequest) : Option Bytes :=
  let notFound (n : ℕ) := if (env.files n).1 < 0 then none else some (ascii "public/404.html")
  if req.isGet then
    if req.isWebsocket then none else if (env.files 0).1 < 0 then notFound 1 else some req.filepath
  else notFound 0

/-- The file that the handling of what was received reads from the disk. -/
def diskRead (env : WebEnv) (w : WebServer N) (buffer : Bytes) : Option Bytes :=
  if isValidHttpReq buffer then
    ((parseRequest (buffer ++ env.beyond)).bind (openedFile env)).filter fun p => !w.webCache.serves p
  else none

theorem sendFileRequest_false {n : ℕ} {p : Bytes} {accept : Bool} {code : ℕ}
    (h : w.sendFileRequest env n i p accept code = some (w', cs, false)) :
    (env.files n).1 < 0 ∧ w' = w ∧ cs = [] := by
  unfold sendFileRequest at h
  dsimp only at h
  split at h
  · obtain ⟨rfl, rfl⟩ := by simpa using h
    exact ⟨‹_›, rfl, rfl⟩
  · split at h
    · cases h
    · split at h
      · cases h
      · split_ifs at h <;> simp at h

/-- A file that could be opened is served by the cache or read. -/
theorem sendFileRequest_true {n : ℕ} {p : Bytes} {accept : Bool} {code : ℕ}
    (h : w.sendFileRequest env n i p accept code = some (w', cs, true)) :
    ¬(env.files n).1 < 0 ∧ ((w.webCache.serves p = true ∧ w.Keeps (w', cs)) ∨
      (w.webCache.serves p = false ∧ w.ReadsFile i p (w', cs))) := by
  unfold sendFileRequest at h
  dsimp only at h
  split at h
  · simp at h
  · refine ⟨‹_›, ?_⟩
    split at h
    · cases h
    · rename_i client hclient
      split at h
      · cases h
      · rename_i cache client' item hfetch
        obtain ⟨hfound, hpath⟩ := Cache.fetchItem_found hfetch
        split at h
        · cases h
        · split at h
          · rename_i hserved
            obtain ⟨rfl, rfl⟩ := by simpa using h
            refine Or.inl ⟨by rw [← hfound, hserved], ⟨?_, rfl, rfl, rfl, id⟩, ?_⟩
            · exact paths_setTcpClient hclient hpath
            · simpa [TcpCall.Mild] using item.ptr_ne_item
          · rename_i hmissed
            obtain ⟨rfl, rfl⟩ := by simpa using h
            refine Or.inr ⟨by rw [← hfound]; simpa using hmissed, ?_, ?_, rfl, rfl, rfl, id, ?_⟩
            · exact (List.getElem?_eq_some_iff.mp hclient).1
            · simp [paths, setTcpClient, List.map_set]
            · exact ⟨_, _, _, _, [], rfl, by simp⟩

theorem openedFile_eq (env : WebEnv) (req : HttpRequest) :
    openedFile env req = (req.fileRequest env).map FileRequest.filepath := by
  unfold openedFile HttpRequest.fileRequest
  dsimp only
  split_ifs <;> rfl

/-- What the answer to a request is: an upgrade, what the file request sends whose file could be opened, or
nothing. A connection that is an active websocket is read again. -/
theorem respond_eq_some {req : HttpRequest} {r : WebServer N × List TcpCall} (h : w.respond env i req = some r) :
    (∃ r₁ again, (req.isGet = true ∧ req.isWebsocket = true) ∧
      w.websocketAcceptReadCb env i req.secWebsocketKey = some r₁ ∧ r = (r₁.1, r₁.2 ++ again) ∧
      ∀ c ∈ again, c = .readConnection i) ∨
    (¬(req.isGet = true ∧ req.isWebsocket = true) ∧
      ((∃ q w₁ cs₁ again, req.fileRequest env = some q ∧
          w.sendFileRequest env q.opening i q.filepath q.acceptBytes q.responseCode = some (w₁, cs₁, true) ∧
          r = (w₁, cs₁ ++ again) ∧ ∀ c ∈ again, c = .readConnection i) ∨
        (req.fileRequest env = none ∧ r = (w, [])))) := by
  have hagain : ∀ (w₁ : WebServer N), ∀ c ∈
      (if i ∈ w₁.activeWebsocketConnectionsClientIdxs then [TcpCall.readConnection i] else []),
      c = .readConnection i := by
    intro w₁ c hc
    split at hc
    · exact List.mem_singleton.mp hc
    · cases hc
  have hmissing : ∀ n, (req.fileRequest env =
        if (env.files n).1 < 0 then none else some ⟨n, ascii "public/404.html", false, 400⟩) →
      (w.sendFileRequest env n i (ascii "public/404.html") false 400).map (fun r => (r.1, r.2.1)) = some r →
      (∃ q w₁ cs₁ again, req.fileRequest env = some q ∧
          w.sendFileRequest env q.opening i q.filepath q.acceptBytes q.responseCode = some (w₁, cs₁, true) ∧
          r = (w₁, cs₁ ++ again) ∧ ∀ c ∈ again, c = .readConnection i) ∨
        (req.fileRequest env = none ∧ r = (w, [])) := by
    intro n hreq hsent
    obtain ⟨⟨w₁, cs₁, opened⟩, hresult, rfl⟩ := Option.map_eq_some_iff.mp hsent
    cases opened with
    | false =>
        obtain ⟨hfailed, rfl, rfl⟩ := sendFileRequest_false hresult
        exact Or.inr ⟨by rw [hreq, if_pos hfailed], rfl⟩
    | true =>
        refine Or.inl ⟨_, w₁, cs₁, [], hreq.trans (if_neg (sendFileRequest_true hresult).1), hresult, ?_, by simp⟩
        simp
  unfold respond at h
  dsimp only at h
  by_cases hget : req.isGet
  · rw [if_pos hget] at h
    by_cases hws : req.isWebsocket
    · rw [if_pos hws] at h
      obtain ⟨r₁, hr₁, rfl⟩ := Option.map_eq_some_iff.mp h
      exact Or.inl ⟨r₁, _, ⟨hget, hws⟩, hr₁, rfl, hagain _⟩
    · rw [if_neg hws] at h
      refine Or.inr ⟨fun hboth => hws hboth.2, ?_⟩
      split at h
      · cases h
      · rename_i w₁ cs₁ hsent
        obtain rfl := Option.some.inj h
        refine Or.inl ⟨⟨0, req.filepath, req.acceptBytes, 200⟩, w₁, cs₁, _, ?_, hsent, rfl, hagain _⟩
        simp [HttpRequest.fileRequest, hget, hws, (sendFileRequest_true hsent).1]
      · rename_i hsent
        refine hmissing 1 ?_ h
        simp [HttpRequest.fileRequest, hget, hws, (sendFileRequest_false hsent).1]
  · rw [if_neg hget] at h
    refine Or.inr ⟨fun hboth => hget hboth.1, hmissing 0 ?_ h⟩
    simp [HttpRequest.fileRequest, hget]

theorem mild_again {again : List TcpCall} (h : ∀ c ∈ again, c = .readConnection i) : ∀ c ∈ again, c.Mild := by
  intro c hc
  rw [h c hc]
  trivial

/-- The answer to a request only makes mild calls, or reads the file that the request opens. -/
theorem respond_cases {req : HttpRequest} {r : WebServer N × List TcpCall} (h : w.respond env i req = some r) :
    w.Keeps r ∨ ∃ p, openedFile env req = some p ∧ w.webCache.serves p = false ∧ w.ReadsFile i p r := by
  rcases respond_eq_some h with ⟨r₁, again, -, hr₁, rfl, hagain⟩ |
    ⟨-, ⟨q, w₁, cs₁, again, hq, hsent, rfl, hagain⟩ | ⟨-, rfl⟩⟩
  · exact Or.inl ((websocketAcceptReadCb_keeps hr₁).andCall (mild_again hagain))
  · obtain ⟨-, ⟨-, hkeeps⟩ | ⟨hmissed, hreads⟩⟩ := sendFileRequest_true hsent
    · exact Or.inl (hkeeps.andCall (mild_again hagain))
    · exact Or.inr ⟨q.filepath, by simp [openedFile_eq, hq], hmissed, hreads.andCall (mild_again hagain)⟩
  · exact Or.inl ⟨steady_refl w, by simp⟩

/-- What the read callback can do: make mild calls, read a file, or close a connection that is no
active websocket for what is no request. -/
theorem readCb_cases {buffer : Bytes} {r : WebServer N × List TcpCall} (h : w.readCb env i buffer = some r) :
    w.Keeps r ∨ (∃ p, w.diskRead env buffer = some p ∧ w.ReadsFile i p r) ∨
      (w.Steady r.1 ∧ r.2 = [.closeConnection i] ∧ isValidHttpReq buffer = false ∧
        i ∉ w.activeWebsocketConnectionsClientIdxs) := by
  unfold readCb at h
  split at h
  · rename_i hvalid
    split at h
    · cases h
    · rename_i req hreq
      rcases respond_cases h with hkeeps | ⟨p, hopened, hmissed, hreads⟩
      · exact Or.inl hkeeps
      · refine Or.inr (Or.inl ⟨p, ?_, hreads⟩)
        simp [diskRead, hvalid, hreq, hopened, hmissed]
  · rename_i hvalid
    split at h
    · obtain ⟨⟨w₁, cs₁⟩, hws, rfl⟩ := Option.map_eq_some_iff.mp h
      exact Or.inl ((websocketProcessReadCb_keeps hws).andCall (by simp [TcpCall.Mild]))
    · obtain ⟨hsteady, hcalls⟩ := closeConnection_steady h
      exact Or.inr (Or.inr ⟨hsteady, hcalls, by simpa using hvalid, ‹_›⟩)

/-- What the end of a custom read does: an inotify event starts the next read of them, and a file is
queued as the response, and stored under the path of its slot or not stored at all. -/
theorem customReadCb_cases {clientIdx : Option ℕ} {fd : ℤ} {buff : Bytes} {r : WebServer N × List TcpCall}
    (h : w.customReadCb env clientIdx fd buff = some r) :
    (fd = w.inotifyFd ∧ w.Steady r.1 ∧
      r.2 = [.customReadReq w.inotifyFd inotifyEventSize none [] 0 none]) ∨
    (fd ≠ w.inotifyFd ∧ ∃ i p, clientIdx = some i ∧ w.paths[i]? = some p ∧
      w.Steady { r.1 with stored := w.stored } ∧
      (r.1.stored = w.stored ∨ r.1.stored = w.stored ++ [(p, buff)]) ∧
      ((∃ ptr size, r.2 = [.writeConnectionPtr i ptr size] ∧ ∀ serial, ptr ≠ .item serial) ∨
        r.2 = [.writeConnection i buff])) := by
  unfold customReadCb at h
  split at h
  · rename_i hfd
    obtain rfl := Option.some.inj h
    exact Or.inl ⟨hfd, ⟨rfl, rfl, rfl, rfl, id⟩, rfl⟩
  · rename_i hfd
    refine Or.inr ⟨hfd, ?_⟩
    split at h
    · cases h
    · rename_i i
      split at h
      · cases h
      · rename_i client hclient
        refine ⟨i, client.lastRequestedReadFilepath, rfl, by simp [paths, hclient], ?_⟩
        dsimp only at h
        split at h
        · cases h
        · obtain ⟨⟨cache, client', item⟩, hfetch, rfl⟩ := Option.map_eq_some_iff.mp h
          refine ⟨⟨?_, rfl, rfl, rfl, id⟩, Or.inr rfl, Or.inl ⟨_, _, rfl, item.ptr_ne_item⟩⟩
          exact paths_setTcpClient hclient (Cache.fetchItem_found hfetch).2
        · obtain rfl := Option.some.inj h
          exact ⟨steady_refl w, Or.inl rfl, Or.inr rfl⟩

/-! ### Broadcast entries -/

theorem broadcastUsed_rest {info : ℤ} (h : w.broadcastUsed info = some w') :
    w'.tcpClients = w.tcpClients ∧ w'.inotifyFd = w.inotifyFd ∧ w'.stored = w.stored ∧
      w'.websocketClients = w.websocketClients ∧
      w'.allWebsocketConnections = w.allWebsocketConnections := by
  unfold broadcastUsed at h
  split at h
  · obtain rfl := Option.some.inj h
    exact ⟨rfl, rfl, rfl, rfl, rfl⟩
  · split at h
    · cases h
    · split at h
      · cases h
      · obtain rfl := Option.some.inj h
        split
        · exact ⟨rfl, rfl, rfl, rfl, rfl⟩
        · exact ⟨rfl, rfl, rfl, rfl, rfl⟩

/-- The connection of slot `i` is not a websocket, or it was one and its client was killed. -/
def NoWebsocket (w : WebServer N) (i : ℕ) : Prop :=
  ∀ client ∈ w.tcpClients[i]?, client.wsClientIdx ∉ w.allWebsocketConnections

instance (w : WebServer N) (i : ℕ) : Decidable (w.NoWebsocket i) :=
  inferInstanceAs (Decidable (∀ client ∈ w.tcpClients[i]?, client.wsClientIdx ∉ w.allWebsocketConnections))

/-- The write callback: the entry is used, and a connection that is no websocket is closed. -/
theorem writeCb_cases {info : ℤ} {r : WebServer N × List TcpCall} (h : w.writeCb i info = some r) :
    ∃ w₁, w.broadcastUsed info = some w₁ ∧ w₁.Steady r.1 ∧
      (r.2 = [] ∨ (¬w.NoneClosing ∧ ∃ j, r.2 = [.closeConnection j]) ∨
        (w.NoWebsocket i ∧ r.2 = [.closeConnection i])) := by
  unfold writeCb at h
  split at h
  · cases h
  · rename_i w₁ hused
    obtain ⟨hclients, -, -, hws, hall⟩ := broadcastUsed_rest hused
    refine ⟨w₁, hused, ?_⟩
    split at h
    · cases h
    · rename_i client hclient
      split at h
      · obtain ⟨hsteady, hcalls⟩ := closeWsConnectionPotentialConfirm_cases h
        refine ⟨hsteady, hcalls.imp_right fun hclosing => Or.inl ?_⟩
        rwa [NoneClosing, hws] at hclosing
      · rename_i hnone
        obtain ⟨hsteady, hcalls⟩ := closeConnection_steady h
        refine ⟨hsteady, Or.inr (Or.inr ⟨?_, hcalls⟩)⟩
        intro client' hclient'
        rw [hclients] at hclient
        rw [hall] at hnone
        obtain rfl : client = client' := by simpa [hclient] using hclient'
        exact hnone

theorem closeCb_cases {info : ℤ} (h : w.closeCb i info = some w') :
    ∃ w₁, w.broadcastUsed info = some w₁ ∧ w₁.Steady w' := by
  obtain ⟨w₁, hused, hkill⟩ := Option.bind_eq_some_iff.mp h
  exact ⟨w₁, hused, killClient_steady hkill⟩

/-- The read callback closes at most its own connection, if it is no active websocket and what was read is
no request. -/
theorem readCb_closes {buffer : Bytes} (h : w.readCb env i buffer = some r) :
    (∀ c ∈ r.2, ∀ j, c ≠ .closeConnection j) ∨ r.2 = [.closeConnection i] ∧
      isValidHttpReq buffer = false ∧ i ∉ w.activeWebsocketConnectionsClientIdxs := by
  rcases readCb_cases h with hkeeps | ⟨p, -, hreads⟩ | ⟨-, hcs, hvalid, hinactive⟩
  · exact Or.inl fun c hc => (hkeeps.calls c hc).ne_closeConnection
  · obtain ⟨fd, size, buff, amount, rest, hcs, hrest⟩ := hreads.calls
    refine Or.inl fun c hc j => ?_
    rw [hcs] at hc
    rcases List.mem_cons.mp hc with rfl | hc
    · simp
    · exact (hrest c hc).ne_closeConnection j
  · exact Or.inr ⟨hcs, hvalid, hinactive⟩

/-- The write callback closes at most its own connection, if it is no websocket. -/
theorem writeCb_closes {info : ℤ} (hclosing : w.NoneClosing) (h : w.writeCb i info = some r) :
    (∀ c ∈ r.2, ∀ j, c ≠ .closeConnection j) ∨ r.2 = [.closeConnection i] ∧ w.NoWebsocket i := by
  obtain ⟨w₁, -, -, hcs | ⟨hmarked, -⟩ | ⟨hnone, hcs⟩⟩ := writeCb_cases h
  · exact Or.inl (by simp [hcs])
  · exact absurd hclosing hmarked
  · exact Or.inr ⟨hcs, hnone⟩

theorem customReadCb_closes {clientIdx : Option ℕ} {fd : ℤ} {buff : Bytes}
    (h : w.customReadCb env clientIdx fd buff = some r) : ∀ c ∈ r.2, ∀ j, c ≠ .closeConnection j := by
  rcases customReadCb_cases h with ⟨-, -, hcs⟩ | ⟨-, j, p, -, -, -, -, ⟨ptr, size, hcs, -⟩ | hcs⟩
  all_goals simp [hcs]

/-- No callback marks a websocket as one to be closed. -/
theorem maintains_noneClosing : (webApp N).Maintains NoneClosing := by
  refine ⟨fun a i a' h ha => ?_, fun a i info a' h ha => ?_, fun env a i buffer r h hr => ?_,
    fun env a i info r h hr => ?_, fun env a r h hr => ?_, fun env a i fd buffer r h hr => ?_⟩
  · obtain rfl := Option.some.inj ha
    exact h
  · obtain ⟨w₁, hused, hsteady⟩ := closeCb_cases ha
    apply hsteady.noneClosing
    rwa [NoneClosing, (broadcastUsed_rest hused).2.2.2.1]
  · rcases readCb_cases hr with hkeeps | ⟨p, -, hreads⟩ | ⟨hsteady, -⟩
    · exact hkeeps.steady.noneClosing h
    · exact hreads.noneClosing h
    · exact hsteady.noneClosing h
  · obtain ⟨w₁, hused, hsteady, -⟩ := writeCb_cases hr
    apply hsteady.noneClosing
    rwa [NoneClosing, (broadcastUsed_rest hused).2.2.2.1]
  · obtain rfl := Option.some.inj hr
    simp only [eventCb]
    split
    · exact h
    · exact h
  · rcases customReadCb_cases hr with ⟨-, hsteady, -⟩ | ⟨-, j, p, -, -, hsteady, -⟩
    · exact hsteady.noneClosing h
    · exact hsteady.noneClosing h

end WebServer

end LiburingServer
