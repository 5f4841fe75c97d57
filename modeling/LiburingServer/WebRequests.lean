import LiburingServer.WebOutstanding
import LiburingServer.WebResponses

/-! What is pending for a connection when a request has been handled. The page for missing files is the last resort,
and whether it could be opened is not looked at: without it, a request for a missing file leaves the connection open
with nothing to come. -/

namespace LiburingServer

variable {N : ℕ}

/-- The request is one for an upgrade, or a file that answers it can be opened: for a `GET` the one it asks for or,
as the next file, the page for missing files, for any other request this page. -/
def HttpRequest.Answerable (env : WebEnv) (req : HttpRequest) : Prop :=
  if req.isGet then req.isWebsocket = true ∨ 0 ≤ (env.files 0).1 ∨ 0 ≤ (env.files 1).1 else 0 ≤ (env.files 0).1

instance (env : WebEnv) : DecidablePred (HttpRequest.Answerable env) := fun req =>
  inferInstanceAs (Decidable (if req.isGet then req.isWebsocket = true ∨ 0 ≤ (env.files 0).1 ∨ 0 ≤ (env.files 1).1
    else 0 ≤ (env.files 0).1))

theorem HttpRequest.answerable_iff {env : WebEnv} {req : HttpRequest} : req.Answerable env ↔
    (req.isGet = true ∧ req.isWebsocket = true) ∨ ∃ q, req.fileRequest env = some q := by
  unfold Answerable fileRequest
  dsimp only
  by_cases hget : req.isGet
  · by_cases hws : req.isWebsocket
    · simp [hget, hws]
    · by_cases hfile : (env.files 0).1 < 0
      · by_cases hpage : (env.files 1).1 < 0
        · simp [hget, hws, hfile, hpage, not_le.mpr]
        · simp [hget, hws, hfile, hpage, not_lt.mp hpage]
      · simp [hget, hws, hfile, not_lt.mp hfile]
  · by_cases hpage : (env.files 0).1 < 0
    · simp [hget, hpage, not_le.mpr]
    · simp [hget, hpage, not_lt.mp hpage]

/-- What was received is a request that can be answered, or it is none, and no write of the connection is
uncompleted. -/
def Attended (env : WebEnv) (buffer : Bytes) (numWriteReqs : ℤ) : Prop :=
  if isValidHttpReq buffer then ∀ req ∈ parseRequest (buffer ++ env.beyond), req.Answerable env else numWriteReqs = 0

instance (env : WebEnv) (buffer : Bytes) (numWriteReqs : ℤ) : Decidable (Attended env buffer numWriteReqs) :=
  inferInstanceAs (Decidable (if isValidHttpReq buffer then
    ∀ req ∈ parseRequest (buffer ++ env.beyond), req.Answerable env else numWriteReqs = 0))

namespace TcpServer

variable {T : ServerType} {s s' : TcpServer} {i : ℕ}

/-- A custom read for the client is in flight. -/
def ReadsFor (s : TcpServer) (i : ℕ) : Prop := ∃ x ∈ s.reads, x.1.clientIdx = some i

instance (s : TcpServer) (i : ℕ) : Decidable (s.ReadsFor i) := inferInstanceAs (Decidable (∃ x ∈ s.reads, _))

/-- A connection of which no write is uncompleted is closed. -/
theorem freed_closeConnection (h : (s.clients i).numWriteReqs = 0) : i ∈ (s.closeConnection T i).freedIndexes := by
  unfold closeConnection
  rw [if_pos h]
  cases T with
  | nonTls => exact Finset.mem_insert_self _ _
  | tls => exact Finset.mem_insert_self _ _

theorem closeConnection_eq_self (h : (s.clients i).numWriteReqs ≠ 0) : s.closeConnection T i = s := by
  unfold closeConnection
  rw [if_neg h]

end TcpServer

open TcpServer

theorem WebServer.websocketAcceptReadCb_calls {w : WebServer N} {env : WebEnv} {i : ℕ} {key : Bytes}
    {r : WebServer N × List TcpCall} (h : w.websocketAcceptReadCb env i key = some r) :
    ∃ resp, r.2 = [.writeConnection i resp] := by
  unfold websocketAcceptReadCb at h
  dsimp only at h
  split at h
  · cases h
  · split at h
    · cases h
    · obtain rfl := Option.some.inj h
      exact ⟨_, rfl⟩

namespace Machine

variable {T : ServerType} {m m' : Machine (WebServer N)} {env : WebEnv} {i : ℕ} {buffer : Bytes}

/-- Something is queued for the client, a file is read for it, its connection was closed, or it is a websocket. -/
def Pending (m : Machine (WebServer N)) (i : ℕ) : Prop :=
  (m.tcp.clients i).sendData ≠ [] ∨ m.tcp.ReadsFor i ∨ i ∈ m.tcp.freedIndexes ∨
    i ∈ m.app.activeWebsocketConnectionsClientIdxs

instance (m : Machine (WebServer N)) (i : ℕ) : Decidable (m.Pending i) :=
  inferInstanceAs (Decidable (_ ∨ _ ∨ _ ∨ _))

theorem Pending.queued (h : (m.tcp.clients i).queue ≠ []) : m.Pending i := Or.inl (Client.queue_ne_nil.mp h)

/-- A callback that makes no call leaves pending what was pending before. -/
theorem pending_unchanged (hqueue : (m.tcp.clients i).sendData = []) (hopen : i ∉ m.tcp.freedIndexes)
    (htcp : m'.tcp = m.tcp) (hactive : i ∉ m'.app.activeWebsocketConnectionsClientIdxs) :
    m'.Pending i ↔ m.tcp.ReadsFor i := by
  simp only [Pending, htcp, hqueue, hopen, hactive, ne_eq, not_true_eq_false, false_or, or_false]

/-- A call that writes, and maybe the start of a read behind it, leave something queued. -/
theorem pending_written {c : TcpCall} {again : List TcpCall} (hcalls : m.tcp.calls T (c :: again) = some m'.tcp)
    (hc : ∀ j, c ≠ .closeConnection j) (hwrites : c.Writes i) (hagain : ∀ c ∈ again, c = .readConnection i) :
    m'.Pending i := by
  apply Pending.queued
  refine calls_written (fun c₁ hc₁ j => ?_) (List.mem_cons_self ..) hwrites hcalls
  rcases List.mem_cons.mp hc₁ with rfl | hc₁
  · exact hc j
  · rw [hagain c₁ hc₁]
    exact TcpCall.noConfusion

/-- The answer to a request is queued, or its file is read, if the request can be answered, and nothing happens
otherwise. -/
theorem pending_respond {req : HttpRequest} {cs : List TcpCall}
    (hws : i ∉ m.app.activeWebsocketConnectionsClientIdxs) (hqueue : (m.tcp.clients i).sendData = [])
    (hopen : i ∉ m.tcp.freedIndexes) (hr : m.app.respond env i req = some (m'.app, cs))
    (hcalls : m.tcp.calls T cs = some m'.tcp) : m'.Pending i ↔ m.tcp.ReadsFor i ∨ req.Answerable env := by
  rw [HttpRequest.answerable_iff]
  rcases WebServer.respond_eq_some hr with ⟨⟨w₁, cs₁⟩, again, hupgrade, hr₁, heq, hagain⟩ |
    ⟨hother, ⟨q, w₁, cs₁, again, hq, hsent, heq, hagain⟩ | ⟨hnone, heq⟩⟩
  · obtain ⟨-, rfl⟩ := Prod.mk.inj heq
    obtain ⟨resp, rfl⟩ := WebServer.websocketAcceptReadCb_calls hr₁
    exact iff_of_true (pending_written hcalls (by simp) rfl hagain) (Or.inr (Or.inl hupgrade))
  · obtain ⟨-, rfl⟩ := Prod.mk.inj heq
    refine iff_of_true ?_ (Or.inr (Or.inr ⟨q, hq⟩))
    obtain ⟨client, client', item, -, ⟨-, rfl⟩ | ⟨-, -, rfl⟩⟩ := WebServer.sendFileRequest_opened hsent
    · exact pending_written hcalls (by simp) rfl hagain
    · -- the file is read for the client
      rw [Pending, ReadsFor, reads_calls hcalls]
      exact Or.inr (Or.inl ⟨_, List.mem_append_right _ (List.mem_cons_self ..), Request.customRead_clientIdx ..⟩)
  · obtain ⟨happ, rfl⟩ := Prod.mk.inj heq
    have htcp : m'.tcp = m.tcp := (Option.some.inj hcalls).symm
    rw [pending_unchanged hqueue hopen htcp (happ ▸ hws)]
    simp [hother, hnone]

end Machine

theorem WebServer.killClient_inactive {w w' : WebServer N} {i : ℕ}
    (h : w.killClient i = some w') : i ∉ w'.activeWebsocketConnectionsClientIdxs := by
  unfold killClient at h
  split at h
  · cases h
  · obtain ⟨⟨cache, client'⟩, -, rfl⟩ := Option.map_eq_some_iff.mp h
    dsimp only
    split_ifs with hactive
    · exact Finset.notMem_erase _ _
    · exact hactive

/-- **What is pending after a request.** When the read callback has returned for a client that is no websocket and has
nothing queued, something is queued for the client, a file is read for it, its connection was closed, or it has become
a websocket, exactly if a file is read for it already, or what was received is a request that can be answered or no
request, received while no write of the client is uncompleted. -/
theorem read_cb_pending_iff (T : ServerType) {N : ℕ} (m m' : Machine (WebServer N)) (env : WebEnv) (i : ℕ)
    (buffer : Bytes) (hws : i ∉ m.app.activeWebsocketConnectionsClientIdxs)
    (hqueue : (m.tcp.clients i).sendData = []) (hopen : i ∉ m.tcp.freedIndexes)
    (hcb : m.readCb T (webApp N) env i buffer = some m') :
    m'.Pending i ↔ m.tcp.ReadsFor i ∨ Attended env buffer (m.tcp.clients i).numWriteReqs := by
  obtain ⟨a, cs, hresult, hcalls, rfl, -⟩ := Machine.callback_eq_some hcb
  have hread : m.app.readCb env i buffer = some (m'.app, cs) := hresult
  unfold WebServer.readCb at hread
  unfold Attended
  by_cases hvalid : isValidHttpReq buffer
  · rw [if_pos hvalid] at hread ⊢
    cases hreq : parseRequest (buffer ++ env.beyond) with
    | none => simp [hreq] at hread
    | some req =>
        simp only [hreq] at hread
        rw [Machine.pending_respond hws hqueue hopen hread hcalls]
        simp
  · rw [if_neg hvalid, if_neg hws] at hread
    rw [if_neg hvalid]
    obtain ⟨w₁, hkill, heq⟩ := Option.map_eq_some_iff.mp hread
    obtain ⟨rfl, rfl⟩ := Prod.mk.inj heq
    have htcp : m'.tcp = m.tcp.closeConnection T i := (calls_singleton hcalls).2
    by_cases hidle : (m.tcp.clients i).numWriteReqs = 0
    · refine iff_of_true (Or.inr (Or.inr (Or.inl ?_))) (Or.inr hidle)
      rw [htcp]
      exact freed_closeConnection hidle
    · rw [closeConnection_eq_self hidle] at htcp
      rw [Machine.pending_unchanged hqueue hopen htcp (WebServer.killClient_inactive hkill)]
      simp [hidle]

/-- A connection is accepted. -/
def acceptEvents : List (Completion WebEnv) := [{ index := 4, res := 10, env := {} }]

/-- Only the page for missing files can be opened. -/
def pageOnly : WebEnv := { files := fun n => if n = 0 then (-1, 0) else (20, 3) }

theorem read_cb_pending_iff_page :
    ∃ m logs m', Runs.exec (Machine.step .nonTls (webApp 2)) (webStart 2 7) acceptEvents = some (m, logs) ∧
      m.readCb .nonTls (webApp 2) pageOnly 0 (ascii "GET /a HTTP/1.0\r\n") = some m' ∧ m'.Pending 0 := by
  have hsome : (Runs.exec (Machine.step .nonTls (webApp 2)) (webStart 2 7) acceptEvents).any (fun r =>
      0 ∉ r.1.app.activeWebsocketConnectionsClientIdxs ∧ (r.1.tcp.clients 0).sendData = [] ∧
        0 ∉ r.1.tcp.freedIndexes ∧
        Attended pageOnly (ascii "GET /a HTTP/1.0\r\n") (r.1.tcp.clients 0).numWriteReqs ∧
        (r.1.readCb .nonTls (webApp 2) pageOnly 0 (ascii "GET /a HTTP/1.0\r\n")).isSome) = true := by
    decide +kernel
  simp only [Option.any_eq_true, decide_eq_true_eq, Option.isSome_iff_exists] at hsome
  obtain ⟨⟨m, logs⟩, hrun, hws, hqueue, hopen, hattended, m', hcb⟩ := hsome
  exact ⟨m, logs, m', hrun, hcb,
    (read_cb_pending_iff .nonTls m m' pageOnly 0 _ hws hqueue hopen hcb).mpr (Or.inr hattended)⟩

/-- A file is missing, and so is the page for missing files. After the request for it nothing is pending for the
client, no request of it is in flight, and its connection is open. -/
theorem read_cb_nothing_pending :
    ∃ m logs m', Runs.exec (Machine.step .nonTls (webApp 2)) (webStart 2 7) acceptEvents = some (m, logs) ∧
      0 ∉ m.app.activeWebsocketConnectionsClientIdxs ∧ (m.tcp.clients 0).sendData = [] ∧
      Machine.step .nonTls (webApp 2) m
          { index := 5
            res := (ascii "GET /a HTTP/1.0\r\n").length
            data := ascii "GET /a HTTP/1.0\r\n"
            env := {} } = some (m', [.read 0 (ascii "GET /a HTTP/1.0\r\n")]) ∧
      ¬m'.Pending 0 ∧ 0 ∈ m'.tcp.activeConnections ∧ ∀ sub ∈ m'.tcp.inflight, sub.req.clientIdx ≠ some 0 := by
  have hsome : (Runs.exec (Machine.step .nonTls (webApp 2)) (webStart 2 7) acceptEvents).any (fun r =>
      0 ∉ r.1.app.activeWebsocketConnectionsClientIdxs ∧ (r.1.tcp.clients 0).sendData = [] ∧
        (Machine.step .nonTls (webApp 2) r.1
          { index := 5
            res := (ascii "GET /a HTTP/1.0\r\n").length
            data := ascii "GET /a HTTP/1.0\r\n"
            env := {} }).any fun r' => r'.2 = [.read 0 (ascii "GET /a HTTP/1.0\r\n")] ∧
              ¬r'.1.Pending 0 ∧ 0 ∈ r'.1.tcp.activeConnections ∧
              ∀ sub ∈ r'.1.tcp.inflight, sub.req.clientIdx ≠ some 0) = true := by decide +kernel
  simp only [Option.any_eq_true, decide_eq_true_eq] at hsome
  obtain ⟨⟨m, logs⟩, hrun, hws, hqueue, ⟨m', log⟩, hstep, rfl, hpending, hactive, hflight⟩ := hsome
  exact ⟨m, logs, m', hrun, hws, hqueue, hstep, hpending, hactive, hflight⟩

end LiburingServer
