import LiburingServer.WebSockets

/-! The writes of a websocket that are outstanding. `currently_writing` is to count them, but the response
that a websocket begins with is written without being counted. -/

namespace LiburingServer

open TcpServer

variable {N : ℕ}

/-- The callback answers a request to become a websocket. -/
def Upgrades : WebEnv × Callback → Prop
  | (env, .read _ buffer) => isValidHttpReq buffer = true ∧
      (parseRequest (buffer ++ env.beyond)).any (fun req => req.isGet && req.isWebsocket) = true
  | _ => False

instance (e : WebEnv × Callback) : Decidable (Upgrades e) := by
  unfold Upgrades
  split <;> infer_instance

namespace WebServer

variable {w w' : WebServer N} {i : ℕ} {env : WebEnv} {cs : List TcpCall} {r : WebServer N × List TcpCall}

/-- A new websocket belongs to the connection, and has nothing counted. -/
theorem newWsClient_entered {x : ℤ} (h : w.newWsClient i = some (w', x)) :
    x ∈ w'.allWebsocketConnections ∧ i ∈ w'.activeWebsocketConnectionsClientIdxs ∧
      ∃ wsClient, w'.wsClient x = some wsClient ∧ wsClient.currentlyWriting = 0 ∧ wsClient.clientIdx = i := by
  unfold newWsClient at h
  dsimp only at h
  split at h
  · rename_i hne
    split at h
    · cases h
    · rename_i freed hfreed
      simp only [Option.some.injEq, Prod.mk.injEq] at h
      obtain ⟨rfl, rfl⟩ := h
      refine ⟨Finset.mem_insert_self _ _, Finset.mem_insert_self _ _,
        { id := (freed.id + 1) % 100, clientIdx := i }, ?_, rfl, rfl⟩
      unfold wsClient at hfreed ⊢
      split at hfreed
      · rename_i hnonneg
        have hlt := (List.getElem?_eq_some_iff.mp hfreed).1
        rw [if_pos hnonneg]
        exact List.getElem?_set_self hlt
      · cases hfreed
  · simp only [Option.some.injEq, Prod.mk.injEq] at h
    obtain ⟨rfl, rfl⟩ := h
    refine ⟨Finset.mem_insert_self _ _, Finset.mem_insert_self _ _, { clientIdx := i }, ?_, rfl, rfl⟩
    simp [wsClient]

/-- The answer that a websocket begins with is written, and not counted. -/
theorem upgrade_queued {buffer : Bytes} (hupgrade : Upgrades (env, .read i buffer))
    (h : w.readCb env i buffer = some r) :
    (∃ resp, r.2 = [.writeConnection i resp, .readConnection i]) ∧
      ∃ x ∈ r.1.allWebsocketConnections, ∃ wsClient, r.1.wsClient x = some wsClient ∧
        wsClient.currentlyWriting = 0 ∧ wsClient.clientIdx = i := by
  obtain ⟨hvalid, hany⟩ := hupgrade
  simp only [Option.any_eq_true, Bool.and_eq_true] at hany
  obtain ⟨req, hreq, hget, hws⟩ := hany
  unfold readCb at h
  rw [if_pos hvalid, hreq] at h
  dsimp only at h
  unfold respond at h
  dsimp only at h
  rw [if_pos hget, if_pos hws] at h
  obtain ⟨r', hr', rfl⟩ := Option.map_eq_some_iff.mp h
  unfold websocketAcceptReadCb at hr'
  dsimp only at hr'
  split at hr'
  · cases hr'
  · rename_i w₁ x hnew
    obtain ⟨hused, hactive, hentered⟩ := newWsClient_entered hnew
    split at hr'
    · cases hr'
    · rename_i client hclient
      obtain rfl := Option.some.inj hr'
      have hstill : i ∈ (w₁.setTcpClient i
          { client with wsClientIdx := x }).activeWebsocketConnectionsClientIdxs := hactive
      refine ⟨?_, x, hused, hentered⟩
      simp only [if_pos hstill]
      exact ⟨_, rfl⟩

/-- The answer to any other request leaves the websockets alone. -/
theorem pool_respond {req : HttpRequest} (hreq : ¬(req.isGet = true ∧ req.isWebsocket = true))
    (h : w.respond env i req = some r) : r.1.pool = w.pool := by
  rcases respond_eq_some h with ⟨-, -, hws, -⟩ | ⟨-, ⟨q, w₁, cs₁, again, -, hsent, rfl, -⟩ | ⟨-, rfl⟩⟩
  · exact absurd hws hreq
  · show w₁.pool = w.pool
    exact pool_sendFileRequest hsent
  · rfl

/-- Only the answer to such a request adds a websocket. -/
theorem used_invoke {e : WebEnv × Callback} (hclosing : w.NoneClosing) (he : ¬Upgrades e)
    (h : (webApp N).invoke w e = some (w', cs)) : w'.allWebsocketConnections ⊆ w.allWebsocketConnections := by
  obtain ⟨act, hallowed, hmove⟩ := move_invoke hclosing h
  show w'.pool.used ⊆ w.pool.used
  by_cases hacquire : ∃ i, act = .acquire i
  · obtain ⟨i, rfl⟩ := hacquire
    obtain ⟨env, cb⟩ := e
    obtain ⟨buffer, rfl⟩ : ∃ buffer, cb = .read i buffer := hallowed
    have hread : w.readCb env i buffer = some (w', cs) := h
    unfold readCb at hread
    split at hread
    · rename_i hvalid
      split at hread
      · cases hread
      · rename_i req hreq
        have hother : ¬(req.isGet = true ∧ req.isWebsocket = true) := by
          rintro ⟨hget, hws⟩
          exact he ⟨hvalid, by simp [hreq, hget, hws]⟩
        rw [show w'.pool = w.pool from pool_respond hother hread]
    · split at hread
      · obtain ⟨⟨w₁, cs₁⟩, hws, heq⟩ := Option.map_eq_some_iff.mp hread
        obtain ⟨rfl, -⟩ := Prod.mk.inj heq
        rcases pool_websocketProcessReadCb hws with hsame | hretired
        · rw [show w₁.pool = w.pool from hsame]
        · generalize w₁.pool = s at hretired
          cases hretired with
          | retire hx hk => exact Finset.Subset.refl _
      · obtain ⟨x, -, hreleased⟩ := pool_killClient (pool_closeConnection hread)
        rw [show w'.pool = w.pool.release i x from hreleased]
        exact RecordPool.used_release
  · generalize w'.pool = s at hmove
    cases hmove with
    | idle => exact Finset.Subset.refl _
    | clear i => exact Finset.Subset.refl _
    | release hx => exact RecordPool.used_release
    | reuse hi hfree howner => exact absurd ⟨_, rfl⟩ hacquire
    | grow hi hfree => exact absurd ⟨_, rfl⟩ hacquire
    | retire hx hk => exact Finset.Subset.refl _

end WebServer

/-- The call writes to the connection itself. -/
def TcpCall.Writes (i : ℕ) : TcpCall → Prop
  | .writeConnection j _ => j = i
  | .writeConnectionPtr j _ _ => j = i
  | _ => False

namespace TcpServer

variable {T : ServerType} {s s' : TcpServer} {i j : ℕ}

/-- Every queue goes on, with what was added to it. -/
def KeepsQueues (s s' : TcpServer) : Prop := ∀ k, (s.clients k).queue <+: (s'.clients k).queue

theorem KeepsQueues.refl (s : TcpServer) : KeepsQueues s s := fun _ => List.prefix_rfl

theorem KeepsQueues.trans {s'' : TcpServer} (h : KeepsQueues s s') (h' : KeepsQueues s' s'') : KeepsQueues s s'' :=
  fun k => (h k).trans (h' k)

theorem Touches.keepsQueues (h : Touches i s s') : KeepsQueues s s' := by
  intro k
  by_cases hk : k = i
  · rw [hk, h.queue]
  · rw [h.others k hk]

theorem keepsQueues_enqueue (data : WriteData) (length : ℕ) : KeepsQueues s (s.enqueue T i data length) := by
  intro k
  by_cases hk : k = i
  · rw [hk, enqueue_queue]
    exact List.prefix_append _ _
  · rw [(alters_enqueue T data length).others k hk]

theorem keepsQueues_broadcastMessage (clientIdxs : List ℕ) (buff : Ptr) (length : ℕ) (customInfo : ℤ) :
    KeepsQueues s (s.broadcastMessage T clientIdxs buff length customInfo) := by
  unfold broadcastMessage
  induction clientIdxs generalizing s with
  | nil => exact KeepsQueues.refl s
  | cons i clientIdxs ih =>
      have hone : KeepsQueues s (broadcastOne T buff length customInfo s i) := keepsQueues_enqueue _ _
      exact hone.trans ih

/-- A call that closes no connection takes nothing off a queue. -/
theorem keepsQueues_call {c : TcpCall} (hc : ∀ j, c ≠ .closeConnection j) (h : s.call T c = some s') :
    KeepsQueues s s' := by
  unfold call at h
  split at h
  · obtain rfl := Option.some.inj h
    cases c with
    | writeConnection j buff =>
        have hfresh : KeepsQueues s { s with nextAddr := s.nextAddr + 1 } := KeepsQueues.refl s
        exact hfresh.trans (keepsQueues_enqueue _ _)
    | writeConnectionPtr j buff length => exact keepsQueues_enqueue _ _
    | broadcastMessage clientIdxs buff length customInfo => exact keepsQueues_broadcastMessage _ _ _ _
    | closeConnection j => exact absurd rfl (hc j)
    | readConnection j => exact (touches_addReadReq (Or.inl rfl)).keepsQueues
    | customReadReq fd toRead clientIdx buff readAmount file => exact KeepsQueues.refl s
  · cases h

theorem keepsQueues_calls {cs : List TcpCall} (hcs : ∀ c ∈ cs, ∀ j, c ≠ .closeConnection j)
    (h : s.calls T cs = some s') : KeepsQueues s s' := by
  refine Runs.foldlM_keeps (R := KeepsQueues s) (fun b c b' hc hb hcall => ?_) (KeepsQueues.refl s) h
  exact hb.trans (keepsQueues_call (hcs c hc) hcall)

theorem call_writes {c : TcpCall} (hwrites : c.Writes i) (h : s.call T c = some s') :
    (s'.clients i).queue ≠ [] := by
  unfold call at h
  split at h
  · obtain rfl := Option.some.inj h
    cases c with
    | writeConnection j buff =>
        obtain rfl : j = i := hwrites
        rw [run, writeConnection, enqueue_queue]
        simp
    | writeConnectionPtr j buff length =>
        obtain rfl : j = i := hwrites
        rw [run, writeConnectionPtr, enqueue_queue]
        simp
    | broadcastMessage clientIdxs buff length customInfo => exact hwrites.elim
    | closeConnection j => exact hwrites.elim
    | readConnection j => exact hwrites.elim
    | customReadReq fd toRead clientIdx buff readAmount file => exact hwrites.elim
  · cases h

/-- What is written is queued when the calls have been carried out. -/
theorem calls_written {cs : List TcpCall} (hcs : ∀ c ∈ cs, ∀ j, c ≠ .closeConnection j) {c : TcpCall}
    (hc : c ∈ cs) (hwrites : c.Writes i) (h : s.calls T cs = some s') : (s'.clients i).queue ≠ [] := by
  induction cs generalizing s with
  | nil => cases hc
  | cons c₁ cs ih =>
      rw [calls, List.foldlM_cons] at h
      obtain ⟨s₁, hcall, hrest⟩ := Option.bind_eq_some_iff.mp h
      have hothers : ∀ c ∈ cs, ∀ j, c ≠ .closeConnection j := fun c hc => hcs c (List.mem_cons_of_mem _ hc)
      rcases List.mem_cons.mp hc with rfl | hc
      · obtain ⟨new, hnew⟩ := keepsQueues_calls hothers hrest i
        rw [← hnew]
        simp [call_writes hwrites hcall]
      · exact ih hothers hc hrest

end TcpServer

theorem Client.queue_ne_nil {client : Client} : client.queue ≠ [] ↔ client.sendData ≠ [] := by
  simp [Client.queue]

namespace Machine

variable {T : ServerType} {m m' : Machine (WebServer N)}

/-- Each websocket counts the writes that are queued or in flight for its connection. -/
def WritesCounted (m : Machine (WebServer N)) : Prop :=
  ∀ x ∈ m.app.allWebsocketConnections, ∃ wsClient, m.app.wsClient x = some wsClient ∧
    wsClient.currentlyWriting = (m.tcp.clients wsClient.clientIdx).sendData.length

instance (m : Machine (WebServer N)) : Decidable m.WritesCounted :=
  decidable_of_iff (∀ x ∈ m.app.allWebsocketConnections, (m.app.wsClient x).any fun wsClient =>
      decide (wsClient.currentlyWriting = ((m.tcp.clients wsClient.clientIdx).sendData.length : ℤ))) <| by
    simp [WritesCounted, Option.any_eq_true]

/-- A round of the loop that answers such a request leaves a write that is not counted. -/
theorem uncounted_step {c : Completion WebEnv} {log : List Callback} {cb : Callback} (hcb : cb ∈ log)
    (hupgrade : Upgrades (c.env, cb)) (hstep : step T (webApp N) m c = some (m', log)) : ¬m'.WritesCounted := by
  obtain ⟨i, buffer, rfl⟩ : ∃ i buffer, cb = .read i buffer := by
    cases cb with
    | read i buffer => exact ⟨i, buffer, rfl⟩
    | _ => exact hupgrade.elim
  obtain ⟨-, -, -, rfl⟩ := step_eq_some hstep
  obtain ⟨m₁, hread⟩ := readLast_step hstep i buffer hcb
  obtain ⟨a, cs, hresult, hcalls, rfl, -⟩ := callback_eq_some hread
  obtain ⟨⟨resp, hcs⟩, x, hx, wsClient, hws, hcount, hidx⟩ := WebServer.upgrade_queued hupgrade hresult
  simp only at hcs
  have hqueue : (m'.tcp.clients i).queue ≠ [] := by
    have hmem : TcpCall.writeConnection i resp ∈ cs := by simp [hcs]
    exact calls_written (by simp [hcs]) hmem rfl hcalls
  intro hcounted
  obtain ⟨wsClient', hws', hlength⟩ := hcounted x hx
  obtain rfl : wsClient = wsClient' := Option.some.inj (hws.symm.trans hws')
  rw [hcount, hidx] at hlength
  refine Client.queue_ne_nil.mp hqueue (List.eq_nil_of_length_eq_zero ?_)
  exact_mod_cast hlength.symm

/-- A round of the loop that answers none adds no websocket. -/
theorem used_step {c : Completion WebEnv} {log : List Callback} (hclosing : m.app.NoneClosing)
    (hnone : m.app.allWebsocketConnections = ∅) (hlog : ∀ cb ∈ log, ¬Upgrades (c.env, cb))
    (hstep : step T (webApp N) m c = some (m', log)) : m'.app.allWebsocketConnections = ∅ := by
  obtain ⟨-, calls, -, hcalls, -⟩ := replays_step hstep
  obtain ⟨-, hempty⟩ : m'.app.NoneClosing ∧ m'.app.allWebsocketConnections = ∅ := by
    refine Runs.exec_invariant (Q := fun w : WebServer N => w.NoneClosing ∧ w.allWebsocketConnections = ∅)
      (P := fun _ e => ¬Upgrades e) (fun w e w' _ hw he hcb => ?_) ⟨hclosing, hnone⟩ ?_ hcalls
    · refine ⟨WebServer.maintains_noneClosing.invoke hw.1 hcb, ?_⟩
      exact Finset.subset_empty.mp (hw.2 ▸ WebServer.used_invoke hw.1 he hcb)
    · refine Runs.along_of_mem fun e he => ?_
      obtain ⟨cb, hcb, rfl⟩ := List.mem_map.mp he
      exact hlog cb hcb
  exact hempty

/-- The writes are counted throughout a run exactly if no request to become a websocket is answered. -/
theorem counted_iff {cs : List (Completion WebEnv)} {logs : List (List Callback)} (hclosing : m.app.NoneClosing)
    (hnone : m.app.allWebsocketConnections = ∅) (hrun : Runs.exec (step T (webApp N)) m cs = some (m', logs)) :
    Runs.Throughout (step T (webApp N)) WritesCounted m cs ↔ ∀ e ∈ invoked cs logs, ¬Upgrades e := by
  have hcounted : m.WritesCounted := by simp [WritesCounted, hnone]
  induction cs generalizing m logs with
  | nil =>
      obtain ⟨rfl, rfl⟩ : m = m' ∧ [] = logs := by simpa [Runs.exec] using hrun
      simpa [Runs.Throughout, invoked] using hcounted
  | cons c cs ih =>
      obtain ⟨m₁, log, logs₁, hstep, hrest, rfl⟩ := Runs.exec_cons hrun
      have hclosing₁ : m₁.app.NoneClosing := app_step WebServer.maintains_noneClosing hclosing hstep
      have hsplit : Runs.Throughout (step T (webApp N)) WritesCounted m (c :: cs) ↔
          Runs.Throughout (step T (webApp N)) WritesCounted m₁ cs := by
        simp [Runs.Throughout, hcounted, hstep]
      rw [hsplit, invoked_cons]
      by_cases hlog : ∀ cb ∈ log, ¬Upgrades (c.env, cb)
      · have hnone₁ := used_step hclosing hnone hlog hstep
        have hlater := ih hclosing₁ hnone₁ hrest (by simp [WritesCounted, hnone₁])
        apply hlater.trans
        constructor
        · intro hlater e he
          rcases List.mem_append.mp he with he | he
          · obtain ⟨cb, hcb, rfl⟩ := List.mem_map.mp he
            exact hlog cb hcb
          · exact hlater e he
        · exact fun hall e he => hall e (List.mem_append_right _ he)
      · push Not at hlog
        obtain ⟨cb, hcb, hupgrade⟩ := hlog
        constructor
        · exact fun hthrough => absurd hthrough.head (uncounted_step hcb hupgrade hstep)
        · intro hall
          exact absurd hupgrade (hall _ (List.mem_append_left _ (List.mem_map_of_mem hcb)))

end Machine

/-- In every run of either server type, the writes of every websocket are counted in every state exactly if no
request to become a websocket is answered. -/
theorem websocket_writes_counted_iff (T : ServerType) (N : ℕ) (inotifyFd : ℤ) (cs : List (Completion WebEnv))
    (m : Machine (WebServer N)) (logs : List (List Callback))
    (hrun : Runs.exec (Machine.step T (webApp N)) (webStart N inotifyFd) cs = some (m, logs)) :
    Runs.Throughout (Machine.step T (webApp N)) Machine.WritesCounted (webStart N inotifyFd) cs ↔
      ∀ e ∈ invoked cs logs, ¬Upgrades e := by
  refine Machine.counted_iff ?_ rfl hrun
  simp [WebServer.NoneClosing, webStart, Machine.start]

/-- A client asks for a file, which is read and stored. -/
def fileRun : List (Completion WebEnv) :=
  [{ index := 4, res := 10, env := {} },
    { index := 5, res := 17, data := ascii "GET /a HTTP/1.0\r\n", env := { files := fun _ => (20, 3) } },
    { index := 5, res := 3, data := [1, 2, 3], env := {} }]

theorem websocket_writes_counted_file :
    Runs.Throughout (Machine.step .nonTls (webApp 2)) Machine.WritesCounted (webStart 2 7) fileRun := by
  have hsome : (Runs.exec (Machine.step .nonTls (webApp 2)) (webStart 2 7) fileRun).any
      (fun r : Machine (WebServer 2) × List (List Callback) => ∀ e ∈ invoked fileRun r.2, ¬Upgrades e) = true := by
    decide +kernel
  simp only [Option.any_eq_true, decide_eq_true_eq] at hsome
  obtain ⟨⟨m, logs⟩, hrun, hnone⟩ := hsome
  exact (websocket_writes_counted_iff .nonTls 2 7 fileRun m logs hrun).mpr hnone

/-- A client becomes a websocket. When the response has been written nothing is outstanding, but the count
is -1. -/
theorem websocket_write_uncounted :
    ∃ m logs, Runs.exec (Machine.step .nonTls (webApp 1)) (webStart 1 9)
        [{ index := 4, res := 10, env := {} },
          { index := 5, res := upgradeRequest.length, data := upgradeRequest, env := {} },
          { index := 5, res := 101, env := {} }] = some (m, logs) ∧
      ¬m.WritesCounted ∧ (m.app.wsClient 0).map WsClient.currentlyWriting = some (-1) ∧
      0 ∈ m.app.allWebsocketConnections ∧ (m.tcp.clients 0).sendData = [] := by
  have hsome : (Runs.exec (Machine.step .nonTls (webApp 1)) (webStart 1 9)
        [{ index := 4, res := 10, env := {} },
          { index := 5, res := upgradeRequest.length, data := upgradeRequest, env := {} },
          { index := 5, res := 101, env := {} }]).any (fun r =>
      ¬r.1.WritesCounted ∧ (r.1.app.wsClient 0).map WsClient.currentlyWriting = some (-1) ∧
        0 ∈ r.1.app.allWebsocketConnections ∧ (r.1.tcp.clients 0).sendData = []) = true := by decide +kernel
  simp only [Option.any_eq_true, decide_eq_true_eq] at hsome
  obtain ⟨⟨m, logs⟩, hrun, h⟩ := hsome
  exact ⟨m, logs, hrun, h⟩

end LiburingServer
