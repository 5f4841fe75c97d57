import LiburingServer.WebOutstanding

/-! Websockets that are being closed. Such a websocket is in use but no longer active, and is given up when its
last write is done, but only if it is marked, and nothing marks one. -/

namespace LiburingServer

open TcpServer

variable {N : ℕ}

namespace TcpServer

variable {T : ServerType} {s s' : TcpServer} {i j : ℕ}

/-- Closing a connection leaves the other slots alone. -/
theorem closeConnection_of_ne (h : j ≠ i) : (s.closeConnection T i).clients j = s.clients j := by
  unfold closeConnection
  split
  · cases T with
    | nonTls => exact setQueue_of_ne _ _ _ _ h
    | tls =>
        have htouches : Touches i s (s.wolfCall i).1 := touches_wolfCall
        calc _ = ((s.wolfCall i).1.modifyClient i fun client => { client with ssl := false }).clients j :=
              setQueue_of_ne _ _ _ _ h
          _ = (s.wolfCall i).1.clients j := modifyClient_of_ne _ _ _ _ h
          _ = s.clients j := htouches.others j h
  · rfl

theorem setupClient_of_ne {sockfd : ℤ} (h : j ≠ (s.setupClient sockfd).2) :
    (s.setupClient sockfd).1.clients j = s.clients j := by
  unfold setupClient at h ⊢
  split
  · rename_i hne
    rw [dif_pos hne] at h
    exact Function.update_of_ne h _ _
  · rename_i hempty
    rw [dif_neg hempty] at h
    exact Function.update_of_ne h _ _

theorem closeConnection_nil (h : (s.clients i).queue = []) : ((s.closeConnection T i).clients i).queue = [] := by
  unfold closeConnection
  split
  · cases T with
    | nonTls => simp [freeSlot, Client.queue]
    | tls => simp [freeSlot, Client.queue]
  · exact h

theorem setupClient_queue (s : TcpServer) (sockfd : ℤ) :
    ((s.setupClient sockfd).1.clients (s.setupClient sockfd).2).queue = [] := by
  unfold setupClient
  split
  · simp [Client.queue]
  · simp [Client.queue]

theorem queue_modifyClient {f : Client → Client} (hf : (f (s.clients i)).queue = (s.clients i).queue) (k : ℕ) :
    ((s.modifyClient i f).clients k).queue = (s.clients k).queue := by
  by_cases hk : k = i
  · rw [hk, modifyClient_self, hf]
  · rw [modifyClient_of_ne _ _ _ _ hk]

/-- The slot that is handed out depends on which slots there are. -/
theorem setupClient_slot {sockfd : ℤ} (hfreed : s'.freedIndexes = s.freedIndexes)
    (hnum : s'.numClients = s.numClients) : (s'.setupClient sockfd).2 = (s.setupClient sockfd).2 := by
  have hslot : ∀ s : TcpServer, (s.setupClient sockfd).2 =
      if h : s.freedIndexes.Nonempty then s.freedIndexes.min' h else s.numClients := by
    intro s
    unfold setupClient
    split
    · rfl
    · rfl
  rw [hslot, hslot]
  simp only [hfreed, hnum]

/-- Something is queued for a slot. -/
def Queued (s : TcpServer) (i : ℕ) : Prop := (s.clients i).queue ≠ []

theorem KeepsQueues.queued (h : KeepsQueues s s') {k : ℕ} (hk : s.Queued k) : s'.Queued k := by
  obtain ⟨new, hnew⟩ := h k
  rw [Queued, ← hnew]
  simp [show (s.clients k).queue ≠ [] from hk]

end TcpServer

namespace WebServer

variable {w w' : WebServer N} {i : ℕ} {env : WebEnv} {cs : List TcpCall} {r : WebServer N × List TcpCall}

/-- `kill_client` runs for a slot only if no other websocket than the one its index names belongs to it. -/
def KillsOwn (w : WebServer N) (e : WebEnv × Callback) : Prop :=
  ∀ i, w.killed e.2 = some i → ∀ x ∈ w.allWebsocketConnections,
    (w.wsClient x).map WsClient.clientIdx = some i → (w.tcpClients[i]?).map TcpClient.wsClientIdx = some x

instance (w : WebServer N) (e : WebEnv × Callback) : Decidable (w.KillsOwn e) :=
  inferInstanceAs (Decidable (∀ i ∈ w.killed e.2, ∀ x ∈ w.allWebsocketConnections,
    (w.wsClient x).map WsClient.clientIdx = some i → (w.tcpClients[i]?).map TcpClient.wsClientIdx = some x))

/-- Whatever stops being an active websocket is written to. -/
def Farewell (w : WebServer N) (r : WebServer N × List TcpCall) : Prop :=
  ∀ k ∈ w.activeWebsocketConnectionsClientIdxs, k ∉ r.1.activeWebsocketConnectionsClientIdxs →
    ∃ buff, .writeConnection k buff ∈ r.2

theorem farewell_of_pool (h : r.1.pool = w.pool) : w.Farewell r := by
  intro k hk hleft
  have hactive : r.1.activeWebsocketConnectionsClientIdxs = w.activeWebsocketConnectionsClientIdxs :=
    congrArg RecordPool.active h
  exact absurd (hactive ▸ hk) hleft

theorem Farewell.andCall {cs' : List TcpCall} (h : w.Farewell (w', cs)) : w.Farewell (w', cs ++ cs') := by
  intro k hk hleft
  obtain ⟨buff, hbuff⟩ := h k hk hleft
  exact ⟨buff, List.mem_append_left _ hbuff⟩

theorem Farewell.after (h : w'.Farewell r) (hpool : w'.pool = w.pool) : w.Farewell r := by
  intro k hk hleft
  have hactive : w'.activeWebsocketConnectionsClientIdxs = w.activeWebsocketConnectionsClientIdxs :=
    congrArg RecordPool.active hpool
  exact h k (hactive ▸ hk) hleft

theorem farewell_closeWsConnectionReq {idx : ℤ} (h : w.closeWsConnectionReq idx false = some r) :
    w.Farewell r := by
  obtain ⟨client, hclient, rfl⟩ := Option.map_eq_some_iff.mp h
  intro k hk hleft
  have heq : k = client.clientIdx := by
    by_contra hne
    exact hleft (Finset.mem_erase.mpr ⟨hne, hk⟩)
  exact ⟨makeWsFrame [] 0x8, by simp [heq]⟩

theorem farewell_processFrame {idx : ℤ} {frame : Bytes} {closed : Bool}
    (h : w.processFrame idx frame = some (w', cs, closed)) : w.Farewell (w', cs) := by
  have hpool := pool_processFrame h
  cases closed with
  | false => exact farewell_of_pool hpool
  | true =>
      unfold processFrame at h
      split at h
      · simp at h
      · split at h
        · rename_i client _ hclient
          split at h
          · simp at h
          · split at h
            · simp at h
            · split at h
              · obtain ⟨⟨w₁, cs₁⟩, hclose, heq⟩ := Option.map_eq_some_iff.mp h
                simp only [Prod.mk.injEq, and_true] at heq
                obtain ⟨rfl, rfl⟩ := heq
                refine (farewell_closeWsConnectionReq hclose).after ?_
                exact pool_setWsClient hclient rfl
              · split at h
                · simp at h
                · simp at h
        · cases h

theorem farewell_processFrames {idx : ℤ} {frames : List Bytes} {closed : Bool}
    (h : processFrames idx frames w = some (w', cs, closed)) : w.Farewell (w', cs) := by
  induction frames generalizing w cs closed with
  | nil =>
      obtain ⟨rfl, -⟩ := by simpa [processFrames] using h
      exact farewell_of_pool rfl
  | cons frame frames ih =>
      unfold processFrames at h
      split at h
      · cases h
      · rename_i w₁ cs₁ hframe
        obtain ⟨rfl, rfl, -⟩ : _ ∧ _ ∧ _ := by simpa only [Option.some.injEq, Prod.mk.injEq] using h
        exact farewell_processFrame hframe
      · rename_i w₁ cs₁ hframe
        obtain ⟨⟨w₂, cs₂, closed₂⟩, hrest, heq⟩ := Option.map_eq_some_iff.mp h
        simp only [Prod.mk.injEq] at heq
        obtain ⟨rfl, rfl, -⟩ := heq
        have hpool : w₁.pool = w.pool := pool_processFrame hframe
        intro k hk hleft
        obtain ⟨buff, hbuff⟩ := ((ih hrest).after hpool) k hk hleft
        exact ⟨buff, List.mem_append_right _ hbuff⟩

theorem farewell_websocketProcessReadCb {buffer : Bytes} (h : w.websocketProcessReadCb env i buffer = some r) :
    w.Farewell r := by
  unfold websocketProcessReadCb at h
  dsimp only at h
  split at h
  · cases h
  · rename_i tcpClient htcp
    split at h
    · cases h
    · rename_i wsClient hclient
      split at h
      · cases h
      · rename_i receivingData code frames _
        have hpool : (w.setWsClient tcpClient.wsClientIdx { wsClient with receivingData }).pool = w.pool :=
          pool_setWsClient hclient rfl
        split at h
        · obtain ⟨⟨w₁, cs₁, closed⟩, hframes, rfl⟩ := Option.map_eq_some_iff.mp h
          exact ((farewell_processFrames hframes).after hpool).andCall
        · obtain ⟨⟨w₁, cs₁⟩, hclose, rfl⟩ := Option.map_eq_some_iff.mp h
          exact ((farewell_closeWsConnectionReq hclose).after hpool).andCall

theorem farewell_readCb {buffer : Bytes} (h : w.readCb env i buffer = some r) : w.Farewell r := by
  unfold readCb at h
  split at h
  · split at h
    · cases h
    · rcases move_respond h with hpool | hmove
      · exact farewell_of_pool hpool
      · intro k hk hleft
        refine absurd ?_ hleft
        show k ∈ r.1.pool.active
        generalize r.1.pool = s at hmove
        cases hmove with
        | reuse hi hfree howner => exact Finset.mem_insert_of_mem hk
        | grow hi hfree => exact Finset.mem_insert_of_mem hk
  · split at h
    · obtain ⟨⟨w₁, cs₁⟩, hws, rfl⟩ := Option.map_eq_some_iff.mp h
      exact (farewell_websocketProcessReadCb hws).andCall
    · rename_i hinactive
      obtain ⟨x, -, hpool⟩ := pool_killClient (pool_closeConnection h)
      intro k hk hleft
      refine absurd ?_ hleft
      show k ∈ r.1.pool.active
      rw [hpool, RecordPool.release, if_neg (show i ∉ w.pool.active from hinactive)]
      exact hk

/-- What is killed has its record released. -/
theorem release_killed {e : WebEnv × Callback} (h : (webApp N).invoke w e = some (w', cs))
    (hkilled : w.killed e.2 = some i) : ∃ x, w.pool.ref[i]? = some x ∧ w'.pool = w.pool.release i x := by
  obtain ⟨env, cb⟩ := e
  cases cb with
  | close j info =>
      obtain rfl : j = i := Option.some.inj hkilled
      obtain ⟨hclose, -⟩ : w.closeCb j info = some w' ∧ [] = cs := by simpa [App.invoke, webApp] using h
      obtain ⟨w₁, hused, hkill⟩ := Option.bind_eq_some_iff.mp hclose
      obtain ⟨x, hx, heq⟩ := pool_killClient hkill
      rw [(pool_broadcastUsed hused).1] at hx heq
      exact ⟨x, hx, heq⟩
  | read j buffer =>
      simp only [killed, Option.ite_none_right_eq_some, Option.some.injEq] at hkilled
      obtain ⟨⟨hvalid, hinactive⟩, rfl⟩ := hkilled
      have hread : w.readCb env j buffer = some (w', cs) := h
      unfold readCb at hread
      rw [if_neg (by simp [hvalid]), if_neg hinactive] at hread
      exact pool_killClient (pool_closeConnection hread)
  | write j info =>
      simp only [killed, Option.ite_none_right_eq_some, Option.some.injEq] at hkilled
      obtain ⟨hnone, rfl⟩ := hkilled
      have hwrite : w.writeCb j info = some (w', cs) := h
      unfold writeCb at hwrite
      split at hwrite
      · cases hwrite
      · rename_i w₁ hused
        obtain ⟨hpool, hclients⟩ := pool_broadcastUsed hused
        split at hwrite
        · cases hwrite
        · rename_i client hclient
          have hidx : client.wsClientIdx ∉ w₁.allWebsocketConnections := by
            rw [(broadcastUsed_rest hused).2.2.2.2]
            exact hnone client (hclients ▸ hclient)
          rw [if_neg hidx] at hwrite
          obtain ⟨x, hx, heq⟩ := pool_killClient (pool_closeConnection hwrite)
          rw [hpool] at hx heq
          exact ⟨x, hx, heq⟩
  | accept j => cases hkilled
  | event => cases hkilled
  | customRead j fd buffer => cases hkilled

/-- A callback closes no connection, or the one that it kills. -/
theorem invoke_closes {e : WebEnv × Callback} (hclosing : w.NoneClosing)
    (h : (webApp N).invoke w e = some (w', cs)) :
    (∀ c ∈ cs, ∀ j, c ≠ .closeConnection j) ∨ ∃ i, w.killed e.2 = some i ∧ cs = [.closeConnection i] := by
  obtain ⟨env, cb⟩ := e
  cases cb with
  | accept j =>
      obtain ⟨-, rfl⟩ : w.newTcpClient j = w' ∧ [] = cs := by simpa [App.invoke, webApp] using h
      exact Or.inl (by simp)
  | close j info =>
      obtain ⟨-, rfl⟩ : w.closeCb j info = some w' ∧ [] = cs := by simpa [App.invoke, webApp] using h
      exact Or.inl (by simp)
  | read j buffer =>
      rcases readCb_closes (r := (w', cs)) h with hnone | ⟨hcs, hvalid, hinactive⟩
      · exact Or.inl hnone
      · exact Or.inr ⟨j, if_pos ⟨hvalid, hinactive⟩, hcs⟩
  | write j info =>
      rcases writeCb_closes (r := (w', cs)) hclosing h with hnone | ⟨hcs, hkilled⟩
      · exact Or.inl hnone
      · exact Or.inr ⟨j, if_pos hkilled, hcs⟩
  | event =>
      obtain rfl : (w.eventCb env).2 = cs := congrArg Prod.snd (Option.some.inj h)
      apply Or.inl
      unfold eventCb
      dsimp only
      split
      · simp
      · simp
  | customRead j fd buffer => exact Or.inl (customReadCb_closes (r := (w', cs)) h)

end WebServer

namespace Machine

variable {T : ServerType} {a : WebServer N} {m m' : Machine (WebServer N)} {env : WebEnv} {s : TcpServer} {i : ℕ}

/-- A websocket that is in use but no longer active has a write queued or in flight. -/
def ClosingPending (m : Machine (WebServer N)) : Prop :=
  ∀ x ∈ m.app.allWebsocketConnections, ∀ wsClient ∈ m.app.wsClient x,
    wsClient.clientIdx ∉ m.app.activeWebsocketConnectionsClientIdxs →
      (m.tcp.clients wsClient.clientIdx).sendData ≠ []

theorem closingPending_iff : m.ClosingPending ↔ m.app.pool.Backed m.tcp.Queued := by
  constructor
  · intro h x hx k hk hinactive
    rw [WebServer.pool_ownerOf] at hk
    obtain ⟨wsClient, hws, rfl⟩ := Option.map_eq_some_iff.mp hk
    exact Client.queue_ne_nil.mpr (h x hx wsClient hws hinactive)
  · intro h x hx wsClient hws hinactive
    refine Client.queue_ne_nil.mp (h x hx wsClient.clientIdx ?_ hinactive)
    rw [WebServer.pool_ownerOf, hws]
    rfl

/-- The callbacks for the event being handled lead from `a` to the present state of the application, and as
long as each of them kills its own websocket, those that are being closed have something queued. -/
structure Backs (a : WebServer N) (env : WebEnv) (m : Machine (WebServer N)) : Prop where
  reached : ∃ calls, Runs.exec (webApp N).invoke a (m.log.map fun cb => (env, cb)) = some (m.app, calls)
  noneClosing : m.app.NoneClosing
  backed : Runs.Along (webApp N).invoke WebServer.KillsOwn a (m.log.map fun cb => (env, cb)) →
    m.app.pool.Backed m.tcp.Queued

namespace Backs

/-- The server changes, but takes nothing off the queue of a websocket. -/
theorem onTcp (h : Backs a env m) (hs : ∀ k, ¬m.app.pool.Unowned k → m.tcp.Queued k → s.Queued k) :
    Backs a env (m.onTcp fun _ => s) :=
  ⟨h.reached, h.noneClosing, fun hlog => (h.backed hlog).mono hs⟩

theorem touches (h : Backs a env m) (hs : Touches i m.tcp s) : Backs a env (m.onTcp fun _ => s) :=
  h.onTcp fun _ _ => hs.keepsQueues.queued

theorem ofKeepsQueues (h : Backs a env m) (hs : KeepsQueues m.tcp s) : Backs a env (m.onTcp fun _ => s) :=
  h.onTcp fun _ _ => hs.queued

/-- A callback is called, and what it asks for is carried out. -/
theorem invoke (h : Backs a env m) {cb : Callback} {cs : List TcpCall}
    (hcb : (webApp N).invoke m.app (env, cb) = some (m'.app, cs)) (hlog : m'.log = m.log ++ [cb])
    (hcalls : m.tcp.calls T cs = some m'.tcp) : Backs a env m' ∧
      (Runs.Along (webApp N).invoke WebServer.KillsOwn a (m'.log.map fun cb => (env, cb)) →
        ∀ i, m.app.killed cb = some i → m'.app.pool.Unowned i) := by
  obtain ⟨calls, hreached⟩ := h.reached
  have halong : Runs.Along (webApp N).invoke WebServer.KillsOwn a (m'.log.map fun cb => (env, cb)) →
      Runs.Along (webApp N).invoke WebServer.KillsOwn a (m.log.map fun cb => (env, cb)) ∧
        m.app.KillsOwn (env, cb) := by
    rw [hlog, List.map_append, Runs.along_append hreached]
    exact fun hboth => ⟨hboth.1, hboth.2.1⟩
  have hreleases : m.app.KillsOwn (env, cb) → ∀ i, m.app.killed cb = some i →
      m.app.pool.ReleasesOwn (.release i) := by
    intro hown i hkilled x hx howner
    rw [WebServer.pool_ownerOf] at howner
    rw [WebServer.pool_ref]
    exact hown i hkilled x hx howner
  have hunowned : m.app.KillsOwn (env, cb) → ∀ i, m.app.killed cb = some i → m'.app.pool.Unowned i := by
    intro hown i hkilled
    obtain ⟨x, hx, heq⟩ := WebServer.release_killed hcb hkilled
    rw [heq]
    exact RecordPool.unowned_release hx (hreleases hown i hkilled)
  refine ⟨⟨⟨calls ++ [cs], ?_⟩, WebServer.maintains_noneClosing.invoke h.noneClosing hcb, fun hkills => ?_⟩,
    fun hkills => hunowned (halong hkills).2⟩
  · rw [hlog, List.map_append]
    exact Runs.exec_append.mpr ⟨_, _, _, hreached, Runs.exec_singleton hcb, rfl⟩
  · obtain ⟨hbefore, hown⟩ := halong hkills
    obtain ⟨act, hallowed, hmove⟩ := WebServer.move_invoke h.noneClosing hcb
    have hact : m.app.pool.ReleasesOwn act := by
      cases act with
      | release i => exact hreleases hown i hallowed
      | _ => trivial
    have hretired : ∀ i, act = .retire i → m.app.Farewell (m'.app, cs) := by
      rintro i rfl
      obtain ⟨-, buffer, rfl⟩ := hallowed
      exact WebServer.farewell_readCb hcb
    rcases WebServer.invoke_closes h.noneClosing hcb with hopen | ⟨i, hkilled, rfl⟩
    · have hqueued := (h.backed hbefore).mono fun k _ hk => (keepsQueues_calls hopen hcalls).queued hk
      refine hqueued.move hact hmove fun i hi k hk hleft => ?_
      obtain ⟨buff, hbuff⟩ := hretired i hi k hk hleft
      exact calls_written hopen hbuff rfl hcalls
    · have hmoved := (h.backed hbefore).move hact hmove fun i hi k hk hleft => by
        obtain ⟨buff, hbuff⟩ := hretired i hi k hk hleft
        simp at hbuff
      refine hmoved.mono fun k hk hqueued => ?_
      have hne : k ≠ i := by
        rintro rfl
        exact hk (hunowned hown k hkilled)
      rw [(calls_singleton hcalls).2, run, Queued, closeConnection_of_ne hne]
      exact hqueued

theorem callback (h : Backs a env m) {cb : Callback} {result : Option (WebServer N × List TcpCall)}
    (hinvoke : (webApp N).invoke m.app (env, cb) = result) (hcb : m.callback T cb result = some m') :
    Backs a env m' := by
  obtain ⟨a', cs, hresult, hcalls, rfl, hlog⟩ := callback_eq_some hcb
  exact (h.invoke (hinvoke.trans hresult) hlog hcalls).1

theorem acceptCb (h : Backs a env m) (hcb : m.acceptCb (webApp N) i = some m') : Backs a env m' := by
  obtain ⟨a', ha, rfl⟩ := Option.map_eq_some_iff.mp hcb
  have hinvoke : (webApp N).invoke m.app (env, .accept i) = some (a', []) := by simp [App.invoke, ha]
  exact (h.invoke (T := .nonTls) hinvoke rfl rfl).1

theorem closeCb (h : Backs a env m) {info : ℤ} (hcb : closeCb (webApp N) i m info = some m') :
    Backs a env m' ∧
      (Runs.Along (webApp N).invoke WebServer.KillsOwn a (m'.log.map fun cb => (env, cb)) →
        m'.app.pool.Unowned i) := by
  obtain ⟨a', ha, rfl⟩ := Option.map_eq_some_iff.mp hcb
  have hinvoke : (webApp N).invoke m.app (env, .close i info) = some (a', []) := by simp [App.invoke, ha]
  have hclosed : ({ m with app := a', log := m.log ++ [.close i info] } : Machine (WebServer N)).log =
      m.log ++ [.close i info] := rfl
  obtain ⟨hbacks, hunowned⟩ := h.invoke (T := .nonTls) hinvoke hclosed rfl
  exact ⟨hbacks, fun hlog => hunowned hlog i rfl⟩

/-- The websocket is killed before its queue is dropped. -/
theorem drainAndClose (h : Backs a env m) (hclose : m.drainAndClose T (webApp N) i = some m') :
    Backs a env m' := by
  obtain ⟨m₁, hm₁, rfl⟩ := Option.map_eq_some_iff.mp hclose
  rw [List.foldlM_append] at hm₁
  obtain ⟨m₂, hm₂, hlast⟩ := Option.bind_eq_some_iff.mp hm₁
  have hbefore : Backs a env m₂ :=
    Runs.foldlM_keeps (R := Backs a env) (fun b info b' _ hb hcb => (hb.closeCb hcb).1) h hm₂
  have hcb : Machine.closeCb (webApp N) i m₂ (-1) = some m₁ := by simpa using hlast
  obtain ⟨hbacks, hunowned⟩ := hbefore.closeCb hcb
  refine ⟨hbacks.reached, hbacks.noneClosing, fun hlog => (hbacks.backed hlog).mono fun k hk hqueued => ?_⟩
  have hne : k ≠ i := by
    rintro rfl
    exact hk (hunowned hlog)
  show ((m₁.tcp.setQueue i []).closeConnection T i).Queued k
  rw [Queued, closeConnection_of_ne hne, setQueue_of_ne _ _ _ _ hne]
  exact hqueued

end Backs

/-- The completion ends a write, and nothing else is queued for the slot. -/
def EndsLastWrite (T : ServerType) (m : Machine (WebServer N)) (sub : Submission) (i : ℕ)
    (c : Completion WebEnv) : Prop :=
  sub.req.event = .write ∧ 0 < c.res ∧ (i = 0 ∨ (m.tcp.clients i).id = sub.req.ID) ∧
    (m.tcp.clients i).sendData.length = 1 ∧
    match T with
    | .nonTls => (sub.req.totalLength : ℤ) ≤ c.res + sub.req.written ∧ i ∈ m.tcp.activeConnections ∧
        (m.tcp.clients i).id = sub.req.ID
    | .tls => m.tcp.Yields i (-1)

instance (sub : Submission) (c : Completion WebEnv) : Decidable (m.EndsLastWrite T sub i c) := by
  cases T <;> unfold EndsLastWrite <;> infer_instance

/-- A websocket that is being closed belongs to slot `i`. -/
def ClosingOn (m : Machine (WebServer N)) (i : ℕ) : Prop :=
  i ∉ m.app.activeWebsocketConnectionsClientIdxs ∧
    ∃ x ∈ m.app.allWebsocketConnections, (m.app.wsClient x).map WsClient.clientIdx = some i

instance : Decidable (m.ClosingOn i) := by
  unfold ClosingOn
  infer_instance

/-- The completion does not end the last write of a websocket that is being closed, and hands out no slot of
one. -/
def SparesClosing (T : ServerType) (m : Machine (WebServer N)) (c : Completion WebEnv) : Prop :=
  ∀ sub ∈ m.tcp.inflight[c.index]?,
    (sub.req.event = .accept → ¬m.ClosingOn (m.tcp.setupClient c.res).2) ∧
    ∀ i ∈ sub.req.clientIdx, (m.take c).EndsLastWrite T sub i c → ¬m.ClosingOn i

instance (c : Completion WebEnv) : Decidable (m.SparesClosing T c) :=
  inferInstanceAs (Decidable (∀ sub ∈ m.tcp.inflight[c.index]?, _))

/-- The entry in front of a queue is taken off it. -/
theorem Backs.pop (h : Backs a env m) {front : WriteData} {rest : List WriteData}
    (hqueue : (m.tcp.clients i).sendData = front :: rest) (hspares : rest = [] → ¬m.ClosingOn i)
    (hothers : ∀ k, k ≠ i → (s.clients k).queue = (m.tcp.clients k).queue)
    (hrest : (s.clients i).queue = rest.map WriteData.unwritten) : Backs a env (m.onTcp fun _ => s) := by
  refine ⟨h.reached, h.noneClosing, fun hlog x hx k hk hinactive => ?_⟩
  have hqueued : m.tcp.Queued k := h.backed hlog x hx k hk hinactive
  show (s.clients k).queue ≠ []
  by_cases hki : k = i
  · subst hki
    rw [hrest]
    intro hnil
    refine hspares (List.map_eq_nil_iff.mp hnil) ⟨hinactive, x, hx, ?_⟩
    rw [← WebServer.pool_ownerOf]
    exact hk
  · rw [hothers k hki]
    exact hqueued

theorem backs_endWrite (h : Backs a env m) : Backs a env (m.onTcp fun s => s.endWrite i) := by
  refine h.ofKeepsQueues fun k => ?_
  rw [endWrite, queue_modifyClient rfl]

theorem backs_plainHandler {sub : Submission} {c : Completion WebEnv} (h : Backs a c.env m)
    (hres : 0 < c.res) (hguard : i = 0 ∨ (m.tcp.clients i).id = sub.req.ID)
    (hspares : m.EndsLastWrite .nonTls sub i c → ¬m.ClosingOn i)
    (hhandled : m.plainHandler (webApp N) sub i c = some m') : Backs a c.env m' := by
  refine plainHandler_rule hhandled (R := Backs a c.env) (fun _ s hs hm' => ?_) (fun _ front _ _ => ?_)
    (fun hevent front rest hqueue hactive hdone hm' => ?_) (fun _ _ _ hm' => ?_) h
  · exact (h.touches hs).callback rfl hm'
  · exact h.ofKeepsQueues (KeepsQueues.refl m.tcp)
  · refine Backs.callback (m := m.onTcp fun s => (s.endWrite i).writeNext i rest) ?_ rfl hm'
    refine h.pop hqueue (fun hnil => ?_) (fun k hk => ?_) ?_
    · refine hspares ⟨hevent, hres, hguard, ?_, all_written hres hdone, hactive⟩
      rw [hqueue, hnil]
      rfl
    · rw [(alters_writeNext rest).others k hk, alters_endWrite.others k hk]
    · cases rest with
      | nil => simp [writeNext, Client.queue]
      | cons next rest => simp [writeNext, addWriteReq, Client.queue]
  · exact Backs.callback (backs_endWrite h) rfl hm'

theorem backs_tlsHandler {sub : Submission} {c : Completion WebEnv} (h : Backs a c.env m)
    (hres : 0 < c.res) (hguard : i = 0 ∨ (m.tcp.clients i).id = sub.req.ID)
    (hspares : m.EndsLastWrite .tls sub i c → ¬m.ClosingOn i)
    (hhandled : m.tlsHandler (webApp N) sub i c = some m') : Backs a c.env m' := by
  have haccepted : ∀ s m₁ s₁, Touches i m.tcp s → (m.onTcp fun _ => s).acceptCb (webApp N) i = some m₁ →
      Touches i { s with activeConnections := insert i s.activeConnections } s₁ →
      Backs a c.env (m₁.onTcp fun _ => s₁) := by
    intro s m₁ s₁ hs hm₁ hs₁
    have hbacks : Backs a c.env m₁ := (h.touches hs).acceptCb hm₁
    have htcp : m₁.tcp = s := by
      obtain ⟨b, -, rfl⟩ := Option.map_eq_some_iff.mp hm₁
      rfl
    refine hbacks.ofKeepsQueues fun k => ?_
    rw [htcp]
    exact hs₁.keepsQueues k
  refine tlsHandler_rule hhandled (R := Backs a c.env) (fun s hs => ?_) (fun _ _ s _ hs hm' => ?_)
    (fun _ s m₁ s₁ hs hm₁ hs₁ => haccepted s m₁ s₁ hs hm₁ hs₁) (fun _ _ s m₁ s₁ _ hs hm₁ hs₁ hm' => ?_)
    (fun hevent hyields s front rest m₁ s₁ hs hqueue hm₁ hs₁ => ?_)
  · rcases hs with hs | hs
    · exact h.touches hs
    · exact (backs_endWrite h).touches hs
  · exact (h.touches hs).callback rfl hm'
  · exact (haccepted s m₁ s₁ hs hm₁ hs₁).callback rfl hm'
  · have hended : Backs a c.env (m.onTcp fun _ => s) := (backs_endWrite h).touches hs
    have hpopped : Backs a c.env (m.onTcp fun _ => s.setQueue i rest) := by
      refine hended.pop hqueue (fun hnil => ?_) (fun k hk => ?_) ?_
      · refine hspares ⟨hevent, hres, hguard, ?_, hyields⟩
        have hsame : (s.clients i).queue = (m.tcp.clients i).queue := by
          rw [hs.queue]
          simp [endWrite, Client.queue]
        have hlength := congrArg List.length hsame
        simp only [Client.queue, List.length_map, hqueue, hnil, List.length_singleton] at hlength
        exact hlength.symm
      · rw [setQueue_of_ne _ _ _ _ hk]
        rfl
      · simp [Client.queue]
    have hwritten : Backs a c.env m₁ := hpopped.callback rfl hm₁
    exact hwritten.touches hs₁

theorem backs_clientEvent {sub : Submission} {c : Completion WebEnv} (h : Backs a c.env m)
    (hspares : m.EndsLastWrite T sub i c → ¬m.ClosingOn i)
    (hhandled : m.clientEvent T (webApp N) sub i c = some m') : Backs a c.env m' := by
  have hkept : ∀ s, s = m.tcp ∨ s = m.tcp.endWrite i → Backs a c.env (m.onTcp fun _ => s) := by
    rintro s (rfl | rfl)
    · exact h
    · exact backs_endWrite h
  refine clientEvent_rule hhandled (fun s hs _ _ _ hclose => (hkept s hs).drainAndClose hclose) hkept
    (fun hT _ hres hid hm' => ?_) (fun hT _ hres hid hm' => ?_)
  · subst hT
    exact backs_plainHandler h hres hid hspares hm'
  · subst hT
    exact backs_tlsHandler h hres hid hspares hm'

/-- A slot is handed out. -/
theorem backs_setupClient (h : Backs a env m) (sockfd : ℤ) (hspares : ¬m.ClosingOn (m.tcp.setupClient sockfd).2)
    (hs : ∀ k, (s.clients k).queue = ((m.tcp.setupClient sockfd).1.clients k).queue) :
    Backs a env (m.onTcp fun _ => s) := by
  refine ⟨h.reached, h.noneClosing, fun hlog x hx k hk hinactive => ?_⟩
  have hqueued : m.tcp.Queued k := h.backed hlog x hx k hk hinactive
  show (s.clients k).queue ≠ []
  have hne : k ≠ (m.tcp.setupClient sockfd).2 := by
    rintro rfl
    refine hspares ⟨hinactive, x, hx, ?_⟩
    rw [← WebServer.pool_ownerOf]
    exact hk
  rw [hs, setupClient_of_ne hne]
  exact hqueued

/-- What a round of the loop keeps, if its callbacks kill their own websockets. -/
theorem backs_step {c : Completion WebEnv} {log : List Callback} (hclosing : m.app.NoneClosing)
    (h : m.ClosingPending) (hspares : m.SparesClosing T c)
    (hlog : Runs.Along (webApp N).invoke WebServer.KillsOwn m.app (log.map fun cb => (c.env, cb)))
    (hstep : step T (webApp N) m c = some (m', log)) : m'.ClosingPending := by
  obtain ⟨sub, hsub, hhandled, rfl⟩ := step_eq_some hstep
  obtain ⟨haccept, hwrite⟩ := hspares sub hsub
  have htaken : Backs m.app c.env (m.take c) := ⟨⟨[], rfl⟩, hclosing, fun _ => closingPending_iff.mp h⟩
  have hslot : sub.req.event = .accept → ∀ {s : TcpServer}, s.freedIndexes = m.tcp.freedIndexes →
      s.numClients = m.tcp.numClients → ¬m.ClosingOn (s.setupClient c.res).2 := by
    intro hevent s hfreed hnum
    rw [setupClient_slot hfreed hnum]
    exact haccept hevent
  suffices hbacks : Backs m.app c.env m' by exact closingPending_iff.mpr (hbacks.backed hlog)
  refine dispatch_rule hhandled (R := Backs m.app c.env) (fun _ => ?_) (fun _ hm' => ?_) (fun _ hm' => ?_)
    (fun _ m₁ hm₁ => ?_) (fun hevent hT hm' => ?_) (fun hevent hT => ?_) (fun i hidx _ hm' => ?_)
  · exact htaken.ofKeepsQueues (KeepsQueues.refl m.tcp)
  · have hasked : Backs m.app c.env ((m.take c).onTcp fun s => s.addEventReq .notification) :=
      htaken.ofKeepsQueues (KeepsQueues.refl m.tcp)
    exact hasked.callback rfl hm'
  · refine customRead_rule hm' (R := Backs m.app c.env) (fun _ hfinished => Backs.callback ?_ rfl hfinished)
      (fun _ _ => htaken.ofKeepsQueues (KeepsQueues.refl m.tcp))
    exact htaken.ofKeepsQueues (KeepsQueues.refl m.tcp)
  · have hswept : Backs m.app c.env m₁ :=
      sweep_rule hm₁ htaken fun _ _ _ _ _ hx hclose => hx.drainAndClose hclose
    exact hswept.ofKeepsQueues (KeepsQueues.refl m₁.tcp)
  · simp only [plainAccept] at hm'
    obtain ⟨m₁, hm₁, rfl⟩ := Option.map_eq_some_iff.mp hm'
    have hasked : Backs m.app c.env ((m.take c).onTcp fun s => s.addEventReq .accept) :=
      htaken.ofKeepsQueues (KeepsQueues.refl m.tcp)
    have haccepted : Backs m.app c.env m₁ := by
      refine Backs.acceptCb ?_ hm₁
      have hactive := backs_setupClient hasked c.res (hslot hevent rfl rfl) fun k => rfl
      exact hactive.ofKeepsQueues (KeepsQueues.refl _)
    exact haccepted.touches (touches_addReadReq (Or.inl rfl))
  · have hset : Backs m.app c.env ((m.take c).onTcp fun s => (s.setupClient c.res).1) :=
      backs_setupClient htaken c.res (hslot hevent rfl rfl) fun k => rfl
    have hsession : Backs m.app c.env ((m.take c).onTcp fun s => ((s.setupClient c.res).1.addEventReq
        .accept).modifyClient (s.setupClient c.res).2 fun client => { client with ssl := true }) := by
      refine hset.ofKeepsQueues fun k => ?_
      rw [queue_modifyClient rfl]
      exact List.prefix_rfl
    exact hsession.touches touches_wolfCall
  · exact backs_clientEvent htaken (hwrite i hidx) hm'

/-- Websockets that are being closed have something queued in every state of a run whose steps spare them. -/
theorem closingPending_run {cs : List (Completion WebEnv)} {logs : List (List Callback)}
    (hclosing : m.app.NoneClosing) (h : m.ClosingPending)
    (hrun : Runs.exec (step T (webApp N)) m cs = some (m', logs))
    (hcs : Runs.Along (step T (webApp N)) (SparesClosing T) m cs)
    (hkills : Runs.Along (webApp N).invoke WebServer.KillsOwn m.app (invoked cs logs)) :
    m'.app.NoneClosing ∧ m'.ClosingPending := by
  induction cs generalizing m logs with
  | nil =>
      obtain ⟨rfl, -⟩ : m = m' ∧ _ := by simpa [Runs.exec] using hrun
      exact ⟨hclosing, h⟩
  | cons c cs ih =>
      obtain ⟨m₁, log, logs₁, hstep, hrest, rfl⟩ := Runs.exec_cons hrun
      obtain ⟨-, calls, -, hcalls, -⟩ := replays_step hstep
      rw [invoked_cons, Runs.along_append hcalls] at hkills
      obtain ⟨hlog, hlater⟩ := hkills
      have hclosing₁ : m₁.app.NoneClosing := app_step WebServer.maintains_noneClosing hclosing hstep
      have hpending₁ : m₁.ClosingPending := backs_step hclosing h hcs.1 hlog hstep
      exact ih hclosing₁ hpending₁ hrest (hcs.2 m₁ log hstep) hlater

/-! #### What is not spared -/

theorem ClosingOn.not_pending (h : m.ClosingOn i) (hqueue : (m.tcp.clients i).queue = []) : ¬m.ClosingPending := by
  obtain ⟨hinactive, x, hx, howner⟩ := h
  obtain ⟨wsClient, hws, rfl⟩ := Option.map_eq_some_iff.mp howner
  exact fun hpending => Client.queue_ne_nil.mpr (hpending x hx wsClient hws hinactive) hqueue

/-- The write callback leaves a websocket that is being closed as it is. -/
theorem closingOn_writeCb {info : ℤ} (hclosing : m.app.NoneClosing) (h : m.ClosingOn i)
    (hqueue : (m.tcp.clients i).queue = []) (hcb : m.writeCb T (webApp N) env i info = some m') :
    m'.ClosingOn i ∧ (m'.tcp.clients i).queue = [] := by
  obtain ⟨a', cs, hresult, hcalls, rfl, -⟩ := callback_eq_some hcb
  obtain ⟨hinactive, x, hx, howner⟩ := h
  refine ⟨?_, ?_⟩
  · obtain ⟨act, hallowed, hmove⟩ := WebServer.move_invoke (e := (env, .write i info)) hclosing hresult
    have hback : m.app.pool.ownerOf x = some i := by rw [WebServer.pool_ownerOf, howner]
    suffices hstill : i ∉ m'.app.pool.active ∧ ∃ x ∈ m'.app.pool.used, m'.app.pool.ownerOf x = some i by
      obtain ⟨hleft, y, hy, hown⟩ := hstill
      exact ⟨hleft, y, hy, by rw [← WebServer.pool_ownerOf, hown]⟩
    generalize m'.app.pool = s at hmove
    cases hmove with
    | idle => exact ⟨hinactive, x, hx, hback⟩
    | clear j => cases hallowed
    | @release j y hy =>
        obtain ⟨hnone, rfl⟩ : m.app.NoWebsocket i ∧ i = j := by
          simpa [WebServer.Allows, WebServer.killed] using hallowed
        rw [RecordPool.release, if_neg (show i ∉ m.app.pool.active from hinactive)]
        refine ⟨hinactive, x, Finset.mem_erase.mpr ⟨?_, hx⟩, hback⟩
        rintro rfl
        rw [WebServer.pool_ref] at hy
        obtain ⟨client, hclient, rfl⟩ := Option.map_eq_some_iff.mp hy
        exact hnone client hclient hx
    | reuse hi hfree hown => simp [WebServer.Allows] at hallowed
    | grow hi hfree => simp [WebServer.Allows] at hallowed
    | retire hy hk => simp [WebServer.Allows] at hallowed
  · obtain ⟨w₁, hused, -, hcs | ⟨hmarked, -⟩ | ⟨-, hcs⟩⟩ := WebServer.writeCb_cases (r := (m'.app, cs)) hresult
    · obtain rfl : cs = [] := hcs
      have hsame : m.tcp = m'.tcp := by simpa [calls] using hcalls
      rw [← hsame]
      exact hqueue
    · exact absurd hclosing hmarked
    · obtain rfl : cs = [.closeConnection i] := hcs
      rw [(calls_singleton hcalls).2]
      exact closeConnection_nil hqueue

/-- The last write of a websocket that is being closed ends. -/
theorem stranded_clientEvent {sub : Submission} {c : Completion WebEnv} (hclosing : m.app.NoneClosing)
    (hends : m.EndsLastWrite T sub i c) (h : m.ClosingOn i)
    (hhandled : m.clientEvent T (webApp N) sub i c = some m') : ¬m'.ClosingPending := by
  obtain ⟨hevent, hres, hguard, hlength, hdone⟩ := hends
  obtain ⟨front, hqueue⟩ := List.length_eq_one_iff.mp hlength
  unfold clientEvent at hhandled
  split at hhandled
  · rw [if_neg (by omega)] at hhandled
    cases T with
    | nonTls =>
        obtain ⟨hall, hactive, hid⟩ := hdone
        simp only [plainHandler, hevent, plainWrite] at hhandled
        rw [if_neg (by omega), if_pos ⟨hactive, by simpa [endWrite] using hid⟩] at hhandled
        simp only [onTcp_tcp, endWrite, modifyClient_self, hqueue] at hhandled
        have hpopped : (((m.tcp.endWrite i).writeNext i []).clients i).queue = [] := by
          simp [writeNext, Client.queue]
        obtain ⟨hon, hnil⟩ := closingOn_writeCb (m := m.onTcp fun s => (s.endWrite i).writeNext i []) hclosing h
          hpopped hhandled
        exact hon.not_pending hnil
    | tls =>
        simp only [tlsHandler, hevent] at hhandled
        obtain ⟨s, hs, hwrite⟩ := tlsWrite_of_yields (m := m) (by simp [hqueue]) hdone
        rw [hwrite] at hhandled
        obtain ⟨front', rest, m₁, s₁, hcons, hcb, hs₁, rfl⟩ := tlsWritten_eq_some hhandled
        have hrest : rest = [] := by
          have hlengths := congrArg List.length hs.queue
          rw [onTcp_tcp] at hcons
          simpa [Client.queue, hcons, hqueue, endWrite] using hlengths
        obtain ⟨hon, hnil⟩ := closingOn_writeCb (m := m.onTcp fun _ => s.setQueue i rest) hclosing h
          (by simp [Client.queue, hrest]) hcb
        exact ClosingOn.not_pending (m := m₁.onTcp fun _ => s₁) hon (hs₁.queue.trans hnil)
  · cases hhandled

/-- A round of the loop that does not spare the websockets that are being closed leaves one with nothing
queued. -/
theorem stranded_step {c : Completion WebEnv} {log : List Callback} (hclosing : m.app.NoneClosing)
    (hspares : ¬m.SparesClosing T c) (hstep : step T (webApp N) m c = some (m', log)) : ¬m'.ClosingPending := by
  obtain ⟨sub, hsub, hhandled, rfl⟩ := step_eq_some hstep
  have hcase : (sub.req.event = .accept ∧ m.ClosingOn (m.tcp.setupClient c.res).2) ∨
      ∃ i, sub.req.clientIdx = some i ∧ (m.take c).EndsLastWrite T sub i c ∧ m.ClosingOn i := by
    by_contra hnone
    push Not at hnone
    refine hspares fun sub' hsub' => ?_
    obtain rfl : sub = sub' := Option.some.inj (hsub.symm.trans hsub')
    exact ⟨hnone.1, hnone.2⟩
  rcases hcase with ⟨hevent, hon⟩ | ⟨i, hidx, hends, hon⟩
  · simp only [dispatch, hevent] at hhandled
    have hslot : ∀ {s : TcpServer}, s.freedIndexes = m.tcp.freedIndexes → s.numClients = m.tcp.numClients →
        m.ClosingOn (s.setupClient c.res).2 := fun hfreed hnum => setupClient_slot hfreed hnum ▸ hon
    cases T with
    | nonTls =>
        simp only [plainAccept] at hhandled
        obtain ⟨m₁, hm₁, rfl⟩ := Option.map_eq_some_iff.mp hhandled
        obtain ⟨a', ha, rfl⟩ := Option.map_eq_some_iff.mp hm₁
        obtain rfl := Option.some.inj ha
        refine ClosingOn.not_pending (hslot (s := (m.take c).tcp.addEventReq .accept) rfl rfl) ?_
        exact (touches_addReadReq (Or.inl rfl)).queue.trans (setupClient_queue _ c.res)
    | tls =>
        obtain rfl := Option.some.inj hhandled
        refine ClosingOn.not_pending (hslot (s := (m.take c).tcp) rfl rfl) ?_
        apply touches_wolfCall.queue.trans
        rw [queue_modifyClient rfl]
        exact setupClient_queue _ c.res
  · have hclient : sub.req.event.OfClient := by simp [EventType.OfClient, hends.1]
    rw [dispatch_ofClient hclient, hidx] at hhandled
    exact stranded_clientEvent (m := m.take c) hclosing hends hon hhandled

end Machine

/-- In every run of either server type, as long as no last write of a websocket that is being closed ends, none
of its slots is handed out, and `kill_client` runs for no slot that another websocket than its own belongs to,
every websocket that is being closed has a write queued or in flight. A round that ends such a write or hands
out such a slot leaves a websocket that has none. -/
theorem closing_websockets_pending (T : ServerType) (N : ℕ) (inotifyFd : ℤ) (cs : List (Completion WebEnv))
    (m : Machine (WebServer N)) (logs : List (List Callback))
    (hrun : Runs.exec (Machine.step T (webApp N)) (webStart N inotifyFd) cs = some (m, logs))
    (hcs : Runs.Along (Machine.step T (webApp N)) (Machine.SparesClosing T) (webStart N inotifyFd) cs)
    (hkills : Runs.Along (webApp N).invoke WebServer.KillsOwn { inotifyFd } (invoked cs logs)) :
    m.ClosingPending ∧ ∀ c m' log, Machine.step T (webApp N) m c = some (m', log) →
      ¬m.SparesClosing T c → ¬m'.ClosingPending := by
  have hstart : (webStart N inotifyFd).app.NoneClosing := by
    simp [WebServer.NoneClosing, webStart, Machine.start]
  have hempty : (webStart N inotifyFd).ClosingPending := by
    simp [Machine.ClosingPending, webStart, Machine.start]
  obtain ⟨hclosing, hpending⟩ := Machine.closingPending_run hstart hempty hrun hcs hkills
  exact ⟨hpending, fun c m' log hstep hspares => Machine.stranded_step hclosing hspares hstep⟩

/-- A client becomes a websocket and sends a close frame. -/
def closeFrameRun : List (Completion WebEnv) :=
  [{ index := 4, res := 10, env := {} },
    { index := 5, res := upgradeRequest.length, data := upgradeRequest, env := {} },
    { index := 5, res := 101, env := {} },
    { index := 5, res := 6, data := [0x88, 0x80, 1, 2, 3, 4], env := {} }]

/-- The answer to the close frame is queued. -/
theorem closing_websockets_pending_answered :
    ∃ m logs, Runs.exec (Machine.step .nonTls (webApp 1)) (webStart 1 9) closeFrameRun = some (m, logs) ∧
      0 ∈ m.app.allWebsocketConnections ∧ 0 ∉ m.app.activeWebsocketConnectionsClientIdxs ∧ m.ClosingPending := by
  have hsome : (Runs.exec (Machine.step .nonTls (webApp 1)) (webStart 1 9) closeFrameRun).any (fun r =>
      0 ∈ r.1.app.allWebsocketConnections ∧ 0 ∉ r.1.app.activeWebsocketConnectionsClientIdxs ∧
        Runs.Along (Machine.step .nonTls (webApp 1)) (Machine.SparesClosing .nonTls) (webStart 1 9) closeFrameRun ∧
        Runs.Along (webApp 1).invoke WebServer.KillsOwn { inotifyFd := 9 } (invoked closeFrameRun r.2)) =
      true := by decide +kernel
  simp only [Option.any_eq_true, decide_eq_true_eq] at hsome
  obtain ⟨⟨m, logs⟩, hrun, hused, hinactive, hcs, hkills⟩ := hsome
  exact ⟨m, logs, hrun, hused, hinactive,
    (closing_websockets_pending .nonTls 1 9 closeFrameRun m logs hrun hcs hkills).1⟩

/-- When the answer has been written, the websocket is still in use, its connection is open and nothing is
queued. -/
theorem closing_websocket_stranded :
    ∃ m logs, Runs.exec (Machine.step .nonTls (webApp 1)) (webStart 1 9)
        (closeFrameRun ++ [{ index := 5, res := 2, env := {} }]) = some (m, logs) ∧
      0 ∈ m.app.allWebsocketConnections ∧ (m.app.wsClient 0).map WsClient.clientIdx = some 0 ∧
      0 ∉ m.app.activeWebsocketConnectionsClientIdxs ∧ (m.tcp.clients 0).sendData = [] ∧
      0 ∈ m.tcp.activeConnections ∧ m.tcp.closed = [] := by
  have hsome : (Runs.exec (Machine.step .nonTls (webApp 1)) (webStart 1 9)
      (closeFrameRun ++ [{ index := 5, res := 2, env := {} }])).any (fun r =>
        0 ∈ r.1.app.allWebsocketConnections ∧ (r.1.app.wsClient 0).map WsClient.clientIdx = some 0 ∧
          0 ∉ r.1.app.activeWebsocketConnectionsClientIdxs ∧ (r.1.tcp.clients 0).sendData = [] ∧
          0 ∈ r.1.tcp.activeConnections ∧ r.1.tcp.closed = []) = true := by decide +kernel
  simp only [Option.any_eq_true, decide_eq_true_eq] at hsome
  obtain ⟨⟨m, logs⟩, hrun, h⟩ := hsome
  exact ⟨m, logs, hrun, h⟩

end LiburingServer
