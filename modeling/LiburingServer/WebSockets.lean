import LiburingServer.WebFrame
import LiburingServer.TcpAccepts
import LiburingServer.TcpCallbacks
import LiburingServer.Lib.RecordPool

/-! The websockets of a worker: `tcp_clients` refers to `websocket_clients` by index, and each websocket client
refers back. `kill_client` may be called for a slot whose index is out of date. -/

namespace LiburingServer

variable {N : ℕ}

theorem Cache.fetchItem_wsClientIdx {c c' : Cache N} {filepath : Bytes} {clientIdx : ℕ}
    {client client' : TcpClient} {item : CacheFetchItem N}
    (h : c.fetchItem filepath clientIdx client = some (c', client', item)) :
    client'.wsClientIdx = client.wsClientIdx := by
  unfold fetchItem at h
  dsimp only at h
  split at h
  · obtain ⟨-, rfl, -⟩ := by simpa using h
    rfl
  · split_ifs at h
    · split at h
      · obtain ⟨-, rfl, -⟩ := by simpa using h
        rfl
      · obtain ⟨-, rfl, -⟩ := by simpa using h
        rfl
    · split at h
      · obtain ⟨-, rfl, -⟩ := by simpa using h
        rfl
      · split at h
        · cases h
        · obtain ⟨-, rfl, -⟩ := by simpa using h
          rfl

theorem Cache.finishedWithItem_wsClientIdx {c c' : Cache N} {clientIdx : ℕ} {client client' : TcpClient}
    (h : c.finishedWithItem clientIdx client = some (c', client')) :
    client'.wsClientIdx = client.wsClientIdx := by
  unfold finishedWithItem at h
  split at h
  · split at h
    · cases h
    · obtain ⟨-, rfl⟩ := by simpa using h
      rfl
  · obtain ⟨-, rfl⟩ := by simpa using h
    rfl

namespace WebServer

/-- The websockets and the connections that refer to them. -/
def pool (w : WebServer N) : RecordPool where
  ref := w.tcpClients.map TcpClient.wsClientIdx
  owner := w.websocketClients.map WsClient.clientIdx
  free := w.freedIndexes
  used := w.allWebsocketConnections
  active := w.activeWebsocketConnectionsClientIdxs

/-- The slot that a callback runs `kill_client` for, when no websocket is marked as one to be closed. -/
def killed (w : WebServer N) : Callback → Option ℕ
  | .close i _ => some i
  | .read i buffer =>
      if isValidHttpReq buffer = false ∧ i ∉ w.activeWebsocketConnectionsClientIdxs then some i else none
  | .write i _ => if w.NoWebsocket i then some i else none
  | _ => none

/-- What a callback can do to the websockets. -/
def Allows (w : WebServer N) (cb : Callback) : RecordPool.Act → Prop
  | .idle => True
  | .clear i => cb = .accept i
  | .release i => w.killed cb = some i
  | .acquire i => ∃ buffer, cb = .read i buffer
  | .retire i => i ∈ w.activeWebsocketConnectionsClientIdxs ∧ ∃ buffer, cb = .read i buffer

variable {w w' : WebServer N} {i : ℕ} {env : WebEnv} {cs : List TcpCall} {r : WebServer N × List TcpCall}

theorem pool_ownerOf (w : WebServer N) (x : ℤ) : w.pool.ownerOf x = (w.wsClient x).map WsClient.clientIdx := by
  unfold RecordPool.ownerOf wsClient
  split
  · simp [pool]
  · rfl

theorem pool_ref (w : WebServer N) (i : ℕ) : w.pool.ref[i]? = (w.tcpClients[i]?).map TcpClient.wsClientIdx := by
  simp [pool]

theorem ref_setTcpClient {client : TcpClient} :
    (w.setTcpClient i client).pool = { w.pool with ref := w.pool.ref.set i client.wsClientIdx } := by
  simp [pool, setTcpClient, List.map_set]

theorem pool_setTcpClient {client client' : TcpClient} (h : w.tcpClients[i]? = some client)
    (hidx : client'.wsClientIdx = client.wsClientIdx) : (w.setTcpClient i client').pool = w.pool := by
  have href : w.pool.ref[i]? = some client.wsClientIdx := by rw [pool_ref, h]; rfl
  obtain ⟨hlt, hget⟩ := List.getElem?_eq_some_iff.mp href
  rw [ref_setTcpClient, hidx, ← hget, List.set_getElem_self]

theorem pool_setWsClient {idx : ℤ} {client client' : WsClient} (h : w.wsClient idx = some client)
    (hidx : client'.clientIdx = client.clientIdx) : (w.setWsClient idx client').pool = w.pool := by
  unfold wsClient at h
  split at h
  · obtain ⟨hlt, rfl⟩ := List.getElem?_eq_some_iff.mp h
    have hlt' : idx.toNat < (w.websocketClients.map WsClient.clientIdx).length := by simpa using hlt
    have howner : (w.websocketClients.map WsClient.clientIdx).set idx.toNat client'.clientIdx =
        w.websocketClients.map WsClient.clientIdx := by
      calc _ = (w.websocketClients.map WsClient.clientIdx).set idx.toNat
              (w.websocketClients.map WsClient.clientIdx)[idx.toNat] := by rw [hidx, List.getElem_map]
        _ = _ := List.set_getElem_self hlt'
    simp [pool, setWsClient, List.map_set, howner]
  · cases h

theorem pool_broadcastUsed {info : ℤ} (h : w.broadcastUsed info = some w') :
    w'.pool = w.pool ∧ w'.tcpClients = w.tcpClients := by
  unfold broadcastUsed at h
  split at h
  · obtain rfl := Option.some.inj h
    exact ⟨rfl, rfl⟩
  · split at h
    · cases h
    · split at h
      · cases h
      · obtain rfl := Option.some.inj h
        split
        · exact ⟨rfl, rfl⟩
        · exact ⟨rfl, rfl⟩

theorem pool_killClient (h : w.killClient i = some w') :
    ∃ x, w.pool.ref[i]? = some x ∧ w'.pool = w.pool.release i x := by
  unfold killClient at h
  split at h
  · cases h
  · rename_i client hclient
    obtain ⟨⟨cache, client'⟩, hdone, rfl⟩ := Option.map_eq_some_iff.mp h
    have hidx : client'.wsClientIdx = client.wsClientIdx := Cache.finishedWithItem_wsClientIdx hdone
    have hpool : (w.setTcpClient i { client' with usingFile := false }).pool = w.pool :=
      pool_setTcpClient hclient hidx
    have href : w.pool.ref[i]? = some client.wsClientIdx := by rw [pool_ref, hclient]; rfl
    refine ⟨client.wsClientIdx, href, ?_⟩
    rw [← hpool]
    dsimp only
    unfold RecordPool.release
    split <;> rename_i hactive
    · rw [if_pos (show i ∈ (w.setTcpClient i _).pool.active from hactive)]
      rfl
    · rw [if_neg (show i ∉ (w.setTcpClient i _).pool.active from hactive)]
      rfl

theorem pool_closeConnection (h : w.closeConnection i = some r) : w.killClient i = some r.1 := by
  obtain ⟨w', hkill, rfl⟩ := Option.map_eq_some_iff.mp h
  exact hkill

theorem pool_sendFileRequest {n code : ℕ} {p : Bytes} {accept opened : Bool}
    (h : w.sendFileRequest env n i p accept code = some (w', cs, opened)) : w'.pool = w.pool := by
  unfold sendFileRequest at h
  dsimp only at h
  split at h
  · obtain ⟨rfl, -⟩ := by simpa using h
    rfl
  · split at h
    · cases h
    · rename_i client hclient
      split at h
      · cases h
      · rename_i cache client' item hfetch
        have hidx := Cache.fetchItem_wsClientIdx hfetch
        split_ifs at h
        · obtain ⟨rfl, -⟩ := by simpa using h
          exact pool_setTcpClient (w := w) hclient hidx
        · obtain ⟨rfl, -⟩ := by simpa using h
          have hpool : (w.setTcpClient i { client' with lastRequestedReadFilepath := p }).pool = w.pool :=
            pool_setTcpClient hclient hidx
          exact hpool

theorem pool_customReadCb {clientIdx : Option ℕ} {fd : ℤ} {buff : Bytes}
    (h : w.customReadCb env clientIdx fd buff = some r) : r.1.pool = w.pool := by
  unfold customReadCb at h
  split at h
  · obtain rfl := Option.some.inj h
    rfl
  · split at h
    · cases h
    · split at h
      · cases h
      · rename_i client hclient
        dsimp only at h
        split at h
        · cases h
        · obtain ⟨⟨cache, client', item⟩, hfetch, rfl⟩ := Option.map_eq_some_iff.mp h
          exact pool_setTcpClient (w := w) hclient (Cache.fetchItem_wsClientIdx hfetch)
        · obtain rfl := Option.some.inj h
          rfl

theorem pool_eventCb (env : WebEnv) (w : WebServer N) : (w.eventCb env).1.pool = w.pool := by
  unfold eventCb
  dsimp only
  split
  · rfl
  · rfl

/-! ### Websockets begin and end -/

/-- The record that a new websocket gets. -/
theorem move_upgrade {key : Bytes} (h : w.websocketAcceptReadCb env i key = some r) :
    w.pool.Move (.acquire i) r.1.pool := by
  unfold websocketAcceptReadCb newWsClient at h
  dsimp only at h
  split at h
  · cases h
  · rename_i w₁ index hnew
    split at h
    · cases h
    · rename_i client hclient
      obtain rfl := Option.some.inj h
      show w.pool.Move (.acquire i) (w₁.setTcpClient i { client with wsClientIdx := index }).pool
      rw [ref_setTcpClient]
      have hlt : ∀ w₂ : WebServer N, w₂.tcpClients = w₁.tcpClients → i < w₂.pool.ref.length := by
        intro w₂ heq
        have hlt := (List.getElem?_eq_some_iff.mp hclient).1
        simpa [pool, heq] using hlt
      split at hnew
      · rename_i hne
        split at hnew
        · cases hnew
        · rename_i freed hfreed
          simp only [Option.some.injEq, Prod.mk.injEq] at hnew
          obtain ⟨rfl, rfl⟩ := hnew
          have howner : (w.pool.ownerOf (w.freedIndexes.min' hne)).isSome := by
            rw [pool_ownerOf, hfreed]
            rfl
          have hmove := RecordPool.Move.reuse (hlt w rfl) (Finset.min'_mem w.freedIndexes hne) howner
          convert hmove using 1
          simp [pool, setWsClient, RecordPool.enter, List.map_set]
      · rename_i hempty
        simp only [Option.some.injEq, Prod.mk.injEq] at hnew
        obtain ⟨rfl, rfl⟩ := hnew
        have hfree : w.pool.free = ∅ := Finset.not_nonempty_iff_eq_empty.mp hempty
        have hmove := RecordPool.Move.grow (hlt w rfl) hfree
        convert hmove using 1
        have herase : w.freedIndexes.erase w.websocketClients.length = w.freedIndexes := by
          rw [Finset.not_nonempty_iff_eq_empty.mp hempty, Finset.erase_empty]
        simp [pool, RecordPool.enter, herase]

/-- A websocket that is asked to close is no longer active. -/
theorem pool_closeWsConnectionReq {idx : ℤ} {closed : Bool} (h : w.closeWsConnectionReq idx closed = some r) :
    ∃ k, w.pool.ownerOf idx = some k ∧ r.1.pool = { w.pool with active := w.pool.active.erase k } := by
  obtain ⟨client, hclient, rfl⟩ := Option.map_eq_some_iff.mp h
  refine ⟨client.clientIdx, by rw [pool_ownerOf, hclient]; rfl, ?_⟩
  have hpool : (w.setWsClient idx
      { client with currentlyWriting := client.currentlyWriting + 1, websocketFrames := [] }).pool = w.pool :=
    pool_setWsClient hclient rfl
  rw [← hpool]
  rfl

theorem pool_processFrame {idx : ℤ} {frame : Bytes} {closed : Bool}
    (h : w.processFrame idx frame = some (w', cs, closed)) : if closed then
      ∃ k, w.pool.ownerOf idx = some k ∧ w'.pool = { w.pool with active := w.pool.active.erase k }
    else w'.pool = w.pool := by
  unfold processFrame at h
  split at h
  · obtain ⟨rfl, -, rfl⟩ : _ ∧ _ ∧ _ := by simpa only [Option.some.injEq, Prod.mk.injEq] using h
    simp
  · split at h
    · rename_i client _ hclient
      split at h
      · obtain ⟨rfl, -, rfl⟩ : _ ∧ _ ∧ _ := by simpa only [Option.some.injEq, Prod.mk.injEq] using h
        exact pool_setWsClient hclient rfl
      · split at h
        · obtain ⟨rfl, -, rfl⟩ : _ ∧ _ ∧ _ := by simpa only [Option.some.injEq, Prod.mk.injEq] using h
          exact pool_setWsClient hclient rfl
        · split at h
          · obtain ⟨⟨w₁, cs₁⟩, hclose, heq⟩ := Option.map_eq_some_iff.mp h
            simp only [Prod.mk.injEq] at heq
            obtain ⟨rfl, rfl, rfl⟩ := heq
            have hpool : (w.setWsClient idx
                { client with currentlyWriting := client.currentlyWriting + 1 }).pool = w.pool :=
              pool_setWsClient hclient rfl
            have hclosed := pool_closeWsConnectionReq hclose
            rwa [hpool] at hclosed
          · split at h
            · obtain ⟨rfl, -, rfl⟩ : _ ∧ _ ∧ _ := by simpa only [Option.some.injEq, Prod.mk.injEq] using h
              exact pool_setWsClient hclient rfl
            · obtain ⟨rfl, -, rfl⟩ : _ ∧ _ ∧ _ := by simpa only [Option.some.injEq, Prod.mk.injEq] using h
              rfl
    · cases h

theorem pool_processFrames {idx : ℤ} {frames : List Bytes} {closed : Bool}
    (h : processFrames idx frames w = some (w', cs, closed)) : w'.pool = w.pool ∨
      ∃ k, w.pool.ownerOf idx = some k ∧ w'.pool = { w.pool with active := w.pool.active.erase k } := by
  induction frames generalizing w cs closed with
  | nil =>
      obtain ⟨rfl, -⟩ := by simpa [processFrames] using h
      exact Or.inl rfl
  | cons frame frames ih =>
      unfold processFrames at h
      split at h
      · cases h
      · rename_i w₁ cs₁ hframe
        obtain ⟨rfl, -⟩ := by simpa using h
        exact Or.inr (pool_processFrame hframe)
      · rename_i w₁ cs₁ hframe
        obtain ⟨⟨w₂, cs₂, closed₂⟩, hrest, heq⟩ := Option.map_eq_some_iff.mp h
        obtain ⟨rfl, -⟩ := by simpa using heq
        have hpool : w₁.pool = w.pool := pool_processFrame hframe
        rw [← hpool]
        exact ih hrest

theorem pool_websocketProcessReadCb {buffer : Bytes} (h : w.websocketProcessReadCb env i buffer = some r) :
    r.1.pool = w.pool ∨ w.pool.Move (.retire i) r.1.pool := by
  unfold websocketProcessReadCb at h
  dsimp only at h
  split at h
  · cases h
  · rename_i tcpClient htcp
    have href : w.pool.ref[i]? = some tcpClient.wsClientIdx := by rw [pool_ref, htcp]; rfl
    split at h
    · cases h
    · rename_i wsClient hclient
      split at h
      · cases h
      · rename_i receivingData code frames _
        have hpool : (w.setWsClient tcpClient.wsClientIdx { wsClient with receivingData }).pool = w.pool :=
          pool_setWsClient hclient rfl
        split at h
        · obtain ⟨⟨w₁, cs₁, closed⟩, hframes, rfl⟩ := Option.map_eq_some_iff.mp h
          have hprocessed := pool_processFrames hframes
          rw [hpool] at hprocessed
          apply hprocessed.imp_right
          rintro ⟨k, hk, heq⟩
          show w.pool.Move (.retire i) w₁.pool
          rw [heq]
          exact .retire href hk
        · obtain ⟨⟨w₁, cs₁⟩, hclose, rfl⟩ := Option.map_eq_some_iff.mp h
          obtain ⟨k, hk, heq⟩ := pool_closeWsConnectionReq hclose
          rw [hpool] at hk heq
          apply Or.inr
          show w.pool.Move (.retire i) w₁.pool
          rw [heq]
          exact .retire href hk

theorem move_respond {req : HttpRequest} (h : w.respond env i req = some r) :
    r.1.pool = w.pool ∨ w.pool.Move (.acquire i) r.1.pool := by
  rcases respond_eq_some h with ⟨r₁, again, -, hr₁, rfl, -⟩ | ⟨-, ⟨q, w₁, cs₁, again, -, hsent, rfl, -⟩ | ⟨-, rfl⟩⟩
  · have hmove : w.pool.Move (.acquire i) r₁.1.pool := move_upgrade hr₁
    exact Or.inr hmove
  · exact Or.inl (pool_sendFileRequest hsent)
  · exact Or.inl rfl

theorem move_readCb {buffer : Bytes} (h : w.readCb env i buffer = some r) :
    ∃ act, w.Allows (.read i buffer) act ∧ w.pool.Move act r.1.pool := by
  have hidle : r.1.pool = w.pool → ∃ act, w.Allows (.read i buffer) act ∧ w.pool.Move act r.1.pool := by
    intro heq
    rw [heq]
    exact ⟨.idle, trivial, .idle⟩
  unfold readCb at h
  split at h
  · split at h
    · cases h
    · rcases move_respond h with heq | hmove
      · exact hidle heq
      · exact ⟨.acquire i, ⟨buffer, rfl⟩, hmove⟩
  · rename_i hvalid
    split at h
    · rename_i hactive
      obtain ⟨⟨w₁, cs₁⟩, hws, rfl⟩ := Option.map_eq_some_iff.mp h
      rcases pool_websocketProcessReadCb hws with heq | hmove
      · exact hidle heq
      · exact ⟨.retire i, ⟨hactive, buffer, rfl⟩, hmove⟩
    · rename_i hinactive
      obtain ⟨x, hx, heq⟩ := pool_killClient (pool_closeConnection h)
      have hkilled : w.killed (.read i buffer) = some i := if_pos ⟨by simpa using hvalid, hinactive⟩
      rw [heq]
      exact ⟨.release i, hkilled, .release hx⟩

theorem move_writeCb {info : ℤ} (hclosing : w.NoneClosing) (h : w.writeCb i info = some r) :
    ∃ act, w.Allows (.write i info) act ∧ w.pool.Move act r.1.pool := by
  unfold writeCb at h
  split at h
  · cases h
  · rename_i w₁ hused
    obtain ⟨hpool, hclients⟩ := pool_broadcastUsed hused
    have hmarked : w₁.NoneClosing := by rwa [NoneClosing, (broadcastUsed_rest hused).2.2.2.1]
    split at h
    · cases h
    · rename_i client hclient
      split at h
      · -- a websocket whose last write is done is closed only if it is marked
        refine ⟨.idle, trivial, ?_⟩
        have heq : r.1.pool = w.pool := by
          unfold closeWsConnectionPotentialConfirm at h
          split at h
          · cases h
          · rename_i wsClient hws
            split at h
            · split at h
              · rename_i hclose
                rw [wsClient_close hws hmarked] at hclose
                cases hclose
              · obtain rfl := Option.some.inj h
                exact hpool
            · obtain rfl := Option.some.inj h
              have hcounted : (w₁.setWsClient client.wsClientIdx
                  { wsClient with currentlyWriting := wsClient.currentlyWriting - 1 }).pool = w₁.pool :=
                pool_setWsClient hws rfl
              exact hcounted.trans hpool
        rw [heq]
        exact .idle
      · rename_i hnone
        obtain ⟨x, hx, heq⟩ := pool_killClient (pool_closeConnection h)
        have hnot : w.NoWebsocket i := by
          intro client' hclient'
          rw [hclients] at hclient
          obtain rfl : client = client' := Option.some.inj (hclient.symm.trans hclient')
          rwa [(broadcastUsed_rest hused).2.2.2.2] at hnone
        rw [heq, hpool]
        rw [hpool] at hx
        exact ⟨.release i, if_pos hnot, .release hx⟩

/-- Every callback moves the pool of websockets in one of the ways that it allows. -/
theorem move_invoke {e : WebEnv × Callback} (hclosing : w.NoneClosing)
    (h : (webApp N).invoke w e = some (w', cs)) : ∃ act, w.Allows e.2 act ∧ w.pool.Move act w'.pool := by
  obtain ⟨env, cb⟩ := e
  cases cb with
  | accept i =>
      obtain ⟨rfl, -⟩ : w.newTcpClient i = w' ∧ [] = cs := by simpa [App.invoke, webApp] using h
      have hpool : (w.newTcpClient i).pool = w.pool.clear i := by
        simp [pool, newTcpClient, RecordPool.clear, List.map_set]
      rw [hpool]
      exact ⟨.clear i, rfl, .clear i⟩
  | close i info =>
      obtain ⟨hclose, -⟩ : w.closeCb i info = some w' ∧ [] = cs := by simpa [App.invoke, webApp] using h
      obtain ⟨w₂, hused, hkill⟩ := Option.bind_eq_some_iff.mp hclose
      obtain ⟨x, hx, heq⟩ := pool_killClient hkill
      rw [(pool_broadcastUsed hused).1] at hx heq
      rw [heq]
      exact ⟨.release i, rfl, .release hx⟩
  | read i buffer => exact move_readCb h
  | write i info => exact move_writeCb hclosing h
  | event =>
      obtain rfl : (w.eventCb env).1 = w' := congrArg Prod.fst (Option.some.inj h)
      rw [pool_eventCb]
      exact ⟨.idle, trivial, .idle⟩
  | customRead i fd buffer =>
      rw [show w'.pool = w.pool from pool_customReadCb h]
      exact ⟨.idle, trivial, .idle⟩

/-! ### Active websockets -/

/-- No active websocket's slot is accepted again, and `kill_client` runs for no inactive slot whose index is
that of an active websocket. -/
def KeepsLinks (w : WebServer N) (e : WebEnv × Callback) : Prop :=
  (∀ i, e.2 = .accept i → i ∉ w.activeWebsocketConnectionsClientIdxs) ∧
    ∀ i, w.killed e.2 = some i → i ∈ w.activeWebsocketConnectionsClientIdxs ∨
      ∀ k ∈ w.activeWebsocketConnectionsClientIdxs,
        (w.tcpClients[k]?).map TcpClient.wsClientIdx ≠ (w.tcpClients[i]?).map TcpClient.wsClientIdx

/-- `kill_client` runs for an active slot only if its index is one of `websocket_clients`, and for any other
slot only if its index is not in use. -/
def FreesOnce (w : WebServer N) (e : WebEnv × Callback) : Prop :=
  ∀ i, w.killed e.2 = some i → ∀ client ∈ w.tcpClients[i]?,
    if i ∈ w.activeWebsocketConnectionsClientIdxs then (w.wsClient client.wsClientIdx).isSome
    else client.wsClientIdx ∉ w.allWebsocketConnections

/-- The slot that a callback accepts. -/
def acceptedSlot : Callback → Option ℕ
  | .accept i => some i
  | _ => none

instance (w : WebServer N) (e : WebEnv × Callback) : Decidable (w.KeepsLinks e) :=
  decidable_of_iff ((∀ i ∈ acceptedSlot e.2, i ∉ w.activeWebsocketConnectionsClientIdxs) ∧
    ∀ i ∈ w.killed e.2, i ∈ w.activeWebsocketConnectionsClientIdxs ∨
      ∀ k ∈ w.activeWebsocketConnectionsClientIdxs,
        (w.tcpClients[k]?).map TcpClient.wsClientIdx ≠ (w.tcpClients[i]?).map TcpClient.wsClientIdx) <| by
    refine and_congr ⟨fun h i heq => h i (by simp [heq, acceptedSlot]), fun h i hi => h i ?_⟩ Iff.rfl
    cases hcb : e.2 <;> simp_all [acceptedSlot]

instance (w : WebServer N) (e : WebEnv × Callback) : Decidable (w.FreesOnce e) :=
  inferInstanceAs (Decidable (∀ i ∈ w.killed e.2, ∀ client ∈ w.tcpClients[i]?,
    if i ∈ w.activeWebsocketConnectionsClientIdxs then (w.wsClient client.wsClientIdx).isSome
    else client.wsClientIdx ∉ w.allWebsocketConnections))

theorem killed_slot {cb : Callback} (h : w.killed cb = some i) : cb.slot = some i := by
  cases cb with
  | accept j => cases h
  | close j info => exact h
  | read j buffer =>
      simp only [killed, Option.ite_none_right_eq_some] at h
      exact h.2
  | write j info =>
      simp only [killed, Option.ite_none_right_eq_some] at h
      exact h.2
  | event => cases h
  | customRead j fd buffer => cases h

theorem KeepsLinks.act {e : WebEnv × Callback} (h : w.KeepsLinks e) {act : RecordPool.Act}
    (hact : w.Allows e.2 act) : w.pool.KeepsLinks act := by
  cases act with
  | clear i => exact h.1 i hact
  | release i =>
      refine (h.2 i hact).imp_right fun hothers k hk => ?_
      rw [pool_ref, pool_ref]
      exact hothers k hk
  | idle => trivial
  | acquire i => trivial
  | retire i => trivial

theorem FreesOnce.act {e : WebEnv × Callback} (h : w.FreesOnce e) {act : RecordPool.Act}
    (hact : w.Allows e.2 act) : w.pool.FreesOnce act := by
  cases act with
  | release i =>
      intro x hx
      rw [pool_ref] at hx
      obtain ⟨client, hclient, rfl⟩ := Option.map_eq_some_iff.mp hx
      have hfrees := h i hact client hclient
      rw [pool_ownerOf, Option.isSome_map]
      exact hfrees
  | idle => trivial
  | clear i => trivial
  | acquire i => trivial
  | retire i => trivial

theorem linked_invoke {e : WebEnv × Callback} (hclosing : w.NoneClosing) (h : w.pool.Linked)
    (he : w.KeepsLinks e) (hcb : (webApp N).invoke w e = some (w', cs)) : w'.pool.Linked := by
  obtain ⟨act, hallowed, hmove⟩ := move_invoke hclosing hcb
  exact h.move (he.act hallowed) hmove

theorem partitioned_invoke {e : WebEnv × Callback} (hclosing : w.NoneClosing) (h : w.pool.Partitioned)
    (he : w.FreesOnce e) (hcb : (webApp N).invoke w e = some (w', cs)) : w'.pool.Partitioned := by
  obtain ⟨act, hallowed, hmove⟩ := move_invoke hclosing hcb
  exact h.move (he.act hallowed) hmove

/-- `websocket_clients` grows to what was in use at some moment. -/
theorem length_le_peak {es : List (WebEnv × Callback)} {calls : List (List TcpCall)} (hclosing : w.NoneClosing)
    (h : w.pool.Partitioned) (hes : Runs.Along (webApp N).invoke FreesOnce w es)
    (hrun : Runs.exec (webApp N).invoke w es = some (w', calls)) :
    w'.websocketClients.length = w.websocketClients.length ∨
      ∃ before w₁ calls₁, before <+: es ∧ Runs.exec (webApp N).invoke w before = some (w₁, calls₁) ∧
        w'.websocketClients.length ≤ w₁.allWebsocketConnections.card := by
  induction es generalizing w calls with
  | nil =>
      obtain ⟨rfl, -⟩ : w = w' ∧ _ := by simpa [Runs.exec] using hrun
      exact Or.inl rfl
  | cons e es ih =>
      obtain ⟨w₁, cs₁, calls₂, hcb, hrest, -⟩ := Runs.exec_cons hrun
      have hclosing₁ : w₁.NoneClosing := maintains_noneClosing.invoke hclosing hcb
      have hnext := partitioned_invoke hclosing h hes.1 hcb
      rcases ih hclosing₁ hnext (hes.2 w₁ cs₁ hcb) hrest with hsame | ⟨before, w₃, calls₃, hprefix, hreach, hle⟩
      · obtain ⟨act, hallowed, hmove⟩ := move_invoke hclosing hcb
        have hgrown := h.length_move (hes.1.act hallowed) hmove
        simp only [pool, List.length_map] at hgrown
        rcases hgrown with hlength | hlength
        · exact Or.inl (hsame.trans hlength)
        · exact Or.inr ⟨[e], w₁, [cs₁], by simp, Runs.exec_singleton hcb, by omega⟩
      · refine Or.inr ⟨e :: before, w₃, cs₁ :: calls₃, by simpa using hprefix, ?_, hle⟩
        simp [Runs.exec, hcb, hreach]

end WebServer

/-- In every run of either server type, as long as no active websocket's slot is accepted again and
`kill_client` runs for no inactive slot whose index is that of an active websocket, each active websocket is
one of all websockets and refers back to its connection, and no callback for another connection takes it from
them. -/
theorem websockets_linked (T : ServerType) (N : ℕ) (inotifyFd : ℤ) (cs : List (Completion WebEnv))
    (m : Machine (WebServer N)) (logs : List (List Callback))
    (hrun : Runs.exec (Machine.step T (webApp N)) (webStart N inotifyFd) cs = some (m, logs))
    (hcs : Runs.Along (webApp N).invoke WebServer.KeepsLinks { inotifyFd } (invoked cs logs)) :
    (∀ k ∈ m.app.activeWebsocketConnectionsClientIdxs, ∃ client wsClient,
        m.app.tcpClients[k]? = some client ∧ client.wsClientIdx ∈ m.app.allWebsocketConnections ∧
        m.app.wsClient client.wsClientIdx = some wsClient ∧ wsClient.clientIdx = k) ∧
      ∀ e w calls, m.app.KeepsLinks e → (webApp N).invoke m.app e = some (w, calls) →
        ∀ k ∈ m.app.activeWebsocketConnectionsClientIdxs, e.2.slot ≠ some k →
          ∀ client ∈ m.app.tcpClients[k]?, client.wsClientIdx ∈ w.allWebsocketConnections := by
  obtain ⟨calls, hcalls⟩ := Machine.replays_run hrun
  obtain ⟨hclosing, hlinked⟩ : m.app.NoneClosing ∧ m.app.pool.Linked := by
    refine Runs.exec_invariant (Q := fun w : WebServer N => w.NoneClosing ∧ w.pool.Linked)
      (fun w e w' _ hw he hcb => ?_) ?_ hcs hcalls
    · exact ⟨WebServer.maintains_noneClosing.invoke hw.1 hcb, WebServer.linked_invoke hw.1 hw.2 he hcb⟩
    · exact ⟨by simp [WebServer.NoneClosing], by simp [RecordPool.Linked, WebServer.pool]⟩
  refine ⟨fun k hk => ?_, fun e w calls he hcb k hk hother client hclient => ?_⟩
  · obtain ⟨x, href, hused, -, howner⟩ := hlinked k hk
    rw [WebServer.pool_ref] at href
    rw [WebServer.pool_ownerOf] at howner
    obtain ⟨client, hclient, rfl⟩ := Option.map_eq_some_iff.mp href
    obtain ⟨wsClient, hws, hback⟩ := Option.map_eq_some_iff.mp howner
    exact ⟨client, wsClient, hclient, hused, hws, hback⟩
  · obtain ⟨act, hallowed, hmove⟩ := WebServer.move_invoke hclosing hcb
    refine hlinked.used_move (he.act hallowed) hmove hk (x := client.wsClientIdx) ?_ ?_
    · rw [WebServer.pool_ref, hclient]
      rfl
    · rintro rfl
      exact hother (WebServer.killed_slot hallowed)

/-- Two clients connect and the first one upgrades. It is found half-closed, with its read still in flight, and
the second one gets its websocket. -/
def reuseRun : List (Completion WebEnv) :=
  [{ index := 4, res := 10, env := {} }, { index := 4, res := 11, env := {} },
    { index := 4, res := upgradeRequest.length, data := upgradeRequest, env := {} },
    { index := 6, res := 101, env := {} }, { index := 2, res := 8, halfClosed := [0], env := {} },
    { index := 4, res := upgradeRequest.length, data := upgradeRequest, env := {} }]

theorem websockets_linked_reused :
    ∃ m logs, Runs.exec (Machine.step .nonTls (webApp 1)) (webStart 1 9) reuseRun = some (m, logs) ∧
      ∃ client wsClient, m.app.tcpClients[1]? = some client ∧
        client.wsClientIdx ∈ m.app.allWebsocketConnections ∧
        m.app.wsClient client.wsClientIdx = some wsClient ∧ wsClient.clientIdx = 1 := by
  have hsome : (Runs.exec (Machine.step .nonTls (webApp 1)) (webStart 1 9) reuseRun).any (fun r =>
      Runs.Along (webApp 1).invoke WebServer.KeepsLinks { inotifyFd := 9 } (invoked reuseRun r.2) ∧
        1 ∈ r.1.app.activeWebsocketConnectionsClientIdxs) = true := by decide +kernel
  simp only [Option.any_eq_true, decide_eq_true_eq] at hsome
  obtain ⟨⟨m, logs⟩, hrun, hcs, hactive⟩ := hsome
  exact ⟨m, logs, hrun, (websockets_linked .nonTls 1 9 reuseRun m logs hrun hcs).1 1 hactive⟩

/-- The read of the first client completes with 0 then: its index is still that of the websocket, which is no
longer one of all websockets although the second client is active. -/
theorem websocket_lost :
    ∃ m logs, Runs.exec (Machine.step .nonTls (webApp 1)) (webStart 1 9)
        (reuseRun ++ [{ index := 4, res := 0, env := {} }]) = some (m, logs) ∧
      1 ∈ m.app.activeWebsocketConnectionsClientIdxs ∧
      (m.app.tcpClients[1]?).map TcpClient.wsClientIdx = some 0 ∧ 0 ∉ m.app.allWebsocketConnections := by
  have hsome : (Runs.exec (Machine.step .nonTls (webApp 1)) (webStart 1 9)
      (reuseRun ++ [{ index := 4, res := 0, env := {} }])).any (fun r =>
        1 ∈ r.1.app.activeWebsocketConnectionsClientIdxs ∧
        (r.1.app.tcpClients[1]?).map TcpClient.wsClientIdx = some 0 ∧ 0 ∉ r.1.app.allWebsocketConnections) =
      true := by decide +kernel
  simp only [Option.any_eq_true, decide_eq_true_eq] at hsome
  obtain ⟨⟨m, logs⟩, hrun, h⟩ := hsome
  exact ⟨m, logs, hrun, h⟩

/-- A client upgrades and goes away, and so does the next one on its slot. -/
def upgradeTwiceRun : List (Completion WebEnv) :=
  [{ index := 4, res := 10, env := {} },
    { index := 5, res := upgradeRequest.length, data := upgradeRequest, env := {} },
    { index := 5, res := 101, env := {} }, { index := 5, res := 0, env := {} },
    { index := 4, res := 10, env := {} },
    { index := 5, res := upgradeRequest.length, data := upgradeRequest, env := {} },
    { index := 5, res := 101, env := {} }, { index := 5, res := 0, env := {} }]

end LiburingServer
