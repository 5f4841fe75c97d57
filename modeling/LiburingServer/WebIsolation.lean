import LiburingServer.TcpIsolation
import LiburingServer.WebSockets

/-! The connections of the web server are isolated. What it does for one client changes nothing that it knows of the
others, whose websockets keep their records, and calls the TCP server for this client only. -/

namespace LiburingServer

variable {N : ℕ}

namespace WebServer

variable {w w₀ w' : WebServer N} {env : WebEnv} {i : ℕ} {F : ℤ → Prop} {cs : List TcpCall}
  {r : WebServer N × List TcpCall}

theorem wsClient_setWsClient_if {x y : ℤ} {client client' : WsClient} (h : w.wsClient x = some client) :
    (w.setWsClient x client').wsClient y = if y = x then some client' else w.wsClient y := by
  unfold wsClient at h
  split at h
  · rename_i hx
    have hlt := (List.getElem?_eq_some_iff.mp h).1
    unfold wsClient setWsClient
    by_cases hy : y = x
    · subst hy
      simp [hx, hlt]
    · by_cases hpos : 0 ≤ y
      · have hne : x.toNat ≠ y.toNat := by omega
        simp [hpos, hy, hne]
      · simp [hpos, hy]
  · cases h

/-- A new websocket has a record that was free or was not there. -/
theorem newWsClient_record {x : ℤ} (h : w.newWsClient i = some (w', x)) :
    w'.tcpClients = w.tcpClients ∧ (x ∈ w.freedIndexes ∨ w.wsClient x = none) ∧
      w'.freedIndexes ⊆ w.freedIndexes ∧ w'.allWebsocketConnections = insert x w.allWebsocketConnections ∧
      w'.activeWebsocketConnectionsClientIdxs = insert i w.activeWebsocketConnectionsClientIdxs ∧
      ∃ new : WsClient, new.clientIdx = i ∧ ∀ y, w'.wsClient y = if y = x then some new else w.wsClient y := by
  unfold newWsClient at h
  dsimp only at h
  split at h
  · rename_i hne
    split at h
    · cases h
    · rename_i freed hfreed
      obtain ⟨rfl, rfl⟩ := Prod.mk.inj (Option.some.inj h)
      have hrecord : ({ w with freedIndexes := w.freedIndexes.erase (w.freedIndexes.min' hne) } : WebServer N).wsClient
          (w.freedIndexes.min' hne) = some freed := hfreed
      exact ⟨rfl, Or.inl (Finset.min'_mem _ hne), Finset.erase_subset _ _, rfl, rfl,
        { id := (freed.id + 1) % 100, clientIdx := i }, rfl, fun y => wsClient_setWsClient_if hrecord⟩
  · obtain ⟨rfl, rfl⟩ := Prod.mk.inj (Option.some.inj h)
    refine ⟨rfl, Or.inr (by simp [wsClient]), subset_rfl, rfl, rfl, { clientIdx := i }, rfl, fun y => ?_⟩
    unfold wsClient
    by_cases hy : y = w.websocketClients.length
    · simp [hy]
    · by_cases hpos : 0 ≤ y
      · rw [if_pos hpos, if_neg hy, if_pos hpos]
        by_cases hlt : y.toNat < w.websocketClients.length
        · exact List.getElem?_append_left hlt
        · have hlong : w.websocketClients.length + 1 ≤ y.toNat := by omega
          rw [List.getElem?_eq_none (by simpa using hlong), List.getElem?_eq_none (by omega)]
      · simp [hpos, hy]

/-- What is known of the clients other than `i`, and of the websockets in `F`, is what `w₀` knows, and nothing of `F`
is what client `i` has or could get. -/
structure Isolated (i : ℕ) (F : ℤ → Prop) (w₀ w : WebServer N) : Prop where
  clients : ∀ j, j ≠ i → ∀ client ∈ w₀.tcpClients[j]?, w.tcpClients[j]? = some client
  active : ∀ j, j ≠ i →
    (j ∈ w.activeWebsocketConnectionsClientIdxs ↔ j ∈ w₀.activeWebsocketConnectionsClientIdxs)
  records : ∀ x, F x → w.wsClient x = w₀.wsClient x
  used : ∀ x, F x → (x ∈ w.allWebsocketConnections ↔ x ∈ w₀.allWebsocketConnections)
  valid : ∀ x, F x → (w.wsClient x).isSome ∧ x ∉ w.freedIndexes
  index : ∀ client ∈ w.tcpClients[i]?, ¬F client.wsClientIdx
  own : i ∈ w.activeWebsocketConnectionsClientIdxs → ∀ client ∈ w.tcpClients[i]?,
    ∀ ws ∈ w.wsClient client.wsClientIdx, ws.clientIdx = i
  noneClosing : w.NoneClosing

namespace Isolated

variable (h : Isolated i F w₀ w)
include h

/-- A step that changes nothing of the clients and the websockets. -/
theorem congr (hclients : w'.tcpClients = w.tcpClients) (hpool : w'.pool = w.pool)
    (hrecords : w'.websocketClients = w.websocketClients) : Isolated i F w₀ w' := by
  have hws : ∀ x, w'.wsClient x = w.wsClient x := fun x => by rw [wsClient, hrecords, wsClient]
  have hactive : w'.activeWebsocketConnectionsClientIdxs = w.activeWebsocketConnectionsClientIdxs :=
    congrArg RecordPool.active hpool
  have hused : w'.allWebsocketConnections = w.allWebsocketConnections := congrArg RecordPool.used hpool
  have hfree : w'.freedIndexes = w.freedIndexes := congrArg RecordPool.free hpool
  refine ⟨?_, ?_, ?_, ?_, ?_, ?_, ?_, ?_⟩
  · rw [hclients]
    exact h.clients
  · rw [hactive]
    exact h.active
  · exact fun x hx => (hws x).trans (h.records x hx)
  · rw [hused]
    exact h.used
  · intro x hx
    rw [hws, hfree]
    exact h.valid x hx
  · rw [hclients]
    exact h.index
  · rw [hclients, hactive]
    intro hi client hclient ws hmem
    exact h.own hi client hclient ws (by rwa [hws] at hmem)
  · rw [NoneClosing, hrecords]
    exact h.noneClosing

/-- The data of client `i` change, but not the index of its websocket. -/
theorem setTcpClient {client client' : TcpClient} (hclient : w.tcpClients[i]? = some client)
    (hidx : client'.wsClientIdx = client.wsClientIdx) : Isolated i F w₀ (w.setTcpClient i client') := by
  have hlt := (List.getElem?_eq_some_iff.mp hclient).1
  have hself : (w.setTcpClient i client').tcpClients[i]? = some client' := List.getElem?_set_self hlt
  refine ⟨fun j hj client hmem => ?_, h.active, h.records, h.used, h.valid, fun c hc => ?_, fun hi c hc ws hws => ?_,
    h.noneClosing⟩
  · exact (List.getElem?_set_ne (Ne.symm hj)).trans (h.clients j hj client hmem)
  · obtain rfl : client' = c := Option.some.inj (hself.symm.trans hc)
    rw [hidx]
    exact h.index client hclient
  · obtain rfl : client' = c := Option.some.inj (hself.symm.trans hc)
    rw [hidx] at hws
    exact h.own hi client hclient ws hws

/-- The record of a websocket changes that is not in `F`. -/
theorem setWsClient {x : ℤ} {client client' : WsClient} (hx : ¬F x) (hclient : w.wsClient x = some client)
    (hidx : client'.clientIdx = client.clientIdx) (hclose : client'.close = client.close) :
    Isolated i F w₀ (w.setWsClient x client') := by
  have hother : ∀ y, F y → (w.setWsClient x client').wsClient y = w.wsClient y := by
    intro y hy
    rw [wsClient_setWsClient_if hclient, if_neg]
    rintro rfl
    exact hx hy
  refine ⟨h.clients, h.active, fun y hy => (hother y hy).trans (h.records y hy), h.used, fun y hy => ?_, h.index,
    fun hi c hc ws hws => ?_, ?_⟩
  · rw [hother y hy]
    exact h.valid y hy
  · rw [wsClient_setWsClient_if hclient] at hws
    split at hws
    · rename_i heq
      obtain rfl := Option.some.inj hws
      rw [hidx]
      exact h.own hi c hc client (heq ▸ hclient)
    · exact h.own hi c hc ws hws
  · exact (steady_setWsClient hclient hclose).noneClosing h.noneClosing

theorem newTcpClient : Isolated i F w₀ (w.newTcpClient i) := by
  have hself : (w.newTcpClient i).tcpClients[i]? = some {} := by
    simp only [WebServer.newTcpClient]
    rw [List.getElem?_set_self]
    simp only [List.length_append, List.length_replicate]
    omega
  have hnone : w.wsClient ({} : TcpClient).wsClientIdx = none := rfl
  refine ⟨fun j hj client hclient => ?_, h.active, h.records, h.used, h.valid, fun c hc => ?_, fun _ c hc ws hws => ?_,
    h.noneClosing⟩
  · have hbefore := h.clients j hj client hclient
    have hlt := (List.getElem?_eq_some_iff.mp hbefore).1
    simp only [WebServer.newTcpClient]
    rw [List.getElem?_set_ne (Ne.symm hj), List.getElem?_append_left hlt, hbefore]
  · obtain rfl := Option.some.inj (hself.symm.trans hc)
    intro hF
    have hvalid := (h.valid _ hF).1
    rw [hnone] at hvalid
    cases hvalid
  · obtain rfl := Option.some.inj (hself.symm.trans hc)
    have hws' : w.wsClient ({} : TcpClient).wsClientIdx = some ws := hws
    rw [hnone] at hws'
    cases hws'

/-- A websocket that is not in `F` is no longer in use. -/
theorem eraseUsed {x : ℤ} (hx : ¬F x) :
    Isolated i F w₀ { w with allWebsocketConnections := w.allWebsocketConnections.erase x } := by
  refine ⟨h.clients, h.active, h.records, fun y hy => ?_, h.valid, h.index, h.own, h.noneClosing⟩
  have hne : y ≠ x := by
    rintro rfl
    exact hx hy
  rw [← h.used y hy]
  simp [hne]

/-- The websocket of client `i` is no longer active. -/
theorem eraseActive : Isolated i F w₀
    { w with activeWebsocketConnectionsClientIdxs := w.activeWebsocketConnectionsClientIdxs.erase i } := by
  refine ⟨h.clients, fun j hj => ?_, h.records, h.used, h.valid, h.index, fun hi => ?_, h.noneClosing⟩
  · rw [← h.active j hj]
    simp [hj]
  · exact absurd hi (Finset.notMem_erase i _)

/-- A websocket that is not in `F` can be handed out again. -/
theorem insertFreed {x : ℤ} (hx : ¬F x) : Isolated i F w₀ { w with freedIndexes := insert x w.freedIndexes } := by
  refine ⟨h.clients, h.active, h.records, h.used, fun y hy => ?_, h.index, h.own, h.noneClosing⟩
  obtain ⟨hsome, hfree⟩ := h.valid y hy
  refine ⟨hsome, fun hmem => ?_⟩
  rcases Finset.mem_insert.mp hmem with rfl | hmem
  · exact hx hy
  · exact hfree hmem

theorem killClient (hkill : w.killClient i = some w') : Isolated i F w₀ w' := by
  unfold WebServer.killClient at hkill
  split at hkill
  · cases hkill
  · rename_i client hclient
    obtain ⟨⟨cache, client'⟩, hdone, rfl⟩ := Option.map_eq_some_iff.mp hkill
    have hidx : client'.wsClientIdx = client.wsClientIdx := Cache.finishedWithItem_wsClientIdx hdone
    have hfile : Isolated i F w₀ (w.setTcpClient i { client' with usingFile := false }) := h.setTcpClient hclient hidx
    have hcached : Isolated i F w₀ { w.setTcpClient i { client' with usingFile := false } with webCache := cache } :=
      hfile.congr rfl rfl rfl
    have hreleased := hcached.eraseUsed (h.index client hclient)
    dsimp only
    split
    · exact hreleased.eraseActive.insertFreed (h.index client hclient)
    · exact hreleased

theorem broadcastUsed {info : ℤ} (hused : w.broadcastUsed info = some w') : Isolated i F w₀ w' := by
  obtain ⟨hpool, hclients⟩ := pool_broadcastUsed hused
  exact h.congr hclients hpool (broadcastUsed_rest hused).2.2.2.1

theorem closeCb {info : ℤ} (hclose : w.closeCb i info = some w') : Isolated i F w₀ w' := by
  obtain ⟨w₁, hused, hkill⟩ := Option.bind_eq_some_iff.mp hclose
  exact (h.broadcastUsed hused).killClient hkill

end Isolated

/-- A callback for client `i`. -/
structure Isolates (i : ℕ) (F : ℤ → Prop) (w₀ : WebServer N) (r : WebServer N × List TcpCall) : Prop where
  isolated : Isolated i F w₀ r.1
  calls : ∀ c ∈ r.2, c.IsFor i

theorem isFor_slot {i : ℕ} {c : TcpCall} (h : c.slots = [i]) : c.IsFor i := fun j hj => by
  rw [h] at hj
  exact List.mem_singleton.mp hj

theorem Isolates.andCalls {cs' : List TcpCall} (h : Isolates i F w₀ (w, cs)) (hcs' : ∀ c ∈ cs', c.IsFor i) :
    Isolates i F w₀ (w, cs ++ cs') :=
  ⟨h.isolated, fun c hc => (List.mem_append.mp hc).elim (h.calls c) (hcs' c)⟩

namespace Isolated

variable (h : Isolated i F w₀ w)
include h

theorem closeConnection (hclose : w.closeConnection i = some r) : Isolates i F w₀ r := by
  obtain ⟨w₁, hkill, rfl⟩ := Option.map_eq_some_iff.mp hclose
  exact ⟨h.killClient hkill, by simpa using isFor_slot rfl⟩

theorem sendFileRequest {n code : ℕ} {p : Bytes} {accept opened : Bool}
    (hsent : w.sendFileRequest env n i p accept code = some (w', cs, opened)) : Isolates i F w₀ (w', cs) := by
  unfold WebServer.sendFileRequest at hsent
  dsimp only at hsent
  split at hsent
  · obtain ⟨rfl, rfl, -⟩ := by simpa using hsent
    exact ⟨h, by simp⟩
  · split at hsent
    · cases hsent
    · rename_i client hclient
      split at hsent
      · cases hsent
      · rename_i cache client' item hfetch
        have hidx := Cache.fetchItem_wsClientIdx hfetch
        split_ifs at hsent
        · obtain ⟨rfl, rfl, -⟩ := by simpa using hsent
          refine ⟨(h.setTcpClient hclient hidx).congr rfl rfl rfl, by simpa using isFor_slot rfl⟩
        · obtain ⟨rfl, rfl, -⟩ := by simpa using hsent
          have hpath : ({ client' with lastRequestedReadFilepath := p } : TcpClient).wsClientIdx = client.wsClientIdx :=
            hidx
          exact ⟨(h.setTcpClient hclient hpath).congr rfl rfl rfl, by simpa using isFor_slot rfl⟩

theorem customReadCb {fd : ℤ} {buff : Bytes} (hcb : w.customReadCb env (some i) fd buff = some r) :
    Isolates i F w₀ r := by
  unfold WebServer.customReadCb at hcb
  split at hcb
  · obtain rfl := Option.some.inj hcb
    exact ⟨h.congr rfl rfl rfl, by simp [TcpCall.IsFor, TcpCall.slots]⟩
  · split at hcb
    · cases hcb
    · rename_i j heq
      obtain rfl := Option.some.inj heq
      split at hcb
      · cases hcb
      · rename_i client hclient
        dsimp only at hcb
        split at hcb
        · cases hcb
        · obtain ⟨⟨cache, client', item⟩, hfetch, rfl⟩ := Option.map_eq_some_iff.mp hcb
          exact ⟨(h.setTcpClient hclient (Cache.fetchItem_wsClientIdx hfetch)).congr rfl rfl rfl,
            by simpa using isFor_slot rfl⟩
        · obtain rfl := Option.some.inj hcb
          exact ⟨h, by simpa using isFor_slot rfl⟩

/-- A websocket begins, with a record that is not in `F`. -/
theorem enter {x : ℤ} {client : TcpClient} {new : WsClient} (hx : ¬F x) (hclient : w.tcpClients[i]? = some client)
    (hclients : w'.tcpClients = w.tcpClients.set i { client with wsClientIdx := x })
    (hrecords : ∀ y, w'.wsClient y = if y = x then some new else w.wsClient y) (hnew : new.clientIdx = i)
    (hused : w'.allWebsocketConnections = insert x w.allWebsocketConnections)
    (hactive : w'.activeWebsocketConnectionsClientIdxs = insert i w.activeWebsocketConnectionsClientIdxs)
    (hfreed : w'.freedIndexes ⊆ w.freedIndexes) (hclosing : w'.NoneClosing) : Isolated i F w₀ w' := by
  have hlt := (List.getElem?_eq_some_iff.mp hclient).1
  have hself : w'.tcpClients[i]? = some { client with wsClientIdx := x } := by
    rw [hclients, List.getElem?_set_self hlt]
  have hother : ∀ y, F y → y ≠ x := by
    rintro y hy rfl
    exact hx hy
  refine ⟨fun j hj c hc => ?_, fun j hj => ?_, fun y hy => ?_, fun y hy => ?_, fun y hy => ?_, fun c hc => ?_,
    fun _ c hc ws hws => ?_, hclosing⟩
  · rw [hclients, List.getElem?_set_ne (Ne.symm hj)]
    exact h.clients j hj c hc
  · rw [hactive, Finset.mem_insert, or_iff_right hj]
    exact h.active j hj
  · rw [hrecords, if_neg (hother y hy)]
    exact h.records y hy
  · rw [hused, Finset.mem_insert, or_iff_right (hother y hy)]
    exact h.used y hy
  · rw [hrecords, if_neg (hother y hy)]
    exact ⟨(h.valid y hy).1, fun hmem => (h.valid y hy).2 (hfreed hmem)⟩
  · obtain rfl := Option.some.inj (hself.symm.trans hc)
    exact hx
  · obtain rfl := Option.some.inj (hself.symm.trans hc)
    rw [hrecords, if_pos rfl] at hws
    obtain rfl := Option.some.inj hws
    exact hnew

theorem websocketAcceptReadCb {key : Bytes} (haccept : w.websocketAcceptReadCb env i key = some r) :
    Isolates i F w₀ r := by
  have hclosing := (websocketAcceptReadCb_keeps haccept).steady.noneClosing h.noneClosing
  unfold WebServer.websocketAcceptReadCb at haccept
  dsimp only at haccept
  split at haccept
  · cases haccept
  · rename_i w₁ x hnew
    obtain ⟨hclients, hfresh, hfreed, hused, hactive, new, howner, hrecords⟩ := newWsClient_record hnew
    split at haccept
    · cases haccept
    · rename_i client hclient
      obtain rfl := Option.some.inj haccept
      have hx : ¬F x := by
        intro hF
        obtain ⟨hsome, hfree⟩ := h.valid x hF
        rcases hfresh with hmem | hnone
        · exact hfree hmem
        · rw [hnone] at hsome
          cases hsome
      rw [hclients] at hclient
      refine ⟨h.enter hx hclient ?_ hrecords howner hused hactive hfreed hclosing, by simpa using isFor_slot rfl⟩
      rw [WebServer.setTcpClient, hclients]

/-- A websocket of client `i` is asked to close. -/
theorem closeWsConnectionReq {x : ℤ} {already : Bool} (hx : ¬F x) (howner : ∀ ws ∈ w.wsClient x, ws.clientIdx = i)
    (hreq : w.closeWsConnectionReq x already = some r) : Isolates i F w₀ r := by
  obtain ⟨client, hclient, rfl⟩ := Option.map_eq_some_iff.mp hreq
  obtain rfl := howner client hclient
  have hset : Isolated client.clientIdx F w₀
      (w.setWsClient x { client with currentlyWriting := client.currentlyWriting + 1, websocketFrames := [] }) :=
    h.setWsClient hx hclient rfl rfl
  refine ⟨hset.eraseActive, ?_⟩
  cases already with
  | true => simp
  | false => simpa using isFor_slot rfl

theorem processFrame {x : ℤ} {frame : Bytes} {closed : Bool} (hx : ¬F x)
    (howner : ∀ ws ∈ w.wsClient x, ws.clientIdx = i) (hframe : w.processFrame x frame = some (w', cs, closed)) :
    Isolates i F w₀ (w', cs) ∧ (closed = false → ∀ ws ∈ w'.wsClient x, ws.clientIdx = i) := by
  have hkeeps : ∀ {client client' : WsClient}, w.wsClient x = some client → client'.clientIdx = client.clientIdx →
      ∀ ws ∈ (w.setWsClient x client').wsClient x, ws.clientIdx = i := by
    intro client client' hclient hidx ws hws
    rw [wsClient_setWsClient_if hclient, if_pos rfl] at hws
    obtain rfl := Option.some.inj hws
    exact hidx.trans (howner client hclient)
  unfold WebServer.processFrame at hframe
  split at hframe
  · obtain ⟨rfl, rfl, -⟩ := by simpa using hframe
    exact ⟨⟨h, by simp⟩, fun _ => howner⟩
  · split at hframe
    · rename_i code data client _ hclient
      split_ifs at hframe
      · obtain ⟨rfl, rfl, -⟩ := by simpa using hframe
        exact ⟨⟨h.setWsClient hx hclient rfl rfl, by simp⟩, fun _ => hkeeps hclient rfl⟩
      · obtain ⟨rfl, rfl, -⟩ := by simpa using hframe
        exact ⟨⟨h.setWsClient hx hclient rfl rfl, by simp⟩, fun _ => hkeeps hclient rfl⟩
      · obtain ⟨⟨w₁, cs₁⟩, hreq, heq⟩ := Option.map_eq_some_iff.mp hframe
        obtain ⟨rfl, rfl, rfl⟩ := by simpa using heq
        have hset : Isolated i F w₀ (w.setWsClient x { client with currentlyWriting := client.currentlyWriting + 1 }) :=
          h.setWsClient hx hclient rfl rfl
        exact ⟨hset.closeWsConnectionReq hx (hkeeps hclient rfl) hreq, by simp⟩
      · obtain ⟨rfl, rfl, -⟩ := by simpa using hframe
        refine ⟨⟨h.setWsClient hx hclient rfl rfl, ?_⟩, fun _ => hkeeps hclient rfl⟩
        have hslot : client.clientIdx = i := howner client hclient
        simpa [hslot] using isFor_slot rfl
      · obtain ⟨rfl, rfl, -⟩ := by simpa using hframe
        exact ⟨⟨h, by simp⟩, fun _ => howner⟩
    · cases hframe

theorem processFrames {x : ℤ} {frames : List Bytes} {closed : Bool} (hx : ¬F x)
    (howner : ∀ ws ∈ w.wsClient x, ws.clientIdx = i)
    (hframes : WebServer.processFrames x frames w = some (w', cs, closed)) : Isolates i F w₀ (w', cs) := by
  induction frames generalizing w w' cs closed with
  | nil =>
      obtain ⟨rfl, rfl, -⟩ := by simpa [WebServer.processFrames] using hframes
      exact ⟨h, by simp⟩
  | cons frame frames ih =>
      unfold WebServer.processFrames at hframes
      split at hframes
      · cases hframes
      · rename_i w₁ cs₁ hframe
        obtain ⟨rfl, rfl, -⟩ := by simpa using hframes
        exact (h.processFrame hx howner hframe).1
      · rename_i w₁ cs₁ hframe
        obtain ⟨⟨w₂, cs₂, closed₂⟩, hrest, heq⟩ := Option.map_eq_some_iff.mp hframes
        obtain ⟨rfl, rfl, -⟩ := by simpa using heq
        obtain ⟨hfirst, howner₁⟩ := h.processFrame hx howner hframe
        have hlast := ih hfirst.isolated (howner₁ rfl) hrest
        exact ⟨hlast.isolated, fun c hc => (List.mem_append.mp hc).elim (hfirst.calls c) (hlast.calls c)⟩

theorem websocketProcessReadCb {buffer : Bytes} (hi : i ∈ w.activeWebsocketConnectionsClientIdxs)
    (hread : w.websocketProcessReadCb env i buffer = some r) : Isolates i F w₀ r := by
  have hagain : ∀ c ∈ [TcpCall.readConnection i], c.IsFor i := by simpa using isFor_slot rfl
  unfold WebServer.websocketProcessReadCb at hread
  dsimp only at hread
  split at hread
  · cases hread
  · rename_i client hclient
    split at hread
    · cases hread
    · rename_i ws hws
      split at hread
      · cases hread
      · rename_i receivingData code frames _
        have hx := h.index client hclient
        have hset : Isolated i F w₀ (w.setWsClient client.wsClientIdx { ws with receivingData }) :=
          h.setWsClient hx hws rfl rfl
        have howner : ∀ ws' ∈ (w.setWsClient client.wsClientIdx { ws with receivingData }).wsClient client.wsClientIdx,
            ws'.clientIdx = i := by
          intro ws' hws'
          rw [wsClient_setWsClient_if hws, if_pos rfl] at hws'
          obtain rfl := Option.some.inj hws'
          exact h.own hi client hclient ws hws
        split at hread
        · obtain ⟨⟨w₁, cs₁, closed⟩, hframes, rfl⟩ := Option.map_eq_some_iff.mp hread
          refine (hset.processFrames hx howner hframes).andCalls ?_
          split
          · simp
          · exact hagain
        · obtain ⟨⟨w₁, cs₁⟩, hreq, rfl⟩ := Option.map_eq_some_iff.mp hread
          exact (hset.closeWsConnectionReq hx howner hreq).andCalls hagain

theorem respond {req : HttpRequest} (hrespond : w.respond env i req = some r) : Isolates i F w₀ r := by
  have hfinish : ∀ {w₁ : WebServer N} {cs₁ : List TcpCall}, Isolates i F w₀ (w₁, cs₁) → Isolates i F w₀ (w₁, cs₁ ++
      if i ∈ w₁.activeWebsocketConnectionsClientIdxs then [.readConnection i] else []) := by
    intro w₁ cs₁ h₁
    refine h₁.andCalls ?_
    split
    · simpa using isFor_slot rfl
    · simp
  have hmissing : ∀ n, (w.sendFileRequest env n i (ascii "public/404.html") false 400).map (fun r => (r.1, r.2.1)) =
      some r → Isolates i F w₀ r := by
    intro n hn
    obtain ⟨⟨w₁, cs₁, opened⟩, hsent, rfl⟩ := Option.map_eq_some_iff.mp hn
    exact h.sendFileRequest hsent
  unfold WebServer.respond at hrespond
  dsimp only at hrespond
  split at hrespond
  · split at hrespond
    · obtain ⟨⟨w₁, cs₁⟩, haccept, rfl⟩ := Option.map_eq_some_iff.mp hrespond
      exact hfinish (h.websocketAcceptReadCb haccept)
    · split at hrespond
      · cases hrespond
      · rename_i w₁ cs₁ hsent
        obtain rfl := Option.some.inj hrespond
        exact hfinish (h.sendFileRequest hsent)
      · exact hmissing 1 hrespond
  · exact hmissing 0 hrespond

theorem readCb {buffer : Bytes} (hread : w.readCb env i buffer = some r) : Isolates i F w₀ r := by
  unfold WebServer.readCb at hread
  split at hread
  · split at hread
    · cases hread
    · exact h.respond hread
  · split at hread
    · rename_i hi
      obtain ⟨⟨w₁, cs₁⟩, hprocessed, rfl⟩ := Option.map_eq_some_iff.mp hread
      exact (h.websocketProcessReadCb hi hprocessed).andCalls (by simpa using isFor_slot rfl)
    · exact h.closeConnection hread

theorem writeCb {info : ℤ} (hwritten : w.writeCb i info = some r) : Isolates i F w₀ r := by
  unfold WebServer.writeCb at hwritten
  split at hwritten
  · cases hwritten
  · rename_i w₁ hused
    have h₁ := h.broadcastUsed hused
    split at hwritten
    · cases hwritten
    · rename_i client hclient
      split at hwritten
      · unfold closeWsConnectionPotentialConfirm at hwritten
        split at hwritten
        · cases hwritten
        · rename_i ws hws
          split at hwritten
          · rw [if_neg (by simp [wsClient_close hws h₁.noneClosing])] at hwritten
            obtain rfl := Option.some.inj hwritten
            exact ⟨h₁, by simp⟩
          · obtain rfl := Option.some.inj hwritten
            exact ⟨h₁.setWsClient (h₁.index client hclient) hws rfl rfl, by simp⟩
      · exact h₁.closeConnection hwritten

end Isolated

/-- The callbacks for client `i`. -/
theorem servesOnly (i : ℕ) (F : ℤ → Prop) (w₀ : WebServer N) :
    Machine.ServesOnly (webApp N) i (Isolated i F w₀) := by
  intro w env cb w' cs h hclient hcb
  have hgoal : Isolates i F w₀ (w', cs) := by
    cases cb with
    | accept j =>
        obtain rfl := Option.some.inj hclient
        obtain ⟨rfl, rfl⟩ : w.newTcpClient j = w' ∧ [] = cs := by simpa [App.invoke, webApp] using hcb
        exact ⟨h.newTcpClient, by simp⟩
    | close j info =>
        obtain rfl := Option.some.inj hclient
        obtain ⟨hclose, rfl⟩ : w.closeCb j info = some w' ∧ [] = cs := by simpa [App.invoke, webApp] using hcb
        exact ⟨h.closeCb hclose, by simp⟩
    | read j buffer =>
        obtain rfl := Option.some.inj hclient
        exact h.readCb hcb
    | write j info =>
        obtain rfl := Option.some.inj hclient
        exact h.writeCb hcb
    | event => cases hclient
    | customRead j fd buffer =>
        obtain rfl : j = some i := hclient
        exact h.customReadCb hcb
  exact ⟨hgoal.isolated, hgoal.calls⟩

/-- The websockets of the active connections other than `i`. -/
def OfOthers (w : WebServer N) (i : ℕ) (x : ℤ) : Prop :=
  ∃ k ∈ w.activeWebsocketConnectionsClientIdxs, k ≠ i ∧ (w.tcpClients[k]?).map TcpClient.wsClientIdx = some x

/-- The index of slot `i` is not that of another connection's websocket. -/
def OwnIndex (w : WebServer N) (i : ℕ) : Prop :=
  i ∈ w.activeWebsocketConnectionsClientIdxs ∨ ∀ k ∈ w.activeWebsocketConnectionsClientIdxs,
    (w.tcpClients[k]?).map TcpClient.wsClientIdx ≠ (w.tcpClients[i]?).map TcpClient.wsClientIdx

instance (w : WebServer N) (i : ℕ) : Decidable (w.OwnIndex i) :=
  inferInstanceAs (Decidable (_ ∨ ∀ k ∈ w.activeWebsocketConnectionsClientIdxs,
    (w.tcpClients[k]?).map TcpClient.wsClientIdx ≠ (w.tcpClients[i]?).map TcpClient.wsClientIdx))

theorem own_of_linked (h : w.pool.Linked) (hi : i ∈ w.activeWebsocketConnectionsClientIdxs) :
    ∀ client ∈ w.tcpClients[i]?, ∀ ws ∈ w.wsClient client.wsClientIdx, ws.clientIdx = i := by
  intro client hclient ws hws
  obtain ⟨y, href, -, -, howner⟩ := h i hi
  rw [pool_ref, hclient] at href
  obtain rfl := Option.some.inj href
  rw [pool_ownerOf, hws] at howner
  exact Option.some.inj howner

/-- Before a callback, as long as active websockets refer back to their connections. -/
theorem isolated_of_linked (hclosing : w.NoneClosing) (hlinked : w.pool.Linked) (hi : w.OwnIndex i) :
    Isolated i (w.OfOthers i) w w := by
  have hrecord : ∀ x, w.OfOthers i x → ∃ k ≠ i, ∃ ws, w.wsClient x = some ws ∧ ws.clientIdx = k ∧
      x ∉ w.freedIndexes := by
    rintro x ⟨k, hk, hne, hx⟩
    obtain ⟨y, href, -, hfree, howner⟩ := hlinked k hk
    rw [pool_ref, hx] at href
    obtain rfl := Option.some.inj href
    rw [pool_ownerOf] at howner
    obtain ⟨ws, hws, hback⟩ := Option.map_eq_some_iff.mp howner
    exact ⟨k, hne, ws, hws, hback, hfree⟩
  refine ⟨fun _ _ _ hclient => hclient, fun _ _ => Iff.rfl, fun _ _ => rfl, fun _ _ => Iff.rfl, fun x hx => ?_,
    fun client hclient hx => ?_, own_of_linked hlinked, hclosing⟩
  · obtain ⟨-, -, ws, hws, -, hfree⟩ := hrecord x hx
    exact ⟨by simp [hws], hfree⟩
  · rcases hi with hactive | hothers
    · -- two active connections would be those that one websocket refers back to
      obtain ⟨k, hne, ws, hws, hback, -⟩ := hrecord _ hx
      exact hne (hback.symm.trans (own_of_linked hlinked hactive client hclient ws hws))
    · obtain ⟨k, hk, -, hsame⟩ := hx
      refine hothers k hk ?_
      rw [hsame, hclient]
      rfl

end WebServer

end LiburingServer
