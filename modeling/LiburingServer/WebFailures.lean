import LiburingServer.WebBroadcasts
import LiburingServer.WebSockets

/-! A failed request of a client of the plain server. When no write request of the client is left, the close
callback runs for each entry of its queue and once more, and the connection is closed. Each run of the
callback kills the client, of which only the first one changes anything, and counts a broadcast entry down. -/

namespace LiburingServer

/-! ### Entries that are counted down -/

/-- The message that `broadcast_finished` is reported with. -/
def BroadcastDataItems.report (item : BroadcastDataItems) (k : ℕ) : MessagePostData where
  msgType := .broadcastFinished
  buffPtr := item.buffPtr
  length := item.dataLen
  itemIdx := k
  additionalInfo := 2 ^ 64 - 1

/-- One use less of the item at `k`, which is reported if that was its last. -/
def Ledger.countDown (l : Ledger) (k : ℕ) (item : BroadcastDataItems) : Ledger :=
  let new := if item.uses = 1 then [item.report k] else []
  { l with
    broadcastData := l.broadcastData.set k { item with uses := item.uses - 1 }
    toProgramQueue := l.toProgramQueue ++ new
    centralCommunicationEventfd := l.centralCommunicationEventfd + new.length
    finished := l.finished ++ new.map MessagePostData.itemIdx }

/-- Each item has as many uses less as `infos` names it, and is reported if that was its last. -/
structure CountedDown (infos : List ℤ) (l l' : Ledger) : Prop where
  uses : ∀ k : ℕ, l'.broadcastData[k]? =
    (l.broadcastData[k]?).map fun item => { item with uses := item.uses - infos.count (k : ℤ) }
  reports : ∃ new, l'.toProgramQueue = l.toProgramQueue ++ new ∧
    l'.centralCommunicationEventfd = l.centralCommunicationEventfd + new.length ∧
    l'.finished = l.finished ++ new.map MessagePostData.itemIdx ∧
    (∀ msg ∈ new, msg.itemIdx < l.broadcastData.length) ∧
    ∀ (k : ℕ) item, l.broadcastData[k]? = some item → new.filter (fun msg => msg.itemIdx = k) =
      if 0 < infos.count (k : ℤ) ∧ item.uses = infos.count (k : ℤ) then [item.report k] else []
  received : l'.toServerQueue = l.toServerQueue ∧ l'.received = l.received

/-- Each item that `infos` names is there and has enough uses. -/
def Sufficient (infos : List ℤ) (data : List BroadcastDataItems) : Prop :=
  ∀ k ∈ infos, k ≠ -1 → ∃ item, 0 ≤ k ∧ data[k.toNat]? = some item ∧ infos.count k ≤ item.uses

variable {N : ℕ} {w w' : WebServer N} {i : ℕ} {info : ℤ} {infos : List ℤ} {l l' l'' : Ledger}

theorem countedDown_nil (l : Ledger) : CountedDown [] l l where
  uses k := by simp
  reports := ⟨[], by simp, rfl, by simp, by simp, by simp⟩
  received := ⟨rfl, rfl⟩

theorem CountedDown.cons_none (h : CountedDown infos l l') : CountedDown (-1 :: infos) l l' := by
  have hcount : ∀ k : ℕ, (-1 :: infos).count (k : ℤ) = infos.count (k : ℤ) := fun k =>
    List.count_cons_of_ne (by omega)
  obtain ⟨new, hqueue, hfd, hfinished, hlisted, hnew⟩ := h.reports
  refine ⟨fun k => ?_, ⟨new, hqueue, hfd, hfinished, hlisted, fun k item hitem => ?_⟩, h.received⟩
  · rw [hcount]
    exact h.uses k
  · rw [hcount]
    exact hnew k item hitem

theorem Sufficient.tail_none (h : Sufficient (-1 :: infos) l.broadcastData) :
    Sufficient infos l.broadcastData := by
  intro k hk hne
  obtain ⟨item, hpos, hitem, hle⟩ := h k (List.mem_cons_of_mem _ hk) hne
  exact ⟨item, hpos, hitem, by rwa [List.count_cons_of_ne (Ne.symm hne)] at hle⟩

theorem CountedDown.cons_item {k : ℕ} {item : BroadcastDataItems} (hitem : l.broadcastData[k]? = some item)
    (henough : infos.count (k : ℤ) + 1 ≤ item.uses) (h : CountedDown infos (l.countDown k item) l') :
    CountedDown (k :: infos) l l' := by
  have hlt : k < l.broadcastData.length := (List.getElem?_eq_some_iff.mp hitem).1
  have hself : (l.countDown k item).broadcastData[k]? = some { item with uses := item.uses - 1 } := by
    simp [Ledger.countDown, hlt]
  have hother : ∀ j : ℕ, j ≠ k → (l.countDown k item).broadcastData[j]? = l.broadcastData[j]? :=
    fun j hj => List.getElem?_set_ne (Ne.symm hj)
  have hcount : ∀ j : ℕ, j ≠ k → (↑k :: infos).count (j : ℤ) = infos.count (j : ℤ) := fun j hj =>
    List.count_cons_of_ne (by omega)
  obtain ⟨new, hqueue, hfd, hfinished, hlisted, hnew⟩ := h.reports
  refine ⟨fun j => ?_, ⟨(if item.uses = 1 then [item.report k] else []) ++ new, ?_, ?_, ?_, ?_, fun j d hd => ?_⟩,
    h.received⟩
  · rw [h.uses]
    by_cases hj : j = k
    · subst hj
      rw [hself, hitem, List.count_cons_self]
      simp only [Option.map_some, Option.some.injEq, BroadcastDataItems.mk.injEq, true_and]
      omega
    · rw [hother j hj, hcount j hj]
  · rw [hqueue, ← List.append_assoc]
    rfl
  · rw [hfd, List.length_append, ← Nat.add_assoc]
    rfl
  · rw [hfinished, List.map_append, ← List.append_assoc]
    rfl
  · intro msg hmsg
    rcases List.mem_append.mp hmsg with hmsg | hmsg
    · split at hmsg
      · rw [List.mem_singleton.mp hmsg]
        exact hlt
      · cases hmsg
    · have hbound := hlisted msg hmsg
      simpa [Ledger.countDown] using hbound
  · rw [List.filter_append]
    by_cases hj : j = k
    · subst hj
      obtain rfl := Option.some.inj (hitem.symm.trans hd)
      rw [hnew j _ hself, List.count_cons_self]
      by_cases hone : item.uses = 1
      · have hnone : infos.count (j : ℤ) = 0 := by omega
        simp [hone, hnone, BroadcastDataItems.report]
      · have hiff : (0 < infos.count (j : ℤ) ∧ item.uses - 1 = infos.count (j : ℤ)) ↔
            (0 < infos.count (j : ℤ) + 1 ∧ item.uses = infos.count (j : ℤ) + 1) := by omega
        simp only [hiff, if_neg hone, List.filter_nil, List.nil_append]
        rfl
    · have hrest := hnew j d (by rw [hother j hj, hd])
      rw [hcount j hj, hrest]
      have hnone : (if item.uses = 1 then [item.report k] else []).filter (fun msg => msg.itemIdx = j) = [] := by
        split
        · simp [BroadcastDataItems.report, Ne.symm hj]
        · rfl
      rw [hnone, List.nil_append]

theorem Sufficient.tail_item {k : ℕ} {item : BroadcastDataItems} (hitem : l.broadcastData[k]? = some item)
    (h : Sufficient (k :: infos) l.broadcastData) :
    infos.count (k : ℤ) + 1 ≤ item.uses ∧ Sufficient infos (l.countDown k item).broadcastData := by
  obtain ⟨item', -, hitem', hle⟩ := h k (by simp) (by omega)
  obtain rfl := Option.some.inj (hitem.symm.trans hitem')
  rw [List.count_cons_self] at hle
  refine ⟨hle, fun j hj hne => ?_⟩
  obtain ⟨d, hpos, hd, hmore⟩ := h j (List.mem_cons_of_mem _ hj) hne
  by_cases hjk : j = k
  · subst hjk
    have hlt : k < l.broadcastData.length := (List.getElem?_eq_some_iff.mp hitem).1
    refine ⟨{ item with uses := item.uses - 1 }, hpos, by simp [Ledger.countDown, hlt], ?_⟩
    show infos.count (k : ℤ) ≤ item.uses - 1
    omega
  · refine ⟨d, hpos, ?_, by rwa [List.count_cons_of_ne (Ne.symm hjk)] at hmore⟩
    rw [← hd]
    exact List.getElem?_set_ne (by omega)

/-! ### The close callback -/

namespace WebServer

/-- The same but for the broadcasts. -/
def withLedger (w : WebServer N) (l : Ledger) : WebServer N :=
  { w with
    broadcastData := l.broadcastData
    toServerQueue := l.toServerQueue
    toProgramQueue := l.toProgramQueue
    centralCommunicationEventfd := l.centralCommunicationEventfd
    received := l.received
    finished := l.finished }

@[simp] theorem withLedger_self : w.withLedger w.ledger = w := rfl

@[simp] theorem ledger_withLedger : (w.withLedger l).ledger = l := rfl

@[simp] theorem withLedger_withLedger : (w.withLedger l).withLedger l' = w.withLedger l' := rfl

theorem killClient_withLedger (w : WebServer N) (l : Ledger) (i : ℕ) :
    (w.withLedger l).killClient i = (w.killClient i).map fun w' => w'.withLedger l := by
  have hclient : (w.withLedger l).tcpClients[i]? = w.tcpClients[i]? := rfl
  have hcache : (w.withLedger l).webCache = w.webCache := rfl
  unfold killClient
  rw [hclient, hcache]
  cases w.tcpClients[i]? with
  | none => rfl
  | some client =>
      dsimp only
      cases w.webCache.finishedWithItem i client with
      | none => rfl
      | some r =>
          by_cases hactive : i ∈ w.activeWebsocketConnectionsClientIdxs
          all_goals simp [setTcpClient, withLedger, hactive]

/-- There is nothing to kill of a client that holds no lock and is no websocket. -/
theorem killClient_eq_self {client : TcpClient} (hclient : w.tcpClients[i]? = some client)
    (hfile : client.usingFile = false) (hall : client.wsClientIdx ∉ w.allWebsocketConnections)
    (hactive : i ∉ w.activeWebsocketConnectionsClientIdxs) : w.killClient i = some w := by
  have hfinished : w.webCache.finishedWithItem i client = some (w.webCache, client) := by
    simp [Cache.finishedWithItem, hfile]
  have hsame : { client with usingFile := false } = client := by rw [← hfile]
  obtain ⟨hlt, hget⟩ := List.getElem?_eq_some_iff.mp hclient
  have hset : w.tcpClients.set i client = w.tcpClients := by rw [← hget, List.set_getElem_self]
  unfold killClient
  rw [hclient]
  dsimp only
  rw [hfinished]
  simp only [Option.map_some, hsame, setTcpClient, hset, if_neg hactive, Finset.erase_eq_of_notMem hall]

/-- A client that is killed holds no lock and is no websocket. -/
theorem killClient_again (h : w.killClient i = some w') : w'.killClient i = some w' := by
  unfold killClient at h
  split at h
  · cases h
  · rename_i client hclient
    obtain ⟨⟨cache, client'⟩, hdone, rfl⟩ := Option.map_eq_some_iff.mp h
    have hidx : client'.wsClientIdx = client.wsClientIdx := Cache.finishedWithItem_wsClientIdx hdone
    have hlt : i < w.tcpClients.length := (List.getElem?_eq_some_iff.mp hclient).1
    refine killClient_eq_self (?_ : _ = some ({ client' with usingFile := false } : TcpClient)) ?_ ?_ ?_
    all_goals dsimp only
    · split <;> simp [setTcpClient, hlt]
    · split <;> simp [hidx]
    · split <;> simp_all

theorem broadcastUsed_of_sufficient {k : ℕ} {item : BroadcastDataItems} (hitem : w.broadcastData[k]? = some item)
    (huses : 0 < item.uses) : w.broadcastUsed k = some (w.withLedger (w.ledger.countDown k item)) := by
  have hnone : (k : ℤ) ≠ -1 := by omega
  have hpos : ¬(k : ℤ) < 0 := by omega
  have hused : item.used = { item with uses := item.uses - 1 } := by
    simp [BroadcastDataItems.used, Nat.pos_iff_ne_zero.mp huses]
  have hlast : item.uses - 1 = 0 ↔ item.uses = 1 := by omega
  simp only [broadcastUsed, if_neg hnone, if_neg hpos, Int.toNat_natCast, hitem, hused, hlast]
  split
  · simp [postMessageToProgram, withLedger, ledger, Ledger.countDown, BroadcastDataItems.report, *]
  · simp [withLedger, ledger, Ledger.countDown, *]

/-- The close callback for each entry of a queue: the client is killed once, and each broadcast entry is
counted down. -/
theorem foldlM_closeCb {wk : WebServer N} (hwk : wk.killClient i = some wk)
    (hkill : w.killClient i = some (wk.withLedger w.ledger)) (henough : Sufficient infos w.broadcastData) :
    ∃ l, (infos ++ [-1]).foldlM (fun w info => closeCb w i info) w = some (wk.withLedger l) ∧
      CountedDown infos w.ledger l := by
  -- The state that the callback has killed the client in can be taken for the one it starts from.
  have hagain : ∀ l, (wk.withLedger l).killClient i = some (wk.withLedger l) := by
    intro l
    rw [killClient_withLedger, hwk]
    rfl
  have hnone : closeCb w i (-1) = some (wk.withLedger w.ledger) := by simp [closeCb, broadcastUsed, hkill]
  induction infos generalizing w with
  | nil => exact ⟨w.ledger, by simp [hnone], countedDown_nil _⟩
  | cons info infos ih =>
      by_cases hinfo : info = -1
      · subst hinfo
        obtain ⟨l, hrest, hcounted⟩ := ih (w := wk.withLedger w.ledger) (hagain _)
          (Sufficient.tail_none (l := w.ledger) henough) (by simp [closeCb, broadcastUsed, hagain])
        refine ⟨l, ?_, hcounted.cons_none⟩
        simpa [hnone] using hrest
      · obtain ⟨item, hpos, hitem, -⟩ := henough info (by simp) hinfo
        obtain ⟨k, rfl⟩ := Int.eq_ofNat_of_zero_le hpos
        rw [Int.toNat_natCast] at hitem
        obtain ⟨hmore, hsufficient⟩ := Sufficient.tail_item (l := w.ledger) hitem henough
        have hone : closeCb w i k = some (wk.withLedger (w.ledger.countDown k item)) := by
          rw [closeCb, broadcastUsed_of_sufficient hitem (by omega), Option.bind_some, killClient_withLedger, hkill]
          rfl
        obtain ⟨l, hrest, hcounted⟩ := ih (w := wk.withLedger (w.ledger.countDown k item)) (hagain _) hsufficient
          (by simp [closeCb, broadcastUsed, hagain])
        refine ⟨l, ?_, hcounted.cons_item hitem hmore⟩
        simpa [hone] using hrest

end WebServer

/-! ### The failed request -/

namespace Machine

variable {σ ε : Type*} {app : App σ ε} {a : σ}

/-- Close callbacks one after the other change the application alone. -/
theorem foldlM_closeCb {m : Machine σ} (h : infos.foldlM (fun a info => app.closeCb a i info) m.app = some a) :
    infos.foldlM (closeCb app i) m = some ⟨m.tcp, a, m.log ++ infos.map (Callback.close i)⟩ := by
  induction infos generalizing m with
  | nil =>
      obtain rfl : m.app = a := by simpa using h
      simp
  | cons info infos ih =>
      rw [List.foldlM_cons] at h
      cases hone : app.closeCb m.app i info with
      | none => simp [hone] at h
      | some a₁ =>
          rw [hone] at h
          have hrest := ih (m := ⟨m.tcp, a₁, m.log ++ [.close i info]⟩) h
          rw [List.foldlM_cons, closeCb, hone]
          simpa using hrest

theorem drainAndClose_idle {m : Machine σ} (hidle : (m.tcp.clients i).numWriteReqs = 0)
    (h : ((m.tcp.clients i).sendData.map WriteData.broadcastInfo ++ [-1]).foldlM
      (fun a info => app.closeCb a i info) m.app = some a) :
    m.drainAndClose .nonTls app i = some ⟨(m.tcp.setQueue i []).freeSlot i, a,
      m.log ++ ((m.tcp.clients i).sendData.map WriteData.broadcastInfo ++ [-1]).map (Callback.close i)⟩ := by
  rw [drainAndClose, foldlM_closeCb h]
  simp [onTcp, TcpServer.closeConnection, hidle]

/-- A slot that is freed has nothing queued and can be handed out again. -/
theorem freed_freeSlot (s : TcpServer) (i : ℕ) : ((s.freeSlot i).clients i).sendData = [] ∧
    i ∈ (s.freeSlot i).freedIndexes ∧ i ∉ (s.freeSlot i).activeConnections := by
  simp [TcpServer.freeSlot]

/-- A failed request that leaves no write request in flight closes the connection. -/
theorem step_failed (app : App σ ε) {m : Machine σ} {c : Completion ε} {sub : Submission}
    (hsub : m.tcp.inflight[c.index]? = some sub) (hrunning : m.tcp.isActive = true)
    (hevent : sub.req.event.OfClient) (hclient : sub.req.clientIdx = some i) (hi : i < m.tcp.numClients)
    (hres : c.res ≤ 0) (hid : (m.tcp.clients i).id = sub.req.ID)
    (hidle : (m.tcp.clients i).numWriteReqs =
      if sub.req.event = .write ∨ sub.req.event = .acceptWrite then 1 else 0)
    (h : ((m.tcp.clients i).sendData.map WriteData.broadcastInfo ++ [-1]).foldlM
      (fun a info => app.closeCb a i info) m.app = some a) :
    ∃ m', step .nonTls app m c = some (m',
        ((m.tcp.clients i).sendData.map WriteData.broadcastInfo ++ [-1]).map (Callback.close i)) ∧
      m'.app = a ∧ (m'.tcp.clients i).sendData = [] ∧ i ∈ m'.tcp.freedIndexes ∧ i ∉ m'.tcp.activeConnections := by
  have hfailed : ∃ m', (m.take c).failed .nonTls app i sub.req.event = some m' ∧
      m'.log = ((m.tcp.clients i).sendData.map WriteData.broadcastInfo ++ [-1]).map (Callback.close i) ∧
      m'.app = a ∧ (m'.tcp.clients i).sendData = [] ∧ i ∈ m'.tcp.freedIndexes ∧ i ∉ m'.tcp.activeConnections := by
    unfold failed closeIfIdle
    split at hidle
    · rw [if_pos ‹_›]
      have hnone : (((m.take c).onTcp fun s => s.endWrite i).tcp.clients i).numWriteReqs = 0 := by
        simp [TcpServer.endWrite, hidle]
      have hqueue : (((m.take c).onTcp fun s => s.endWrite i).tcp.clients i).sendData =
          (m.tcp.clients i).sendData := by simp [TcpServer.endWrite]
      rw [if_pos hnone, drainAndClose_idle hnone (by rw [hqueue]; exact h)]
      exact ⟨_, rfl, by rw [hqueue]; rfl, rfl, freed_freeSlot _ i⟩
    · rw [if_neg ‹_›]
      have hnone : ((m.take c).tcp.clients i).numWriteReqs = 0 := by simpa using hidle
      rw [if_pos hnone, drainAndClose_idle hnone (by simpa using h)]
      exact ⟨_, rfl, by simp, rfl, freed_freeSlot _ i⟩
  obtain ⟨m', hm', hlog, hrest⟩ := hfailed
  refine ⟨m', ?_, hrest⟩
  have hevent' : dispatch .nonTls app (m.take c) sub c = some m' := by
    have hguard : clientEvent .nonTls app (m.take c) sub i c = some m' := by
      have hlt : i < (m.take c).tcp.numClients := hi
      have hsame : ((m.take c).tcp.clients i).id = sub.req.ID := hid
      rw [clientEvent, if_pos hlt, if_pos (Or.inl hres), if_pos ⟨hres, hsame⟩, hm']
    simp only [EventType.OfClient, List.mem_cons, List.not_mem_nil, or_false] at hevent
    rcases hevent with hevent | hevent | hevent | hevent
    all_goals simpa [dispatch, hevent, hclient] using hguard
  simp [step, hsub, hrunning, hevent', hlog]

end Machine

theorem count_broadcastInfo (k : ℕ) (queue : List WriteData) :
    (queue.map WriteData.broadcastInfo).count (k : ℤ) = broadcastsOf k queue := by
  induction queue with
  | nil => rfl
  | cons e queue ih =>
      rw [List.map_cons, List.count_cons, ih, broadcastsOf_cons]
      simp

/-- **A failed request of the plain server.** A request of client `i` completes with a result that is not
positive, its ID is that of the client, and no write request of the client is left after it. The queue of the
client holds any entries, and each item that one of them is a broadcast of has at least as many uses as there
are such entries. Then each item has as many uses less as there were entries for it, and is reported, once,
exactly if these were its last; the queue is empty and the slot is free; and everything else of the web server
is as after one call of `kill_client`, although the close callback ran for each entry and once more. -/
theorem failed_request_cleaned {N : ℕ} (m : Machine (WebServer N)) (c : Completion WebEnv) (sub : Submission) (i : ℕ)
    (hsub : m.tcp.inflight[c.index]? = some sub) (hrunning : m.tcp.isActive = true)
    (hevent : sub.req.event.OfClient) (hclient : sub.req.clientIdx = some i) (hi : i < m.tcp.numClients)
    (hres : c.res ≤ 0) (hid : (m.tcp.clients i).id = sub.req.ID)
    (hidle : (m.tcp.clients i).numWriteReqs =
      if sub.req.event = .write ∨ sub.req.event = .acceptWrite then 1 else 0)
    (wk : WebServer N) (hkill : m.app.killClient i = some wk)
    (huses : Sufficient ((m.tcp.clients i).sendData.map WriteData.broadcastInfo) m.app.broadcastData) :
    let entries (k : ℕ) := broadcastsOf k (m.tcp.clients i).sendData
    ∃ m' new, Machine.step .nonTls (webApp N) m c = some (m',
        ((m.tcp.clients i).sendData.map WriteData.broadcastInfo ++ [-1]).map (Callback.close i)) ∧
      (m'.tcp.clients i).sendData = [] ∧ i ∈ m'.tcp.freedIndexes ∧ i ∉ m'.tcp.activeConnections ∧
      (∀ k : ℕ, m'.app.broadcastData[k]? = (m.app.broadcastData[k]?).map fun item =>
        ({ item with uses := item.uses - entries k } : BroadcastDataItems)) ∧
      (∀ (k : ℕ) item, m.app.broadcastData[k]? = some item → new.filter (fun msg => msg.itemIdx = k) =
        if 0 < entries k ∧ item.uses = entries k then [item.report k] else []) ∧
      (∀ msg ∈ new, msg.itemIdx < m.app.broadcastData.length) ∧
      m'.app = { wk with
        broadcastData := m'.app.broadcastData
        toProgramQueue := wk.toProgramQueue ++ new
        centralCommunicationEventfd := wk.centralCommunicationEventfd + new.length
        finished := wk.finished ++ new.map MessagePostData.itemIdx } := by
  intro entries
  have hledger : wk.ledger = m.app.ledger := (WebServer.killClient_steady hkill).ledger
  have hsame : wk.withLedger m.app.ledger = wk := by rw [← hledger, WebServer.withLedger_self]
  obtain ⟨l, hfold, hcounted⟩ := WebServer.foldlM_closeCb (WebServer.killClient_again hkill)
    (hkill.trans (congrArg some hsame.symm)) huses
  obtain ⟨m', hstep, happ, hqueue, hfreed, hclosed⟩ :=
    Machine.step_failed (webApp N) hsub hrunning hevent hclient hi hres hid hidle hfold
  obtain ⟨new, hreports, hfd, hfinished, hlisted, hnew⟩ := hcounted.reports
  refine ⟨m', new, hstep, hqueue, hfreed, hclosed, fun k => ?_, fun k item hitem => ?_, hlisted, ?_⟩
  · rw [happ]
    have huses' := hcounted.uses k
    rw [count_broadcastInfo] at huses'
    exact huses'
  · have hnew' := hnew k item hitem
    rwa [count_broadcastInfo] at hnew'
  · have hl : l = ⟨l.broadcastData, wk.toServerQueue, wk.toProgramQueue ++ new,
        wk.centralCommunicationEventfd + new.length, wk.received,
        wk.finished ++ new.map MessagePostData.itemIdx⟩ := by
      have hserver : l.toServerQueue = wk.ledger.toServerQueue := by rw [hcounted.received.1, hledger]
      have hgot : l.received = wk.ledger.received := by rw [hcounted.received.2, hledger]
      rw [← hledger] at hreports hfd hfinished
      cases l
      simp only at hserver hreports hfd hgot hfinished
      subst hserver hreports hfd hgot hfinished
      rfl
    rw [happ]
    exact congrArg wk.withLedger hl

/-- The write of the first entry of a queue with entries of all kinds: a vector, a pointer, two broadcasts of
item 0, which has no other uses, and one of item 1, which has. -/
def mixedQueue : Machine (WebServer 1) where
  tcp :=
    { clients := fun _ =>
        { sendData :=
            [{ buff := [1, 2] }, { broadcast := true, ptrBuff := .item 3 }, { ptrBuff := .cached 0, totalLength := 4 },
              { broadcast := true, ptrBuff := .item 3 }, { broadcast := true, ptrBuff := .item 5, customInfo := 1 }]
          numWriteReqs := 1 }
      numClients := 1
      activeConnections := {0}
      inflight := [{ req := { event := .write, clientIdx := some 0 } }] }
  app :=
    { inotifyFd := 9
      tcpClients := [{ wsClientIdx := 0 }]
      allWebsocketConnections := {0}
      activeWebsocketConnectionsClientIdxs := {0}
      broadcastData := [{ buffPtr := .item 3, dataLen := 7, uses := 2 }, { buffPtr := .item 5, uses := 3 }] }

theorem failed_request_cleaned_mixed :
    ∃ m' log new, Machine.step .nonTls (webApp 1) mixedQueue { index := 0, res := -32, env := {} } = some (m', log) ∧
      (m'.tcp.clients 0).sendData = [] ∧ 0 ∈ m'.tcp.freedIndexes ∧ m'.app.toProgramQueue = new ∧
      new.filter (fun msg => msg.itemIdx = 0) =
        [BroadcastDataItems.report { buffPtr := .item 3, dataLen := 7, uses := 2 } 0] := by
  have huses : Sufficient ((mixedQueue.tcp.clients 0).sendData.map WriteData.broadcastInfo)
      mixedQueue.app.broadcastData := by
    have hinfos : (mixedQueue.tcp.clients 0).sendData.map WriteData.broadcastInfo = [-1, 0, -1, 0, 1] := by decide
    rw [hinfos]
    intro k hk hne
    obtain rfl | rfl : k = 0 ∨ k = 1 := by
      simp only [List.mem_cons, List.not_mem_nil, or_false] at hk
      omega
    · exact ⟨{ buffPtr := .item 3, dataLen := 7, uses := 2 }, by decide, rfl, by decide⟩
    · exact ⟨{ buffPtr := .item 5, uses := 3 }, by decide, rfl, by decide⟩
  obtain ⟨wk, hkill⟩ := Option.isSome_iff_exists.mp (by decide : (mixedQueue.app.killClient 0).isSome = true)
  obtain ⟨m', new, hstep, hqueue, hfreed, -, -, hnew, -, happ⟩ :=
    failed_request_cleaned mixedQueue { index := 0, res := -32, env := {} }
      { req := { event := .write, clientIdx := some 0 } } 0 rfl rfl (by decide) rfl (by decide) (by decide) rfl rfl wk
      hkill huses
  refine ⟨m', _, new, hstep, hqueue, hfreed, ?_, (hnew 0 _ rfl).trans (by decide)⟩
  have hempty : wk.toProgramQueue = [] := congrArg Ledger.toProgramQueue (WebServer.killClient_steady hkill).ledger
  have hprogram := congrArg WebServer.toProgramQueue happ
  rw [hprogram]
  show wk.toProgramQueue ++ new = new
  rw [hempty, List.nil_append]

end LiburingServer
