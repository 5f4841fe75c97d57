import LiburingServer.WebFrame
import LiburingServer.TcpBroadcasts
import LiburingServer.TcpOccupants
import LiburingServer.Lib.UseCount

/-! The broadcasts of one server thread. An item that the central thread has posted is received by
`event_cb`, queued for every active websocket and counted in `broadcast_data`; each entry that is taken
off a queue is counted down by the write or the close callback, and the last one reports the item as
finished. An entry whose slot is freed or handed out is lost: it is not counted down. -/

namespace LiburingServer

open UseCount

variable {N : ℕ}

/-- The use count of item `k`, if it is listed. -/
def usesOf (data : List BroadcastDataItems) (k : ℕ) : ℕ := (data[k]?.getD {}).uses

section

variable {data : List BroadcastDataItems} {d : BroadcastDataItems} {k i : ℕ}

theorem usesOf_eq (h : data[k]? = some d) : usesOf data k = d.uses := by simp [usesOf, h]

theorem usesOf_set_self (h : k < data.length) : usesOf (data.set k d) k = d.uses := by simp [usesOf, h]

theorem usesOf_set_of_ne (h : i ≠ k) : usesOf (data.set i d) k = usesOf data k := by
  rw [usesOf, List.getElem?_set_ne h, usesOf]

/-- A vector that is resized reads as before. -/
theorem usesOf_resized (n : ℕ) :
    usesOf (data ++ List.replicate n ({} : BroadcastDataItems)) k = usesOf data k := by
  unfold usesOf
  rw [List.getElem?_append]
  split
  · rfl
  · rw [List.getElem?_eq_none (l := data) (by omega), List.getElem?_replicate]
    split <;> rfl

end

/-- The account of item `k`, for which `held` entries are queued. -/
def Ledger.account (l : Ledger) (held k : ℕ) : Account where
  inbox := l.toServerQueue.countP fun msg => msg.itemIdx = k
  held := held
  uses := usesOf l.broadcastData k
  outbox := l.toProgramQueue.countP fun msg => msg.itemIdx = k
  received := l.received.count k
  finished := l.finished.count k

/-- What holds while a server thread handles an event: whether no entry is ever lost, under which
pointers items may be used, how often each of them is out with the thread, the messages that were posted
to it, its reports and the eventfd when it began, and the broadcast entries of its clients then. -/
structure Terms where
  exact : Prop
  valid : ℕ → Ptr → Prop
  owed : ℕ → ℕ
  posted : List MessagePostData
  reports : List MessagePostData
  counter : ℕ
  entries : ℕ → List WriteData

/-- The web server knows of every item, given how many entries are queued for it. -/
structure LedgerInv (t : Terms) (w : WebServer N) (held : ℕ → ℕ) : Prop where
  balanced : ∀ k, Balanced t.exact (t.owed k) (w.ledger.account (held k) k)
  listed : ∀ k, held k ≠ 0 → k < w.broadcastData.length
  noneClosing : w.NoneClosing
  posted : w.toServerQueue = t.posted
  told : ∃ new, w.toProgramQueue = t.reports ++ new ∧
    w.centralCommunicationEventfd = t.counter + new.length

/-- The web server knows of the entries in the queues. -/
structure BroadcastInv (t : Terms) (T : ServerType) (s : TcpServer) (w : WebServer N) : Prop where
  ledger : LedgerInv t w s.broadcasts
  queues : s.EntryInv T t.valid t.entries

theorem TcpCall.Mild.plain {c : TcpCall} (h : c.Mild) : c.Plain := by
  cases c with
  | writeConnectionPtr i buff length => exact h
  | _ => simp_all [Mild, Plain]

/-- What counting an entry down does: nothing for what is no broadcast, and else one use less, with a
report if none is left. -/
theorem WebServer.broadcastUsed_cases {w w' : WebServer N} {info : ℤ} (h : w.broadcastUsed info = some w') :
    (info = -1 ∧ w' = w) ∨ ∃ (item : ℕ) (d : BroadcastDataItems) (w₁ : WebServer N), info = item ∧
      w.broadcastData[item]? = some d ∧
      w₁ = { w with broadcastData := w.broadcastData.set item d.used } ∧
      ((d.used.uses = 0 ∧ w' = w₁.postMessageToProgram d.buffPtr d.dataLen item) ∨
        (d.used.uses ≠ 0 ∧ w' = w₁)) := by
  unfold broadcastUsed at h
  split at h
  · exact Or.inl ⟨‹_›, (Option.some.inj h).symm⟩
  · split at h
    · cases h
    · split at h
      · cases h
      · rename_i d hd
        refine Or.inr ⟨info.toNat, d, _, by omega, hd, rfl, ?_⟩
        rw [← Option.some.inj h]
        split
        · exact Or.inl ⟨‹_›, rfl⟩
        · exact Or.inr ⟨‹_›, rfl⟩

/-! ### The ledger -/

namespace LedgerInv

variable {t : Terms} {w w' : WebServer N} {held held' : ℕ → ℕ} {info : ℤ} {i : ℕ}

theorem congr (h : LedgerInv t w held) (hledger : w'.ledger = w.ledger) (hclosing : w'.NoneClosing) :
    LedgerInv t w' held := by
  have hdata : w'.broadcastData = w.broadcastData := congrArg Ledger.broadcastData hledger
  have hposted : w'.toServerQueue = w.toServerQueue := congrArg Ledger.toServerQueue hledger
  have hqueue : w'.toProgramQueue = w.toProgramQueue := congrArg Ledger.toProgramQueue hledger
  have hfd : w'.centralCommunicationEventfd = w.centralCommunicationEventfd :=
    congrArg Ledger.centralCommunicationEventfd hledger
  refine ⟨fun k => ?_, fun k => ?_, hclosing, hposted.trans h.posted, ?_⟩
  · rw [hledger]
    exact h.balanced k
  · rw [hdata]
    exact h.listed k
  · rw [hfd, hqueue]
    exact h.told

theorem steady (h : LedgerInv t w held) (hs : w.Steady w') : LedgerInv t w' held :=
  h.congr hs.ledger (hs.noneClosing h.noneClosing)

theorem withEntries (h : LedgerInv t w held) (entries : ℕ → List WriteData) :
    LedgerInv { t with entries } w held := ⟨h.balanced, h.listed, h.noneClosing, h.posted, h.told⟩

/-- A report comes with a write to the eventfd. -/
theorem told_post {reports : List MessagePostData} {counter : ℕ}
    (h : ∃ new, w.toProgramQueue = reports ++ new ∧ w.centralCommunicationEventfd = counter + new.length)
    (buffPtr : Ptr) (length itemIdx : ℕ) :
    ∃ new, (w.postMessageToProgram buffPtr length itemIdx).toProgramQueue = reports ++ new ∧
      (w.postMessageToProgram buffPtr length itemIdx).centralCommunicationEventfd = counter + new.length := by
  obtain ⟨new, hqueue, hfd⟩ := h
  refine ⟨new ++ [{ msgType := .broadcastFinished, buffPtr, length, itemIdx, additionalInfo := 2 ^ 64 - 1 }], ?_, ?_⟩
  · simp only [WebServer.postMessageToProgram, hqueue, List.append_assoc]
  · simp only [WebServer.postMessageToProgram, hfd, List.length_append, List.length_singleton]
    omega

/-- Entries are lost. -/
theorem lose (h : LedgerInv t w held) (hle : ∀ k, held' k ≤ held k)
    (hexact : t.exact → ∀ k, held' k = held k) : LedgerInv t w held' := by
  refine ⟨fun k => (h.balanced k).lose (hle k) fun he => hexact he k, fun k hk => ?_, h.noneClosing, h.posted,
    h.told⟩
  have := hle k
  exact h.listed k (by omega)

/-- An entry was taken off its queue and is counted down. -/
theorem used (h : LedgerInv t w fun k => held k + if info = (k : ℤ) then 1 else 0)
    (hused : w.broadcastUsed info = some w') : LedgerInv t w' held := by
  rcases WebServer.broadcastUsed_cases hused with ⟨hnone, rfl⟩ | ⟨item, d, w₁, hinfo, hd, hw₁, hw'⟩
  · have hsame : (fun k : ℕ => held k + if info = (k : ℤ) then 1 else 0) = held := by
      funext k
      rw [if_neg (by omega), Nat.add_zero]
    exact hsame ▸ h
  have hlt : item < w.broadcastData.length := (List.getElem?_eq_some_iff.mp hd).1
  have hitem : Balanced t.exact (t.owed item) (w.ledger.account (held item + 1) item) := by
    simpa [hinfo] using h.balanced item
  have hcovered : held item + 1 ≤ d.uses := by
    simpa [Ledger.account, WebServer.ledger, usesOf_eq hd] using hitem.covered
  -- the counter covers the entry, so it does not wrap
  have huses : d.used.uses = d.uses - 1 := by
    simp only [BroadcastDataItems.used]
    rw [if_neg (by omega)]
  have hother : ∀ k, k ≠ item → Balanced t.exact (t.owed k) (w.ledger.account (held k) k) := by
    intro k hk
    have := h.balanced k
    rwa [if_neg (by omega), Nat.add_zero] at this
  have hlisted : ∀ k, held k ≠ 0 → k < w.broadcastData.length := fun k hk => h.listed k (by omega)
  have hbalanced := hitem.use (by simp [Ledger.account])
  rw [huses] at hw'
  rcases hw' with ⟨hzero, rfl⟩ | ⟨hmore, rfl⟩
  · have hone : d.uses = 1 := by omega
    refine ⟨fun k => ?_, fun k hk => ?_, ?_, ?_, ?_⟩
    · by_cases hk : k = item
      · subst hk
        simpa [Account.use, Ledger.account, WebServer.ledger, WebServer.postMessageToProgram, usesOf_eq hd, hw₁,
          usesOf_set_self hlt, huses, hone] using hbalanced
      · simpa [Ledger.account, WebServer.ledger, WebServer.postMessageToProgram, hw₁, Ne.symm hk,
          usesOf_set_of_ne (Ne.symm hk)] using hother k hk
    · simpa [WebServer.postMessageToProgram, hw₁] using hlisted k hk
    · rw [hw₁]
      exact h.noneClosing
    · rw [hw₁]
      exact h.posted
    · rw [hw₁]
      exact told_post h.told _ _ _
  · refine ⟨fun k => ?_, fun k hk => ?_, ?_, ?_, ?_⟩
    · by_cases hk : k = item
      · subst hk
        have hone : d.uses ≠ 1 := by omega
        simpa [Account.use, Ledger.account, WebServer.ledger, usesOf_eq hd, hw₁, usesOf_set_self hlt, huses, hone]
          using hbalanced
      · simpa [Ledger.account, WebServer.ledger, hw₁, usesOf_set_of_ne (Ne.symm hk)] using hother k hk
    · simpa [hw₁] using hlisted k hk
    · rw [hw₁]
      exact h.noneClosing
    · rw [hw₁]
      exact h.posted
    · rw [hw₁]
      exact h.told

theorem closeCb (h : LedgerInv t w fun k => held k + if info = (k : ℤ) then 1 else 0)
    (hclose : w.closeCb i info = some w') : LedgerInv t w' held := by
  obtain ⟨w₁, hused, hsteady⟩ := WebServer.closeCb_cases hclose
  exact (h.used hused).steady hsteady

/-- A message is taken from the queue: its item is broadcast to the active websockets, or reported as
finished if there are none. -/
theorem eventCb {msg : MessagePostData} {rest : List MessagePostData} (env : WebEnv)
    (h : LedgerInv { t with posted := msg :: rest } w held) :
    LedgerInv { t with posted := rest } (w.eventCb env).1 fun k =>
      held k + if msg.itemIdx = k then w.activeWebsocketConnectionsClientIdxs.card else 0 := by
  have hqueue : w.toServerQueue = msg :: rest := h.posted
  have hitem : Balanced t.exact (t.owed msg.itemIdx)
      ((w.ledger.account (held msg.itemIdx) msg.itemIdx).receive
        w.activeWebsocketConnectionsClientIdxs.card) := by
    refine (h.balanced msg.itemIdx).receive ?_ _
    simp [Ledger.account, WebServer.ledger, hqueue]
  have htold := h.told
  have hlisted : ∀ k, held k ≠ 0 → k < w.broadcastData.length := h.listed
  unfold WebServer.eventCb
  simp only [hqueue, List.headD_cons, List.tail_cons]
  have hread : ∀ k, usesOf (w.broadcastData ++ List.replicate (msg.itemIdx + 1 - w.broadcastData.length)
      ({} : BroadcastDataItems)) k = usesOf w.broadcastData k := fun k => usesOf_resized _
  have hlength : w.broadcastData.length ≤ (w.broadcastData ++ List.replicate
      (msg.itemIdx + 1 - w.broadcastData.length) ({} : BroadcastDataItems)).length := by simp
  have hlong : msg.itemIdx < (w.broadcastData ++ List.replicate
      (msg.itemIdx + 1 - w.broadcastData.length) ({} : BroadcastDataItems)).length := by
    simp only [List.length_append, List.length_replicate]
    omega
  generalize w.broadcastData ++ List.replicate (msg.itemIdx + 1 - w.broadcastData.length)
    ({} : BroadcastDataItems) = data at hread hlength hlong ⊢
  split
  · rename_i hsome
    have hcard : w.activeWebsocketConnectionsClientIdxs.card ≠ 0 := Finset.card_ne_zero.mpr hsome
    refine ⟨fun k => ?_, fun k hk => ?_, h.noneClosing, rfl, htold⟩
    · by_cases hk : msg.itemIdx = k
      · subst hk
        simpa [Account.receive, Ledger.account, WebServer.ledger, hqueue, hcard,
          usesOf_set_self hlong] using hitem
      · simpa [Ledger.account, WebServer.ledger, hqueue, hk, usesOf_set_of_ne hk, hread]
          using h.balanced k
    · rw [List.length_set]
      by_cases hitem : msg.itemIdx = k
      · exact hitem ▸ hlong
      · rw [if_neg hitem, Nat.add_zero] at hk
        exact (hlisted k hk).trans_le hlength
  · rename_i hnone
    have hcard : w.activeWebsocketConnectionsClientIdxs.card = 0 := by
      simpa [Finset.not_nonempty_iff_eq_empty] using hnone
    refine ⟨fun k => ?_, fun k hk => ?_, h.noneClosing, rfl, ?_⟩
    · by_cases hk : msg.itemIdx = k
      · subst hk
        simpa [Account.receive, Ledger.account, WebServer.ledger, WebServer.postMessageToProgram, hqueue, hcard,
          hread] using hitem
      · simpa [Ledger.account, WebServer.ledger, WebServer.postMessageToProgram, hqueue, hk, hread]
          using h.balanced k
    · rw [hcard, ite_self, Nat.add_zero] at hk
      exact (hlisted k hk).trans_le hlength
    · exact told_post htold _ _ _

end LedgerInv

/-! ### Callbacks and calls -/

namespace BroadcastInv

open TcpServer

variable {t : Terms} {T : ServerType} {s s' : TcpServer} {w w' : WebServer N} {i : ℕ} {env : WebEnv}

theorem calm (h : BroadcastInv t T s w) (hs : Calm T s s') : BroadcastInv t T s' w :=
  ⟨hs.broadcasts ▸ h.ledger, hs.entryInv h.queues⟩

theorem steady (h : BroadcastInv t T s w) (hw : w.Steady w') : BroadcastInv t T s w' :=
  ⟨h.ledger.steady hw, h.queues⟩

theorem plain {cs : List TcpCall} (h : BroadcastInv t T s w) (hcs : ∀ c ∈ cs, c.Plain)
    (hcalls : s.calls T cs = some s') : BroadcastInv t T s' w := by
  obtain ⟨hqueues, hsame⟩ := calls_plain hcalls hcs h.queues
  exact ⟨hsame ▸ h.ledger, hqueues⟩

/-- A connection is closed, and the broadcast entries of its queue are lost. -/
theorem closed (h : BroadcastInv t T s w)
    (hkeeps : t.exact → (s.clients i).numWriteReqs = 0 → NoBroadcasts (s.clients i).sendData)
    (hcalls : s.calls T [.closeConnection i] = some s') : BroadcastInv t T s' w := by
  obtain ⟨hslots, rfl⟩ := calls_singleton hcalls
  have hi : i < s.numClients := hslots i (by simp [TcpCall.slots])
  rw [TcpServer.run]
  refine ⟨h.ledger.lose (fun k => ?_) (fun hexact k => ?_), h.queues.closeConnection⟩
  · rw [closeConnection_broadcasts hi, broadcasts_eq hi]
    split <;> omega
  · rw [closeConnection_broadcasts hi, broadcasts_eq hi]
    split
    · rw [(hkeeps hexact ‹_›).broadcastsOf_eq_zero, Nat.add_zero]
    · rfl

theorem readCb {buffer : Bytes} {r : WebServer N × List TcpCall} (h : BroadcastInv t T s w)
    (hkeeps : t.exact → i ∉ w.activeWebsocketConnectionsClientIdxs → (s.clients i).numWriteReqs = 0 →
      NoBroadcasts (s.clients i).sendData)
    (hcb : w.readCb env i buffer = some r) (hcalls : s.calls T r.2 = some s') :
    BroadcastInv t T s' r.1 := by
  rcases WebServer.readCb_cases hcb with hkeep | ⟨p, -, hreads⟩ | ⟨hsteady, hcs, -, hinactive⟩
  · exact (h.plain (fun c hc => (hkeep.calls c hc).plain) hcalls).steady hkeep.steady
  · obtain ⟨fd, size, buff, amount, rest, hcs, hrest⟩ := hreads.calls
    have hplain : ∀ c ∈ r.2, c.Plain := by
      rw [hcs]
      intro c hc
      rcases List.mem_cons.mp hc with rfl | hc
      · trivial
      · exact (hrest c hc).plain
    obtain ⟨hledger, hqueues⟩ := h.plain hplain hcalls
    exact ⟨hledger.congr hreads.ledger (hreads.noneClosing h.ledger.noneClosing), hqueues⟩
  · rw [hcs] at hcalls
    exact (h.closed (fun hexact => hkeeps hexact hinactive) hcalls).steady hsteady

/-- The write callback, for an entry that was taken off its queue. -/
theorem writeCb {info : ℤ} {r : WebServer N × List TcpCall}
    (hledger : LedgerInv t w fun k => s.broadcasts k + if info = (k : ℤ) then 1 else 0)
    (hqueues : s.EntryInv T t.valid t.entries)
    (hkeeps : t.exact → w.NoWebsocket i → (s.clients i).numWriteReqs = 0 →
      NoBroadcasts (s.clients i).sendData)
    (hcb : w.writeCb i info = some r) (hcalls : s.calls T r.2 = some s') : BroadcastInv t T s' r.1 := by
  obtain ⟨w₁, hused, hsteady, hcs⟩ := WebServer.writeCb_cases hcb
  have hcounted : BroadcastInv t T s w₁ := ⟨hledger.used hused, hqueues⟩
  rcases hcs with hcs | ⟨hclosing, -⟩ | ⟨hnone, hcs⟩
  · rw [hcs] at hcalls
    exact (hcounted.plain (by simp) hcalls).steady hsteady
  · exact absurd hledger.noneClosing hclosing
  · rw [hcs] at hcalls
    exact (hcounted.closed (fun hexact => hkeeps hexact hnone) hcalls).steady hsteady

theorem customReadCb {clientIdx : Option ℕ} {fd : ℤ} {buff : Bytes} {r : WebServer N × List TcpCall}
    (h : BroadcastInv t T s w) (hcb : w.customReadCb env clientIdx fd buff = some r)
    (hcalls : s.calls T r.2 = some s') : BroadcastInv t T s' r.1 := by
  rcases WebServer.customReadCb_cases hcb with ⟨-, hsteady, hcs⟩ | ⟨-, j, p, -, -, hsteady, -, hcs⟩
  · exact (h.plain (by simp [hcs, TcpCall.Plain]) hcalls).steady hsteady
  · have hplain : ∀ c ∈ r.2, c.Plain := by
      rcases hcs with ⟨ptr, size, hcs, hptr⟩ | hcs
      · simpa [hcs, TcpCall.Plain] using hptr
      · simp [hcs, TcpCall.Plain]
    obtain ⟨⟨hbalanced, hlisted, hclosing, hposted, htold⟩, hqueues⟩ :=
      (h.plain hplain hcalls).steady hsteady
    exact ⟨⟨hbalanced, hlisted, hclosing, hposted, htold⟩, hqueues⟩

/-- The event callback queues as many entries as it counts. -/
theorem eventCb {msg : MessagePostData} {rest : List MessagePostData} (env : WebEnv)
    (h : BroadcastInv { t with posted := msg :: rest } T s w) (hvalid : t.valid msg.itemIdx msg.buffPtr)
    (hcalls : s.calls T (w.eventCb env).2 = some s') :
    BroadcastInv { t with posted := rest, entries := s'.broadcastEntries } T s' (w.eventCb env).1 := by
  have hledger := (h.ledger.eventCb env).withEntries s'.broadcastEntries
  have hqueue : w.toServerQueue = msg :: rest := h.ledger.posted
  by_cases hsome : w.activeWebsocketConnectionsClientIdxs.Nonempty
  · have hcs : (w.eventCb env).2 = [.broadcastMessage
        (visitOrder w.activeWebsocketConnectionsClientIdxs env.order) msg.buffPtr msg.length msg.itemIdx] := by
      simp [WebServer.eventCb, hqueue, hsome]
    rw [hcs] at hcalls
    obtain ⟨hidxs, hs'⟩ := calls_singleton hcalls
    simp only [TcpServer.run, TcpCall.slots] at hs' hidxs
    have hcount : s'.broadcasts = fun k => s.broadcasts k +
        if msg.itemIdx = k then w.activeWebsocketConnectionsClientIdxs.card else 0 := by
      funext k
      rw [hs', broadcastMessage_broadcasts hidxs, length_visitOrder]
    refine ⟨hcount ▸ hledger, ?_⟩
    rw [hs']
    exact h.queues.broadcastMessage _ hvalid _
  · have hcs : (w.eventCb env).2 = [] := by simp [WebServer.eventCb, hqueue, hsome]
    have hcard : w.activeWebsocketConnectionsClientIdxs.card = 0 := by
      simpa [Finset.not_nonempty_iff_eq_empty] using hsome
    obtain rfl : s = s' := by simpa [hcs, calls] using hcalls
    simp only [hcard, ite_self, Nat.add_zero] at hledger
    exact ⟨hledger, h.queues.refl⟩

end BroadcastInv

/-! ### The event loop -/

namespace Machine

open TcpServer

variable {t : Terms} {T : ServerType} {m m' : Machine (WebServer N)} {n i : ℕ} {env : WebEnv} {info : ℤ}

/-- The queue that slot `i` goes on with when something was written, unless a write request is in flight
then: it is dropped if the connection is closed. -/
def afterWrite (T : ServerType) (s : TcpServer) (sub : Submission) (i : ℕ) : List WriteData :=
  let client := s.clients i
  match T with
  | .tls => if client.numWriteReqs ≤ 1 then client.sendData.tail else []
  | .nonTls =>
      if i ∈ s.activeConnections ∧ client.id = sub.req.ID then
        if client.numWriteReqs = 0 then client.sendData.tail else []
      else if client.numWriteReqs = 1 then client.sendData else []

/-- Handling a completed request of slot `i` loses no broadcast entry. If the connection is no active
websocket and has sent something, it has no broadcast entries or a write request in flight. If something
was written and the connection is no websocket, or no longer one, then the queue that it goes on with has
no broadcast entries or a write request in flight. -/
structure HandlerKeeps (T : ServerType) (m : Machine (WebServer N)) (sub : Submission) (i : ℕ) : Prop where
  read : sub.req.event = .read ∨ sub.req.event = .acceptRead →
    i ∉ m.app.activeWebsocketConnectionsClientIdxs → (m.tcp.clients i).numWriteReqs ≤ 0 →
    NoBroadcasts (m.tcp.clients i).sendData
  write : sub.req.event = .write → m.app.NoWebsocket i → NoBroadcasts (afterWrite T m.tcp sub i)

/-- No broadcast entry is lost when the completion is handled: an accept does not hand out a slot with
broadcast entries, and the handlers of the requests of a client lose none. -/
def KeepsBroadcasts (T : ServerType) (m : Machine (WebServer N)) (c : Completion WebEnv) : Prop :=
  ∀ sub, m.tcp.inflight[c.index]? = some sub →
    (sub.req.event = .accept → ∀ h : m.tcp.freedIndexes.Nonempty,
      NoBroadcasts (m.tcp.clients (m.tcp.freedIndexes.min' h)).sendData) ∧
    ∀ i, sub.req.clientIdx = some i → 0 < c.res → m.HandlerKeeps T sub i

instance (m : Machine (WebServer N)) (sub : Submission) : Decidable (m.HandlerKeeps T sub i) :=
  decidable_of_iff
    ((sub.req.event = .read ∨ sub.req.event = .acceptRead →
        i ∉ m.app.activeWebsocketConnectionsClientIdxs → (m.tcp.clients i).numWriteReqs ≤ 0 →
        NoBroadcasts (m.tcp.clients i).sendData) ∧
      (sub.req.event = .write → m.app.NoWebsocket i → NoBroadcasts (afterWrite T m.tcp sub i)))
    ⟨fun h => ⟨h.1, h.2⟩, fun h => ⟨h.read, h.write⟩⟩

instance (m : Machine (WebServer N)) (c : Completion WebEnv) : Decidable (m.KeepsBroadcasts T c) :=
  inferInstanceAs (Decidable (∀ sub ∈ m.tcp.inflight[c.index]?,
    (sub.req.event = .accept → ∀ h : m.tcp.freedIndexes.Nonempty,
      NoBroadcasts (m.tcp.clients (m.tcp.freedIndexes.min' h)).sendData) ∧
    ∀ i ∈ sub.req.clientIdx, 0 < c.res → m.HandlerKeeps T sub i))

theorem broadcastInv_readCb {buffer : Bytes} (h : BroadcastInv t T m.tcp m.app)
    (hkeeps : t.exact → i ∉ m.app.activeWebsocketConnectionsClientIdxs →
      (m.tcp.clients i).numWriteReqs = 0 → NoBroadcasts (m.tcp.clients i).sendData)
    (hcb : m.readCb T (webApp N) env i buffer = some m') : BroadcastInv t T m'.tcp m'.app := by
  obtain ⟨a, cs, hresult, hcalls, rfl, -⟩ := callback_eq_some hcb
  exact h.readCb hkeeps hresult hcalls

theorem broadcastInv_writeCb
    (hledger : LedgerInv t m.app fun k => m.tcp.broadcasts k + if info = (k : ℤ) then 1 else 0)
    (hqueues : m.tcp.EntryInv T t.valid t.entries)
    (hkeeps : t.exact → m.app.NoWebsocket i → (m.tcp.clients i).numWriteReqs = 0 →
      NoBroadcasts (m.tcp.clients i).sendData)
    (hcb : m.writeCb T (webApp N) env i info = some m') : BroadcastInv t T m'.tcp m'.app := by
  obtain ⟨a, cs, hresult, hcalls, rfl, -⟩ := callback_eq_some hcb
  exact BroadcastInv.writeCb hledger hqueues hkeeps hresult hcalls

/-- The close callbacks for the entries of a queue count all of them down. -/
theorem ledgerInv_closeCbs {queue : List WriteData} {held : ℕ → ℕ}
    (h : LedgerInv t m.app fun k => held k + broadcastsOf k queue)
    (hfold : (queue.map WriteData.broadcastInfo ++ [-1]).foldlM (closeCb (webApp N) i) m = some m') :
    LedgerInv t m'.app held := by
  induction queue generalizing m with
  | nil =>
      obtain ⟨a, ha, rfl⟩ : ∃ a, m.app.closeCb i (-1) = some a ∧ _ := by
        simpa [closeCb, webApp, Option.map_eq_some_iff] using hfold
      refine LedgerInv.closeCb ?_ ha
      have hnone : ∀ k : ℕ, ¬(-1 : ℤ) = k := fun k => by omega
      simpa only [hnone, if_false, broadcastsOf_nil] using h
  | cons e queue ih =>
      rw [List.map_cons, List.cons_append, List.foldlM_cons] at hfold
      obtain ⟨m₁, hm₁, hrest⟩ := Option.bind_eq_some_iff.mp hfold
      obtain ⟨a, ha, rfl⟩ := Option.map_eq_some_iff.mp hm₁
      have hcounted : LedgerInv t a fun k => held k + broadcastsOf k queue := by
        refine LedgerInv.closeCb ?_ ha
        simpa only [broadcastsOf_cons, Nat.add_assoc] using h
      exact ih hcounted hrest

theorem broadcastInv_drainAndClose (h : BroadcastInv t T m.tcp m.app) (hi : i < m.tcp.numClients)
    (hclose : m.drainAndClose T (webApp N) i = some m') : BroadcastInv t T m'.tcp m'.app := by
  have htcp := drainAndClose_tcp hclose
  obtain ⟨m₁, hm₁, rfl⟩ := Option.map_eq_some_iff.mp hclose
  have hlt : i < (m.tcp.setQueue i []).numClients := hi
  have hcount : ((m.tcp.setQueue i []).closeConnection T i).broadcasts = fun k =>
      m.tcp.broadcastsElsewhere i k := by
    funext k
    rw [closeConnection_broadcasts hlt]
    split
    · exact broadcastsElsewhere_congr rfl fun j hj => setQueue_of_ne _ _ _ _ hj
    · rw [broadcasts_setQueue hi, broadcastsOf_nil, Nat.add_zero]
  refine ⟨?_, ?_⟩
  · rw [htcp, hcount]
    show LedgerInv t m₁.app _
    refine ledgerInv_closeCbs ?_ hm₁
    have hsplit : m.tcp.broadcasts = fun k =>
        m.tcp.broadcastsElsewhere i k + broadcastsOf k (m.tcp.clients i).sendData :=
      funext fun k => broadcasts_eq hi
    exact hsplit ▸ h.ledger
  · rw [htcp]
    exact (h.queues.setQueue_suffix List.nil_suffix).closeConnection

theorem broadcastInv_customRead {sub : Submission} {res : ℤ} {data : Bytes}
    (h : BroadcastInv t T m.tcp m.app) (hsub : sub.Placed T) (hevent : sub.req.event = .customRead)
    (hhandled : m.customRead T (webApp N) env sub res data = some m') : BroadcastInv t T m'.tcp m'.app := by
  refine customRead_rule hhandled (R := fun x => BroadcastInv t T x.tcp x.app) (fun _ hfinished => ?_)
    (fun _ _ => h.calm (calm_submit fun serial haddr => ?_))
  · obtain ⟨a, cs, hresult, hcalls, rfl, -⟩ := callback_eq_some hfinished
    have hcalm : ∀ reads, Calm T m.tcp { m.tcp with finishedReads := reads } :=
      fun reads => ⟨fun _ => rfl, rfl, fun _ => Or.inl⟩
    exact BroadcastInv.customReadCb (h.calm (hcalm _)) hresult hcalls
  · obtain ⟨-, i, hwrite, -⟩ := hsub serial haddr
    simp [hevent] at hwrite

theorem ledgerInv_acceptCb {w a : WebServer N} {held : ℕ → ℕ} (h : LedgerInv t w held)
    (ha : (webApp N).acceptCb w i = some a) : LedgerInv t a held := by
  obtain rfl := Option.some.inj ha
  exact h.congr rfl h.noneClosing

/-- A slot is handed out. -/
theorem broadcastInv_setupClient {s : TcpServer} {w : WebServer N} (h : BroadcastInv t T s w)
    (hslots : OccupantInv n s) (sockfd : ℤ)
    (hkeeps : t.exact → ∀ hne : s.freedIndexes.Nonempty,
      NoBroadcasts (s.clients (s.freedIndexes.min' hne)).sendData) :
    BroadcastInv t T (s.setupClient sockfd).1 w := by
  have hfreed : ∀ i ∈ s.freedIndexes, i < s.numClients := fun i hi => hslots.num.symm ▸ hslots.freed i hi
  refine ⟨h.ledger.lose (fun k => ?_) (fun hexact k => ?_), h.queues.setupClient sockfd⟩
  · rw [setupClient_broadcasts sockfd hfreed]
    split
    · rename_i hne
      rw [broadcasts_eq (hfreed _ (Finset.min'_mem _ hne))]
      omega
    · exact le_rfl
  · rw [setupClient_broadcasts sockfd hfreed]
    split
    · rename_i hne
      rw [broadcasts_eq (hfreed _ (Finset.min'_mem _ hne)), (hkeeps hexact hne).broadcastsOf_eq_zero,
        Nat.add_zero]
    · rfl

theorem broadcastInv_plainAccept {res : ℤ} (h : BroadcastInv t .nonTls m.tcp m.app)
    (hslots : OccupantInv n m.tcp)
    (hkeeps : t.exact → ∀ hne : m.tcp.freedIndexes.Nonempty,
      NoBroadcasts (m.tcp.clients (m.tcp.freedIndexes.min' hne)).sendData)
    (hhandled : m.plainAccept (webApp N) res = some m') : BroadcastInv t .nonTls m'.tcp m'.app := by
  simp only [plainAccept] at hhandled
  obtain ⟨m₁, hm₁, rfl⟩ := Option.map_eq_some_iff.mp hhandled
  have hsetup := broadcastInv_setupClient (h.calm (calm_addEventReq .accept))
    (hslots.addEventReq (by decide)) res hkeeps
  obtain ⟨a, ha, rfl⟩ := Option.map_eq_some_iff.mp hm₁
  have hactive := hsetup.calm (calm_activate (insert ((m.tcp.addEventReq .accept).setupClient res).2
    ((m.tcp.addEventReq .accept).setupClient res).1.activeConnections))
  have haccepted : BroadcastInv t .nonTls _ a := ⟨ledgerInv_acceptCb hactive.ledger ha, hactive.queues⟩
  exact haccepted.calm (touches_addReadReq (Or.inl rfl)).calm

theorem broadcastInv_tlsAccept {res : ℤ} (h : BroadcastInv t .tls m.tcp m.app) (hslots : OccupantInv n m.tcp)
    (hkeeps : t.exact → ∀ hne : m.tcp.freedIndexes.Nonempty,
      NoBroadcasts (m.tcp.clients (m.tcp.freedIndexes.min' hne)).sendData) :
    BroadcastInv t .tls (m.tlsAccept res).tcp (m.tlsAccept res).app := by
  have hsetup := broadcastInv_setupClient h hslots res hkeeps
  refine BroadcastInv.calm (BroadcastInv.calm (hsetup.calm (calm_addEventReq .accept)) ?_) touches_wolfCall.calm
  exact calm_modifyClient rfl

/-- The entry in front is taken off the queue of slot `i`. -/
theorem ledgerInv_pop {s : TcpServer} {w : WebServer N} {front : WriteData} {rest : List WriteData}
    (h : LedgerInv t w s.broadcasts) (hi : i < s.numClients) (hqueue : (s.clients i).sendData = front :: rest) :
    LedgerInv t w fun k => (s.setQueue i rest).broadcasts k +
      if front.broadcastInfo = (k : ℤ) then 1 else 0 := by
  have hsplit : s.broadcasts = fun k => (s.setQueue i rest).broadcasts k +
      if front.broadcastInfo = (k : ℤ) then 1 else 0 := by
    funext k
    rw [broadcasts_eq hi, hqueue, broadcastsOf_cons, broadcasts_setQueue hi, Nat.add_assoc]
  exact hsplit ▸ h

theorem broadcastInv_plainHandler {sub : Submission} {c : Completion WebEnv}
    (h : BroadcastInv t .nonTls m.tcp m.app) (hi : i < m.tcp.numClients) (hidx : sub.req.clientIdx = some i)
    (hkeeps : t.exact → HandlerKeeps .nonTls m sub i)
    (hhandled : m.plainHandler (webApp N) sub i c = some m') : BroadcastInv t .nonTls m'.tcp m'.app := by
  have hnum : ((m.tcp.endWrite i).clients i).numWriteReqs = (m.tcp.clients i).numWriteReqs - 1 := by
    simp [endWrite]
  refine plainHandler_rule hhandled (R := fun x => BroadcastInv t .nonTls x.tcp x.app)
    (fun hevent s hs hm' => ?_) (fun hevent front rest _ => ?_) (fun hevent front rest hqueue hactive _ hm' => ?_)
    (fun hevent hinactive _ hm' => ?_) h
  · refine broadcastInv_readCb (m := m.onTcp fun _ => s) (h.calm hs.calm) (fun hexact hws hzero => ?_) hm'
    rw [onTcp_tcp] at hzero ⊢
    rw [← Client.noBroadcasts_queue, hs.queue, Client.noBroadcasts_queue]
    have := hs.num
    exact (hkeeps hexact).read (Or.inl hevent) hws (by omega)
  · exact h.calm (calm_submit fun serial _ => ⟨rfl, i, hevent, hidx⟩)
  · have hended : BroadcastInv t .nonTls (m.tcp.endWrite i) m.app := h.calm calm_endWrite
    have hendedQueue : ((m.tcp.endWrite i).clients i).sendData = front :: rest := by
      simpa [endWrite] using hqueue
    have hpop := ledgerInv_pop hended.ledger (i := i) hi hendedQueue
    have hnext : Calm .nonTls ((m.tcp.endWrite i).setQueue i rest) ((m.tcp.endWrite i).writeNext i rest) :=
      calm_writeNext rest
    rw [← hnext.broadcasts] at hpop
    refine broadcastInv_writeCb hpop (hnext.entryInv (hended.queues.setQueue_suffix ?_)) ?_ hm'
    · rw [hendedQueue]
      exact List.suffix_cons front rest
    · -- unless the queue is empty now, its next entry is being written
      intro hexact hnone hzero
      rw [onTcp_tcp] at hzero ⊢
      cases rest with
      | nil => simp [writeNext, NoBroadcasts]
      | cons next rest =>
          have hkeep := (hkeeps hexact).write hevent hnone
          have hsame : (((m.tcp.endWrite i).writeNext i (next :: rest)).clients i).numWriteReqs =
              (m.tcp.clients i).numWriteReqs := by
            simp [writeNext, addWriteReq, endWrite]
          have hdata : (((m.tcp.endWrite i).writeNext i (next :: rest)).clients i).sendData = next :: rest := by
            simp [writeNext, addWriteReq]
          simp only [afterWrite, if_pos hactive, hsame.symm.trans hzero, if_true, hqueue, List.tail_cons] at hkeep
          rw [hdata]
          exact hkeep
  · refine broadcastInv_writeCb (m := m.onTcp fun s => s.endWrite i) ?_ (calm_endWrite.entryInv h.queues) ?_ hm'
    · have hnone : ∀ k : ℕ, ¬(-1 : ℤ) = k := fun k => by omega
      simp only [hnone, if_false, Nat.add_zero]
      exact (h.calm calm_endWrite).ledger
    · intro hexact hnone hzero
      rw [onTcp_tcp, hnum] at hzero
      have hkeep := (hkeeps hexact).write hevent hnone
      have hone : (m.tcp.clients i).numWriteReqs = 1 := by omega
      simp only [afterWrite, if_neg hinactive, if_pos hone] at hkeep
      have hdata : ((m.tcp.endWrite i).clients i).sendData = (m.tcp.clients i).sendData := by simp [endWrite]
      rw [onTcp_tcp, hdata]
      exact hkeep

theorem broadcastInv_tlsHandler {sub : Submission} {c : Completion WebEnv}
    (h : BroadcastInv t .tls m.tcp m.app) (hi : i < m.tcp.numClients)
    (hkeeps : t.exact → HandlerKeeps .tls m sub i)
    (hhandled : m.tlsHandler (webApp N) sub i c = some m') : BroadcastInv t .tls m'.tcp m'.app := by
  -- what is read on a slot whose queue is as it was
  have hread : ∀ (m₁ : Machine (WebServer N)) buffer, BroadcastInv t .tls m₁.tcp m₁.app →
      (sub.req.event = .read ∨ sub.req.event = .acceptRead) →
      m₁.app.activeWebsocketConnectionsClientIdxs = m.app.activeWebsocketConnectionsClientIdxs →
      (m₁.tcp.clients i).queue = (m.tcp.clients i).queue →
      (m.tcp.clients i).numWriteReqs ≤ (m₁.tcp.clients i).numWriteReqs →
      m₁.readCb .tls (webApp N) c.env i buffer = some m' → BroadcastInv t .tls m'.tcp m'.app := by
    intro m₁ buffer hm₁ hevent hws hqueue hnum hm'
    refine broadcastInv_readCb hm₁ (fun hexact hnone hzero => ?_) hm'
    rw [← Client.noBroadcasts_queue, hqueue, Client.noBroadcasts_queue]
    exact (hkeeps hexact).read hevent (hws ▸ hnone) (by omega)
  have haccepted : ∀ s m₁ s₁, Touches i m.tcp s → (m.onTcp fun _ => s).acceptCb (webApp N) i = some m₁ →
      Touches i { s with activeConnections := insert i s.activeConnections } s₁ →
      BroadcastInv t .tls s₁ m₁.app := by
    intro s m₁ s₁ hs hm₁ hs₁
    obtain ⟨a, ha, rfl⟩ := Option.map_eq_some_iff.mp hm₁
    have hactive := ((h.calm hs.calm).calm (calm_activate (insert i s.activeConnections))).calm hs₁.calm
    exact ⟨ledgerInv_acceptCb hactive.ledger ha, hactive.queues⟩
  refine tlsHandler_rule hhandled (R := fun x => BroadcastInv t .tls x.tcp x.app) (fun s hs => ?_)
    (fun hevent _ s buffer hs hm' => ?_) (fun _ s m₁ s₁ hs hm₁ hs₁ => haccepted s m₁ s₁ hs hm₁ hs₁)
    (fun hevent _ s m₁ s₁ buffer hs hm₁ hs₁ hm' => ?_)
    (fun hevent _ s front rest m₁ s₁ hs hqueue hm₁ hs₁ => ?_)
  · rcases hs with hs | hs
    · exact h.calm hs.calm
    · exact (h.calm calm_endWrite).calm hs.calm
  · exact hread (m.onTcp fun _ => s) buffer (h.calm hs.calm) (Or.inl hevent) rfl hs.queue hs.num hm'
  · refine hread (m₁.onTcp fun _ => s₁) buffer (haccepted s m₁ s₁ hs hm₁ hs₁) (Or.inr hevent) ?_
      (hs₁.queue.trans hs.queue) (hs.num.trans hs₁.num) hm'
    obtain ⟨a, ha, rfl⟩ := Option.map_eq_some_iff.mp hm₁
    obtain rfl := Option.some.inj ha
    rfl
  · have hended : BroadcastInv t .tls s m.app := (h.calm calm_endWrite).calm hs.calm
    have hlt : i < s.numClients := hs.numClients ▸ hi
    have hpopped : s.setQueue i rest |>.EntryInv .tls t.valid t.entries :=
      hended.queues.setQueue_suffix (hqueue ▸ List.suffix_cons front rest)
    have hwritten : BroadcastInv t .tls m₁.tcp m₁.app → BroadcastInv t .tls s₁ m₁.app :=
      fun hm₁ => hm₁.calm hs₁.calm
    refine hwritten (broadcastInv_writeCb (m := m.onTcp fun _ => s.setQueue i rest)
      (ledgerInv_pop hended.ledger hlt hqueue) hpopped (fun hexact hnone hzero => ?_) hm₁)
    rw [onTcp_tcp, setQueue_numWriteReqs] at hzero
    have hnum : (m.tcp.clients i).numWriteReqs - 1 ≤ (s.clients i).numWriteReqs := by
      simpa [endWrite] using hs.num
    have hkeep := (hkeeps hexact).write hevent hnone
    have hone : (m.tcp.clients i).numWriteReqs ≤ 1 := by omega
    simp only [afterWrite, if_pos hone] at hkeep
    -- the rest of the queue is as it was before the write had ended
    have htail : rest.map WriteData.unwritten = (m.tcp.clients i).sendData.tail.map WriteData.unwritten := by
      have := hs.queue
      simp only [Client.queue, hqueue, List.map_cons, endWrite, modifyClient_self] at this
      rw [List.map_tail, ← this, List.tail_cons]
    rw [onTcp_tcp, setQueue_sendData]
    intro e he
    have hmem : e.unwritten ∈ (m.tcp.clients i).sendData.tail.map WriteData.unwritten :=
      htail ▸ List.mem_map_of_mem he
    obtain ⟨e', he', heq⟩ := List.mem_map.mp hmem
    have := hkeep e' he'
    exact (congrArg WriteData.broadcast heq).symm.trans this

theorem broadcastInv_clientEvent {sub : Submission} {c : Completion WebEnv}
    (h : BroadcastInv t T m.tcp m.app) (hidx : sub.req.clientIdx = some i)
    (hkeeps : t.exact → 0 < c.res → HandlerKeeps T m sub i)
    (hhandled : m.clientEvent T (webApp N) sub i c = some m') : BroadcastInv t T m'.tcp m'.app := by
  have hkept : ∀ s, s = m.tcp ∨ s = m.tcp.endWrite i → BroadcastInv t T s m.app := by
    rintro s (rfl | rfl)
    · exact h
    · exact h.calm calm_endWrite
  refine clientEvent_rule hhandled (R := fun x => BroadcastInv t T x.tcp x.app)
    (fun s hs hi _ _ hclose => broadcastInv_drainAndClose (m := m.onTcp fun _ => s) (hkept s hs) ?_ hclose) hkept
    (fun hT hi hres _ hm' => ?_) (fun hT hi hres _ hm' => ?_)
  · obtain rfl | rfl := hs <;> exact hi
  · subst hT
    exact broadcastInv_plainHandler h hi hidx (fun hexact => hkeeps hexact hres) hm'
  · subst hT
    exact broadcastInv_tlsHandler h hi (fun hexact => hkeeps hexact hres) hm'

theorem broadcastInv_take {c : Completion WebEnv} (h : BroadcastInv t T m.tcp m.app) :
    BroadcastInv t T (m.take c).tcp (m.take c).app :=
  h.calm ⟨fun _ => rfl, rfl, fun _ hsub => Or.inl (List.mem_of_mem_eraseIdx hsub)⟩

/-- One round of the loop that is not a notification. -/
theorem broadcastInv_step {c : Completion WebEnv} {log : List Callback} (h : BroadcastInv t T m.tcp m.app)
    (hslots : OccupantInv n m.tcp) (hkeeps : t.exact → m.KeepsBroadcasts T c)
    (hother : ∀ sub, m.tcp.inflight[c.index]? = some sub → sub.req.event ≠ .notification)
    (hstep : step T (webApp N) m c = some (m', log)) : BroadcastInv t T m'.tcp m'.app := by
  obtain ⟨sub, hsub, hhandled, -⟩ := step_eq_some hstep
  have htake : BroadcastInv t T (m.take c).tcp (m.take c).app := broadcastInv_take h
  have htaken : OccupantInv n (m.take c).tcp :=
    hslots.congr (fun _ => rfl) rfl (Finset.Subset.refl _) rfl rfl List.eraseIdx_subset
  refine dispatch_rule hhandled (R := fun x => BroadcastInv t T x.tcp x.app) (fun _ => ?_)
    (fun hevent _ => absurd hevent (hother sub hsub)) (fun hevent hm' => ?_) (fun _ m₁ hm₁ => ?_)
    (fun hevent hT hm' => ?_) (fun hevent hT => ?_) (fun i hidx _ hm' => ?_)
  · exact htake.calm ⟨fun _ => rfl, rfl, fun _ => Or.inl⟩
  · exact broadcastInv_customRead htake (h.queues.placed sub (List.mem_of_getElem? hsub)) hevent hm'
  · obtain ⟨-, hswept⟩ := sweep_rule hm₁
      (R := fun x => OccupantInv n x.tcp ∧ BroadcastInv t T x.tcp x.app) ⟨htaken, htake⟩
      fun x i x' hactive _ hx hclose => by
        have hi : i < n := htaken.active i hactive
        exact ⟨occupantInv_drainAndClose hx.1 hi hclose,
          broadcastInv_drainAndClose hx.2 (hx.1.num.symm ▸ hi) hclose⟩
    exact hswept.calm (calm_addEventReq .timerfd)
  · subst hT
    exact broadcastInv_plainAccept htake htaken (fun hexact => (hkeeps hexact sub hsub).1 hevent) hm'
  · subst hT
    exact broadcastInv_tlsAccept htake htaken (fun hexact => (hkeeps hexact sub hsub).1 hevent)
  · refine broadcastInv_clientEvent htake hidx (fun hexact hres => ?_) hm'
    obtain ⟨hread, hwrite⟩ := (hkeeps hexact sub hsub).2 i hidx hres
    exact ⟨hread, hwrite⟩

/-- A notification: the first message of the queue is broadcast. -/
theorem broadcastInv_notification {c : Completion WebEnv} {sub : Submission} {log : List Callback}
    {msg : MessagePostData} {rest : List MessagePostData}
    (h : BroadcastInv { t with posted := msg :: rest } T m.tcp m.app)
    (hvalid : t.valid msg.itemIdx msg.buffPtr) (hsub : m.tcp.inflight[c.index]? = some sub)
    (hevent : sub.req.event = .notification) (hstep : step T (webApp N) m c = some (m', log)) :
    BroadcastInv { t with posted := rest, entries := m'.tcp.broadcastEntries } T m'.tcp m'.app := by
  obtain ⟨sub', hsub', hhandled, -⟩ := step_eq_some hstep
  obtain rfl : sub = sub' := by simpa [hsub] using hsub'
  simp only [dispatch, hevent] at hhandled
  obtain ⟨a, cs, hresult, hcalls, rfl, -⟩ := callback_eq_some hhandled
  have heq : m.app.eventCb c.env = (m'.app, cs) := Option.some.inj hresult
  have htake : BroadcastInv { t with posted := msg :: rest } T
      ((m.take c).tcp.addEventReq .notification) m.app :=
    (broadcastInv_take h).calm (calm_addEventReq .notification)
  have := htake.eventCb c.env hvalid (by rw [heq]; exact hcalls)
  rwa [heq] at this

end Machine

end LiburingServer
