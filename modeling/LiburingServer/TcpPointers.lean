import LiburingServer.TcpFrame
import LiburingServer.TcpWrites

/-! The pointers that the kernel is still to read from. For a client of the plain server they are those of
its queue and of its write requests in flight, and only the calls of the application add to them. The TLS
server has the kernel read from the output of wolfSSL alone. -/

namespace LiburingServer

variable {N : ℕ}

/-- The call queues the buffer of cache slot `i` for client `k`. -/
def TcpCall.Sends (k : ℕ) (i : Fin N) : TcpCall → Prop
  | .writeConnectionPtr j buff _ => j = k ∧ buff = .cached i
  | .broadcastMessage clientIdxs buff _ _ => k ∈ clientIdxs ∧ buff = .cached i
  | _ => False

/-- A call that queues no pointer. -/
def TcpCall.Pointless : TcpCall → Prop
  | .writeConnectionPtr _ _ _ => False
  | .broadcastMessage _ _ _ _ => False
  | _ => True

theorem TcpCall.Pointless.not_sends {c : TcpCall} (h : c.Pointless) (k : ℕ) (i : Fin N) : ¬c.Sends k i := by
  cases c <;> simp_all [Pointless, Sends]

/-- Only pointers lead to the cache, not the storage of a vector. -/
theorem WriteData.ptrBuff_eq_cached {d : WriteData} {n : ℕ} (h : d.ptr = .cached n) : d.ptrBuff = .cached n := by
  unfold ptr at h
  split at h
  · exact h
  · split at h <;> cases h

namespace TcpServer

/-- The pointers of the queue of slot `k`. -/
def queued (s : TcpServer) (k : ℕ) : List Ptr := (s.clients k).sendData.map WriteData.ptr

/-- The pointers that the write requests in flight of slot `k` read from. -/
def writing (s : TcpServer) (k : ℕ) : List Ptr := (s.writes k).map Submission.addr

/-- The pointers of slot `k` that are left when its connection is closed: the queue of a connection that
is writing is not dropped. -/
def left (s : TcpServer) (k : ℕ) : List Ptr :=
  (if (s.clients k).numWriteReqs = 0 then [] else s.queued k) ++ s.writing k

/-- The buffer of cache slot `i` is still to be read for client `k`. -/
def Sends (s : TcpServer) (k : ℕ) (i : Fin N) : Prop := .cached i ∈ s.queued k ∨ .cached i ∈ s.writing k

variable {s s' : TcpServer} {i : Fin N} {j k : ℕ} {sub : Submission}

theorem queued_eq (s : TcpServer) (k : ℕ) : s.queued k = (s.clients k).queue.map WriteData.ptr := by
  rw [queued, Client.queue, List.map_map]
  rfl

@[simp] theorem setQueue_queued (s : TcpServer) (j : ℕ) (sendData : List WriteData) :
    (s.setQueue j sendData).queued j = sendData.map WriteData.ptr := by
  rw [queued, setQueue_sendData]

theorem setQueue_queued_of_ne (sendData : List WriteData) (hk : k ≠ j) :
    (s.setQueue j sendData).queued k = s.queued k := by
  rw [queued, setQueue_of_ne _ _ _ _ hk, queued]

@[simp] theorem setQueue_writing (s : TcpServer) (j : ℕ) (sendData : List WriteData) (k : ℕ) :
    (s.setQueue j sendData).writing k = s.writing k := rfl

/-- What is in flight matters only up to requests that do not write from the cache. -/
theorem Sends.congr (hsends : s'.Sends k i) (hqueue : s'.queued k = s.queued k) (new : List Submission)
    (hflight : s'.inflight = s.inflight ++ new)
    (hnew : ∀ sub ∈ new, sub.IsWrite k → sub.addr ≠ .cached i) : s.Sends k i := by
  refine hsends.imp (fun hmem => hqueue ▸ hmem) fun hmem => ?_
  obtain ⟨sub, hsub, haddr⟩ := List.mem_map.mp hmem
  rw [writes, hflight, List.filter_append, List.mem_append] at hsub
  rcases hsub with hold | hadded
  · exact List.mem_map.mpr ⟨sub, hold, haddr⟩
  · obtain ⟨hmem, hwrite⟩ := List.mem_filter.mp hadded
    exact absurd haddr (hnew sub hmem (by simpa using hwrite))

theorem Issued.addr (h : s.Issued j sub) : sub.addr = .null ∨ sub.addr = .wolfssl := by
  rcases h with ⟨event, -, rfl⟩ | ⟨event, length, -, rfl⟩
  · exact Or.inl rfl
  · exact Or.inr rfl

theorem Touches.sends (h : Touches j s s') (hsends : s'.Sends k i) : s.Sends k i := by
  obtain ⟨new, hnew, hissued⟩ := h.inflight
  refine hsends.congr ?_ new hnew fun sub hsub _ haddr => ?_
  · rw [queued_eq, queued_eq]
    by_cases hk : k = j
    · rw [hk, h.queue]
    · rw [h.others k hk]
  · rcases (hissued sub hsub).addr with hnull | hwolf
    · rw [hnull] at haddr
      cases haddr
    · rw [hwolf] at haddr
      cases haddr

theorem sends_submit (hsends : (s.submit sub).Sends k i) : s.Sends k i ∨ sub.IsWrite k ∧ sub.addr = .cached i := by
  by_cases hsub : sub.IsWrite k ∧ sub.addr = .cached i
  · exact Or.inr hsub
  · refine Or.inl (hsends.congr rfl [sub] rfl fun sub' hmem hwrite haddr => hsub ?_)
    obtain rfl := List.mem_singleton.mp hmem
    exact ⟨hwrite, haddr⟩

/-- A request that is not a write. -/
theorem sends_submit_of_ne (hevent : sub.req.event ≠ .write) (hsends : (s.submit sub).Sends k i) : s.Sends k i :=
  (sends_submit hsends).resolve_right fun hwrite => hevent hwrite.1.1

theorem writing_takeCompleted {n : ℕ} {wolf : List WolfCall} {p : Ptr} (h : p ∈ (s.takeCompleted n wolf).writing k) :
    p ∈ s.writing k := by
  obtain ⟨sub, hsub, haddr⟩ := List.mem_map.mp h
  obtain ⟨hmem, hwrite⟩ := List.mem_filter.mp hsub
  exact List.mem_map.mpr ⟨sub, List.mem_filter.mpr ⟨List.mem_of_mem_eraseIdx hmem, hwrite⟩, haddr⟩

theorem sends_endWrite (hsends : (s.endWrite j).Sends k i) : s.Sends k i := by
  refine hsends.congr ?_ [] (List.append_nil _).symm (by simp)
  by_cases hk : k = j
  · subst hk
    simp [queued, endWrite]
  · rw [queued, endWrite, modifyClient_of_ne _ _ _ _ hk, queued]

theorem sends_addWriteReq {buffer : Ptr} {length : ℕ} (hsends : (s.addWriteReq j .write buffer length).Sends k i) :
    s.Sends k i ∨ k = j ∧ buffer = .cached i := by
  rcases sends_submit hsends with hold | ⟨⟨-, hidx⟩, haddr⟩
  · refine Or.inl (hold.congr ?_ [] (List.append_nil _).symm (by simp))
    by_cases hk : k = j
    · subst hk
      simp [queued]
    · rw [queued, modifyClient_of_ne _ _ _ _ hk, queued]
  · refine Or.inr ⟨?_, haddr⟩
    simpa [writeSubmission] using hidx.symm

/-- The queue of slot `j` is replaced by another one. -/
theorem sends_setQueue {sendData : List WriteData} (hsends : (s.setQueue j sendData).Sends k i) :
    s.Sends k i ∧ (k = j → .cached i ∈ sendData.map WriteData.ptr ++ s.writing j) ∨
      k = j ∧ .cached i ∈ sendData.map WriteData.ptr := by
  by_cases hk : k = j
  · subst hk
    rcases hsends with hmem | hmem
    · rw [setQueue_queued] at hmem
      exact Or.inr ⟨rfl, hmem⟩
    · rw [setQueue_writing] at hmem
      exact Or.inl ⟨Or.inr hmem, fun _ => List.mem_append_right _ hmem⟩
  · refine Or.inl ⟨?_, fun heq => absurd heq hk⟩
    rwa [Sends, setQueue_queued_of_ne _ hk, setQueue_writing] at hsends

/-- The queue of slot `j` is dropped but for its end. -/
theorem sends_setQueue_suffix {rest : List WriteData} (hrest : ∀ e ∈ rest, e ∈ (s.clients j).sendData)
    (hsends : (s.setQueue j rest).Sends k i) :
    s.Sends k i ∧ (k = j → .cached i ∈ rest.map WriteData.ptr ++ s.writing j) := by
  rcases sends_setQueue hsends with hkept | ⟨rfl, hmem⟩
  · exact hkept
  · obtain ⟨e, he, hptr⟩ := List.mem_map.mp hmem
    exact ⟨Or.inl (List.mem_map.mpr ⟨e, hrest e he, hptr⟩), fun _ => List.mem_append_left _ hmem⟩

theorem sends_writeNext {front : WriteData} {rest : List WriteData} (hq : (s.clients j).sendData = front :: rest)
    (hsends : (s.writeNext j rest).Sends k i) :
    s.Sends k i ∧ (k = j → .cached i ∈ rest.map WriteData.ptr ++ s.writing j) := by
  have hrest : ∀ e ∈ rest, e ∈ (s.clients j).sendData := fun e he => hq ▸ List.mem_cons_of_mem _ he
  cases rest with
  | nil => exact sends_setQueue_suffix hrest hsends
  | cons next rest =>
      rcases sends_addWriteReq hsends with hold | ⟨rfl, hptr⟩
      · exact sends_setQueue_suffix hrest hold
      · have hmem : .cached i ∈ (next :: rest).map WriteData.ptr := by simp [hptr]
        exact ⟨Or.inl (List.mem_map.mpr ⟨next, hrest next (by simp), hptr⟩), fun _ => List.mem_append_left _ hmem⟩

theorem sends_enqueue {data : WriteData} {length : ℕ} (hsends : (s.enqueue .nonTls j data length).Sends k i) :
    s.Sends k i ∨ k = j ∧ data.ptr = .cached i := by
  have hpush : (s.pushEntry j data).Sends k i → s.Sends k i ∨ k = j ∧ data.ptr = .cached i := by
    intro hpushed
    rcases sends_setQueue hpushed with ⟨hold, -⟩ | ⟨rfl, hmem⟩
    · exact Or.inl hold
    · rw [List.map_append, List.mem_append, List.map_singleton, List.mem_singleton] at hmem
      exact hmem.imp Or.inl fun hptr => ⟨rfl, hptr.symm⟩
  by_cases hq : (s.clients j).sendData = []
  · rw [enqueue_plain_of_nil _ _ hq] at hsends
    exact (sends_addWriteReq hsends).elim hpush Or.inr
  · rw [enqueue_of_ne_nil _ _ _ hq] at hsends
    exact hpush hsends

theorem sends_broadcastMessage {clientIdxs : List ℕ} {buff : Ptr} {length : ℕ} {customInfo : ℤ}
    (hsends : (s.broadcastMessage .nonTls clientIdxs buff length customInfo).Sends k i) :
    s.Sends k i ∨ k ∈ clientIdxs ∧ buff = .cached i := by
  unfold broadcastMessage at hsends
  induction clientIdxs generalizing s with
  | nil => exact Or.inl hsends
  | cons j clientIdxs ih =>
      rcases ih hsends with hone | ⟨hk, hbuff⟩
      · exact (sends_enqueue hone).imp_right fun ⟨hk, hptr⟩ => ⟨by simp [hk], WriteData.ptrBuff_eq_cached hptr⟩
      · exact Or.inr ⟨List.mem_cons_of_mem _ hk, hbuff⟩

theorem sends_of_left (h : .cached i ∈ s.left k) : s.Sends k i := by
  rw [left, List.mem_append] at h
  refine h.imp (fun hmem => ?_) id
  split at hmem
  · cases hmem
  · exact hmem

/-- The connection that is closed keeps its queue only if it is writing. -/
theorem sends_closeConnection (hsends : (s.closeConnection .nonTls j).Sends k i) :
    s.Sends k i ∧ (k = j → .cached i ∈ s.left j) := by
  unfold closeConnection at hsends
  split at hsends
  · have hdropped : (s.setQueue j []).Sends k i := hsends
    obtain ⟨hold, hmem⟩ := sends_setQueue_suffix (by simp) hdropped
    exact ⟨hold, fun hk => List.mem_append_right _ (by simpa using hmem hk)⟩
  · refine ⟨hsends, ?_⟩
    rintro rfl
    rw [left, if_neg ‹_›, List.mem_append]
    exact hsends

/-- The slot of a new connection has an empty queue. -/
theorem sends_setupClient {sockfd : ℤ} (hsends : (s.setupClient sockfd).1.Sends k i) : s.Sends k i := by
  unfold setupClient at hsends
  split at hsends
  all_goals
    refine hsends.imp (fun hmem => ?_) id
    simp only [queued, Function.update_apply] at hmem
    split at hmem
    · cases hmem
    · exact hmem

theorem sends_call {c : TcpCall} (h : s.call .nonTls c = some s') (hsends : s'.Sends k i) :
    s.Sends k i ∨ c.Sends k i := by
  unfold call at h
  split at h
  · obtain rfl := Option.some.inj h
    cases c with
    | writeConnection j buff =>
        refine Or.inl ((sends_enqueue hsends).resolve_right ?_)
        rintro ⟨-, hptr⟩
        cases WriteData.ptrBuff_eq_cached hptr
    | writeConnectionPtr j buff length =>
        exact (sends_enqueue hsends).imp_right fun ⟨hk, hptr⟩ => ⟨hk.symm, WriteData.ptrBuff_eq_cached hptr⟩
    | broadcastMessage clientIdxs buff length customInfo => exact sends_broadcastMessage hsends
    | closeConnection j => exact Or.inl (sends_closeConnection hsends).1
    | readConnection j => exact Or.inl ((touches_addReadReq (Or.inl rfl)).sends hsends)
    | customReadReq fd toRead clientIdx buff readAmount file => exact Or.inl (sends_submit_of_ne (by simp) hsends)
  · cases h

theorem sends_calls {cs : List TcpCall} (h : s.calls .nonTls cs = some s') (hsends : s'.Sends k i) :
    s.Sends k i ∨ ∃ c ∈ cs, c.Sends k i := by
  refine Runs.foldlM_keeps (R := fun s' : TcpServer => s'.Sends k i → s.Sends k i ∨ ∃ c ∈ cs, c.Sends k i)
    (fun s₁ c s₂ hc hs₁ hcall hs₂ => ?_) Or.inl h hsends
  exact (sends_call hcall hs₂).elim hs₁ fun hone => Or.inr ⟨c, hc, hone⟩

/-! ### The TLS server -/

/-- No request in flight has the kernel read from a buffer but the output of wolfSSL. -/
def OnlyWolfssl (s : TcpServer) : Prop := ∀ sub ∈ s.inflight, sub.addr = .null ∨ sub.addr = .wolfssl

namespace OnlyWolfssl

theorem append (h : s.OnlyWolfssl) {new : List Submission} (hflight : s'.inflight = s.inflight ++ new)
    (hnew : ∀ sub ∈ new, sub.addr = .null ∨ sub.addr = .wolfssl) : s'.OnlyWolfssl := by
  intro sub hsub
  rw [hflight, List.mem_append] at hsub
  exact hsub.elim (h sub) (hnew sub)

theorem submit (h : s.OnlyWolfssl) (hsub : sub.addr = .null ∨ sub.addr = .wolfssl) : (s.submit sub).OnlyWolfssl :=
  h.append rfl (by simpa using hsub)

theorem touches (h : s.OnlyWolfssl) (ht : Touches j s s') : s'.OnlyWolfssl := by
  obtain ⟨new, hnew, hissued⟩ := ht.inflight
  exact h.append hnew fun sub hsub => (hissued sub hsub).addr

theorem takeCompleted (h : s.OnlyWolfssl) (n : ℕ) (wolf : List WolfCall) : (s.takeCompleted n wolf).OnlyWolfssl :=
  fun sub hsub => h sub (List.mem_of_mem_eraseIdx hsub)

theorem enqueue (h : s.OnlyWolfssl) (data : WriteData) (length : ℕ) :
    (s.enqueue .tls j data length).OnlyWolfssl := by
  have hpush : (s.pushEntry j data).OnlyWolfssl := h
  unfold TcpServer.enqueue
  split
  · exact hpush.touches touches_wolfCall
  · exact hpush

theorem broadcastMessage (h : s.OnlyWolfssl) (clientIdxs : List ℕ) (buff : Ptr) (length : ℕ) (customInfo : ℤ) :
    (s.broadcastMessage .tls clientIdxs buff length customInfo).OnlyWolfssl := by
  unfold TcpServer.broadcastMessage
  induction clientIdxs generalizing s with
  | nil => exact h
  | cons i clientIdxs ih => exact ih (h.enqueue _ _)

theorem closeConnection (h : s.OnlyWolfssl) : (s.closeConnection .tls j).OnlyWolfssl := by
  unfold TcpServer.closeConnection
  split
  · have hshut : (s.wolfCall j).1.OnlyWolfssl := h.touches touches_wolfCall
    exact hshut
  · exact h

theorem call (h : s.OnlyWolfssl) {c : TcpCall} (hcall : s.call .tls c = some s') : s'.OnlyWolfssl := by
  unfold TcpServer.call at hcall
  split at hcall
  · obtain rfl := Option.some.inj hcall
    cases c with
    | writeConnection i buff =>
        have hfresh : OnlyWolfssl { s with nextAddr := s.nextAddr + 1 } := h
        exact hfresh.enqueue _ buff.length
    | writeConnectionPtr i buff length => exact h.enqueue _ length
    | broadcastMessage clientIdxs buff length customInfo => exact h.broadcastMessage clientIdxs buff length customInfo
    | closeConnection i => exact h.closeConnection
    | readConnection i => exact h.touches (touches_addReadReq (Or.inl rfl))
    | customReadReq fd toRead clientIdx buff readAmount file => exact h.submit (Or.inl rfl)
  · cases hcall

theorem calls (h : s.OnlyWolfssl) {cs : List TcpCall} (hcalls : s.calls .tls cs = some s') : s'.OnlyWolfssl :=
  Runs.foldlM_keeps (fun _ _ _ _ hb hc => hb.call hc) h hcalls

end OnlyWolfssl

end TcpServer

namespace Machine

open TcpServer

variable {σ ε : Type*} {app : App σ ε} {m m' : Machine σ} {i : ℕ}

theorem onlyWolfssl_callback {cb : Callback} {result : Option (σ × List TcpCall)} (h : m.tcp.OnlyWolfssl)
    (hcb : m.callback .tls cb result = some m') : m'.tcp.OnlyWolfssl := by
  obtain ⟨a, cs, -, hcalls, -⟩ := callback_eq_some hcb
  exact h.calls hcalls

theorem onlyWolfssl_drainAndClose (h : m.tcp.OnlyWolfssl) (hclose : m.drainAndClose .tls app i = some m') :
    m'.tcp.OnlyWolfssl := by
  have hdrained : (m.tcp.setQueue i []).OnlyWolfssl := h
  rw [drainAndClose_tcp hclose]
  exact hdrained.closeConnection

theorem onlyWolfssl_clientEvent {sub : Submission} {c : Completion ε} (h : m.tcp.OnlyWolfssl)
    (hhandled : m.clientEvent .tls app sub i c = some m') : m'.tcp.OnlyWolfssl := by
  have hended : (m.tcp.endWrite i).OnlyWolfssl := h
  have hkept : ∀ s, s = m.tcp ∨ s = m.tcp.endWrite i → s.OnlyWolfssl := by
    rintro s (rfl | rfl)
    · exact h
    · exact hended
  refine clientEvent_rule hhandled (R := fun x => x.tcp.OnlyWolfssl)
    (fun s hs _ _ _ hclose => onlyWolfssl_drainAndClose (m := m.onTcp fun _ => s) (hkept s hs) hclose) hkept nofun
    (fun _ _ _ _ htls => ?_)
  have haccepted : ∀ s m₁ s₁, Touches i m.tcp s → (m.onTcp fun _ => s).acceptCb app i = some m₁ →
      Touches i { s with activeConnections := insert i s.activeConnections } s₁ → s₁.OnlyWolfssl := by
    intro s m₁ s₁ hs _ hs₁
    have hread : s.OnlyWolfssl := h.touches hs
    have hactive : OnlyWolfssl { s with activeConnections := insert i s.activeConnections } := hread
    exact hactive.touches hs₁
  refine tlsHandler_rule htls (R := fun x => x.tcp.OnlyWolfssl) (fun s hs => ?_) (fun _ _ s _ hs hm' => ?_)
    (fun _ => haccepted) (fun _ _ s m₁ s₁ _ hs hm₁ hs₁ hm' => ?_) (fun _ _ s front rest m₁ s₁ hs _ hm₁ hs₁ => ?_)
  · exact hs.elim (fun hs => h.touches hs) fun hs => hended.touches hs
  · exact onlyWolfssl_callback (m := m.onTcp fun _ => s) (h.touches hs) hm'
  · exact onlyWolfssl_callback (m := m₁.onTcp fun _ => s₁) (haccepted s m₁ s₁ hs hm₁ hs₁) hm'
  · have hcalled : s.OnlyWolfssl := hended.touches hs
    have hdone : (s.setQueue i rest).OnlyWolfssl := hcalled
    have hwritten : m₁.tcp.OnlyWolfssl :=
      onlyWolfssl_callback (m := m.onTcp fun _ => s.setQueue i rest) hdone hm₁
    exact hwritten.touches hs₁

/-- One round of the loop. -/
theorem onlyWolfssl_step {c : Completion ε} {log : List Callback} (h : m.tcp.OnlyWolfssl)
    (hstep : step .tls app m c = some (m', log)) : m'.tcp.OnlyWolfssl := by
  obtain ⟨sub, hsub, hhandled, -⟩ := step_eq_some hstep
  have htake : (m.take c).tcp.OnlyWolfssl := h.takeCompleted c.index c.wolf
  refine dispatch_rule hhandled (R := fun x => x.tcp.OnlyWolfssl) (fun _ => htake) (fun _ hm' => ?_)
    (fun _ hm' => ?_) (fun _ m₁ hm₁ => ?_) (fun _ hT _ => ?_) (fun _ _ => ?_)
    (fun i _ _ hm' => onlyWolfssl_clientEvent htake hm')
  · exact onlyWolfssl_callback (m := (m.take c).onTcp fun s => s.addEventReq .notification)
      (htake.submit (Or.inl rfl)) hm'
  · refine customRead_rule hm' (R := fun x => x.tcp.OnlyWolfssl) (fun _ hfinished => ?_)
      (fun _ _ => htake.submit (h sub (List.mem_of_getElem? hsub)))
    refine onlyWolfssl_callback ?_ hfinished
    exact htake
  · have hswept : m₁.tcp.OnlyWolfssl := sweep_rule hm₁ (R := fun x => x.tcp.OnlyWolfssl) htake
      fun _ _ _ _ _ hx hclose => onlyWolfssl_drainAndClose hx hclose
    exact hswept.submit (Or.inl rfl)
  · cases hT
  · have haccepted : (((m.take c).tcp.setupClient c.res).1).OnlyWolfssl := by
      unfold setupClient
      split
      · exact htake
      · exact htake
    have hasked : (((m.take c).tcp.setupClient c.res).1.addEventReq .accept).OnlyWolfssl :=
      haccepted.submit (Or.inl rfl)
    have hsession : ((((m.take c).tcp.setupClient c.res).1.addEventReq .accept).modifyClient
        ((m.take c).tcp.setupClient c.res).2 fun client => { client with ssl := true }).OnlyWolfssl := hasked
    exact hsession.touches touches_wolfCall

theorem onlyWolfssl_start (a : σ) (reads : List (ℤ × ℕ)) : (start a reads).tcp.OnlyWolfssl := by
  have hempty : OnlyWolfssl {} := by simp [OnlyWolfssl]
  have hreads : ∀ s, OnlyWolfssl s → OnlyWolfssl
      (reads.foldl (fun s r => s.customReadReq r.1 r.2 none [] 0 none) s) := by
    induction reads with
    | nil => exact fun s hs => hs
    | cons r reads ih => exact fun s hs => ih _ (hs.submit (Or.inl rfl))
  refine OnlyWolfssl.submit (hreads _ ?_) (Or.inl rfl)
  exact ((hempty.submit (Or.inl rfl)).submit (Or.inl rfl)).submit (Or.inl rfl)

end Machine

end LiburingServer
