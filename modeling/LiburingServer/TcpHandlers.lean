import LiburingServer.TcpRequests
import LiburingServer.TcpSlots

/-! What all handlers have in common, for both server types. A handler of a request is made of steps that alter one
slot, submissions of custom reads, and the opening and closing of connections: a relation between the server before and
after that each of these establishes, every handler establishes. -/

namespace LiburingServer

open TcpServer

/-- A relation between the server before and after that the pieces of the handlers establish. -/
structure HandlerRelation (T : ServerType) (R : TcpServer → TcpServer → Prop) : Prop where
  refl : ∀ s, R s s
  trans : ∀ s s' s'', R s s' → R s' s'' → R s s''
  numClients : ∀ s s', R s s' → s'.numClients = s.numClients
  alters : ∀ i s s', Alters i s s' → R s s'
  finished : ∀ s reads, R s { s with finishedReads := reads }
  customRead : ∀ s sub, sub.req.event = .customRead → R s (s.submit sub)
  activate : ∀ s i, i < s.numClients → (s.clients i).ssl = true →
    R s { s with activeConnections := insert i s.activeConnections }
  close : ∀ s i, i < s.numClients → R s (s.closeConnection T i)

namespace HandlerRelation

variable {σ ε : Type*} {T : ServerType} {R : TcpServer → TcpServer → Prop} {app : App σ ε} {m m' : Machine σ}
  {s s' : TcpServer} {sub : Submission} {c : Completion ε} {env : ε} {i : ℕ}

theorem broadcastMessage (h : HandlerRelation T R) (clientIdxs : List ℕ) (buff : Ptr) (length : ℕ)
    (customInfo : ℤ) : R s (s.broadcastMessage T clientIdxs buff length customInfo) := by
  unfold TcpServer.broadcastMessage
  induction clientIdxs generalizing s with
  | nil => exact h.refl s
  | cons i clientIdxs ih =>
      have hone : Alters i s (broadcastOne T buff length customInfo s i) := alters_enqueue T _ _
      exact h.trans _ _ _ (h.alters i _ _ hone) ih

theorem call (h : HandlerRelation T R) {c : TcpCall} (hcall : s.call T c = some s') : R s s' := by
  unfold TcpServer.call at hcall
  split at hcall
  · rename_i hslots
    obtain rfl := Option.some.inj hcall
    cases c with
    | writeConnection i buff => exact h.alters i _ _ (alters_writeConnection T buff)
    | writeConnectionPtr i buff length => exact h.alters i _ _ (alters_enqueue T _ _)
    | broadcastMessage clientIdxs buff length customInfo => exact h.broadcastMessage _ _ _ _
    | closeConnection i => exact h.close s i (hslots i (by simp [TcpCall.slots]))
    | readConnection i => exact h.alters i _ _ (touches_addReadReq (Or.inl rfl)).alters
    | customReadReq fd toRead clientIdx buff readAmount file => exact h.customRead s _ rfl
  · cases hcall

theorem callback (h : HandlerRelation T R) {cb : Callback} {result : Option (σ × List TcpCall)}
    (hcb : m.callback T cb result = some m') : R m.tcp m'.tcp := by
  obtain ⟨a, cs, -, hcalls, -, -⟩ := Machine.callback_eq_some hcb
  exact Runs.foldlM_keeps (R := fun x => R m.tcp x) (fun b c b' _ hb hcall => h.trans _ b _ hb (h.call hcall))
    (h.refl _) hcalls

theorem drainAndClose (h : HandlerRelation T R) (hi : i < m.tcp.numClients)
    (hclose : m.drainAndClose T app i = some m') : R m.tcp m'.tcp := by
  rw [Machine.drainAndClose_tcp hclose]
  exact h.trans _ _ _ (h.alters i _ _ (alters_setQueue [])) (h.close _ i hi)

/-- The sweep closes connections that were active when it began. -/
theorem sweep (h : HandlerRelation T R) {order halfClosed : List ℕ}
    (hactive : ∀ i ∈ m.tcp.activeConnections, i < m.tcp.numClients)
    (hsweep : m.sweep T app order halfClosed = some m') : R m.tcp m'.tcp := by
  refine Machine.sweep_rule hsweep (R := fun x => R m.tcp x.tcp) (h.refl _) fun x j x' hj _ hx hclose => ?_
  have hlt : j < x.tcp.numClients := (h.numClients _ _ hx).symm ▸ hactive j hj
  exact h.trans _ _ _ hx (h.drainAndClose hlt hclose)

theorem customReadEvent (h : HandlerRelation T R) {res : ℤ} {data : Bytes} (hsub : sub.req.event = .customRead)
    (hread : m.customRead T app env sub res data = some m') : R m.tcp m'.tcp := by
  refine Machine.customRead_rule hread (R := fun x => R m.tcp x.tcp) (fun readData hfinished => ?_) fun _ _ => ?_
  · have hadded : R m.tcp { m.tcp with finishedReads := m.tcp.finishedReads ++ [(sub.file, readData)] } :=
      h.finished _ _
    have hcalled : R { m.tcp with finishedReads := m.tcp.finishedReads ++ [(sub.file, readData)] } m'.tcp :=
      h.callback (m := m.onTcp fun s =>
        { s with finishedReads := s.finishedReads ++ [(sub.file, readData)] }) hfinished
    exact h.trans _ _ _ hadded hcalled
  · exact h.customRead _ _ hsub

theorem plainHandler (h : HandlerRelation .nonTls R) (hsub : sub.req.clientIdx = some i)
    (hhandled : m.plainHandler app sub i c = some m') : R m.tcp m'.tcp := by
  refine Machine.plainHandler_rule hhandled (R := fun x => R m.tcp x.tcp) (fun _ s hs hm' => ?_)
    (fun hevent front rest _ => ?_) (fun _ _ rest _ _ _ hm' => ?_) (fun _ _ _ hm' => ?_) (h.refl _)
  · exact h.trans _ _ _ (h.alters i _ _ hs.alters) (h.callback hm')
  · refine h.alters i _ _ ⟨fun _ _ => rfl, rfl, rfl, [_], rfl, ?_⟩
    simp [EventType.OfClient, hevent, hsub]
  · have hnext : R m.tcp ((m.tcp.endWrite i).writeNext i rest) :=
      h.alters i _ _ (alters_endWrite.trans (alters_writeNext rest))
    exact h.trans _ _ _ hnext (h.callback (m := m.onTcp fun s => (s.endWrite i).writeNext i rest) hm')
  · have hended : R m.tcp (m.tcp.endWrite i) := h.alters i _ _ alters_endWrite
    exact h.trans _ _ _ hended (h.callback (m := m.onTcp fun s => s.endWrite i) hm')

/-- A slot with a session becomes active between two calls of wolfSSL. -/
theorem accepted (h : HandlerRelation .tls R) {s₁ : TcpServer} (hi : i < m.tcp.numClients)
    (hssl : (m.tcp.clients i).ssl = true) (hs : Touches i m.tcp s)
    (hs₁ : Touches i { s with activeConnections := insert i s.activeConnections } s₁) : R m.tcp s₁ := by
  have hactivated : R s { s with activeConnections := insert i s.activeConnections } :=
    h.activate s i (by rwa [hs.numClients]) (by rwa [hs.ssl])
  exact h.trans _ _ _ (h.trans _ _ _ (h.alters i _ _ hs.alters) hactivated) (h.alters i _ _ hs₁.alters)

theorem tlsHandler (h : HandlerRelation .tls R) (hi : i < m.tcp.numClients)
    (hhandled : m.tlsHandler app sub i c = some m') : R m.tcp m'.tcp := by
  refine Machine.tlsHandler_rule hhandled (R := fun x => R m.tcp x.tcp) (fun s hs => ?_)
    (fun _ _ s _ hs hm' => ?_) (fun hyields s m₁ s₁ hs _ hs₁ => ?_)
    (fun _ hyields s m₁ s₁ _ hs _ hs₁ hm' => ?_) (fun _ _ s _ rest m₁ s₁ hs _ hm₁ hs₁ => ?_)
  · rcases hs with hs | hs
    · exact h.alters i _ _ hs.alters
    · exact h.alters i _ _ (alters_endWrite.trans hs.alters)
  · exact h.trans _ _ _ (h.alters i _ _ hs.alters) (h.callback hm')
  · exact h.accepted hi hyields.1 hs hs₁
  · exact h.trans _ _ _ (h.accepted hi hyields.1 hs hs₁) (h.callback (m := m₁.onTcp fun _ => s₁) hm')
  · have hpopped : R m.tcp (s.setQueue i rest) :=
      h.alters i _ _ ((alters_endWrite.trans hs.alters).trans (alters_setQueue rest))
    have hwritten : R (s.setQueue i rest) m₁.tcp := h.callback (m := m.onTcp fun _ => s.setQueue i rest) hm₁
    exact h.trans _ _ _ (h.trans _ _ _ hpopped hwritten) (h.alters i _ _ hs₁.alters)

/-- **Requests of clients.** Whatever becomes of one, the relation holds between the server before and after. -/
theorem clientEvent (h : HandlerRelation T R) (hsub : sub.req.clientIdx = some i)
    (hhandled : m.clientEvent T app sub i c = some m') : R m.tcp m'.tcp := by
  have hended : ∀ s, s = m.tcp ∨ s = m.tcp.endWrite i → R m.tcp s := fun s hs =>
    h.alters i _ _ (Alters.endedOrNot hs)
  refine Machine.clientEvent_rule hhandled (R := fun x => R m.tcp x.tcp) (fun s hs hi _ _ hclose => ?_) hended
    (fun hT _ _ _ hplain => ?_) (fun hT hi _ _ htls => ?_)
  · have hlt : i < s.numClients := (h.numClients _ _ (hended s hs)).symm ▸ hi
    exact h.trans _ _ _ (hended s hs) (h.drainAndClose (m := m.onTcp fun _ => s) hlt hclose)
  · cases hT
    exact h.plainHandler hsub hplain
  · cases hT
    exact h.tlsHandler hi htls

/-- What one round of the loop does, in terms of the relation: the handlers establish it, but for the requests that the
loop submits again itself and for the slots it hands out. -/
theorem step_rule (h : HandlerRelation T R) {log : List Callback} {Q : TcpServer → Prop}
    (hactive : ∀ i ∈ m.tcp.activeConnections, i < m.tcp.numClients)
    (hstep : Machine.step T app m c = some (m', log))
    (hkill : ∀ sub, m.tcp.inflight[c.index]? = some sub → sub.req.event = .kill →
      Q { (m.take c).tcp with isActive := false })
    (hnotification : ∀ sub s, m.tcp.inflight[c.index]? = some sub → sub.req.event = .notification →
      R ((m.take c).tcp.addEventReq .notification) s → Q s)
    (htimerfd : ∀ sub s, m.tcp.inflight[c.index]? = some sub → sub.req.event = .timerfd → R (m.take c).tcp s →
      Q (s.addEventReq .timerfd))
    (hplainAccept : ∀ sub, m.tcp.inflight[c.index]? = some sub → sub.req.event = .accept → T = .nonTls →
      Q ((((m.take c).tcp.addEventReq .accept).accepted c.res).addReadReq
        (((m.take c).tcp.addEventReq .accept).setupClient c.res).2 .read))
    (htlsAccept : ∀ sub, m.tcp.inflight[c.index]? = some sub → sub.req.event = .accept → T = .tls →
      Q ((m.take c).tlsAccept c.res).tcp)
    (hother : ∀ sub s, m.tcp.inflight[c.index]? = some sub →
      sub.req.event.OfClient ∨ sub.req.event = .customRead → R (m.take c).tcp s → Q s) : Q m'.tcp := by
  obtain ⟨sub, hsub, hhandled, -⟩ := Machine.step_eq_some hstep
  refine Machine.dispatch_rule hhandled (R := fun x => Q x.tcp) (hkill sub hsub) (fun hevent hm' => ?_)
    (fun hevent hm' => ?_) (fun hevent m₁ hm₁ => ?_) (fun hevent hT hm' => ?_) (htlsAccept sub hsub)
    (fun i hidx hclient hm' => ?_)
  · exact hnotification sub _ hsub hevent (h.callback (m := (m.take c).onTcp fun s => s.addEventReq .notification) hm')
  · exact hother sub _ hsub (Or.inr hevent) (h.customReadEvent hevent hm')
  · exact htimerfd sub _ hsub hevent (h.sweep (m := m.take c) hactive hm₁)
  · obtain ⟨m₁, hm₁, rfl⟩ := Option.map_eq_some_iff.mp hm'
    have htcp := Machine.acceptCb_tcp hm₁
    rw [Machine.onTcp_tcp, htcp]
    exact hplainAccept sub hsub hevent hT
  · exact hother sub _ hsub (Or.inl hclient) (h.clientEvent hidx hm')

end HandlerRelation

end LiburingServer
