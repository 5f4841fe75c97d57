import LiburingServer.TcpAccepts
import LiburingServer.TcpCallbacks
import LiburingServer.Lib.InFlight

/-! What the completion of a request of one client leaves alone: everything of the other clients, as long as the
callbacks of a client call the server for that client only. -/

namespace LiburingServer

variable {σ ε : Type*}

/-- The client that a callback is for, the end of a read of a file included. -/
def Callback.client : Callback → Option ℕ
  | .customRead i _ _ => i
  | cb => cb.slot

/-- A call for client `i`, or for no client. -/
def TcpCall.IsFor (i : ℕ) (c : TcpCall) : Prop := ∀ j ∈ c.slots, j = i

namespace TcpServer

variable {T : ServerType} {s s' s'' : TcpServer} {i j : ℕ}

/-- The requests of client `j` in flight. -/
def requestsOf (s : TcpServer) (j : ℕ) : List Submission := s.inflight.filter fun sub => sub.req.clientIdx = some j

/-- The step changes nothing of any client but `i`. -/
structure Confined (i : ℕ) (s s' : TcpServer) : Prop where
  clients : ∀ j, j ≠ i → s'.clients j = s.clients j
  requests : ∀ j, j ≠ i → s'.requestsOf j = s.requestsOf j
  active : ∀ j, j ≠ i → (j ∈ s'.activeConnections ↔ j ∈ s.activeConnections)
  freed : ∀ j, j ≠ i → (j ∈ s'.freedIndexes ↔ j ∈ s.freedIndexes)
  occupants : s'.occupants = s.occupants
  numClients : s'.numClients = s.numClients

theorem Confined.refl (i : ℕ) (s : TcpServer) : Confined i s s :=
  ⟨fun _ _ => rfl, fun _ _ => rfl, fun _ _ => Iff.rfl, fun _ _ => Iff.rfl, rfl, rfl⟩

theorem Confined.trans (h : Confined i s s') (h' : Confined i s' s'') : Confined i s s'' where
  clients j hj := (h'.clients j hj).trans (h.clients j hj)
  requests j hj := (h'.requests j hj).trans (h.requests j hj)
  active j hj := (h'.active j hj).trans (h.active j hj)
  freed j hj := (h'.freed j hj).trans (h.freed j hj)
  occupants := h'.occupants.trans h.occupants
  numClients := h'.numClients.trans h.numClients

theorem requestsOf_append {new : List Submission} (h : s'.inflight = s.inflight ++ new)
    (hnew : ∀ sub ∈ new, sub.req.clientIdx ≠ some j) : s'.requestsOf j = s.requestsOf j := by
  have hnone : new.filter (fun sub => sub.req.clientIdx = some j) = [] := by simpa using hnew
  rw [requestsOf, h, List.filter_append, hnone, List.append_nil, requestsOf]

theorem Alters.confined (h : Alters i s s') : Confined i s s' := by
  obtain ⟨new, hnew, hof⟩ := h.inflight
  have hslots := h.sameSlots
  refine ⟨h.others, fun j hj => requestsOf_append hnew fun sub hsub hidx => ?_, fun _ _ => ?_, fun _ _ => ?_,
    hslots.occupants, hslots.numClients⟩
  · exact hj (Option.some.inj (hidx.symm.trans (hof sub hsub).2))
  · rw [hslots.activeConnections]
  · rw [hslots.freedIndexes]

theorem confined_modifyClient (f : Client → Client) : Confined i s (s.modifyClient i f) :=
  ⟨fun _ hj => modifyClient_of_ne _ _ _ _ hj, fun _ _ => rfl, fun _ _ => Iff.rfl, fun _ _ => Iff.rfl, rfl, rfl⟩

theorem confined_submit {sub : Submission} (h : ∀ j ∈ sub.req.clientIdx, j = i) : Confined i s (s.submit sub) := by
  refine ⟨fun _ _ => rfl, fun j hj => requestsOf_append rfl ?_, fun _ _ => Iff.rfl, fun _ _ => Iff.rfl, rfl, rfl⟩
  rintro sub' hsub' hidx
  obtain rfl := List.mem_singleton.mp hsub'
  exact hj (h j hidx)

theorem confined_freeSlot : Confined i s (s.freeSlot i) := by
  refine ⟨fun j hj => setQueue_of_ne _ _ _ _ hj, fun _ _ => rfl, fun j hj => ?_, fun j hj => ?_, rfl, rfl⟩
  · simp [freeSlot, hj]
  · simp [freeSlot, hj]

theorem confined_closeConnection : Confined i s (s.closeConnection T i) := by
  unfold closeConnection
  split
  · cases T with
    | nonTls => exact confined_freeSlot
    | tls => exact (touches_wolfCall.alters.confined.trans (confined_modifyClient _)).trans confined_freeSlot
  · exact .refl i s

theorem confined_takeCompleted {n : ℕ} {sub : Submission} (hsub : s.inflight[n]? = some sub)
    (hidx : sub.req.clientIdx = some i) (wolf : List WolfCall) : Confined i s (s.takeCompleted n wolf) := by
  refine ⟨fun _ _ => rfl, fun j hj => ?_, fun _ _ => Iff.rfl, fun _ _ => Iff.rfl, rfl, rfl⟩
  refine InFlight.filter_eraseIdx_of_not hsub (decide_eq_false fun hj' => hj ?_)
  exact Option.some.inj (hj'.symm.trans hidx)

theorem confined_broadcastMessage {clientIdxs : List ℕ} {buff : Ptr} {length : ℕ} {customInfo : ℤ}
    (h : ∀ j ∈ clientIdxs, j = i) : Confined i s (s.broadcastMessage T clientIdxs buff length customInfo) := by
  unfold broadcastMessage
  induction clientIdxs generalizing s with
  | nil => exact .refl i s
  | cons j clientIdxs ih =>
      obtain rfl : j = i := h j (by simp)
      have hone : Confined j s (broadcastOne T buff length customInfo s j) := (alters_enqueue T _ _).confined
      exact hone.trans (ih fun k hk => h k (List.mem_cons_of_mem _ hk))

theorem confined_call {c : TcpCall} (h : s.call T c = some s') (hc : c.IsFor i) : Confined i s s' := by
  unfold call at h
  split at h
  · obtain rfl := Option.some.inj h
    cases c with
    | writeConnection j buff =>
        obtain rfl : j = i := hc j (by simp [TcpCall.slots])
        exact (alters_writeConnection T buff).confined
    | writeConnectionPtr j buff length =>
        obtain rfl : j = i := hc j (by simp [TcpCall.slots])
        exact (alters_enqueue T _ _).confined
    | broadcastMessage clientIdxs buff length customInfo => exact confined_broadcastMessage hc
    | closeConnection j =>
        obtain rfl : j = i := hc j (by simp [TcpCall.slots])
        exact confined_closeConnection
    | readConnection j =>
        obtain rfl : j = i := hc j (by simp [TcpCall.slots])
        exact (touches_addReadReq (Or.inl rfl)).alters.confined
    | customReadReq fd toRead clientIdx buff readAmount file =>
        exact confined_submit fun j hj => hc j (by simpa [TcpCall.slots] using hj)
  · cases h

theorem confined_calls {cs : List TcpCall} (h : s.calls T cs = some s') (hcs : ∀ c ∈ cs, c.IsFor i) :
    Confined i s s' :=
  Runs.foldlM_keeps (R := Confined i s) (fun _ c _ hc hs hcall => hs.trans (confined_call hcall (hcs c hc)))
    (.refl i s) h

end TcpServer

open TcpServer

namespace Machine

variable {T : ServerType} {app : App σ ε} {m m' : Machine σ} {i : ℕ}

/-- Callbacks for client `i` keep `Q` and call the server for this client only. -/
def ServesOnly (app : App σ ε) (i : ℕ) (Q : σ → Prop) : Prop :=
  ∀ a env cb a' cs, Q a → cb.client = some i → app.invoke a (env, cb) = some (a', cs) →
    Q a' ∧ ∀ c ∈ cs, c.IsFor i

/-- Nothing was changed of any client but `i`, and callbacks were called for this client only. -/
structure Inside (i : ℕ) (Q : σ → Prop) (before : TcpServer) (m : Machine σ) : Prop where
  tcp : Confined i before m.tcp
  app : Q m.app
  log : ∀ cb ∈ m.log, cb.client = some i

namespace Inside

variable {Q : σ → Prop} {before s : TcpServer}

theorem onTcp (h : Inside i Q before m) (hs : Confined i m.tcp s) : Inside i Q before (m.onTcp fun _ => s) :=
  ⟨h.tcp.trans hs, h.app, h.log⟩

theorem callback (h : Inside i Q before m) (happ : ServesOnly app i Q) (env : ε) {cb : Callback}
    {result : Option (σ × List TcpCall)} (hclient : cb.client = some i)
    (hinvoke : app.invoke m.app (env, cb) = result) (hcb : m.callback T cb result = some m') :
    Inside i Q before m' := by
  obtain ⟨a, cs, hresult, hcalls, rfl, hlog⟩ := callback_eq_some hcb
  obtain ⟨hkept, hfor⟩ := happ _ _ _ _ _ h.app hclient (hinvoke.trans hresult)
  refine ⟨h.tcp.trans (confined_calls hcalls hfor), hkept, fun cb' hmem => ?_⟩
  rw [hlog] at hmem
  rcases List.mem_append.mp hmem with hmem | hmem
  · exact h.log cb' hmem
  · exact List.mem_singleton.mp hmem ▸ hclient

theorem acceptCb (h : Inside i Q before m) (happ : ServesOnly app i Q) (env : ε)
    (hcb : m.acceptCb app i = some m') : Inside i Q before m' := by
  obtain ⟨a, ha, rfl⟩ := Option.map_eq_some_iff.mp hcb
  have hinvoke : app.invoke m.app (env, .accept i) = some (a, []) := congrArg (Option.map (·, [])) ha
  refine ⟨h.tcp, (happ _ env (.accept i) a [] h.app rfl hinvoke).1, fun cb hmem => ?_⟩
  rcases List.mem_append.mp hmem with hmem | hmem
  · exact h.log cb hmem
  · rw [List.mem_singleton.mp hmem]
    rfl

theorem closeCb (h : Inside i Q before m) (happ : ServesOnly app i Q) (env : ε) {info : ℤ}
    (hcb : closeCb app i m info = some m') : Inside i Q before m' := by
  obtain ⟨a, ha, rfl⟩ := Option.map_eq_some_iff.mp hcb
  have hinvoke : app.invoke m.app (env, .close i info) = some (a, []) := congrArg (Option.map (·, [])) ha
  refine ⟨h.tcp, (happ _ env (.close i info) a [] h.app rfl hinvoke).1, fun cb hmem => ?_⟩
  rcases List.mem_append.mp hmem with hmem | hmem
  · exact h.log cb hmem
  · rw [List.mem_singleton.mp hmem]
    rfl

theorem drainAndClose (h : Inside i Q before m) (happ : ServesOnly app i Q) (env : ε)
    (hclose : m.drainAndClose T app i = some m') : Inside i Q before m' := by
  obtain ⟨m₁, hm₁, rfl⟩ := Option.map_eq_some_iff.mp hclose
  have hcallbacks : Inside i Q before m₁ :=
    Runs.foldlM_keeps (fun _ _ _ _ hb hcb => hb.closeCb happ env hcb) h hm₁
  exact hcallbacks.onTcp ((alters_setQueue []).confined.trans confined_closeConnection)

end Inside

variable {Q : σ → Prop} {before : TcpServer} {sub : Submission} {c : Completion ε}

theorem inside_plainHandler (h : Inside i Q before m) (happ : ServesOnly app i Q)
    (hidx : sub.req.clientIdx = some i) (hhandled : m.plainHandler app sub i c = some m') : Inside i Q before m' := by
  refine plainHandler_rule hhandled (R := Inside i Q before) (fun _ s hs hm' => ?_) (fun _ front _ _ => ?_)
    (fun _ _ rest _ _ _ hm' => ?_) (fun _ _ _ hm' => ?_) h
  · exact (h.onTcp hs.alters.confined).callback happ c.env rfl rfl hm'
  · refine h.onTcp (confined_submit fun j hj => ?_)
    exact Option.some.inj (hj.symm.trans hidx)
  · have hnext : Confined i m.tcp ((m.tcp.endWrite i).writeNext i rest) :=
      alters_endWrite.confined.trans (alters_writeNext rest).confined
    exact (h.onTcp hnext).callback happ c.env rfl rfl hm'
  · exact (h.onTcp alters_endWrite.confined).callback happ c.env rfl rfl hm'

theorem inside_tlsHandler (h : Inside i Q before m) (happ : ServesOnly app i Q)
    (hhandled : m.tlsHandler app sub i c = some m') : Inside i Q before m' := by
  have hactive : ∀ s : TcpServer, Confined i s { s with activeConnections := insert i s.activeConnections } := fun s =>
    ⟨fun _ _ => rfl, fun _ _ => rfl, fun j hj => by simp [hj], fun _ _ => Iff.rfl, rfl, rfl⟩
  have hended : ∀ s, Touches i (m.tcp.endWrite i) s → Confined i m.tcp s := fun s hs =>
    alters_endWrite.confined.trans hs.alters.confined
  have haccepted : ∀ s m₁ s₁, Touches i m.tcp s → (m.onTcp fun _ => s).acceptCb app i = some m₁ →
      Touches i { s with activeConnections := insert i s.activeConnections } s₁ →
      Inside i Q before (m₁.onTcp fun _ => s₁) := by
    intro s m₁ s₁ hs hcb hs₁
    have hcalled := (h.onTcp hs.alters.confined).acceptCb happ c.env hcb
    obtain ⟨a, -, rfl⟩ := Option.map_eq_some_iff.mp hcb
    exact hcalled.onTcp ((hactive s).trans hs₁.alters.confined)
  refine tlsHandler_rule hhandled (R := Inside i Q before) (fun s hs => ?_) (fun _ _ s buffer hs hm' => ?_)
    (fun _ s m₁ s₁ hs hcb hs₁ => haccepted s m₁ s₁ hs hcb hs₁)
    (fun _ _ s m₁ s₁ buffer hs hcb hs₁ hm' => ?_) (fun _ _ s front rest m₁ s₁ hs _ hcb hs₁ => ?_)
  · exact hs.elim (fun hs => h.onTcp hs.alters.confined) fun hs => h.onTcp (hended s hs)
  · exact (h.onTcp hs.alters.confined).callback happ c.env rfl rfl hm'
  · exact (haccepted s m₁ s₁ hs hcb hs₁).callback happ c.env rfl rfl hm'
  · have hpopped : Confined i m.tcp (s.setQueue i rest) := (hended s hs).trans (alters_setQueue rest).confined
    exact ((h.onTcp hpopped).callback happ c.env rfl rfl hcb).onTcp hs₁.alters.confined

/-- The completion of a request of client `i`. -/
theorem inside_step {log : List Callback} (happ : ServesOnly app i Q) (hm : Q m.app)
    (hsub : m.tcp.inflight[c.index]? = some sub) (hidx : sub.req.clientIdx = some i)
    (hevent : sub.req.event.OfClient ∨ sub.req.event = .customRead)
    (hstep : step T app m c = some (m', log)) : Inside i Q m.tcp m' ∧ log = m'.log := by
  obtain ⟨sub', hsub', hhandled, rfl⟩ := step_eq_some hstep
  obtain rfl := Option.some.inj (hsub.symm.trans hsub')
  refine ⟨?_, rfl⟩
  have htaken : Inside i Q m.tcp (m.take c) := ⟨confined_takeCompleted hsub hidx c.wolf, hm, by simp⟩
  rcases hevent with hevent | hevent
  · rw [dispatch_ofClient hevent, hidx, Option.bind_some] at hhandled
    have hkept : ∀ s, s = (m.take c).tcp ∨ s = (m.take c).tcp.endWrite i → Confined i (m.take c).tcp s :=
      fun s hs => (Alters.endedOrNot hs).confined
    refine clientEvent_rule hhandled (R := Inside i Q m.tcp) (fun s hs _ _ _ hclose => ?_)
      (fun s hs => htaken.onTcp (hkept s hs)) (fun _ _ _ _ hplain => inside_plainHandler htaken happ hidx hplain)
      (fun _ _ _ _ htls => inside_tlsHandler htaken happ htls)
    exact (htaken.onTcp (hkept s hs)).drainAndClose happ c.env hclose
  · simp only [dispatch, hevent] at hhandled
    refine customRead_rule hhandled (R := Inside i Q m.tcp) (fun readData hfinished => ?_) (fun readData readAmount => ?_)
    · have hfinish : Inside i Q m.tcp ((m.take c).onTcp fun s =>
          { s with finishedReads := s.finishedReads ++ [(sub.file, readData)] }) := by
        refine htaken.onTcp ?_
        exact ⟨fun _ _ => rfl, fun _ _ => rfl, fun _ _ => Iff.rfl, fun _ _ => Iff.rfl, rfl, rfl⟩
      have hclient : (Callback.customRead sub.req.clientIdx sub.req.customInfo readData).client = some i := hidx
      exact hfinish.callback happ c.env hclient rfl hfinished
    · refine htaken.onTcp (confined_submit fun j hj => ?_)
      exact Option.some.inj (hj.symm.trans hidx)

end Machine

end LiburingServer
