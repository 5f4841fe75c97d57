import LiburingServer.TcpFrame

/-! The callbacks of a slot in their order. The plain server calls the accept callback when it assigns the
slot, the TLS server when the handshake is done; until then nothing keeps the server from handling a failed
request of the client like that of a client that was accepted. -/

namespace LiburingServer

variable {σ ε : Type*}

/-- The client slot that a callback is for. -/
def Callback.slot : Callback → Option ℕ
  | .accept i | .close i _ | .read i _ | .write i _ => some i
  | .event | .customRead _ _ _ => none

/-- A read, write or close callback for slot `i`. -/
def Callback.Serves (cb : Callback) (i : ℕ) : Prop := cb.slot = some i ∧ cb ≠ .accept i

/-- A callback and the occupant of its slot. -/
def TcpServer.date (s : TcpServer) (cb : Callback) : Callback × ℕ :=
  (cb, (cb.slot.map s.occupants).getD 0)

/-- A round of the loop whose callbacks are dated. -/
def Machine.dated (T : ServerType) (app : App σ ε) (m : Machine σ) (c : Completion ε) :
    Option (Machine σ × List (Callback × ℕ)) :=
  (step T app m c).map fun r => (r.1, r.2.map r.1.tcp.date)

def noteAccept (accepted : ℕ → Option ℕ) : Callback × ℕ → ℕ → Option ℕ
  | (.accept i, k) => Function.update accepted i (some k)
  | _ => accepted

/-- The occupant of each slot that the last accept callback for the slot was called for. -/
def lastAccepted (trace : List (Callback × ℕ)) : ℕ → Option ℕ := trace.foldl noteAccept fun _ => none

/-- The last accept callback before each read, write and close callback is for the same occupant. -/
def Announced (trace : List (Callback × ℕ)) : Prop :=
  ∀ earlier cb k later, trace = earlier ++ (cb, k) :: later → ∀ i, cb.Serves i →
    lastAccepted earlier i = some k

section

variable {trace : List (Callback × ℕ)} {cb : Callback} {i k : ℕ}

theorem lastAccepted_concat (e : Callback × ℕ) :
    lastAccepted (trace ++ [e]) = noteAccept (lastAccepted trace) e := by
  simp [lastAccepted]

theorem noteAccept_of_ne (h : ∀ i, cb ≠ .accept i) (accepted : ℕ → Option ℕ) :
    noteAccept accepted (cb, k) = accepted := by
  cases cb with
  | accept i => exact absurd rfl (h i)
  | _ => rfl

theorem Callback.Serves.ne_accept (h : cb.Serves i) (j : ℕ) : cb ≠ .accept j := by
  rintro rfl
  obtain ⟨hslot, hne⟩ := h
  obtain rfl : j = i := Option.some.inj hslot
  exact hne rfl

theorem announced_nil : Announced [] := by
  intro earlier cb k later heq
  simp at heq

theorem Announced.concat (h : Announced trace) {e : Callback × ℕ}
    (he : ∀ i, e.1.Serves i → lastAccepted trace i = some e.2) : Announced (trace ++ [e]) := by
  intro earlier cb k later heq i hserves
  rcases later.eq_nil_or_concat with rfl | ⟨before, last, rfl⟩
  · obtain ⟨rfl, hlast⟩ := List.append_inj' heq rfl
    obtain rfl := List.singleton_inj.mp hlast
    exact he i hserves
  · rw [List.concat_eq_append, ← List.cons_append, ← List.append_assoc] at heq
    obtain ⟨rfl, -⟩ := List.append_inj' heq rfl
    exact h earlier cb k before rfl i hserves

end

/-! ### Sessions -/

namespace TcpServer

theorem closeConnection_slots (T : ServerType) (s : TcpServer) (i : ℕ) :
    (s.closeConnection T i).numClients = s.numClients ∧ (s.closeConnection T i).occupants = s.occupants := by
  unfold closeConnection
  split
  · cases T with
    | nonTls => exact ⟨rfl, rfl⟩
    | tls =>
        have hshut : Touches i s (s.wolfCall i).1 := touches_wolfCall
        exact ⟨hshut.numClients, hshut.occupants⟩
  · exact ⟨rfl, rfl⟩

/-- The slot was assigned to a TLS client that is not active yet. -/
def InHandshake (s : TcpServer) (i : ℕ) : Prop := (s.clients i).ssl = true ∧ i ∉ s.activeConnections

instance (s : TcpServer) (i : ℕ) : Decidable (s.InHandshake i) := by unfold InHandshake; infer_instance

end TcpServer

/-- The accept callback was called for the present occupant of every slot that is not in its handshake. -/
structure SessionInv (T : ServerType) (accepted : ℕ → Option ℕ) (s : TcpServer) : Prop where
  plain : T = .nonTls → ∀ i, (s.clients i).ssl = false
  active : ∀ i ∈ s.activeConnections, i < s.numClients ∧ i ∉ s.freedIndexes
  freed : ∀ i ∈ s.freedIndexes, i < s.numClients ∧ (s.clients i).ssl = false
  accepted : ∀ i < s.numClients, ¬s.InHandshake i → accepted i = some (s.occupants i)

open TcpServer

namespace SessionInv

variable {T : ServerType} {accepted : ℕ → Option ℕ} {s s' : TcpServer} {i : ℕ}

theorem congr (h : SessionInv T accepted s) (hs : SameSlots s s') : SessionInv T accepted s' := by
  refine ⟨fun hT i => ?_, ?_, ?_, ?_⟩
  · rw [hs.ssl, h.plain hT]
  · rw [hs.activeConnections, hs.numClients, hs.freedIndexes]
    exact h.active
  · simp only [hs.freedIndexes, hs.numClients, hs.ssl]
    exact h.freed
  · simp only [InHandshake, hs.activeConnections, hs.numClients, hs.occupants, hs.ssl]
    exact h.accepted

/-- A slot whose occupant was accepted is freed. -/
theorem freeSlot (h : SessionInv T accepted s) (hi : i < s.numClients) (hssl : (s.clients i).ssl = false)
    (haccepted : accepted i = some (s.occupants i)) : SessionInv T accepted (s.freeSlot i) := by
  have hkept : ∀ j, ((s.freeSlot i).clients j).ssl = (s.clients j).ssl := by
    intro j
    by_cases hj : j = i <;> simp [TcpServer.freeSlot, setQueue, modifyClient, hj]
  refine ⟨fun hT j => (hkept j).trans (h.plain hT j), fun j hj => ?_, fun j hj => ?_, fun j hj hshaken => ?_⟩
  · obtain ⟨hne, hactive⟩ := Finset.mem_erase.mp hj
    obtain ⟨hlt, hnot⟩ := h.active j hactive
    exact ⟨hlt, by simpa [TcpServer.freeSlot, hne] using hnot⟩
  · rw [hkept]
    rcases Finset.mem_insert.mp hj with rfl | hj
    · exact ⟨hi, hssl⟩
    · exact h.freed j hj
  · by_cases hne : j = i
    · exact hne ▸ haccepted
    · refine h.accepted j hj fun hhandshake => hshaken ⟨(hkept j).trans hhandshake.1, fun hmem => ?_⟩
      exact hhandshake.2 (Finset.mem_of_mem_erase hmem)

/-- The session of a slot ends. -/
theorem endSession (h : SessionInv T accepted s) (haccepted : accepted i = some (s.occupants i)) :
    SessionInv T accepted (s.modifyClient i fun client => { client with ssl := false }) := by
  have hssl : ∀ j, j ≠ i →
      ((s.modifyClient i fun client => { client with ssl := false }).clients j).ssl = (s.clients j).ssl :=
    fun j hj => by rw [modifyClient_of_ne _ _ _ _ hj]
  refine ⟨fun hT j => ?_, h.active, fun j hj => ⟨(h.freed j hj).1, ?_⟩, fun j hj hshaken => ?_⟩
  · by_cases hj : j = i
    · simp [hj]
    · rw [hssl j hj, h.plain hT]
  · by_cases hne : j = i
    · simp [hne]
    · rw [hssl j hne, (h.freed j hj).2]
  · by_cases hne : j = i
    · exact hne ▸ haccepted
    · exact h.accepted j hj fun hhandshake => hshaken ⟨(hssl j hne).trans hhandshake.1, hhandshake.2⟩

theorem closeConnection (h : SessionInv T accepted s) (hi : i < s.numClients)
    (haccepted : accepted i = some (s.occupants i)) : SessionInv T accepted (s.closeConnection T i) := by
  unfold TcpServer.closeConnection
  split
  · cases T with
    | nonTls => exact h.freeSlot hi (h.plain rfl i) haccepted
    | tls =>
        have hshut : SameSlots s (s.wolfCall i).1 := touches_wolfCall.alters.sameSlots
        have hlt : i < (s.wolfCall i).1.numClients := hshut.numClients ▸ hi
        have hoccupant : accepted i = some ((s.wolfCall i).1.occupants i) := hshut.occupants ▸ haccepted
        exact ((h.congr hshut).endSession hoccupant).freeSlot hlt (by simp) hoccupant
  · exact h

/-- The calls of a callback for a slot whose occupant was accepted, which close no other slot. -/
theorem calls {cs : List TcpCall} (h : SessionInv T accepted s) (haccepted : accepted i = some (s.occupants i))
    (hcs : ∀ c ∈ cs, ∀ j, c = .closeConnection j → j = i) (hcalls : s.calls T cs = some s') :
    SessionInv T accepted s' ∧ s'.occupants = s.occupants := by
  refine Runs.foldlM_keeps (R := fun x => SessionInv T accepted x ∧ x.occupants = s.occupants) ?_ ⟨h, rfl⟩ hcalls
  rintro b c b' hc ⟨hb, hoccupants⟩ hcall
  by_cases hclose : ∃ j, c = .closeConnection j
  · obtain ⟨j, rfl⟩ := hclose
    obtain rfl : j = i := hcs _ hc j rfl
    unfold call at hcall
    split at hcall
    · rename_i hslots
      obtain rfl := Option.some.inj hcall
      have hlt : j < b.numClients := hslots j (by simp [TcpCall.slots])
      exact ⟨hb.closeConnection hlt (hoccupants ▸ haccepted), (closeConnection_slots T b j).2.trans hoccupants⟩
    · cases hcall
  · have hsame := sameSlots_call (fun j hj => hclose ⟨j, hj⟩) hcall
    exact ⟨hb.congr hsame, hsame.occupants.trans hoccupants⟩

/-- The accept callback is called for the present occupant of a slot. -/
theorem note (h : SessionInv T accepted s) (i : ℕ) :
    SessionInv T (Function.update accepted i (some (s.occupants i))) s := by
  refine ⟨h.plain, h.active, h.freed, fun j hj hshaken => ?_⟩
  by_cases hne : j = i
  · rw [hne, Function.update_self]
  · rw [Function.update_of_ne hne, h.accepted j hj hshaken]

/-- A slot that is not free becomes active. -/
theorem activate (h : SessionInv T accepted s) (hi : i < s.numClients) (hfree : i ∉ s.freedIndexes)
    (haccepted : accepted i = some (s.occupants i)) :
    SessionInv T accepted { s with activeConnections := insert i s.activeConnections } := by
  refine ⟨h.plain, fun j hj => ?_, h.freed, fun j hj hshaken => ?_⟩
  · rcases Finset.mem_insert.mp hj with rfl | hj
    · exact ⟨hi, hfree⟩
    · exact h.active j hj
  · by_cases hne : j = i
    · exact hne ▸ haccepted
    · refine h.accepted j hj fun hhandshake => hshaken ⟨hhandshake.1, fun hmem => ?_⟩
      exact hhandshake.2 (Finset.mem_of_mem_insert_of_ne hmem hne)

/-- A slot is handed out to a new occupant, who will be accepted. -/
theorem setupClient (h : SessionInv T accepted s) (sockfd : ℤ) :
    SessionInv T (Function.update accepted (s.setupClient sockfd).2
        (some ((s.setupClient sockfd).1.occupants (s.setupClient sockfd).2))) (s.setupClient sockfd).1 ∧
      (s.setupClient sockfd).2 < (s.setupClient sockfd).1.numClients ∧
      (s.setupClient sockfd).2 ∉ (s.setupClient sockfd).1.freedIndexes ∧
      (s.setupClient sockfd).2 ∉ (s.setupClient sockfd).1.activeConnections := by
  unfold TcpServer.setupClient
  split
  · rename_i hne
    set index := s.freedIndexes.min' hne
    have hmem : index ∈ s.freedIndexes := Finset.min'_mem _ _
    have hinactive : index ∉ s.activeConnections := fun hactive => (h.active index hactive).2 hmem
    refine ⟨⟨fun hT j => ?_, fun j hj => ?_, fun j hj => ?_, fun j hj hshaken => ?_⟩, (h.freed index hmem).1,
      Finset.notMem_erase _ _, hinactive⟩
    · by_cases hj : j = index <;> simp [hj, h.plain hT]
    · obtain ⟨hlt, hnot⟩ := h.active j hj
      exact ⟨hlt, fun hfree => hnot (Finset.mem_of_mem_erase hfree)⟩
    · obtain ⟨hj, hfree⟩ := Finset.mem_erase.mp hj
      simpa [hj] using h.freed j hfree
    · by_cases hne : j = index
      · simp [hne]
      · simp only [InHandshake, Function.update_of_ne hne] at hshaken ⊢
        exact h.accepted j hj hshaken
  · have hinactive : s.numClients ∉ s.activeConnections :=
      fun hactive => absurd (h.active _ hactive).1 (lt_irrefl _)
    have hfree : s.numClients ∉ s.freedIndexes := fun hfree => absurd (h.freed _ hfree).1 (lt_irrefl _)
    refine ⟨⟨fun hT j => ?_, fun j hj => ?_, fun j hj => ?_, fun j hj hshaken => ?_⟩, Nat.lt_succ_self _, hfree,
      hinactive⟩
    · by_cases hj : j = s.numClients <;> simp [hj, h.plain hT]
    · exact ⟨Nat.lt_succ_of_lt (h.active j hj).1, (h.active j hj).2⟩
    · have hlt := (h.freed j hj).1
      simpa [hlt.ne, Nat.lt_succ_of_lt hlt] using (h.freed j hj).2
    · by_cases hne : j = s.numClients
      · simp [hne]
      · have hlt : j < s.numClients + 1 := hj
        simp only [InHandshake, Function.update_of_ne hne] at hshaken ⊢
        exact h.accepted j (by omega) hshaken

/-- The session of a slot that was handed out begins. -/
theorem startSession {k : Option ℕ} (h : SessionInv .tls (Function.update accepted i k) s)
    (hfree : i ∉ s.freedIndexes) (hinactive : i ∉ s.activeConnections) :
    SessionInv .tls accepted (s.modifyClient i fun client => { client with ssl := true }) := by
  have hssl : ∀ j, j ≠ i →
      ((s.modifyClient i fun client => { client with ssl := true }).clients j).ssl = (s.clients j).ssl :=
    fun j hj => by rw [modifyClient_of_ne _ _ _ _ hj]
  refine ⟨fun hT => (by cases hT), h.active, fun j hj => ⟨(h.freed j hj).1, ?_⟩, fun j hj hshaken => ?_⟩
  · have hne : j ≠ i := fun heq => hfree (heq ▸ hj)
    rw [hssl j hne, (h.freed j hj).2]
  · by_cases hne : j = i
    · exact absurd ⟨by simp [hne], hne ▸ hinactive⟩ hshaken
    · have hbefore := h.accepted j hj fun hhandshake => hshaken ⟨(hssl j hne).trans hhandshake.1, hhandshake.2⟩
      rwa [Function.update_of_ne hne] at hbefore

end SessionInv

/-! ### The callbacks of the server -/

/-- The callbacks keep `Q`, which depends on the slots for which the accept callback was called. A callback
for a client is only called for such a slot, and closes no other one. -/
structure App.Attends (app : App σ ε) (Q : σ → Set ℕ → Prop) : Prop where
  accept : ∀ a A i a', Q a A → app.acceptCb a i = some a' → Q a' (insert i A)
  close : ∀ a A i info a', Q a A → i ∈ A → app.closeCb a i info = some a' → Q a' A
  read : ∀ env a A i buffer r, Q a A → i ∈ A → app.readCb env a i buffer = some r →
    Q r.1 A ∧ ∀ c ∈ r.2, ∀ j, c = .closeConnection j → j = i
  write : ∀ env a A i info r, Q a A → i ∈ A → app.writeCb env a i info = some r →
    Q r.1 A ∧ ∀ c ∈ r.2, ∀ j, c = .closeConnection j → j = i
  event : ∀ env a A r, Q a A → app.eventCb env a = some r →
    Q r.1 A ∧ ∀ c ∈ r.2, ∀ j, c ≠ .closeConnection j
  customRead : ∀ env a A i fd buffer r, Q a A → app.customReadCb env a i fd buffer = some r →
    Q r.1 A ∧ ∀ c ∈ r.2, ∀ j, c ≠ .closeConnection j

namespace Machine

variable {T : ServerType} {app : App σ ε} {Q : σ → Set ℕ → Prop} {m m' : Machine σ} {s : TcpServer}
  {past : List (Callback × ℕ)} {i : ℕ} {env : ε}

/-- The callbacks of the rounds before and of this one. -/
def history (past : List (Callback × ℕ)) (m : Machine σ) : List (Callback × ℕ) :=
  past ++ m.log.map m.tcp.date

/-- The accept callback was last called for the present occupant of the slot. -/
def Accepted (past : List (Callback × ℕ)) (m : Machine σ) (i : ℕ) : Prop :=
  lastAccepted (m.history past) i = some (m.tcp.occupants i)

/-- The slots for which the accept callback was called. -/
def acceptedSlots (past : List (Callback × ℕ)) (m : Machine σ) : Set ℕ :=
  {i | (lastAccepted (m.history past) i).isSome}

structure AcceptInv (T : ServerType) (Q : σ → Set ℕ → Prop) (past : List (Callback × ℕ)) (m : Machine σ) :
    Prop where
  announced : Announced (m.history past)
  app : Q m.app (m.acceptedSlots past)
  sessions : SessionInv T (lastAccepted (m.history past)) m.tcp

theorem Accepted.mem (h : m.Accepted past i) : i ∈ m.acceptedSlots past := by
  show (lastAccepted (m.history past) i).isSome
  rw [h]
  rfl

theorem history_onTcp (hs : s.occupants = m.tcp.occupants) :
    (m.onTcp fun _ => s).history past = m.history past := by
  have hdate : s.date = m.tcp.date := by
    funext cb
    simp only [TcpServer.date, hs]
  simp only [history, onTcp_tcp, onTcp_log, hdate]

theorem Accepted.onTcp (h : m.Accepted past i) (hs : s.occupants = m.tcp.occupants) :
    (m.onTcp fun _ => s).Accepted past i := by
  simp only [Accepted, history_onTcp hs, onTcp_tcp, hs]
  exact h

namespace AcceptInv

theorem onTcp (h : AcceptInv T Q past m) (hhistory : (m.onTcp fun _ => s).history past = m.history past)
    (hs : SessionInv T (lastAccepted (m.history past)) s) : AcceptInv T Q past (m.onTcp fun _ => s) := by
  refine ⟨?_, ?_, ?_⟩
  · rw [hhistory]
    exact h.announced
  · simp only [acceptedSlots, hhistory]
    exact h.app
  · rw [hhistory]
    exact hs

theorem congr (h : AcceptInv T Q past m) (hs : SameSlots m.tcp s) : AcceptInv T Q past (m.onTcp fun _ => s) :=
  h.onTcp (history_onTcp hs.occupants) (h.sessions.congr hs)

end AcceptInv

/-- A callback that is no accept callback, for a slot only if its occupant was accepted, and its calls. -/
theorem acceptInv_calls {cb : Callback} {a : σ} (h : AcceptInv T Q past m) (hcb : ∀ i, cb ≠ .accept i)
    (hserves : ∀ i, cb.Serves i → m.Accepted past i) (ha : Q a (m.acceptedSlots past))
    (hs : SessionInv T (lastAccepted (m.history past)) s) (hoccupants : s.occupants = m.tcp.occupants) :
    AcceptInv T Q past ⟨s, a, m.log ++ [cb]⟩ ∧
      lastAccepted (Machine.history past ⟨s, a, m.log ++ [cb]⟩) = lastAccepted (m.history past) := by
  have hdate : s.date = m.tcp.date := by
    funext cb
    simp only [TcpServer.date, hoccupants]
  have hhistory : Machine.history past ⟨s, a, m.log ++ [cb]⟩ = m.history past ++ [m.tcp.date cb] := by
    simp [Machine.history, hdate]
  have hlast : lastAccepted (m.history past ++ [m.tcp.date cb]) = lastAccepted (m.history past) := by
    rw [lastAccepted_concat]
    exact noteAccept_of_ne hcb _
  refine ⟨⟨?_, ?_, ?_⟩, by rw [hhistory, hlast]⟩
  · rw [hhistory]
    refine h.announced.concat fun i hi => ?_
    have hslot : cb.slot = some i := hi.1
    rw [hserves i hi]
    simp [TcpServer.date, hslot]
  · simp only [acceptedSlots, hhistory, hlast]
    exact ha
  · rw [hhistory, hlast]
    exact hs

/-- A read or write callback. -/
theorem acceptInv_serve {cb : Callback} {result : Option (σ × List TcpCall)} (h : AcceptInv T Q past m)
    (hi : m.Accepted past i) (hcb : cb.Serves i)
    (hresult : ∀ r, result = some r → Q r.1 (m.acceptedSlots past) ∧
      ∀ c ∈ r.2, ∀ j, c = .closeConnection j → j = i)
    (hcallback : m.callback T cb result = some m') : AcceptInv T Q past m' ∧ m'.Accepted past i := by
  obtain ⟨a, cs, hr, hcalls, happ, hlog⟩ := callback_eq_some hcallback
  obtain ⟨ha, hcs⟩ := hresult _ hr
  obtain ⟨hs, hoccupants⟩ := h.sessions.calls hi hcs hcalls
  have hserves : ∀ j, cb.Serves j → m.Accepted past j := by
    intro j hj
    obtain rfl : i = j := Option.some.inj (hcb.1.symm.trans hj.1)
    exact hi
  obtain ⟨hm', hlast⟩ := acceptInv_calls h hcb.ne_accept hserves ha hs hoccupants
  obtain ⟨tcp, a', log⟩ := m'
  simp only at happ hlog hs hoccupants hm' hlast
  obtain ⟨rfl, rfl⟩ := And.intro happ hlog
  refine ⟨hm', ?_⟩
  show lastAccepted _ i = some (tcp.occupants i)
  rw [hlast, hoccupants]
  exact hi

/-- A callback for no connection, which closes none. -/
theorem acceptInv_other {cb : Callback} {result : Option (σ × List TcpCall)} (h : AcceptInv T Q past m)
    (hcb : cb.slot = none)
    (hresult : ∀ r, result = some r → Q r.1 (m.acceptedSlots past) ∧
      ∀ c ∈ r.2, ∀ j, c ≠ .closeConnection j)
    (hcallback : m.callback T cb result = some m') : AcceptInv T Q past m' := by
  obtain ⟨a, cs, hr, hcalls, happ, hlog⟩ := callback_eq_some hcallback
  obtain ⟨ha, hcs⟩ := hresult _ hr
  have hsame : SameSlots m.tcp m'.tcp := sameSlots_calls hcs hcalls
  have hne : ∀ i, cb ≠ .accept i := by
    rintro i rfl
    cases hcb
  have hserves : ∀ i, cb.Serves i → m.Accepted past i := by
    rintro i ⟨hslot, -⟩
    rw [hcb] at hslot
    cases hslot
  have hm' := (acceptInv_calls h hne hserves ha (h.sessions.congr hsame) hsame.occupants).1
  obtain ⟨tcp, a', log⟩ := m'
  simp only at happ hlog
  obtain ⟨rfl, rfl⟩ := And.intro happ hlog
  exact hm'

theorem acceptInv_closeCb {info : ℤ} (happ : app.Attends Q) (h : AcceptInv T Q past m) (hi : m.Accepted past i)
    (hcb : closeCb app i m info = some m') :
    AcceptInv T Q past m' ∧ ∀ j, m.Accepted past j → m'.Accepted past j := by
  obtain ⟨a, ha, rfl⟩ := Option.map_eq_some_iff.mp hcb
  have hserves : ∀ j, (Callback.close i info).Serves j → m.Accepted past j := by
    rintro j ⟨hslot, -⟩
    obtain rfl : i = j := Option.some.inj hslot
    exact hi
  obtain ⟨hm', hlast⟩ := acceptInv_calls h (fun _ => by simp) hserves (happ.close _ _ _ _ _ h.app hi.mem ha)
    h.sessions rfl
  exact ⟨hm', fun j hj => (congrFun hlast j).trans hj⟩

/-- The accept callback, for the present occupant of a slot. -/
theorem acceptInv_acceptCb (happ : app.Attends Q) (hannounced : Announced (m.history past))
    (hQ : Q m.app (m.acceptedSlots past))
    (hsessions : SessionInv T
      (Function.update (lastAccepted (m.history past)) i (some (m.tcp.occupants i))) m.tcp)
    (hcb : m.acceptCb app i = some m') :
    AcceptInv T Q past m' ∧ m'.Accepted past i ∧ m'.tcp = m.tcp := by
  obtain ⟨a, ha, rfl⟩ := Option.map_eq_some_iff.mp hcb
  have hhistory : Machine.history past { m with app := a, log := m.log ++ [.accept i] } =
      m.history past ++ [(.accept i, m.tcp.occupants i)] := by
    simp [Machine.history, TcpServer.date, Callback.slot]
  have hlast : lastAccepted (m.history past ++ [(.accept i, m.tcp.occupants i)]) =
      Function.update (lastAccepted (m.history past)) i (some (m.tcp.occupants i)) :=
    lastAccepted_concat _
  refine ⟨⟨?_, ?_, ?_⟩, ?_, rfl⟩
  · rw [hhistory]
    refine hannounced.concat fun j hj => ?_
    exact absurd rfl (hj.ne_accept i)
  · have hslots : Machine.acceptedSlots past { m with app := a, log := m.log ++ [.accept i] } =
        insert i (m.acceptedSlots past) := by
      ext j
      simp only [acceptedSlots, hhistory, hlast, Set.mem_ofPred_eq, Set.mem_insert_iff]
      by_cases hj : j = i <;> simp [hj]
    rw [hslots]
    exact happ.accept _ _ _ _ hQ ha
  · rw [hhistory, hlast]
    exact hsessions
  · simp only [Accepted, hhistory, hlast, Function.update_self]

theorem acceptInv_drainAndClose (happ : app.Attends Q) (h : AcceptInv T Q past m) (hlt : i < m.tcp.numClients)
    (hi : m.Accepted past i) (hclose : m.drainAndClose T app i = some m') :
    AcceptInv T Q past m' ∧ m'.tcp.numClients = m.tcp.numClients ∧
      ∀ j, m.Accepted past j → m'.Accepted past j := by
  obtain ⟨m₁, hm₁, rfl⟩ := Option.map_eq_some_iff.mp hclose
  obtain ⟨hinv, haccepted, htcp⟩ : AcceptInv T Q past m₁ ∧ (∀ j, m.Accepted past j → m₁.Accepted past j) ∧
      m₁.tcp = m.tcp := by
    refine Runs.foldlM_keeps (R := fun x => AcceptInv T Q past x ∧
      (∀ j, m.Accepted past j → x.Accepted past j) ∧ x.tcp = m.tcp) ?_ ⟨h, fun _ hj => hj, rfl⟩ hm₁
    rintro b info b' - ⟨hb, hkept, htcp⟩ hcb
    obtain ⟨hb', hkept'⟩ := acceptInv_closeCb happ hb (hkept i hi) hcb
    exact ⟨hb', fun j hj => hkept' j (hkept j hj), (closeCb_tcp hcb).trans htcp⟩
  have hdrained : SameSlots m₁.tcp (m₁.tcp.setQueue i []) := (alters_setQueue []).sameSlots
  obtain ⟨hnum, hoccupants⟩ := closeConnection_slots T (m₁.tcp.setQueue i []) i
  have hlast : lastAccepted (m₁.history past) i = some ((m₁.tcp.setQueue i []).occupants i) := by
    rw [hdrained.occupants]
    exact haccepted i hi
  have hlt' : i < (m₁.tcp.setQueue i []).numClients := by
    rw [hdrained.numClients, htcp]
    exact hlt
  have hsame : ((m₁.tcp.setQueue i []).closeConnection T i).occupants = m₁.tcp.occupants :=
    hoccupants.trans hdrained.occupants
  refine ⟨hinv.onTcp (history_onTcp hsame) ((hinv.sessions.congr hdrained).closeConnection hlt' hlast), ?_,
    fun j hj => ?_⟩
  · rw [onTcp_tcp, hnum, hdrained.numClients, htcp]
  · exact (haccepted j hj).onTcp hsame

theorem acceptInv_sweep {order halfClosed : List ℕ} (happ : app.Attends Q) (h : AcceptInv T Q past m)
    (hsweep : m.sweep T app order halfClosed = some m') : AcceptInv T Q past m' := by
  refine (sweep_rule hsweep (R := fun x => AcceptInv T Q past x ∧
    ∀ i ∈ m.tcp.activeConnections, i < x.tcp.numClients ∧ x.Accepted past i) ⟨h, fun i hi => ?_⟩
    fun x i x' hi _ hx hclose => ?_).1
  · have hlt := (h.sessions.active i hi).1
    exact ⟨hlt, h.sessions.accepted i hlt fun hhandshake => hhandshake.2 hi⟩
  · obtain ⟨hinv, hopen⟩ := hx
    obtain ⟨hlt, haccepted⟩ := hopen i hi
    obtain ⟨hinv', hnum, hkept⟩ := acceptInv_drainAndClose happ hinv hlt haccepted hclose
    exact ⟨hinv', fun j hj => ⟨hnum ▸ (hopen j hj).1, hkept j (hopen j hj).2⟩⟩

theorem acceptInv_plainHandler {sub : Submission} {c : Completion ε} (happ : app.Attends Q)
    (h : AcceptInv .nonTls Q past m) (hi : m.Accepted past i)
    (hhandled : m.plainHandler app sub i c = some m') : AcceptInv .nonTls Q past m' := by
  have hwrite : ∀ s info, SameSlots m.tcp s →
      (m.onTcp fun _ => s).writeCb .nonTls app c.env i info = some m' → AcceptInv .nonTls Q past m' := by
    intro s info hs hm'
    have hbefore : AcceptInv .nonTls Q past (m.onTcp fun _ => s) := h.congr hs
    have haccepted : (m.onTcp fun _ => s).Accepted past i := hi.onTcp hs.occupants
    exact (acceptInv_serve hbefore haccepted ⟨rfl, by simp⟩
      (fun r hr => happ.write _ _ _ _ _ _ hbefore.app haccepted.mem hr) hm').1
  refine plainHandler_rule hhandled (fun _ s hs hm' => ?_)
    (fun _ front rest _ => h.congr ⟨rfl, rfl, rfl, rfl, rfl, fun _ => rfl⟩)
    (fun _ front rest _ _ _ hm' => hwrite _ _ (alters_endWrite.trans (alters_writeNext rest)).sameSlots hm')
    (fun _ _ _ hm' => hwrite _ _ alters_endWrite.sameSlots hm') h
  have hbefore : AcceptInv .nonTls Q past (m.onTcp fun _ => s) := h.congr hs.alters.sameSlots
  have haccepted : (m.onTcp fun _ => s).Accepted past i := hi.onTcp hs.occupants
  exact (acceptInv_serve hbefore haccepted ⟨rfl, by simp⟩
    (fun r hr => happ.read _ _ _ _ _ _ hbefore.app haccepted.mem hr) hm').1

theorem acceptInv_tlsHandler {sub : Submission} {c : Completion ε} (happ : app.Attends Q)
    (h : AcceptInv .tls Q past m) (hi : i < m.tcp.numClients)
    (hread : sub.req.event = .read → m.tcp.Yields i 0 → m.Accepted past i)
    (hwrite : sub.req.event = .write → (m.tcp.clients i).sendData ≠ [] → m.tcp.Yields i (-1) → m.Accepted past i)
    (hhandled : m.tlsHandler app sub i c = some m') : AcceptInv .tls Q past m' := by
  have hserve : ∀ (m₁ : Machine σ) buffer, AcceptInv .tls Q past m₁ → m₁.Accepted past i →
      m₁.readCb .tls app c.env i buffer = some m' → AcceptInv .tls Q past m' := by
    intro m₁ buffer hm₁ haccepted hm'
    exact (acceptInv_serve hm₁ haccepted ⟨rfl, by simp⟩
      (fun r hr => happ.read _ _ _ _ _ _ hm₁.app haccepted.mem hr) hm').1
  -- the accept callback, after which the slot is active
  have haccept : m.tcp.Yields i 0 → ∀ s m₁ s₁, Touches i m.tcp s → (m.onTcp fun _ => s).acceptCb app i = some m₁ →
      Touches i { s with activeConnections := insert i s.activeConnections } s₁ →
      AcceptInv .tls Q past (m₁.onTcp fun _ => s₁) ∧ (m₁.onTcp fun _ => s₁).Accepted past i := by
    intro hyields s m₁ s₁ hs hm₁ hs₁
    have hbefore : AcceptInv .tls Q past (m.onTcp fun _ => s) := h.congr hs.alters.sameSlots
    obtain ⟨hinv, haccepted, htcp⟩ := acceptInv_acceptCb happ hbefore.announced hbefore.app
      (hbefore.sessions.note i) hm₁
    have hssl : (s.clients i).ssl = true := hs.ssl.trans hyields.1
    have hfree : i ∉ s.freedIndexes := by
      intro hfree
      have := (hbefore.sessions.freed i hfree).2
      simp [hssl] at this
    have hoccupants : s₁.occupants = m₁.tcp.occupants := by
      rw [hs₁.occupants, htcp]
      rfl
    have hsame : m₁.tcp = s := htcp
    have hsessions : SessionInv .tls (lastAccepted (m₁.history past)) s := hsame ▸ hinv.sessions
    have hlast : lastAccepted (m₁.history past) i = some (s.occupants i) := by
      rw [← hsame]
      exact haccepted
    have hactive := hsessions.activate (hs.numClients ▸ hi) hfree hlast
    exact ⟨hinv.onTcp (history_onTcp hoccupants) (hactive.congr hs₁.alters.sameSlots), haccepted.onTcp hoccupants⟩
  refine tlsHandler_rule hhandled (fun s hs => ?_) (fun hevent hyields s buffer hs hm' => ?_)
    (fun hyields s m₁ s₁ hs hm₁ hs₁ => (haccept hyields s m₁ s₁ hs hm₁ hs₁).1)
    (fun _ hyields s m₁ s₁ buffer hs hm₁ hs₁ hm' => ?_)
    (fun hevent hyields s front rest m₁ s₁ hs hqueue hm₁ hs₁ => ?_)
  · rcases hs with hs | hs
    · exact h.congr hs.alters.sameSlots
    · exact h.congr (alters_endWrite.trans hs.alters).sameSlots
  · exact hserve (m.onTcp fun _ => s) buffer (h.congr hs.alters.sameSlots)
      ((hread hevent hyields).onTcp hs.occupants) hm'
  · obtain ⟨hinv, haccepted⟩ := haccept hyields s m₁ s₁ hs hm₁ hs₁
    exact hserve (m₁.onTcp fun _ => s₁) buffer hinv haccepted hm'
  · have hnonempty : (m.tcp.clients i).sendData ≠ [] := by
      have hsame := hs.queue
      intro hnil
      simp [Client.queue, hqueue, endWrite, hnil] at hsame
    have hpopped : SameSlots m.tcp (s.setQueue i rest) :=
      (alters_endWrite.trans (hs.alters.trans (alters_setQueue rest))).sameSlots
    have hbefore : AcceptInv .tls Q past (m.onTcp fun _ => s.setQueue i rest) := h.congr hpopped
    have haccepted : (m.onTcp fun _ => s.setQueue i rest).Accepted past i :=
      (hwrite hevent hnonempty hyields).onTcp hpopped.occupants
    have hwritten := (acceptInv_serve hbefore haccepted ⟨rfl, by simp⟩
      (fun r hr => happ.write _ _ _ _ _ _ hbefore.app haccepted.mem hr) hm₁).1
    exact hwritten.congr hs₁.alters.sameSlots

/-- Handling the completion calls a read, write or close callback for slot `i`, which is in its handshake. -/
def Premature (m : Machine σ) (sub : Submission) (i : ℕ) (c : Completion ε) : Prop :=
  m.EndsFailed sub i c ∨ 0 < c.res ∧ (i = 0 ∨ (m.tcp.clients i).id = sub.req.ID) ∧
    (sub.req.event = .read ∧ 0 < (c.wolf.headD {}).ret ∨
      sub.req.event = .write ∧ (m.tcp.clients i).sendData ≠ [] ∧ -1 < (c.wolf.headD {}).ret)

instance (sub : Submission) (c : Completion ε) : Decidable (m.Premature sub i c) := by
  unfold Premature
  infer_instance

theorem acceptInv_clientEvent {sub : Submission} {c : Completion ε} (happ : app.Attends Q)
    (h : AcceptInv T Q past m) (hwolf : m.tcp.wolf = c.wolf)
    (hlate : T = .tls → m.tcp.InHandshake i → ¬m.Premature sub i c)
    (hhandled : m.clientEvent T app sub i c = some m') : AcceptInv T Q past m' := by
  -- a slot whose occupant was not accepted is in its handshake
  have haccepted : i < m.tcp.numClients → m.Premature sub i c → m.Accepted past i := by
    intro hi hcalls
    refine h.sessions.accepted i hi fun hhandshake => ?_
    cases T with
    | nonTls =>
        have := h.sessions.plain rfl i
        simp [hhandshake.1] at this
    | tls => exact hlate rfl hhandshake hcalls
  have hkept : ∀ s, s = m.tcp ∨ s = m.tcp.endWrite i → SameSlots m.tcp s :=
    fun s hs => (Alters.endedOrNot hs).sameSlots
  refine clientEvent_rule hhandled (fun s hs hi hends _ hclose => ?_) (fun s hs => h.congr (hkept s hs))
    (fun hT hi _ _ hm' => ?_) (fun hT hi hres hid hm' => ?_)
  · have hlt : i < (m.onTcp fun _ => s).tcp.numClients := (hkept s hs).numClients ▸ hi
    have hopen : (m.onTcp fun _ => s).Accepted past i := (haccepted hi (Or.inl hends)).onTcp (hkept s hs).occupants
    exact (acceptInv_drainAndClose happ (h.congr (hkept s hs)) hlt hopen hclose).1
  · subst hT
    refine acceptInv_plainHandler happ h (h.sessions.accepted i hi fun hhandshake => ?_) hm'
    have := h.sessions.plain rfl i
    simp [hhandshake.1] at this
  · subst hT
    refine acceptInv_tlsHandler happ h hi (fun hevent hyields => haccepted hi ?_)
      (fun hevent hnonempty hyields => haccepted hi ?_) hm'
    · exact Or.inr ⟨hres, hid, Or.inl ⟨hevent, hwolf ▸ hyields.2⟩⟩
    · exact Or.inr ⟨hres, hid, Or.inr ⟨hevent, hnonempty, hwolf ▸ hyields.2⟩⟩

/-- No completed request of a client calls a read, write or close callback for a TLS client in its
handshake. -/
def AcceptsFirst (T : ServerType) (m : Machine σ) (c : Completion ε) : Prop :=
  T = .tls → ∀ sub, m.tcp.inflight[c.index]? = some sub → sub.req.event.OfClient →
    ∀ i, sub.req.clientIdx = some i → m.tcp.InHandshake i → ¬m.Premature sub i c

instance (c : Completion ε) : Decidable (m.AcceptsFirst T c) :=
  inferInstanceAs (Decidable (T = .tls → ∀ sub ∈ m.tcp.inflight[c.index]?, sub.req.event.OfClient →
    ∀ i ∈ sub.req.clientIdx, m.tcp.InHandshake i → ¬m.Premature sub i c))

theorem acceptInv_plainAccept {res : ℤ} (happ : app.Attends Q) (h : AcceptInv .nonTls Q past m)
    (hlog : m.log = []) (hhandled : m.plainAccept app res = some m') : AcceptInv .nonTls Q past m' := by
  have hasked : SameSlots m.tcp (m.tcp.addEventReq .accept) := ⟨rfl, rfl, rfl, rfl, rfl, fun _ => rfl⟩
  simp only [plainAccept] at hhandled
  obtain ⟨m₁, hm₁, rfl⟩ := Option.map_eq_some_iff.mp hhandled
  obtain ⟨hsessions, hlt, hfree, -⟩ := (h.sessions.congr hasked).setupClient res
  generalize (m.tcp.addEventReq .accept).setupClient res = r at hm₁ hsessions hlt hfree ⊢
  have hhistory : (m.onTcp fun _ => { r.1 with activeConnections := insert r.2 r.1.activeConnections }).history
      past = m.history past := by
    simp [history, hlog]
  have hinv : AcceptInv .nonTls Q past m₁ := by
    refine (acceptInv_acceptCb happ ?_ ?_ ?_ hm₁).1
    · rw [hhistory]
      exact h.announced
    · simp only [acceptedSlots, hhistory]
      exact h.app
    · rw [hhistory]
      exact hsessions.activate hlt hfree (by simp)
  exact hinv.congr (touches_addReadReq (Or.inl rfl)).alters.sameSlots

theorem acceptInv_tlsAccept {res : ℤ} (h : AcceptInv .tls Q past m) (hlog : m.log = []) :
    AcceptInv .tls Q past (m.tlsAccept res) := by
  obtain ⟨hsessions, -, hfree, hinactive⟩ := h.sessions.setupClient res
  unfold tlsAccept
  generalize m.tcp.setupClient res = r at hsessions hfree hinactive ⊢
  have hasked : SameSlots r.1 (r.1.addEventReq .accept) := ⟨rfl, rfl, rfl, rfl, rfl, fun _ => rfl⟩
  have hstarted := (hsessions.congr hasked).startSession hfree hinactive
  refine h.onTcp (by simp [history, hlog]) (hstarted.congr ?_)
  exact touches_wolfCall.alters.sameSlots

/-- One round of the loop. -/
theorem acceptInv_step {c : Completion ε} {log : List (Callback × ℕ)} (happ : app.Attends Q)
    (h : AcceptInv T Q past ⟨m.tcp, m.app, []⟩) (hfirst : m.AcceptsFirst T c)
    (hstep : dated T app m c = some (m', log)) : AcceptInv T Q (past ++ log) ⟨m'.tcp, m'.app, []⟩ := by
  obtain ⟨⟨m₁, undated⟩, hround, heq⟩ := Option.map_eq_some_iff.mp hstep
  obtain ⟨rfl, rfl⟩ : m₁ = m' ∧ undated.map m₁.tcp.date = log := by simpa using heq
  obtain ⟨sub, hsub, hhandled, rfl⟩ := step_eq_some hround
  have htake : AcceptInv T Q past (m.take c) := h.congr ⟨rfl, rfl, rfl, rfl, rfl, fun _ => rfl⟩
  suffices hdone : AcceptInv T Q past m₁ by
    have hhistory : Machine.history (m₁.history past) ⟨m₁.tcp, m₁.app, []⟩ = m₁.history past := by
      simp [history]
    exact ⟨by rw [← history, hhistory]; exact hdone.announced,
      by rw [← history]; simp only [acceptedSlots, hhistory]; exact hdone.app,
      by rw [← history, hhistory]; exact hdone.sessions⟩
  refine dispatch_rule hhandled (fun _ => ?_) (fun _ hm' => ?_) (fun _ hm' => ?_) (fun _ m₁ hm₁ => ?_)
    (fun _ hT hm' => ?_) (fun _ hT => ?_) (fun i hidx hevent hm' => ?_)
  · exact htake.congr ⟨rfl, rfl, rfl, rfl, rfl, fun _ => rfl⟩
  · have hasked : AcceptInv T Q past ((m.take c).onTcp fun s => s.addEventReq .notification) :=
      htake.congr ⟨rfl, rfl, rfl, rfl, rfl, fun _ => rfl⟩
    exact acceptInv_other hasked rfl (fun r hr => happ.event _ _ _ _ hasked.app hr) hm'
  · refine customRead_rule hm' (fun _ hfinished => ?_)
      (fun _ _ => htake.congr ⟨rfl, rfl, rfl, rfl, rfl, fun _ => rfl⟩)
    have hstored : ∀ reads, AcceptInv T Q past ((m.take c).onTcp fun s => { s with finishedReads := reads }) :=
      fun _ => htake.congr ⟨rfl, rfl, rfl, rfl, rfl, fun _ => rfl⟩
    refine acceptInv_other (hstored _) ?_ (fun r hr => happ.customRead _ _ _ _ _ _ _ (hstored _).app hr) hfinished
    rfl
  · exact (acceptInv_sweep happ htake hm₁).congr ⟨rfl, rfl, rfl, rfl, rfl, fun _ => rfl⟩
  · subst hT
    exact acceptInv_plainAccept happ htake rfl hm'
  · subst hT
    exact acceptInv_tlsAccept htake rfl
  · exact acceptInv_clientEvent happ htake rfl (fun hT => hfirst hT sub hsub hevent i hidx) hm'

end Machine

/-- In every run in which no TLS client is served before it is accepted. -/
theorem announced_exec {T : ServerType} {app : App σ ε} {Q : σ → Set ℕ → Prop} (happ : app.Attends Q)
    {m m' : Machine σ} {cs : List (Completion ε)} {logs : List (List (Callback × ℕ))}
    (hm : Machine.AcceptInv T Q [] ⟨m.tcp, m.app, []⟩)
    (hcs : Runs.Along (Machine.dated T app) (Machine.AcceptsFirst T) m cs)
    (hrun : Runs.exec (Machine.dated T app) m cs = some (m', logs)) :
    Machine.AcceptInv T Q logs.flatten ⟨m'.tcp, m'.app, []⟩ := by
  have hhistory : Machine.AcceptInv T Q ([] ++ logs).flatten ⟨m'.tcp, m'.app, []⟩ := by
    refine Runs.exec_history
      (Q := fun (m : Machine σ) past => Machine.AcceptInv T Q past.flatten ⟨m.tcp, m.app, []⟩) ?_ hm hcs hrun
    intro m past c m₁ log h hfirst hstep
    have hdone := Machine.acceptInv_step happ h hfirst hstep
    rwa [List.flatten_append, List.flatten_singleton]
  exact hhistory

end LiburingServer
