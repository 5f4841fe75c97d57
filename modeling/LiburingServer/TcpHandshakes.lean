import LiburingServer.TcpFrame
import LiburingServer.TcpCallbacks
import LiburingServer.TcpSlots

/-! The handshakes of the TLS server. A slot that is neither active nor free is reached only through the requests
that its handshake has in flight; they are submitted by the I/O callbacks of wolfSSL, and a call of
`wolfSSL_accept` that invokes none leaves the slot with what it had. -/

namespace LiburingServer

open TcpServer

/-- A request of the handshake of slot `i`, for the occupant with the given ID. -/
def Submission.Negotiates (sub : Submission) (i : ℕ) (id : ℤ) : Prop :=
  sub.req.clientIdx = some i ∧ sub.req.ID = id ∧ (sub.req.event = .acceptRead ∨ sub.req.event = .acceptWrite)

instance (sub : Submission) (i : ℕ) (id : ℤ) : Decidable (sub.Negotiates i id) := by
  unfold Submission.Negotiates
  infer_instance

/-- Whether the callbacks that wolfSSL invokes during a handshake submit a request: `reading` says that a read is
in flight, `last` is `accept_last_written` and `n` the size of `recv_data`. -/
def asksIo (reading : Bool) : ℤ → ℕ → List WolfIo → Bool
  | _, _, [] => false
  | last, n, .send _ _ :: ios => last = -1 || asksIo reading (-1) n ios
  | last, n, .recv size :: ios =>
      if n = 0 ∨ n < size then !reading || asksIo reading last n ios else asksIo reading last (n - size) ios

/-- In a new session every callback submits a request. -/
theorem asksIo_fresh (ios : List WolfIo) : asksIo false (-1) 0 ios = true ↔ ios ≠ [] := by
  cases ios with
  | nil => simp [asksIo]
  | cons io ios =>
      cases io with
      | send size stale => simp [asksIo]
      | recv size => simp [asksIo]

namespace TcpServer

variable {s s' s'' : TcpServer} {i j : ℕ}

/-- A request of the handshake of the present occupant is in flight. -/
def Negotiates (s : TcpServer) (i : ℕ) : Prop := ∃ sub ∈ s.inflight, sub.Negotiates i (s.clients i).id

/-- The slot is free, or active, or in its handshake with a request in flight. -/
def Attended (s : TcpServer) (i : ℕ) : Prop := i ∈ s.freedIndexes ∨ i ∈ s.activeConnections ∨ s.Negotiates i

/-- The next call of wolfSSL on the session of slot `i` submits a request of its handshake. -/
def AsksIo (s : TcpServer) (i : ℕ) : Prop :=
  (s.clients i).ssl = true ∧ asksIo (s.clients i).readReqActive (s.clients i).acceptLastWritten
    (s.clients i).recvData.length (s.wolf.headD {}).io = true

instance (s : TcpServer) (i : ℕ) : Decidable (s.Negotiates i) := by
  unfold Negotiates
  infer_instance

instance (s : TcpServer) (i : ℕ) : Decidable (s.Attended i) := by
  unfold Attended
  infer_instance

instance (s : TcpServer) (i : ℕ) : Decidable (s.AsksIo i) := by
  unfold AsksIo
  infer_instance

/-! ### What wolfSSL submits -/

theorem negotiates_submit {sub : Submission} (h : sub.Negotiates i (s.clients i).id) : (s.submit sub).Negotiates i :=
  ⟨sub, by simp, h⟩

theorem Negotiates.touches (h : s.Negotiates i) (hs : Touches i s s') : s'.Negotiates i := by
  obtain ⟨sub, hsub, hneg⟩ := h
  obtain ⟨new, hnew, -⟩ := hs.inflight
  exact ⟨sub, by simp [hnew, hsub], by rwa [hs.id]⟩

/-- A change of the client that keeps its ID. -/
theorem negotiates_modifyClient {f : Client → Client} (hf : (f (s.clients i)).id = (s.clients i).id) :
    (s.modifyClient i f).Negotiates j ↔ s.Negotiates j := by
  by_cases hj : j = i
  · subst hj
    simp [Negotiates, hf]
  · simp [Negotiates, modifyClient_of_ne _ _ _ _ hj]

theorem attended_modifyClient {f : Client → Client} (hf : (f (s.clients i)).id = (s.clients i).id) :
    (s.modifyClient i f).Attended j ↔ s.Attended j := by
  unfold Attended
  rw [negotiates_modifyClient hf]
  exact Iff.rfl

theorem negotiates_addReadReq :
    (s.addReadReq i .acceptRead).Negotiates i ↔ s.Negotiates i ∨ (s.clients i).readReqActive = false := by
  unfold addReadReq
  split
  · rename_i hactive
    simp [hactive]
  · rename_i hidle
    have hneg : ((s.submit (s.readSubmission i .acceptRead)).modifyClient i
        fun client => { client with readReqActive := true }).Negotiates i := by
      rw [negotiates_modifyClient rfl]
      exact negotiates_submit ⟨rfl, rfl, Or.inl rfl⟩
    simp [hneg, hidle]

theorem negotiates_addWriteReq (buffer : Ptr) (length : ℕ) :
    (s.addWriteReq i .acceptWrite buffer length).Negotiates i := by
  unfold addWriteReq
  exact negotiates_submit ⟨rfl, by simp [writeSubmission], Or.inr rfl⟩

/-- What is received during a handshake is taken from what is there, or more of it is read. -/
theorem tlsRecv_handshake (hactive : i ∉ s.activeConnections) (size : ℕ) :
    s.tlsRecv i size = if (s.clients i).recvData.length = 0 ∨ (s.clients i).recvData.length < size then
        s.addReadReq i .acceptRead
      else s.modifyClient i fun client =>
        { client with
          recvData := client.recvData.drop size
          delivered := client.delivered ++ client.recvData.take size } := by
  unfold tlsRecv tlsRecvHelper
  rw [if_neg hactive]
  by_cases hnil : (s.clients i).recvData = []
  · simp [hnil]
  · have hlength : (s.clients i).recvData.length ≠ 0 := by simpa using hnil
    rw [if_pos hnil]
    rcases lt_trichotomy size (s.clients i).recvData.length with hlt | heq | hgt
    · rw [if_pos hlt, if_neg (by omega)]
    · rw [if_neg (by omega), if_neg (by omega), if_neg (by omega), heq]
      simp [modifyClient]
    · rw [if_neg (by omega), if_pos hgt, if_pos (Or.inr hgt)]
      rfl

/-- The callbacks of a call during a handshake leave a request of it in flight if there was one, or if one of them
submits one. -/
theorem negotiates_wolfIos (hactive : i ∉ s.activeConnections) (ios : List WolfIo) :
    (ios.foldl (wolfIo i) s).Negotiates i ↔ s.Negotiates i ∨
      asksIo (s.clients i).readReqActive (s.clients i).acceptLastWritten (s.clients i).recvData.length ios = true := by
  induction ios generalizing s with
  | nil => simp [asksIo]
  | cons io ios ih =>
      rw [List.foldl_cons]
      cases io with
      | send size stale =>
          simp only [wolfIo, tlsSend, if_neg hactive, asksIo, Bool.or_eq_true, decide_eq_true_eq]
          by_cases hlast : (s.clients i).acceptLastWritten = -1
          · have hneg : (s.addWriteReq i .acceptWrite .wolfssl size).Negotiates i := negotiates_addWriteReq _ _
            rw [if_pos hlast]
            simp only [hlast, true_or, or_true, iff_true]
            exact hneg.touches (touches_wolfIos ios)
          · rw [if_neg hlast, ih (by simpa using hactive), negotiates_modifyClient rfl]
            simp [hlast]
      | recv size =>
          simp only [wolfIo, tlsRecv_handshake hactive, asksIo]
          by_cases hread : (s.clients i).recvData.length = 0 ∨ (s.clients i).recvData.length < size
          · rw [if_pos hread, if_pos hread]
            by_cases hreading : (s.clients i).readReqActive = true
            · have hsame : s.addReadReq i .acceptRead = s := by simp [addReadReq, hreading]
              rw [hsame, ih hactive, hreading]
              simp
            · have hneg : (s.addReadReq i .acceptRead).Negotiates i :=
                negotiates_addReadReq.mpr (Or.inr (by simpa using hreading))
              have hlater := hneg.touches (touches_wolfIos ios)
              simp [hlater, hreading]
          · rw [if_neg hread, if_neg hread, ih (by simpa using hactive), negotiates_modifyClient rfl]
            simp

/-- A call of wolfSSL during a handshake leaves a request of it in flight if there was one, or if it asks for
I/O. -/
theorem negotiates_wolfCall (hactive : i ∉ s.activeConnections) :
    (s.wolfCall i).1.Negotiates i ↔ s.Negotiates i ∨ s.AsksIo i := by
  simp only [wolfCall, AsksIo]
  split
  · rename_i hssl
    have hcalled := negotiates_wolfIos (s := { s with wolf := s.wolf.tail }) hactive (s.wolf.headD {}).io
    rw [hcalled]
    simp [hssl, Negotiates]
  · rename_i hssl
    simp [hssl, Negotiates]

/-- A slot that is not attended is attended after a call of wolfSSL if the call asks for I/O. -/
theorem attended_wolfCall (h : ¬s.Attended i) : (s.wolfCall i).1.Attended i ↔ s.AsksIo i := by
  obtain ⟨hfreed, hactive, hneg⟩ : i ∉ s.freedIndexes ∧ i ∉ s.activeConnections ∧ ¬s.Negotiates i := by
    simpa [Attended] using h
  have hcalled : Touches i s (s.wolfCall i).1 := touches_wolfCall
  unfold Attended
  rw [hcalled.freedIndexes, hcalled.activeConnections, negotiates_wolfCall hactive]
  simp [hfreed, hactive, hneg]

theorem wolfCall_ret {n : ℤ} (hn : n ≠ -173) :
    (s.wolfCall i).2.ret = n ↔ (s.clients i).ssl = true ∧ (s.wolf.headD {}).ret = n := by
  simp only [wolfCall]
  split
  · rename_i hssl
    simp [hssl]
  · rename_i hssl
    simp [hssl, Ne.symm hn]

/-! ### What everything else leaves in flight -/

/-- Active slots are not free, and free slots have no session. -/
structure Apart (s : TcpServer) : Prop where
  active : ∀ i ∈ s.activeConnections, i < s.numClients ∧ i ∉ s.freedIndexes
  freed : ∀ i ∈ s.freedIndexes, i < s.numClients ∧ (s.clients i).ssl = false

/-- No request is taken from those in flight, no slot is handed out, and one stops being active only by becoming
free. -/
structure Advances (s s' : TcpServer) : Prop where
  inflight : ∀ sub ∈ s.inflight, sub ∈ s'.inflight
  id : ∀ j, (s'.clients j).id = (s.clients j).id
  numClients : s'.numClients = s.numClients
  freed : s.freedIndexes ⊆ s'.freedIndexes
  active : ∀ j ∈ s.activeConnections, j ∈ s'.freedIndexes ∨ j ∈ s'.activeConnections
  apart : s.Apart → s'.Apart

theorem Advances.attended (h : Advances s s') (hs : s.Attended j) : s'.Attended j := by
  rcases hs with hfreed | hactive | ⟨sub, hsub, hneg⟩
  · exact Or.inl (h.freed hfreed)
  · rcases h.active j hactive with hfreed | hactive
    · exact Or.inl hfreed
    · exact Or.inr (Or.inl hactive)
  · exact Or.inr (Or.inr ⟨sub, h.inflight sub hsub, by rwa [h.id]⟩)

theorem Advances.refl (s : TcpServer) : Advances s s :=
  ⟨fun _ h => h, fun _ => rfl, rfl, Finset.Subset.refl _, fun _ h => Or.inr h, fun h => h⟩

theorem Advances.trans (h : Advances s s') (h' : Advances s' s'') : Advances s s'' := by
  refine ⟨fun sub hsub => h'.inflight sub (h.inflight sub hsub), fun j => (h'.id j).trans (h.id j),
    h'.numClients.trans h.numClients, h.freed.trans h'.freed, fun j hj => ?_, fun hs => h'.apart (h.apart hs)⟩
  rcases h.active j hj with hfreed | hactive
  · exact Or.inl (h'.freed hfreed)
  · exact h'.active j hactive

/-- The slots are as they were, and so are the IDs and sessions of their clients. -/
theorem advances_of_same (hslots : SameSlots s s') (hid : ∀ j, (s'.clients j).id = (s.clients j).id)
    (hinflight : ∀ sub ∈ s.inflight, sub ∈ s'.inflight) : Advances s s' := by
  refine ⟨hinflight, hid, hslots.numClients, ?_, fun j hj => Or.inr ?_, fun h => ⟨fun j hj => ?_, fun j hj => ?_⟩⟩
  · rw [hslots.freedIndexes]
  · rwa [hslots.activeConnections]
  · rw [hslots.activeConnections] at hj
    rw [hslots.numClients, hslots.freedIndexes]
    exact h.active j hj
  · rw [hslots.freedIndexes] at hj
    rw [hslots.numClients, hslots.ssl]
    exact h.freed j hj

theorem advances_submit (sub : Submission) : Advances s (s.submit sub) :=
  advances_of_same ⟨rfl, rfl, rfl, rfl, rfl, fun _ => rfl⟩ (fun _ => rfl) fun _ h => by simp [h]

theorem advances_modifyClient {f : Client → Client} (hid : (f (s.clients i)).id = (s.clients i).id)
    (hssl : (f (s.clients i)).ssl = (s.clients i).ssl) : Advances s (s.modifyClient i f) := by
  refine advances_of_same ⟨rfl, rfl, rfl, rfl, rfl, fun j => ?_⟩ (fun j => ?_) fun _ h => h
  · by_cases hj : j = i
    · rw [hj, modifyClient_self, hssl]
    · rw [modifyClient_of_ne _ _ _ _ hj]
  · by_cases hj : j = i
    · rw [hj, modifyClient_self, hid]
    · rw [modifyClient_of_ne _ _ _ _ hj]

theorem Touches.advances (h : Touches i s s') : Advances s s' := by
  refine advances_of_same h.alters.sameSlots (fun j => ?_) fun sub hsub => ?_
  · by_cases hj : j = i
    · rw [hj, h.id]
    · rw [h.others j hj]
  · obtain ⟨new, hnew, -⟩ := h.inflight
    simp [hnew, hsub]

theorem advances_setQueue (sendData : List WriteData) : Advances s (s.setQueue i sendData) :=
  advances_modifyClient rfl rfl

theorem advances_endWrite : Advances s (s.endWrite i) := advances_modifyClient rfl rfl

theorem advances_enqueue (data : WriteData) (length : ℕ) : Advances s (s.enqueue .tls i data length) := by
  have hpush : Advances s (s.pushEntry i data) := advances_setQueue _
  unfold enqueue
  split
  · exact hpush.trans touches_wolfCall.advances
  · exact hpush

/-- A slot without a session is freed. -/
theorem advances_freeSlot (hi : i < s.numClients) (hssl : (s.clients i).ssl = false) :
    Advances s (s.freeSlot i) ∧ i ∈ (s.freeSlot i).freedIndexes := by
  have hqueue : Advances s (s.setQueue i []) := advances_setQueue []
  refine ⟨⟨fun _ h => h, hqueue.id, rfl, Finset.subset_insert _ _, fun j hj => ?_, fun h => ⟨?_, ?_⟩⟩,
    Finset.mem_insert_self _ _⟩
  · by_cases hij : j = i
    · exact Or.inl (Finset.mem_insert.mpr (Or.inl hij))
    · exact Or.inr (Finset.mem_erase.mpr ⟨hij, hj⟩)
  · intro j hj
    obtain ⟨hne, hactive⟩ := Finset.mem_erase.mp hj
    obtain ⟨hlt, hfree⟩ := h.active j hactive
    exact ⟨hlt, fun hmem => (Finset.mem_insert.mp hmem).elim hne hfree⟩
  · intro j hj
    rcases Finset.mem_insert.mp hj with rfl | hj
    · exact ⟨hi, by simpa [freeSlot, setQueue] using hssl⟩
    · exact (hqueue.apart h).freed j hj

theorem advances_endSession : Advances s (s.modifyClient i fun client => { client with ssl := false }) := by
  refine ⟨fun _ h => h, fun j => ?_, rfl, Finset.Subset.refl _, fun _ h => Or.inr h, fun h => ⟨h.active, ?_⟩⟩
  · by_cases hj : j = i
    · rw [hj, modifyClient_self]
    · rw [modifyClient_of_ne _ _ _ _ hj]
  · intro j hj
    obtain ⟨hlt, hssl⟩ := h.freed j hj
    refine ⟨hlt, ?_⟩
    by_cases hji : j = i
    · rw [hji, modifyClient_self]
    · rw [modifyClient_of_ne _ _ _ _ hji, hssl]

/-- Closing a connection frees its slot, unless writes are in flight. -/
theorem advances_closeConnection (hi : i < s.numClients) : Advances s (s.closeConnection .tls i) ∧
    ((s.clients i).numWriteReqs = 0 → i ∈ (s.closeConnection .tls i).freedIndexes) := by
  unfold closeConnection
  split
  · have hcalled : Advances s (s.wolfCall i).1 := touches_wolfCall.advances
    have hended := hcalled.trans (advances_endSession (i := i))
    obtain ⟨hfreed, hmem⟩ := advances_freeSlot (i := i)
      (s := (s.wolfCall i).1.modifyClient i fun client => { client with ssl := false })
      (by simpa [hcalled.numClients] using hi) (by simp)
    exact ⟨hended.trans hfreed, fun _ => hmem⟩
  · rename_i hwriting
    exact ⟨Advances.refl s, fun hzero => absurd hzero hwriting⟩

/-- The slot that is handed out is neither free nor active, and its client is new. -/
structure HandsOut (s s' : TcpServer) (i : ℕ) : Prop where
  apart : s'.Apart
  bound : i < s'.numClients
  freed : i ∉ s'.freedIndexes
  active : i ∉ s'.activeConnections
  client : ∃ id sockfd, s'.clients i = { id, sockfd }
  others : ∀ j < s'.numClients, j ≠ i → j < s.numClients ∧ (s.Attended j → s'.Attended j)
  wolf : s'.wolf = s.wolf

theorem handsOut_setupClient (h : s.Apart) (sockfd : ℤ) :
    HandsOut s (s.setupClient sockfd).1 (s.setupClient sockfd).2 := by
  unfold setupClient
  split
  · rename_i hne
    have hmem : s.freedIndexes.min' hne ∈ s.freedIndexes := Finset.min'_mem _ hne
    have hinactive : s.freedIndexes.min' hne ∉ s.activeConnections := fun hactive => (h.active _ hactive).2 hmem
    generalize s.freedIndexes.min' hne = k at hmem hinactive
    refine ⟨⟨fun j hj => ?_, fun j hj => ?_⟩, (h.freed k hmem).1, Finset.notMem_erase _ _, hinactive,
      ⟨_, _, Function.update_self ..⟩, fun j hj hjk => ⟨hj, ?_⟩, rfl⟩
    · exact ⟨(h.active j hj).1, fun hfree => (h.active j hj).2 (Finset.mem_of_mem_erase hfree)⟩
    · obtain ⟨hjk, hfree⟩ := Finset.mem_erase.mp hj
      simpa [hjk] using h.freed j hfree
    · rintro (hfree | hactive | ⟨sub, hsub, hneg⟩)
      · exact Or.inl (Finset.mem_erase.mpr ⟨hjk, hfree⟩)
      · exact Or.inr (Or.inl hactive)
      · exact Or.inr (Or.inr ⟨sub, hsub, by simpa [hjk] using hneg⟩)
  · have hnew : s.numClients ∉ s.freedIndexes := fun hfree => lt_irrefl _ (h.freed _ hfree).1
    have hinactive : s.numClients ∉ s.activeConnections := fun hactive => lt_irrefl _ (h.active _ hactive).1
    refine ⟨⟨fun j hj => ?_, fun j hj => ?_⟩, Nat.lt_succ_self _, hnew, hinactive,
      ⟨_, _, Function.update_self ..⟩, fun j hj hjk => ⟨?_, ?_⟩, rfl⟩
    · exact ⟨(h.active j hj).1.trans (Nat.lt_succ_self _), (h.active j hj).2⟩
    · obtain ⟨hlt, hssl⟩ := h.freed j hj
      have hjk : j ≠ s.numClients := by omega
      exact ⟨hlt.trans (Nat.lt_succ_self _), by simpa [hjk] using hssl⟩
    · exact lt_of_le_of_ne (Nat.lt_succ_iff.mp hj) hjk
    · rintro (hfree | hactive | ⟨sub, hsub, hneg⟩)
      · exact Or.inl hfree
      · exact Or.inr (Or.inl hactive)
      · exact Or.inr (Or.inr ⟨sub, hsub, by simpa [hjk] using hneg⟩)

theorem advances_broadcastMessage (clientIdxs : List ℕ) (buff : Ptr) (length : ℕ) (customInfo : ℤ) :
    Advances s (s.broadcastMessage .tls clientIdxs buff length customInfo) := by
  unfold broadcastMessage
  induction clientIdxs generalizing s with
  | nil => exact Advances.refl s
  | cons i clientIdxs ih =>
      have hone : Advances s (broadcastOne .tls buff length customInfo s i) := advances_enqueue _ _
      exact hone.trans ih

theorem advances_writeConnection (i : ℕ) (buff : Bytes) : Advances s (s.writeConnection .tls i buff) := by
  have hfresh : Advances s { s with nextAddr := s.nextAddr + 1 } :=
    advances_of_same ⟨rfl, rfl, rfl, rfl, rfl, fun _ => rfl⟩ (fun _ => rfl) fun _ h => h
  exact hfresh.trans (advances_enqueue _ _)

theorem advances_calls {cs : List TcpCall} (h : s.calls .tls cs = some s') : Advances s s' := by
  refine Runs.foldlM_keeps (R := Advances s) (fun b c b' _ hb hcall => hb.trans ?_) (Advances.refl s) h
  unfold call at hcall
  split at hcall
  · rename_i hslots
    obtain rfl := Option.some.inj hcall
    cases c with
    | writeConnection i buff => exact advances_writeConnection i buff
    | writeConnectionPtr i buff length => exact advances_enqueue _ length
    | broadcastMessage clientIdxs buff length customInfo => exact advances_broadcastMessage _ _ _ _
    | closeConnection i => exact (advances_closeConnection (hslots i (by simp [TcpCall.slots]))).1
    | readConnection i => exact (touches_addReadReq (Or.inl rfl)).advances
    | customReadReq fd toRead clientIdx buff readAmount file => exact advances_submit _
  · cases hcall

/-- A slot becomes active when its session is established. -/
theorem advances_activate (hi : i < s.numClients) (hssl : (s.clients i).ssl = true) :
    Advances s { s with activeConnections := insert i s.activeConnections } := by
  refine ⟨fun _ h => h, fun _ => rfl, rfl, Finset.Subset.refl _,
    fun j hj => Or.inr (Finset.mem_insert_of_mem hj), fun h => ⟨fun j hj => ?_, h.freed⟩⟩
  rcases Finset.mem_insert.mp hj with rfl | hj
  · refine ⟨hi, fun hfree => ?_⟩
    have hnone := (h.freed j hfree).2
    rw [hssl] at hnone
    cases hnone
  · exact h.active j hj

end TcpServer

namespace Machine

variable {σ ε : Type*} {app : App σ ε} {env : ε} {m m' : Machine σ} {s : TcpServer} {i : ℕ}

theorem advances_callback {cb : Callback} {result : Option (σ × List TcpCall)}
    (h : m.callback .tls cb result = some m') : Advances m.tcp m'.tcp := by
  obtain ⟨a, cs, -, hcalls, -, -⟩ := callback_eq_some h
  exact advances_calls hcalls

theorem advances_drainAndClose (hi : i < m.tcp.numClients) (hclose : m.drainAndClose .tls app i = some m') :
    Advances m.tcp m'.tcp ∧ ((m.tcp.clients i).numWriteReqs = 0 → i ∈ m'.tcp.freedIndexes) := by
  rw [drainAndClose_tcp hclose]
  have hdrained : Advances m.tcp (m.tcp.setQueue i []) := advances_setQueue []
  obtain ⟨hclosed, hfreed⟩ := advances_closeConnection (s := m.tcp.setQueue i []) hi
  exact ⟨hdrained.trans hclosed, fun hzero => hfreed (by simpa using hzero)⟩

theorem advances_closeIfIdle (hi : i < m.tcp.numClients) (hclose : m.closeIfIdle .tls app i = some m') :
    Advances m.tcp m'.tcp ∧ ((m.tcp.clients i).numWriteReqs = 0 → i ∈ m'.tcp.freedIndexes) ∧
      ((m.tcp.clients i).numWriteReqs ≠ 0 → m' = m) := by
  unfold closeIfIdle at hclose
  split at hclose
  · rename_i hzero
    obtain ⟨hadvances, hfreed⟩ := advances_drainAndClose hi hclose
    exact ⟨hadvances, hfreed, fun hne => absurd hzero hne⟩
  · rename_i hne
    obtain rfl := Option.some.inj hclose
    exact ⟨Advances.refl _, fun hzero => absurd hzero hne, fun _ => rfl⟩

theorem advances_sweep {order halfClosed : List ℕ} (h : m.tcp.Apart)
    (hsweep : m.sweep .tls app order halfClosed = some m') : Advances m.tcp m'.tcp := by
  refine sweep_rule hsweep (R := fun x => Advances m.tcp x.tcp) (Advances.refl _)
    fun x i x' hactive _ hx hclose => hx.trans ?_
  have hlt : i < m.tcp.numClients := (h.active i hactive).1
  exact (advances_drainAndClose (by rwa [hx.numClients]) hclose).1

/-- The handling of a completed request of a client takes no other one from those in flight. -/
theorem advances_tlsHandler {sub : Submission} {c : Completion ε} (hi : i < m.tcp.numClients)
    (hhandled : m.tlsHandler app sub i c = some m') : Advances m.tcp m'.tcp := by
  have haccepted : ∀ s m₁ s₁, m.tcp.Yields i 0 → Touches i m.tcp s → (m.onTcp fun _ => s).acceptCb app i = some m₁ →
      Touches i { s with activeConnections := insert i s.activeConnections } s₁ → Advances m.tcp s₁ := by
    intro s m₁ s₁ hyields hs hm₁ hs₁
    have hactive := advances_activate (s := s) (by rwa [hs.numClients]) (hs.ssl.trans hyields.1)
    exact (hs.advances.trans hactive).trans hs₁.advances
  refine tlsHandler_rule hhandled (R := fun x => Advances m.tcp x.tcp) (fun s hs => ?_) (fun _ _ s buffer hs hm' => ?_)
    (fun hyields s m₁ s₁ hs hm₁ hs₁ => haccepted s m₁ s₁ hyields hs hm₁ hs₁)
    (fun _ hyields s m₁ s₁ buffer hs hm₁ hs₁ hm' => ?_) (fun _ _ s front rest m₁ s₁ hs _ hm₁ hs₁ => ?_)
  · rcases hs with hs | hs
    · exact hs.advances
    · exact advances_endWrite.trans hs.advances
  · exact hs.advances.trans (advances_callback hm')
  · exact (haccepted s m₁ s₁ hyields hs hm₁ hs₁).trans (advances_callback hm')
  · have hpopped := (advances_endWrite.trans hs.advances).trans (advances_setQueue (i := i) rest)
    exact (hpopped.trans (advances_callback hm₁)).trans hs₁.advances

/-- Every slot that was handed out is free, active, or in its handshake with a request in flight. -/
def HandshakesAttended (m : Machine σ) : Prop := ∀ i < m.tcp.numClients, m.tcp.Attended i

instance : Decidable m.HandshakesAttended := by
  unfold HandshakesAttended
  infer_instance

/-- What keeps slot `i` attended when a request of its handshake has been completed: the slot is attended without
it; a failed request ends the connection, as no write is in flight then; or `wolfSSL_accept` asks for I/O, or has
succeeded after a read. -/
def KeepsHandshake (m : Machine σ) (sub : Submission) (i : ℕ) (c : Completion ε) : Prop :=
  m.tcp.Attended i ∨
    if c.res ≤ 0 then
      (m.tcp.clients i).numWriteReqs = if sub.req.event = .acceptWrite then 1 else 0
    else if sub.req.event = .acceptRead then
      (tlsReceive m.tcp i sub c).AsksIo i ∨ (m.tcp.clients i).ssl = true ∧ (m.tcp.wolf.headD {}).ret = 1
    else
      ((m.tcp.endWrite i).modifyClient i fun client => { client with acceptLastWritten := c.res }).AsksIo i

instance (sub : Submission) (c : Completion ε) : Decidable (m.KeepsHandshake sub i c) := by
  unfold KeepsHandshake
  infer_instance

/-- The completion keeps the slots attended: a handshake that begins asks for I/O, unless a request of an earlier
occupant of its slot passes for one of it, and a handshake that goes on keeps its slot attended. -/
def KeepsHandshakes (m : Machine σ) (c : Completion ε) : Prop :=
  ∀ sub ∈ m.tcp.inflight[c.index]?,
    (sub.req.event = .accept → ((m.take c).tcp.setupClient c.res).1.Negotiates
        ((m.take c).tcp.setupClient c.res).2 ∨
      (c.wolf.headD {}).io ≠ []) ∧
    ∀ i ∈ sub.req.clientIdx, sub.req.event = .acceptRead ∨ sub.req.event = .acceptWrite →
      (m.take c).KeepsHandshake sub i c

instance (c : Completion ε) : Decidable (m.KeepsHandshakes c) :=
  inferInstanceAs (Decidable (∀ sub ∈ m.tcp.inflight[c.index]?, _ ∧ _))

/-- A request that is not one of its handshake leaves a slot attended when it completes. -/
theorem attended_take {sub : Submission} {c : Completion ε} (hsub : m.tcp.inflight[c.index]? = some sub)
    (hother : ¬sub.Negotiates i (m.tcp.clients i).id) (h : m.tcp.Attended i) : (m.take c).tcp.Attended i := by
  refine h.imp_right (Or.imp_right ?_)
  rintro ⟨sub', hsub', hneg⟩
  obtain ⟨l₁, l₂, hinflight, herase⟩ := InFlight.exists_split hsub
  refine ⟨sub', ?_, hneg⟩
  have hne : sub' ≠ sub := by
    rintro rfl
    exact hother hneg
  rw [take_tcp, takeCompleted_inflight, herase]
  rw [hinflight] at hsub'
  simpa [hne] using hsub'

/-- A failed request ends the connection of an unattended slot if no write is in flight then. -/
theorem attended_failed {event : EventType} (hi : i < m.tcp.numClients) (h : ¬m.tcp.Attended i)
    (hevent : event ≠ .write) (hfailed : m.failed .tls app i event = some m') :
    Advances m.tcp m'.tcp ∧
      (m'.tcp.Attended i ↔ (m.tcp.clients i).numWriteReqs = if event = .acceptWrite then 1 else 0) := by
  unfold failed at hfailed
  by_cases hwrite : event = .acceptWrite
  · rw [if_pos (Or.inr hwrite)] at hfailed
    obtain ⟨hadvances, hfreed, hsame⟩ := advances_closeIfIdle (m := m.onTcp fun s => s.endWrite i) hi hfailed
    have hnum : ((m.tcp.endWrite i).clients i).numWriteReqs = (m.tcp.clients i).numWriteReqs - 1 := by
      simp [endWrite]
    rw [onTcp_tcp, hnum] at hfreed hsame
    refine ⟨advances_endWrite.trans hadvances, ?_⟩
    rw [if_pos hwrite]
    constructor
    · intro hattended
      by_contra hne
      rw [hsame (by omega)] at hattended
      exact h ((attended_modifyClient rfl).mp hattended)
    · exact fun hone => Or.inl (hfreed (by omega))
  · rw [if_neg (not_or_intro hevent hwrite)] at hfailed
    obtain ⟨hadvances, hfreed, hsame⟩ := advances_closeIfIdle hi hfailed
    refine ⟨hadvances, ?_⟩
    rw [if_neg hwrite]
    constructor
    · intro hattended
      by_contra hne
      rw [hsame hne] at hattended
      exact h hattended
    · exact fun hzero => Or.inl (hfreed hzero)

theorem attended_tlsReceive (sub : Submission) (c : Completion ε) :
    (tlsReceive m.tcp i sub c).Attended i ↔ m.tcp.Attended i := attended_modifyClient rfl

/-- What is read during a handshake leaves an unattended slot attended if `wolfSSL_accept` asks for I/O or
succeeds. -/
theorem attended_tlsAcceptRead {sub : Submission} {c : Completion ε} (h : ¬m.tcp.Attended i)
    (hread : m.tlsAcceptRead app sub i c = some m') :
    m'.tcp.Attended i ↔ (tlsReceive m.tcp i sub c).AsksIo i ∨
      (m.tcp.clients i).ssl = true ∧ (m.tcp.wolf.headD {}).ret = 1 := by
  have hreceived : ¬(tlsReceive m.tcp i sub c).Attended i := by rwa [attended_tlsReceive]
  have hret : ((tlsReceive m.tcp i sub c).wolfCall i).2.ret = 1 ↔
      (m.tcp.clients i).ssl = true ∧ (m.tcp.wolf.headD {}).ret = 1 := by
    rw [wolfCall_ret (by decide), (touches_tlsReceive sub c).ssl]
    rfl
  unfold tlsAcceptRead at hread
  dsimp only at hread
  by_cases hdone : ((tlsReceive m.tcp i sub c).wolfCall i).2.ret = 1
  · rw [if_pos hdone] at hread
    simp only [hret.mp hdone, and_self, or_true, iff_true]
    obtain ⟨m₁, hm₁, hread⟩ := Option.bind_eq_some_iff.mp hread
    have hactive : ({ m₁.tcp with activeConnections := insert i m₁.tcp.activeConnections } : TcpServer).Attended i :=
      Or.inr (Or.inl (Finset.mem_insert_self _ _))
    have hcalled := (touches_wolfCall (i := i)).advances.attended hactive
    split_ifs at hread
    · refine (advances_callback hread).attended ?_
      rw [onTcp_tcp, attended_modifyClient rfl, onTcp_tcp, attended_modifyClient rfl]
      exact hcalled
    · obtain rfl := Option.some.inj hread
      rw [onTcp_tcp, attended_modifyClient rfl]
      exact hcalled
  · rw [if_neg hdone] at hread
    obtain rfl := Option.some.inj hread
    rw [onTcp_tcp, attended_wolfCall hreceived]
    exact ⟨Or.inl, fun hasks => hasks.resolve_right fun hyes => hdone (hret.mpr hyes)⟩

theorem attended_tlsAcceptWrite {res : ℤ} (h : ¬m.tcp.Attended i) :
    (m.tlsAcceptWrite i res).tcp.Attended i ↔
      ((m.tcp.endWrite i).modifyClient i fun client => { client with acceptLastWritten := res }).AsksIo i := by
  apply attended_wolfCall
  rw [attended_modifyClient rfl, endWrite, attended_modifyClient rfl]
  exact h

/-- A completed request of a client leaves its slot attended exactly if the handshake is kept. -/
theorem attended_clientEvent {sub : Submission} {c : Completion ε} (hid : (m.tcp.clients i).id = sub.req.ID)
    (hevent : sub.req.event = .acceptRead ∨ sub.req.event = .acceptWrite) (h : ¬m.tcp.Attended i)
    (hhandled : m.clientEvent .tls app sub i c = some m') :
    Advances m.tcp m'.tcp ∧ (m.KeepsHandshake sub i c ↔ m'.tcp.Attended i) := by
  have hwrite : sub.req.event ≠ .write := by
    rintro heq
    rw [heq] at hevent
    simp at hevent
  have hkeeps : m.KeepsHandshake sub i c ↔
      if c.res ≤ 0 then (m.tcp.clients i).numWriteReqs = if sub.req.event = .acceptWrite then 1 else 0
      else if sub.req.event = .acceptRead then
        (tlsReceive m.tcp i sub c).AsksIo i ∨ (m.tcp.clients i).ssl = true ∧ (m.tcp.wolf.headD {}).ret = 1
      else ((m.tcp.endWrite i).modifyClient i fun client => { client with acceptLastWritten := c.res }).AsksIo i :=
    or_iff_right h
  rw [hkeeps]
  unfold clientEvent at hhandled
  split at hhandled
  · rename_i hi
    by_cases hres : c.res ≤ 0
    · rw [if_pos (Or.inl hres), if_pos ⟨hres, hid⟩] at hhandled
      rw [if_pos hres]
      obtain ⟨hadvances, hattended⟩ := attended_failed hi h hwrite hhandled
      exact ⟨hadvances, hattended.symm⟩
    · have hpasses : ¬(c.res ≤ 0 ∨ 0 < i ∧ (m.tcp.clients i).id ≠ sub.req.ID) := by
        rintro (hneg | ⟨-, hne⟩)
        · exact hres hneg
        · exact hne hid
      rw [if_neg hpasses] at hhandled
      rw [if_neg hres]
      refine ⟨advances_tlsHandler hi hhandled, ?_⟩
      rcases hevent with hevent | hevent
      · rw [if_pos hevent]
        simp only [tlsHandler, hevent] at hhandled
        exact (attended_tlsAcceptRead h hhandled).symm
      · rw [if_neg (by simp [hevent])]
        simp only [tlsHandler, hevent, Option.some.injEq] at hhandled
        obtain rfl := hhandled
        exact (attended_tlsAcceptWrite h).symm
  · cases hhandled

theorem advances_clientEvent {sub : Submission} {c : Completion ε}
    (hhandled : m.clientEvent .tls app sub i c = some m') : Advances m.tcp m'.tcp := by
  have hkept : ∀ s, s = m.tcp ∨ s = m.tcp.endWrite i → Advances m.tcp s := by
    rintro s (rfl | rfl)
    · exact Advances.refl _
    · exact advances_endWrite
  refine clientEvent_rule hhandled (R := fun x => Advances m.tcp x.tcp) (fun s hs hi _ _ hclose => ?_) hkept
    (fun hT => ?_) (fun _ hi _ _ hm' => advances_tlsHandler hi hm')
  · have hlt : i < (m.onTcp fun _ => s).tcp.numClients := (hkept s hs).numClients ▸ hi
    exact (hkept s hs).trans (advances_drainAndClose hlt hclose).1
  · cases hT

/-- A new connection is attended if its handshake asks for I/O. -/
theorem attended_tlsAccept (hapart : m.tcp.Apart) (res : ℤ) :
    (m.tlsAccept res).tcp.Apart ∧
      (∀ j < (m.tlsAccept res).tcp.numClients, j ≠ (m.tcp.setupClient res).2 →
        j < m.tcp.numClients ∧ (m.tcp.Attended j → (m.tlsAccept res).tcp.Attended j)) ∧
      (m.tcp.setupClient res).2 < (m.tlsAccept res).tcp.numClients ∧
      ((m.tlsAccept res).tcp.Attended (m.tcp.setupClient res).2 ↔
        (m.tcp.setupClient res).1.Negotiates (m.tcp.setupClient res).2 ∨ (m.tcp.wolf.headD {}).io ≠ []) := by
  obtain ⟨hout, hbound, hfreed, hactive, ⟨id, sockfd, hclient⟩, hothers, hwolf⟩ := handsOut_setupClient hapart res
  unfold tlsAccept
  dsimp only
  generalize (m.tcp.setupClient res).1 = s at *
  generalize (m.tcp.setupClient res).2 = k at *
  -- the session of the new client
  have hbegun : ((s.addEventReq .accept).modifyClient k fun client => { client with ssl := true }).Apart := by
    refine ⟨hout.active, fun j hj => ⟨(hout.freed j hj).1, ?_⟩⟩
    have hne : j ≠ k := by
      rintro rfl
      exact hfreed hj
    rw [modifyClient_of_ne _ _ _ _ hne]
    exact (hout.freed j hj).2
  have hasked : ∀ j, s.Attended j →
      ((s.addEventReq .accept).modifyClient k fun client => { client with ssl := true }).Attended j := by
    intro j hj
    rw [attended_modifyClient rfl]
    exact (advances_submit _).attended hj
  have hcalled := (touches_wolfCall (i := k)
    (s := (s.addEventReq .accept).modifyClient k fun client => { client with ssl := true })).advances
  refine ⟨hcalled.apart hbegun, fun j hj hjk => ?_, ?_, ?_⟩
  · rw [onTcp_tcp, hcalled.numClients] at hj
    obtain ⟨hlt, hattended⟩ := hothers j hj hjk
    exact ⟨hlt, fun h => hcalled.attended (hasked j (hattended h))⟩
  · rw [onTcp_tcp, hcalled.numClients]
    exact hbound
  · have hinactive : k ∉ ((s.addEventReq .accept).modifyClient k fun client =>
        { client with ssl := true }).activeConnections := hactive
    have hcall : Touches k _ _ := touches_wolfCall (i := k)
      (s := (s.addEventReq .accept).modifyClient k fun client => { client with ssl := true })
    have hneg : (s.addEventReq .accept).Negotiates k ↔ s.Negotiates k := by
      simp [Negotiates, addEventReq, Submission.Negotiates]
    have hasks : ((s.addEventReq .accept).modifyClient k fun client => { client with ssl := true }).AsksIo k ↔
        (m.tcp.wolf.headD {}).io ≠ [] := by
      rw [← asksIo_fresh, ← hwolf]
      simp [AsksIo, addEventReq, hclient, modifyClient, submit]
    rw [onTcp_tcp, Attended, hcall.freedIndexes, hcall.activeConnections, negotiates_wolfCall hinactive,
      negotiates_modifyClient rfl, hneg, hasks]
    exact (or_iff_right hfreed).trans (or_iff_right hactive)

theorem advances_customRead {sub : Submission} {res : ℤ} {data : Bytes}
    (hread : m.customRead .tls app env sub res data = some m') : Advances m.tcp m'.tcp := by
  refine customRead_rule hread (R := fun x => Advances m.tcp x.tcp)
    (fun _ hfinished => Advances.trans ?_ (advances_callback hfinished)) (fun _ _ => advances_submit _)
  exact advances_of_same ⟨rfl, rfl, rfl, rfl, rfl, fun _ => rfl⟩ (fun _ => rfl) fun _ h => h

/-- **One round of the loop.** The slots stay attended exactly if the completion keeps the handshakes. -/
theorem attended_step {c : Completion ε} {log : List Callback} (hapart : m.tcp.Apart) (h : m.HandshakesAttended)
    (hstep : step .tls app m c = some (m', log)) :
    m'.tcp.Apart ∧ (m.KeepsHandshakes c ↔ m'.HandshakesAttended) := by
  obtain ⟨sub, hsub, hhandled, -⟩ := step_eq_some hstep
  have htaken : (m.take c).tcp.Apart := ⟨hapart.active, hapart.freed⟩
  have hothers : ∀ j < m.tcp.numClients, ¬sub.Negotiates j (m.tcp.clients j).id → (m.take c).tcp.Attended j :=
    fun j hj hother => attended_take hsub hother (h j hj)
  -- every slot is attended without the request
  have hadvances : ∀ {m' : Machine σ}, Advances (m.take c).tcp m'.tcp →
      (∀ j < m.tcp.numClients, (m.take c).tcp.Attended j) → sub.req.event ≠ .accept →
      (∀ i ∈ sub.req.clientIdx, sub.req.event = .acceptRead ∨ sub.req.event = .acceptWrite → i < m.tcp.numClients) →
      m'.tcp.Apart ∧ (m.KeepsHandshakes c ↔ m'.HandshakesAttended) := by
    intro m' hm' hattended haccept hbound
    refine ⟨hm'.apart htaken, iff_of_true ?_ ?_⟩
    · intro sub' hsub'
      obtain rfl : sub = sub' := Option.some.inj (hsub.symm.trans hsub')
      exact ⟨fun hevent => absurd hevent haccept, fun i hi hevent => Or.inl (hattended i (hbound i hi hevent))⟩
    · intro j hj
      rw [hm'.numClients] at hj
      exact hm'.attended (hattended j hj)
  have hquiet : ∀ {m' : Machine σ}, Advances (m.take c).tcp m'.tcp → sub.req.event ≠ .acceptRead →
      sub.req.event ≠ .acceptWrite → sub.req.event ≠ .accept →
      m'.tcp.Apart ∧ (m.KeepsHandshakes c ↔ m'.HandshakesAttended) := by
    intro m' hm' hread hwrite haccept
    refine hadvances hm' (fun j hj => hothers j hj ?_) haccept fun i _ hevent => ?_
    · rintro ⟨-, -, hevent⟩
      exact hevent.elim hread hwrite
    · exact absurd hevent (not_or_intro hread hwrite)
  refine dispatch_rule hhandled (R := fun x => x.tcp.Apart ∧ (m.KeepsHandshakes c ↔ x.HandshakesAttended))
    (fun hevent => ?_) (fun hevent hm' => ?_) (fun hevent hm' => ?_) (fun hevent m₁ hm₁ => ?_)
    (fun _ hT => absurd hT (by simp)) (fun hevent _ => ?_) (fun i hidx hclient hm' => ?_)
  · have hkilled : Advances (m.take c).tcp { (m.take c).tcp with isActive := false } :=
      advances_of_same ⟨rfl, rfl, rfl, rfl, rfl, fun _ => rfl⟩ (fun _ => rfl) fun _ h => h
    exact hquiet hkilled (by simp [hevent]) (by simp [hevent]) (by simp [hevent])
  · exact hquiet ((advances_submit _).trans (advances_callback hm')) (by simp [hevent]) (by simp [hevent])
      (by simp [hevent])
  · exact hquiet (advances_customRead hm') (by simp [hevent]) (by simp [hevent]) (by simp [hevent])
  · exact hquiet ((advances_sweep htaken hm₁).trans (advances_submit _)) (by simp [hevent]) (by simp [hevent])
      (by simp [hevent])
  · obtain ⟨hkept, hold, hbound, hnew⟩ := attended_tlsAccept htaken c.res
    refine ⟨hkept, ?_⟩
    have hkeeps : m.KeepsHandshakes c ↔ ((m.take c).tcp.setupClient c.res).1.Negotiates
        ((m.take c).tcp.setupClient c.res).2 ∨ (c.wolf.headD {}).io ≠ [] := by
      simp [KeepsHandshakes, hsub, hevent]
    have hnone : ∀ j, ¬sub.Negotiates j (m.tcp.clients j).id := by
      rintro j ⟨-, -, hread⟩
      simp [hevent] at hread
    rw [hkeeps]
    refine hnew.symm.trans ⟨fun hslot j hj => ?_, fun hall => hall _ hbound⟩
    by_cases hj' : j = ((m.take c).tcp.setupClient c.res).2
    · rw [hj']
      exact hslot
    · obtain ⟨hlt, hattended⟩ := hold j hj hj'
      exact hattended (hothers j hlt (hnone j))
  · have hbound : i < m.tcp.numClients := by
      unfold clientEvent at hm'
      split at hm'
      · assumption
      · cases hm'
    have haccept : sub.req.event ≠ .accept := by
      rintro heq
      simp [EventType.OfClient, heq] at hclient
    have hslot : ∀ k ∈ sub.req.clientIdx, k = i := fun k hk => Option.some.inj (hk.symm.trans hidx)
    have hrest : ∀ j < m.tcp.numClients, j ≠ i → (m.take c).tcp.Attended j :=
      fun j hj hji => hothers j hj fun hneg => hji (hslot j hneg.1)
    by_cases hattended : (m.take c).tcp.Attended i
    · refine hadvances (advances_clientEvent hm') (fun j hj => ?_) haccept fun k hk _ => hslot k hk ▸ hbound
      by_cases hji : j = i
      · rw [hji]
        exact hattended
      · exact hrest j hj hji
    · -- the last request of its handshake
      obtain ⟨-, hid, hevent⟩ : sub.Negotiates i (m.tcp.clients i).id := by
        by_contra hother
        exact hattended (hothers i hbound hother)
      obtain ⟨hm'adv, hkeep⟩ := attended_clientEvent (m := m.take c) hid.symm hevent hattended hm'
      refine ⟨hm'adv.apart htaken, ?_⟩
      have hkeeps : m.KeepsHandshakes c ↔ (m.take c).KeepsHandshake sub i c := by
        simp [KeepsHandshakes, hsub, haccept, hidx, hevent]
      rw [hkeeps, hkeep]
      refine ⟨fun hslot j hj => ?_, fun hall => hall i (hm'adv.numClients ▸ hbound)⟩
      by_cases hji : j = i
      · rw [hji]
        exact hslot
      · exact hm'adv.attended (hrest j (hm'adv.numClients ▸ hj) hji)

end Machine

/-- Whatever the application of the TLS server does and wolfSSL asks for or returns: in every run, each slot that
was handed out is free, active or in its handshake with a request in flight, in every state, exactly if every
completion of the run keeps the handshakes. -/
theorem handshakes_attended_iff {σ ε : Type*} (app : App σ ε) (a : σ) (reads : List (ℤ × ℕ))
    (cs : List (Completion ε)) (m : Machine σ) (logs : List (List Callback))
    (hrun : Runs.exec (Machine.step .tls app) (Machine.start a reads) cs = some (m, logs)) :
    Runs.Throughout (Machine.step .tls app) Machine.HandshakesAttended (Machine.start a reads) cs ↔
      Runs.Along (Machine.step .tls app) Machine.KeepsHandshakes (Machine.start a reads) cs := by
  have hslots := Machine.sameSlots_start a reads
  have hapart : (Machine.start a reads).tcp.Apart := by
    refine ⟨fun i hi => ?_, fun i hi => ?_⟩
    · rw [hslots.activeConnections] at hi
      cases hi
    · rw [hslots.freedIndexes] at hi
      cases hi
  have hnone : (Machine.start a reads).HandshakesAttended := by
    intro i hi
    rw [hslots.numClients] at hi
    cases hi
  exact Runs.throughout_iff_along_of_exec (I := fun m : Machine σ => m.tcp.Apart)
    (fun m c m' log hm hattended hstep => Machine.attended_step hm hattended hstep) hapart hnone hrun

/-- A handshake in two segments, after which the connection is active. -/
theorem handshakes_attended_segments :
    Runs.Throughout (Machine.step .tls replyApp) Machine.HandshakesAttended (Machine.start () [])
      [{ index := 3, res := 10, wolf := [{ io := [.recv 5] }], env := () },
        { index := 4, res := 3, data := [1, 2, 3], wolf := [{ io := [.recv 5] }], env := () },
        { index := 4, res := 2, data := [4, 5], wolf := [{ io := [.recv 5], ret := 1 }], env := () }] := by
  have hcs : Runs.Along (Machine.step .tls replyApp) Machine.KeepsHandshakes (Machine.start () [])
      [{ index := 3, res := 10, wolf := [{ io := [.recv 5] }], env := () },
        { index := 4, res := 3, data := [1, 2, 3], wolf := [{ io := [.recv 5] }], env := () },
        { index := 4, res := 2, data := [4, 5], wolf := [{ io := [.recv 5], ret := 1 }], env := () }] := by
    decide +kernel
  have hsome : (Runs.exec (Machine.step .tls replyApp) (Machine.start () [])
      [{ index := 3, res := 10, wolf := [{ io := [.recv 5] }], env := () },
        { index := 4, res := 3, data := [1, 2, 3], wolf := [{ io := [.recv 5] }], env := () },
        { index := 4, res := 2, data := [4, 5], wolf := [{ io := [.recv 5], ret := 1 }], env := () }]).isSome =
        true := by decide +kernel
  obtain ⟨⟨m, logs⟩, hrun⟩ := Option.isSome_iff_exists.mp hsome
  exact (handshakes_attended_iff replyApp () [] _ m logs hrun).mpr hcs

/-- wolfSSL takes in the five bytes of a record that is not a handshake and fails. The slot is left without a
request, and it is neither active nor free. -/
theorem handshake_abandoned :
    ∃ m logs, Runs.exec (Machine.step .tls replyApp) (Machine.start () [])
        [{ index := 3, res := 10, wolf := [{ io := [.recv 5] }], env := () },
          { index := 4, res := 5, data := ascii "GET /", wolf := [{ io := [.recv 5] }], env := () }] =
        some (m, logs) ∧
      m.tcp.numClients = 1 ∧ 0 ∉ m.tcp.freedIndexes ∧ 0 ∉ m.tcp.activeConnections ∧
      (∀ sub ∈ m.tcp.inflight, sub.req.clientIdx ≠ some 0) ∧ (m.tcp.clients 0).sockfd = 10 ∧
      ¬m.HandshakesAttended := by
  have hsome : (Runs.exec (Machine.step .tls replyApp) (Machine.start () [])
      [{ index := 3, res := 10, wolf := [{ io := [.recv 5] }], env := () },
        { index := 4, res := 5, data := ascii "GET /", wolf := [{ io := [.recv 5] }], env := () }]).any (fun r =>
      r.1.tcp.numClients = 1 ∧ 0 ∉ r.1.tcp.freedIndexes ∧ 0 ∉ r.1.tcp.activeConnections ∧
        (∀ sub ∈ r.1.tcp.inflight, sub.req.clientIdx ≠ some 0) ∧ (r.1.tcp.clients 0).sockfd = 10 ∧
        ¬r.1.HandshakesAttended) = true := by decide +kernel
  simp only [Option.any_eq_true, decide_eq_true_eq] at hsome
  obtain ⟨⟨m, logs⟩, hrun, hslot⟩ := hsome
  exact ⟨m, logs, hrun, hslot⟩

end LiburingServer
