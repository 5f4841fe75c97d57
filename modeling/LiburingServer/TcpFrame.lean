import LiburingServer.TcpLoop

/-! What a call of wolfSSL on the session of a slot leaves alone: the other slots, the queue of its own
slot up to how much was written of the front entry, and everything of the server but the requests in
flight, to which only requests of this slot are added. -/

namespace LiburingServer

/-- A queue entry without what was last written of it. -/
def WriteData.unwritten (d : WriteData) : WriteData := { d with lastWritten := -1 }

@[simp] theorem WriteData.unwritten_lastWritten (d : WriteData) (res : ℤ) :
    ({ d with lastWritten := res } : WriteData).unwritten = d.unwritten := rfl

@[simp] theorem WriteData.unwritten_broadcastInfo (d : WriteData) :
    d.unwritten.broadcastInfo = d.broadcastInfo := rfl

@[simp] theorem WriteData.unwritten_ptr (d : WriteData) : d.unwritten.ptr = d.ptr := rfl

/-- The queue of a client, whatever was last written of its entries. -/
def Client.queue (client : Client) : List WriteData := client.sendData.map WriteData.unwritten

namespace TcpServer

variable {s s' s'' : TcpServer} {i j : ℕ} {sub : Submission}

/-- The requests of wolfSSL for slot `i`: a read, or a write of its own output. -/
def Issued (s : TcpServer) (i : ℕ) (sub : Submission) : Prop :=
  (∃ event, (event = .read ∨ event = .acceptRead) ∧ sub = s.readSubmission i event) ∨
    ∃ event length, (event = .write ∨ event = .acceptWrite) ∧
      sub = s.writeSubmission i event .wolfssl length

/-- The step from `s` to `s'` touches no slot but `i`, does not change the queue of `i`, ends no write
of `i`, and adds only requests of `i` to those in flight. -/
structure Touches (i : ℕ) (s s' : TcpServer) : Prop where
  others : ∀ j, j ≠ i → s'.clients j = s.clients j
  id : (s'.clients i).id = (s.clients i).id
  queue : (s'.clients i).queue = (s.clients i).queue
  num : (s.clients i).numWriteReqs ≤ (s'.clients i).numWriteReqs
  ssl : (s'.clients i).ssl = (s.clients i).ssl
  rest : s' = { s with clients := s'.clients, inflight := s'.inflight, wolf := s'.wolf }
  inflight : ∃ new, s'.inflight = s.inflight ++ new ∧ ∀ sub ∈ new, s.Issued i sub

namespace Touches

variable (h : Touches i s s')
include h

theorem numClients : s'.numClients = s.numClients := by rw [h.rest]

theorem activeConnections : s'.activeConnections = s.activeConnections := by rw [h.rest]

theorem freedIndexes : s'.freedIndexes = s.freedIndexes := by rw [h.rest]

theorem occupants : s'.occupants = s.occupants := by rw [h.rest]

theorem issued : s'.Issued i sub ↔ s.Issued i sub := by
  simp only [Issued, readSubmission, writeSubmission, h.id, h.occupants]

theorem trans (h' : Touches i s' s'') : Touches i s s'' := by
  refine ⟨fun j hj => (h'.others j hj).trans (h.others j hj), h'.id.trans h.id, h'.queue.trans h.queue,
    h.num.trans h'.num, h'.ssl.trans h.ssl, ?_, ?_⟩
  · rw [h'.rest, h.rest]
  · obtain ⟨new, hnew, hissued⟩ := h.inflight
    obtain ⟨new', hnew', hissued'⟩ := h'.inflight
    refine ⟨new ++ new', by rw [hnew', hnew, List.append_assoc], fun sub hsub => ?_⟩
    rcases List.mem_append.mp hsub with hsub | hsub
    · exact hissued sub hsub
    · exact h.issued.mp (hissued' sub hsub)

end Touches

theorem touches_refl (i : ℕ) (s : TcpServer) : Touches i s s :=
  ⟨fun _ _ => rfl, rfl, rfl, le_rfl, rfl, rfl, [], by simp, by simp⟩

theorem touches_modifyClient {f : Client → Client} (hid : (f (s.clients i)).id = (s.clients i).id)
    (hqueue : (f (s.clients i)).queue = (s.clients i).queue)
    (hnum : (s.clients i).numWriteReqs ≤ (f (s.clients i)).numWriteReqs)
    (hssl : (f (s.clients i)).ssl = (s.clients i).ssl) : Touches i s (s.modifyClient i f) :=
  ⟨fun j hj => modifyClient_of_ne _ _ _ _ hj, by simpa using hid, by simpa using hqueue,
    by simpa using hnum, by simpa using hssl, rfl, [], by simp, by simp⟩

theorem touches_submit (hsub : s.Issued i sub) : Touches i s (s.submit sub) :=
  ⟨fun _ _ => rfl, rfl, rfl, le_rfl, rfl, rfl, [sub], rfl, by simpa using hsub⟩

theorem touches_addReadReq {event : EventType} (hevent : event = .read ∨ event = .acceptRead) :
    Touches i s (s.addReadReq i event) := by
  unfold addReadReq
  split
  · exact touches_refl i s
  · have hsubmit : Touches i s (s.submit (s.readSubmission i event)) :=
      touches_submit (Or.inl ⟨event, hevent, rfl⟩)
    exact hsubmit.trans (touches_modifyClient rfl rfl le_rfl rfl)

theorem touches_addWriteReq {event : EventType} (hevent : event = .write ∨ event = .acceptWrite)
    (length : ℕ) : Touches i s (s.addWriteReq i event .wolfssl length) := by
  unfold addWriteReq
  have hcount : Touches i s
      (s.modifyClient i fun client => { client with numWriteReqs := client.numWriteReqs + 1 }) :=
    touches_modifyClient rfl rfl (by simp only; omega) rfl
  refine hcount.trans (touches_submit ?_)
  rw [hcount.issued]
  exact Or.inr ⟨event, length, hevent, rfl⟩

theorem touches_tlsSend (size : ℕ) (stale : ℤ) : Touches i s (s.tlsSend i size stale) := by
  unfold tlsSend
  split
  · split
    · split
      · exact touches_addWriteReq (Or.inl rfl) size
      · exact touches_refl i s
    · rename_i current rest hqueue
      split
      · exact touches_addWriteReq (Or.inl rfl) size
      · refine touches_modifyClient rfl ?_ le_rfl rfl
        simp [Client.queue, hqueue]
  · split
    · exact touches_addWriteReq (Or.inr rfl) size
    · exact touches_modifyClient rfl rfl le_rfl rfl

theorem touches_tlsRecvHelper (size : ℕ) (accept : Bool) : Touches i s (s.tlsRecvHelper i size accept) := by
  unfold tlsRecvHelper
  split
  · exact touches_modifyClient rfl rfl le_rfl rfl
  · split
    · split
      · exact touches_addReadReq (Or.inr rfl)
      · exact touches_refl i s
    · exact touches_modifyClient rfl rfl le_rfl rfl

theorem touches_tlsRecv (size : ℕ) : Touches i s (s.tlsRecv i size) := by
  unfold tlsRecv
  split
  · split
    · exact touches_tlsRecvHelper size false
    · exact touches_addReadReq (Or.inl rfl)
  · split
    · exact touches_tlsRecvHelper size true
    · exact touches_addReadReq (Or.inr rfl)

theorem touches_wolfIo (io : WolfIo) : Touches i s (wolfIo i s io) := by
  cases io with
  | send size stale => exact touches_tlsSend size stale
  | recv size => exact touches_tlsRecv size

theorem touches_wolfIos (ios : List WolfIo) : Touches i s (ios.foldl (wolfIo i) s) := by
  induction ios generalizing s with
  | nil => exact touches_refl i s
  | cons io ios ih => exact (touches_wolfIo io).trans ih

theorem touches_wolfCall : Touches i s (s.wolfCall i).1 := by
  have htail : Touches i s { s with wolf := s.wolf.tail } :=
    ⟨fun _ _ => rfl, rfl, rfl, le_rfl, rfl, rfl, [], by simp, by simp⟩
  simp only [wolfCall]
  split
  · exact htail.trans (touches_wolfIos _)
  · exact htail

/-- The next call of wolfSSL on the session of slot `i` returns more than `n`. -/
def Yields (s : TcpServer) (i : ℕ) (n : ℤ) : Prop := (s.clients i).ssl = true ∧ n < (s.wolf.headD {}).ret

instance (n : ℤ) : Decidable (s.Yields i n) := by unfold Yields; infer_instance

theorem wolfCall_yields {n : ℤ} (hn : -173 ≤ n) (h : n < (s.wolfCall i).2.ret) : s.Yields i n := by
  unfold wolfCall at h
  dsimp only at h
  split at h
  · exact ⟨‹_›, h⟩
  · exact absurd h (not_lt.mpr hn)

/-! ### Calls of the application -/

/-- The step from `s` to `s'` touches no slot but `i`, and adds only requests of `i` to those in
flight. -/
structure Alters (i : ℕ) (s s' : TcpServer) : Prop where
  others : ∀ j, j ≠ i → s'.clients j = s.clients j
  ssl : (s'.clients i).ssl = (s.clients i).ssl
  rest : s' = { s with
    clients := s'.clients, inflight := s'.inflight, wolf := s'.wolf, nextAddr := s'.nextAddr }
  inflight : ∃ new, s'.inflight = s.inflight ++ new ∧
    ∀ sub ∈ new, sub.req.event.OfClient ∧ sub.req.clientIdx = some i

theorem Issued.ofClient (h : s.Issued i sub) : sub.req.event.OfClient ∧ sub.req.clientIdx = some i := by
  rcases h with ⟨event, rfl | rfl, rfl⟩ | ⟨event, length, rfl | rfl, rfl⟩
  all_goals exact ⟨by simp [EventType.OfClient, readSubmission, writeSubmission], rfl⟩

theorem Touches.alters (h : Touches i s s') : Alters i s s' := by
  obtain ⟨new, hnew, hissued⟩ := h.inflight
  exact ⟨h.others, h.ssl, by rw [h.rest], new, hnew, fun sub hsub => (hissued sub hsub).ofClient⟩

theorem Alters.trans (h : Alters i s s') (h' : Alters i s' s'') : Alters i s s'' := by
  refine ⟨fun j hj => (h'.others j hj).trans (h.others j hj), h'.ssl.trans h.ssl, ?_, ?_⟩
  · rw [h'.rest, h.rest]
  · obtain ⟨new, hnew, hof⟩ := h.inflight
    obtain ⟨new', hnew', hof'⟩ := h'.inflight
    refine ⟨new ++ new', by rw [hnew', hnew, List.append_assoc], fun sub hsub => ?_⟩
    exact (List.mem_append.mp hsub).elim (hof sub) (hof' sub)

theorem alters_setQueue (sendData : List WriteData) : Alters i s (s.setQueue i sendData) :=
  ⟨fun _ hj => setQueue_of_ne _ _ _ _ hj, by simp [setQueue], rfl, [], by simp, by simp⟩

theorem alters_endWrite : Alters i s (s.endWrite i) :=
  ⟨fun _ hj => modifyClient_of_ne _ _ _ _ hj, by simp [endWrite], rfl, [], by simp [endWrite], by simp⟩

/-- Where a failed request leaves a slot before its connection is closed. -/
theorem Alters.endedOrNot (h : s' = s ∨ s' = s.endWrite i) : Alters i s s' := by
  obtain rfl | rfl := h
  · exact ⟨fun _ _ => rfl, rfl, rfl, [], by simp, by simp⟩
  · exact alters_endWrite

theorem alters_addWriteReq (buffer : Ptr) (length : ℕ) :
    Alters i s (s.addWriteReq i .write buffer length) := by
  refine ⟨fun j hj => ?_, by simp [addWriteReq], rfl, [s.writeSubmission i .write buffer length], rfl, ?_⟩
  · simp [addWriteReq, modifyClient_of_ne _ _ _ _ hj]
  · simp [EventType.OfClient, writeSubmission]

theorem alters_writeNext (rest : List WriteData) : Alters i s (s.writeNext i rest) := by
  cases rest with
  | nil => exact alters_setQueue []
  | cons next rest => exact (alters_setQueue _).trans (alters_addWriteReq _ _)

theorem alters_enqueue (T : ServerType) (data : WriteData) (length : ℕ) :
    Alters i s (s.enqueue T i data length) := by
  have hpush : Alters i s (s.pushEntry i data) := alters_setQueue _
  unfold enqueue
  split
  · cases T with
    | nonTls => exact hpush.trans (alters_addWriteReq _ _)
    | tls => exact hpush.trans touches_wolfCall.alters
  · exact hpush

/-- A new entry goes to the end of the queue. -/
theorem enqueue_queue (T : ServerType) (data : WriteData) (length : ℕ) :
    ((s.enqueue T i data length).clients i).queue = (s.clients i).queue ++ [data.unwritten] := by
  have hpush : ((s.pushEntry i data).clients i).queue = (s.clients i).queue ++ [data.unwritten] := by
    simp [Client.queue, pushEntry]
  unfold enqueue
  split
  · cases T with
    | nonTls => simpa [addWriteReq, Client.queue] using hpush
    | tls => exact touches_wolfCall.queue.trans hpush
  · exact hpush

/-- The custom reads in flight. -/
def customReads (s : TcpServer) : List Submission :=
  s.inflight.filter fun sub => sub.req.event = .customRead

theorem customReads_of_append {new : List Submission} (h : s'.inflight = s.inflight ++ new)
    (hnew : ∀ sub ∈ new, sub.req.event ≠ .customRead) : s'.customReads = s.customReads := by
  have : new.filter (fun sub => sub.req.event = .customRead) = [] := by simpa using hnew
  simp [customReads, h, this]

theorem Alters.customReads (h : Alters i s s') : s'.customReads = s.customReads := by
  obtain ⟨new, hnew, hof⟩ := h.inflight
  refine customReads_of_append hnew fun sub hsub hevent => ?_
  have := (hof sub hsub).1
  simp [EventType.OfClient, hevent] at this

theorem Alters.finishedReads (h : Alters i s s') : s'.finishedReads = s.finishedReads := by rw [h.rest]

theorem alters_writeConnection (T : ServerType) (buff : Bytes) : Alters i s (s.writeConnection T i buff) := by
  have hfresh : Alters i s { s with nextAddr := s.nextAddr + 1 } :=
    ⟨fun _ _ => rfl, rfl, rfl, [], by simp, by simp⟩
  exact hfresh.trans (alters_enqueue T _ _)

theorem customReads_addEventReq {event : EventType} (h : event ≠ .customRead) :
    (s.addEventReq event).customReads = s.customReads :=
  customReads_of_append rfl (by simpa using h)

/-- Reads are neither started nor finished when a connection is closed. -/
theorem closeConnection_reads (T : ServerType) :
    (s.closeConnection T i).customReads = s.customReads ∧
      (s.closeConnection T i).finishedReads = s.finishedReads := by
  unfold closeConnection
  split
  · cases T with
    | nonTls => exact ⟨rfl, rfl⟩
    | tls =>
        have hshut : Touches i s (s.wolfCall i).1 := touches_wolfCall
        exact ⟨hshut.alters.customReads, hshut.alters.finishedReads⟩
  · exact ⟨rfl, rfl⟩

theorem broadcastMessage_reads (T : ServerType) (clientIdxs : List ℕ) (buff : Ptr) (length : ℕ)
    (customInfo : ℤ) :
    (s.broadcastMessage T clientIdxs buff length customInfo).customReads = s.customReads ∧
      (s.broadcastMessage T clientIdxs buff length customInfo).finishedReads = s.finishedReads := by
  unfold broadcastMessage
  induction clientIdxs generalizing s with
  | nil => exact ⟨rfl, rfl⟩
  | cons i clientIdxs ih =>
      have hone : Alters i s (broadcastOne T buff length customInfo s i) := alters_enqueue T _ _
      obtain ⟨hreads, hfinished⟩ := ih (s := broadcastOne T buff length customInfo s i)
      exact ⟨hreads.trans hone.customReads, hfinished.trans hone.finishedReads⟩

/-- Which slots there are, which of them are in use and have a session, and what was closed do not
change. -/
structure SameSlots (s s' : TcpServer) : Prop where
  activeConnections : s'.activeConnections = s.activeConnections
  freedIndexes : s'.freedIndexes = s.freedIndexes
  numClients : s'.numClients = s.numClients
  occupants : s'.occupants = s.occupants
  closed : s'.closed = s.closed
  ssl : ∀ i, (s'.clients i).ssl = (s.clients i).ssl

theorem SameSlots.refl (s : TcpServer) : SameSlots s s := ⟨rfl, rfl, rfl, rfl, rfl, fun _ => rfl⟩

theorem SameSlots.trans (h : SameSlots s s') (h' : SameSlots s' s'') : SameSlots s s'' :=
  ⟨h'.activeConnections.trans h.activeConnections, h'.freedIndexes.trans h.freedIndexes,
    h'.numClients.trans h.numClients, h'.occupants.trans h.occupants, h'.closed.trans h.closed,
    fun j => (h'.ssl j).trans (h.ssl j)⟩

theorem Alters.sameSlots (h : Alters i s s') : SameSlots s s' := by
  refine ⟨by rw [h.rest], by rw [h.rest], by rw [h.rest], by rw [h.rest], by rw [h.rest], fun j => ?_⟩
  by_cases hj : j = i
  · rw [hj, h.ssl]
  · rw [h.others j hj]

theorem sameSlots_broadcastMessage (T : ServerType) (clientIdxs : List ℕ) (buff : Ptr) (length : ℕ)
    (customInfo : ℤ) : SameSlots s (s.broadcastMessage T clientIdxs buff length customInfo) := by
  unfold broadcastMessage
  induction clientIdxs generalizing s with
  | nil => exact SameSlots.refl s
  | cons i clientIdxs ih =>
      have hone : SameSlots s (broadcastOne T buff length customInfo s i) := (alters_enqueue T _ _).sameSlots
      exact hone.trans ih

theorem sameSlots_call {T : ServerType} {c : TcpCall} (hc : ∀ i, c ≠ .closeConnection i)
    (h : s.call T c = some s') : SameSlots s s' := by
  unfold call at h
  split at h
  · obtain rfl := Option.some.inj h
    cases c with
    | writeConnection i buff => exact (alters_writeConnection T buff).sameSlots
    | writeConnectionPtr i buff length => exact (alters_enqueue T _ _).sameSlots
    | broadcastMessage clientIdxs buff length customInfo =>
        exact sameSlots_broadcastMessage T clientIdxs buff length customInfo
    | closeConnection i => exact absurd rfl (hc i)
    | readConnection i => exact (touches_addReadReq (Or.inl rfl)).alters.sameSlots
    | customReadReq fd toRead clientIdx buff readAmount file => exact ⟨rfl, rfl, rfl, rfl, rfl, fun _ => rfl⟩
  · cases h

theorem calls_singleton {T : ServerType} {c : TcpCall} (h : s.calls T [c] = some s') :
    (∀ i ∈ c.slots, i < s.numClients) ∧ s' = s.run T c := by
  rw [calls, List.foldlM_cons] at h
  obtain ⟨s₁, hcall, hrest⟩ := Option.bind_eq_some_iff.mp h
  obtain rfl : s₁ = s' := by simpa using hrest
  unfold call at hcall
  split at hcall
  · exact ⟨‹_›, (Option.some.inj hcall).symm⟩
  · cases hcall

theorem sameSlots_calls {T : ServerType} {cs : List TcpCall} (hcs : ∀ c ∈ cs, ∀ i, c ≠ .closeConnection i)
    (h : s.calls T cs = some s') : SameSlots s s' := by
  refine Runs.foldlM_keeps (R := SameSlots s) ?_ (SameSlots.refl s) h
  intro b c b' hc hb hcall
  exact hb.trans (sameSlots_call (hcs c hc) hcall)

end TcpServer

namespace Machine

open TcpServer

variable {σ ε : Type*} {app : App σ ε} {m m' : Machine σ} {s : TcpServer} {i : ℕ}

/-- The completion of request `sub` of slot `i` is a failure, and no write request is in flight then. -/
def EndsFailed (m : Machine σ) (sub : Submission) (i : ℕ) (c : Completion ε) : Prop :=
  c.res ≤ 0 ∧ (m.tcp.clients i).id = sub.req.ID ∧
    (m.tcp.clients i).numWriteReqs = if sub.req.event = .write ∨ sub.req.event = .acceptWrite then 1 else 0

instance (sub : Submission) (c : Completion ε) : Decidable (m.EndsFailed sub i c) := by
  unfold EndsFailed
  infer_instance

/-- A write that does not go on is done. -/
theorem all_written {sub : Submission} {c : Completion ε} (hres : 0 < c.res)
    (hdone : ¬(c.res + sub.req.written < sub.req.totalLength ∧ 0 < c.res)) :
    (sub.req.totalLength : ℤ) ≤ c.res + sub.req.written := by
  by_contra hmore
  exact hdone ⟨by omega, hres⟩

/-- What the guard of the loop lets through. -/
theorem passes_guard {sub : Submission} {c : Completion ε}
    (hguard : ¬(c.res ≤ 0 ∨ 0 < i ∧ (m.tcp.clients i).id ≠ sub.req.ID)) :
    0 < c.res ∧ (i = 0 ∨ (m.tcp.clients i).id = sub.req.ID) := by
  refine ⟨?_, ?_⟩
  · by_contra hres
    exact hguard (Or.inl (by omega))
  · by_contra hne
    obtain ⟨hpos, hid⟩ := not_or.mp hne
    exact hguard (Or.inr ⟨Nat.pos_of_ne_zero hpos, hid⟩)

/-- What the handler of the plain server can do: the read callback; a write that goes on; a write that
is done, with the front entry taken off the queue, the next one written and the write callback; and the
write callback alone for a connection that was closed. -/
theorem plainHandler_rule {sub : Submission} {c : Completion ε} {R : Machine σ → Prop}
    (h : m.plainHandler app sub i c = some m')
    (hread : sub.req.event = .read → ∀ s, Touches i m.tcp s →
      (m.onTcp fun _ => s).readCb .nonTls app c.env i (received sub.req.readData c.data c.res) = some m' →
      R m')
    (hresume : sub.req.event = .write → ∀ front rest, (m.tcp.clients i).sendData = front :: rest →
      R (m.onTcp fun s => s.submit
        { sub with addr := front.ptr, req := { sub.req with written := sub.req.written + c.res.toNat } }))
    (hwritten : sub.req.event = .write → ∀ front rest, (m.tcp.clients i).sendData = front :: rest →
      i ∈ m.tcp.activeConnections ∧ (m.tcp.clients i).id = sub.req.ID →
      ¬(c.res + sub.req.written < sub.req.totalLength ∧ 0 < c.res) →
      (m.onTcp fun s => (s.endWrite i).writeNext i rest).writeCb .nonTls app c.env i front.broadcastInfo =
        some m' → R m')
    (hclosed : sub.req.event = .write →
      ¬(i ∈ m.tcp.activeConnections ∧ (m.tcp.clients i).id = sub.req.ID) →
      ¬(c.res + sub.req.written < sub.req.totalLength ∧ 0 < c.res) →
      (m.onTcp fun s => s.endWrite i).writeCb .nonTls app c.env i (-1) = some m' → R m')
    (hother : R m) : R m' := by
  have hqueue : ((m.tcp.endWrite i).clients i).sendData = (m.tcp.clients i).sendData := by simp [endWrite]
  have hid : ((m.tcp.endWrite i).clients i).id = (m.tcp.clients i).id := by simp [endWrite]
  unfold plainHandler at h
  split at h
  · refine hread ‹_› _ (touches_modifyClient ?_ ?_ ?_ ?_) h <;> rfl
  · rename_i hevent
    unfold plainWrite at h
    dsimp only at h
    split at h
    · split at h
      · cases h
      · obtain rfl := Option.some.inj h
        exact hresume hevent _ _ ‹_›
    · rename_i hdone
      simp only [onTcp_tcp, hid] at h
      split at h
      · split at h
        · cases h
        · rename_i hcons
          exact hwritten hevent _ _ (hqueue.symm.trans hcons) ‹_› hdone h
      · exact hclosed hevent ‹_› hdone h
  · obtain rfl := Option.some.inj h
    exact hother

theorem touches_tlsReceive (sub : Submission) (c : Completion ε) : Touches i s (tlsReceive s i sub c) := by
  unfold tlsReceive
  exact touches_modifyClient rfl rfl le_rfl rfl

/-- The read loop is made of calls of wolfSSL. -/
theorem touches_tlsReadLoop (fuel : ℕ) (buffer : Bytes) : Touches i s (tlsReadLoop i fuel s buffer).1 := by
  induction fuel generalizing s buffer with
  | zero => exact touches_refl i s
  | succ fuel ih =>
      simp only [tlsReadLoop]
      split
      · exact touches_refl i s
      · split
        · exact touches_wolfCall
        · exact touches_wolfCall.trans (ih _)

/-- Something is read only if wolfSSL yields something at once. -/
theorem tlsReadLoop_yields {fuel : ℕ} (h : (tlsReadLoop i fuel s []).2 ≠ []) : s.Yields i 0 := by
  cases fuel with
  | zero => exact absurd rfl h
  | succ fuel =>
      simp only [tlsReadLoop] at h
      split at h
      · exact absurd rfl h
      · split at h
        · exact absurd rfl h
        · exact wolfCall_yields (by decide) (lt_of_not_ge ‹_›)

theorem tlsRead_eq_some {sub : Submission} {c : Completion ε} (h : m.tlsRead app sub i c = some m') :
    ∃ s, Touches i m.tcp s ∧ (m' = m.onTcp (fun _ => s) ∨ m.tcp.Yields i 0 ∧
      ∃ buffer, (m.onTcp fun _ => s).readCb .tls app c.env i buffer = some m') := by
  have hread := (touches_tlsReceive (s := m.tcp) (i := i) sub c).trans (touches_tlsReadLoop
    ((tlsReceive m.tcp i sub c).wolf.length + 1) [])
  unfold tlsRead at h
  dsimp only at h
  split_ifs at h
  · exact ⟨_, hread.trans (touches_addReadReq (Or.inl rfl)), Or.inl (Option.some.inj h).symm⟩
  · rename_i hbuffer
    have hyields : (tlsReceive m.tcp i sub c).Yields i 0 := tlsReadLoop_yields hbuffer
    exact ⟨_, hread, Or.inr ⟨⟨(touches_tlsReceive sub c).ssl ▸ hyields.1, hyields.2⟩, _, h⟩⟩

theorem tlsAcceptRead_eq_some {sub : Submission} {c : Completion ε}
    (h : m.tlsAcceptRead app sub i c = some m') :
    ∃ s, Touches i m.tcp s ∧ (m' = m.onTcp (fun _ => s) ∨ m.tcp.Yields i 0 ∧ ∃ m₁ s₁,
      (m.onTcp fun _ => s).acceptCb app i = some m₁ ∧
      Touches i { s with activeConnections := insert i s.activeConnections } s₁ ∧
      (m' = m₁.onTcp (fun _ => s₁) ∨ ∃ buffer,
        (m₁.onTcp fun _ => s₁).readCb .tls app c.env i buffer = some m')) := by
  have hreceived := (touches_tlsReceive (s := m.tcp) (i := i) sub c).trans touches_wolfCall
  unfold tlsAcceptRead at h
  dsimp only at h
  split_ifs at h
  · rename_i hret
    have hyields : (tlsReceive m.tcp i sub c).Yields i 0 := wolfCall_yields (by decide) (by omega)
    obtain ⟨m₁, hm₁, h⟩ := Option.bind_eq_some_iff.mp h
    have htcp : m₁.tcp = ((tlsReceive m.tcp i sub c).wolfCall i).1 := by
      obtain ⟨a, -, rfl⟩ := Option.map_eq_some_iff.mp hm₁
      rfl
    rw [htcp] at h
    refine ⟨_, hreceived, Or.inr ⟨⟨(touches_tlsReceive sub c).ssl ▸ hyields.1, hyields.2⟩, m₁, ?_⟩⟩
    split_ifs at h
    · refine ⟨_, hm₁, ?_, Or.inr ⟨_, h⟩⟩
      exact (touches_wolfCall.trans
        (touches_modifyClient (f := fun client => { client with recvData := [] }) rfl rfl le_rfl rfl)).trans
        (touches_modifyClient (f := fun client => { client with readReqActive := false }) rfl rfl le_rfl rfl)
    · refine ⟨_, hm₁, ?_, Or.inl (Option.some.inj h).symm⟩
      exact touches_wolfCall.trans (touches_modifyClient rfl rfl le_rfl rfl)
  · exact ⟨_, hreceived, Or.inl (Option.some.inj h).symm⟩

theorem tlsWritten_eq_some {env : ε} (h : m.tlsWritten app env i = some m') :
    ∃ front rest m₁ s, (m.tcp.clients i).sendData = front :: rest ∧
      (m.onTcp fun s => s.setQueue i rest).writeCb .tls app env i front.broadcastInfo = some m₁ ∧
      Touches i m₁.tcp s ∧ m' = m₁.onTcp fun _ => s := by
  unfold tlsWritten at h
  split at h
  · cases h
  · rename_i front rest hqueue
    obtain ⟨m₁, hm₁, rfl⟩ := Option.map_eq_some_iff.mp h
    split_ifs
    · exact ⟨front, rest, m₁, m₁.tcp, hqueue, hm₁, touches_refl i _, rfl⟩
    · exact ⟨front, rest, m₁, _, hqueue, hm₁, touches_wolfCall, rfl⟩

theorem tlsWrite_eq_some {env : ε} {res : ℤ} (h : m.tlsWrite app env i res = some m') :
    ∃ s, Touches i (m.tcp.endWrite i) s ∧
      (m' = m.onTcp (fun _ => s) ∨
        m.tcp.Yields i (-1) ∧ (m.onTcp fun _ => s).tlsWritten app env i = some m') := by
  unfold tlsWrite at h
  dsimp only at h
  split at h
  · exact ⟨_, touches_refl i _, Or.inl (Option.some.inj h).symm⟩
  · rename_i front rest hqueue
    have hlast : Touches i (m.tcp.endWrite i)
        ((m.tcp.endWrite i).setQueue i ({ front with lastWritten := res } :: rest)) := by
      refine touches_modifyClient rfl ?_ le_rfl rfl
      rw [onTcp_tcp] at hqueue
      simp [Client.queue, hqueue]
    have hcalled := hlast.trans touches_wolfCall
    split_ifs at h
    · rename_i hret
      have hyields := wolfCall_yields (le_of_lt (by decide)) hret
      have hssl : (m.tcp.clients i).ssl = true := by
        have hended : ((m.tcp.endWrite i).clients i).ssl = (m.tcp.clients i).ssl := by simp [endWrite]
        exact (hlast.ssl.trans hended).symm.trans hyields.1
      exact ⟨_, hcalled, Or.inr ⟨⟨hssl, hyields.2⟩, h⟩⟩
    · exact ⟨_, hcalled, Or.inl (Option.some.inj h).symm⟩

/-- A write that wolfSSL is done with goes on to the end of the front entry. -/
theorem tlsWrite_of_yields {env : ε} {res : ℤ} (hqueue : (m.tcp.clients i).sendData ≠ [])
    (hyields : m.tcp.Yields i (-1)) : ∃ s, Touches i (m.tcp.endWrite i) s ∧
      m.tlsWrite app env i res = (m.onTcp fun _ => s).tlsWritten app env i := by
  have hended : ((m.tcp.endWrite i).clients i).sendData = (m.tcp.clients i).sendData := by simp [endWrite]
  unfold tlsWrite
  dsimp only
  split
  · rename_i hnil
    exact absurd (hended.symm.trans hnil) hqueue
  · rename_i front rest hcons
    have hlast : Touches i (m.tcp.endWrite i)
        ((m.tcp.endWrite i).setQueue i ({ front with lastWritten := res } :: rest)) := by
      refine touches_modifyClient rfl ?_ le_rfl rfl
      rw [onTcp_tcp] at hcons
      simp [Client.queue, hcons]
    have hret : -1 <
        (((m.tcp.endWrite i).setQueue i ({ front with lastWritten := res } :: rest)).wolfCall i).2.ret := by
      have hssl : (((m.tcp.endWrite i).setQueue i
          ({ front with lastWritten := res } :: rest)).clients i).ssl = true := by
        rw [hlast.ssl]
        simpa [endWrite] using hyields.1
      simp only [wolfCall]
      rw [if_pos hssl]
      exact hyields.2
    refine ⟨_, hlast.trans touches_wolfCall, ?_⟩
    rw [onTcp_tcp, if_pos hret]
    rfl

/-- What the handler of the TLS server can do: calls of wolfSSL alone, after the end of a write or not;
the read callback after them; the accept callback in between; or, after the end of a write, calls of
wolfSSL, the front entry taken off the queue, the write callback for it, and calls of wolfSSL again. -/
theorem tlsHandler_rule {sub : Submission} {c : Completion ε} {R : Machine σ → Prop}
    (h : m.tlsHandler app sub i c = some m')
    (htouch : ∀ s, Touches i m.tcp s ∨ Touches i (m.tcp.endWrite i) s → R (m.onTcp fun _ => s))
    (hread : sub.req.event = .read → m.tcp.Yields i 0 → ∀ s buffer, Touches i m.tcp s →
      (m.onTcp fun _ => s).readCb .tls app c.env i buffer = some m' → R m')
    (haccept : m.tcp.Yields i 0 → ∀ s m₁ s₁, Touches i m.tcp s → (m.onTcp fun _ => s).acceptCb app i = some m₁ →
      Touches i { s with activeConnections := insert i s.activeConnections } s₁ →
      R (m₁.onTcp fun _ => s₁))
    (hacceptRead : sub.req.event = .acceptRead → m.tcp.Yields i 0 → ∀ s m₁ s₁ buffer, Touches i m.tcp s →
      (m.onTcp fun _ => s).acceptCb app i = some m₁ →
      Touches i { s with activeConnections := insert i s.activeConnections } s₁ →
      (m₁.onTcp fun _ => s₁).readCb .tls app c.env i buffer = some m' → R m')
    (hwritten : sub.req.event = .write → m.tcp.Yields i (-1) → ∀ s front rest m₁ s₁,
      Touches i (m.tcp.endWrite i) s →
      (s.clients i).sendData = front :: rest →
      (m.onTcp fun _ => s.setQueue i rest).writeCb .tls app c.env i front.broadcastInfo = some m₁ →
      Touches i m₁.tcp s₁ → R (m₁.onTcp fun _ => s₁)) : R m' := by
  unfold tlsHandler at h
  split at h
  · obtain ⟨s, hs, rfl | ⟨hyields, m₁, s₁, hm₁, hs₁, rfl | ⟨buffer, hbuffer⟩⟩⟩ := tlsAcceptRead_eq_some h
    · exact htouch s (Or.inl hs)
    · exact haccept hyields s m₁ s₁ hs hm₁ hs₁
    · exact hacceptRead ‹_› hyields s m₁ s₁ buffer hs hm₁ hs₁ hbuffer
  · obtain rfl := Option.some.inj h
    refine htouch _ (Or.inr (Touches.trans ?_ touches_wolfCall))
    exact touches_modifyClient rfl rfl le_rfl rfl
  · obtain ⟨s, hs, rfl | ⟨hyields, hdone⟩⟩ := tlsWrite_eq_some h
    · exact htouch s (Or.inr hs)
    · obtain ⟨front, rest, m₁, s₁, hqueue, hcb, hs₁, rfl⟩ := tlsWritten_eq_some hdone
      exact hwritten ‹_› hyields s front rest m₁ s₁ hs hqueue hcb hs₁
  · obtain ⟨s, hs, rfl | ⟨hyields, buffer, hbuffer⟩⟩ := tlsRead_eq_some h
    · exact htouch s (Or.inl hs)
    · exact hread ‹_› hyields s buffer hs hbuffer
  · obtain rfl := Option.some.inj h
    exact htouch m.tcp (Or.inl (touches_refl i m.tcp))

section

variable {T : ServerType} {R : Machine σ → Prop}

theorem closeIfIdle_rule (h : m.closeIfIdle T app i = some m')
    (hidle : (m.tcp.clients i).numWriteReqs = 0 → m.drainAndClose T app i = some m' → R m')
    (hbusy : (m.tcp.clients i).numWriteReqs ≠ 0 → R m) : R m' := by
  unfold closeIfIdle at h
  split at h
  · exact hidle ‹_› h
  · obtain rfl := Option.some.inj h
    exact hbusy ‹_›

/-- What a request of a client can do: it fails and its connection is closed; nothing but the end of a write, if it
was one; or what the handler does with it. -/
theorem clientEvent_rule {sub : Submission} {c : Completion ε} (h : m.clientEvent T app sub i c = some m')
    (hcloses : ∀ s, s = m.tcp ∨ s = m.tcp.endWrite i → i < m.tcp.numClients → m.EndsFailed sub i c →
      (s.clients i).numWriteReqs = 0 → (m.onTcp fun _ => s).drainAndClose T app i = some m' → R m')
    (hstays : ∀ s, s = m.tcp ∨ s = m.tcp.endWrite i → R (m.onTcp fun _ => s))
    (hplain : T = .nonTls → i < m.tcp.numClients → 0 < c.res → (i = 0 ∨ (m.tcp.clients i).id = sub.req.ID) →
      m.plainHandler app sub i c = some m' → R m')
    (htls : T = .tls → i < m.tcp.numClients → 0 < c.res → (i = 0 ∨ (m.tcp.clients i).id = sub.req.ID) →
      m.tlsHandler app sub i c = some m' → R m') : R m' := by
  unfold clientEvent at h
  split at h
  · rename_i hi
    split at h
    · split at h
      · rename_i hfailed
        unfold failed at h
        split at h
        · rename_i hwrite
          refine closeIfIdle_rule (m := m.onTcp fun s => s.endWrite i) h (fun hzero hclose => ?_)
            (fun _ => hstays _ (Or.inr rfl))
          refine hcloses _ (Or.inr rfl) hi ⟨hfailed.1, hfailed.2, ?_⟩ hzero hclose
          rw [if_pos hwrite]
          simp only [onTcp_tcp, endWrite, modifyClient_self] at hzero
          omega
        · rename_i hread
          refine closeIfIdle_rule h (fun hzero hclose => ?_) (fun _ => hstays m.tcp (Or.inl rfl))
          exact hcloses m.tcp (Or.inl rfl) hi ⟨hfailed.1, hfailed.2, by rw [if_neg hread, hzero]⟩ hzero hclose
      · obtain rfl := Option.some.inj h
        exact hstays m.tcp (Or.inl rfl)
    · rename_i hguard
      obtain ⟨hres, hid⟩ := passes_guard hguard
      cases T with
      | nonTls => exact hplain rfl hi hres hid h
      | tls => exact htls rfl hi hres hid h
  · cases h

/-- The sweep closes connections, one after the other. -/
theorem sweep_rule {order halfClosed : List ℕ} (h : m.sweep T app order halfClosed = some m') (hm : R m)
    (hcloses : ∀ x j x', j ∈ m.tcp.activeConnections → j ∈ halfClosed → R x → x.drainAndClose T app j = some x' →
      R x') : R m' := by
  refine Runs.foldlM_keeps (R := R) (fun x j x' hj hx hround => ?_) hm h
  split at hround
  · exact hcloses x j x' (mem_visitOrder.mp hj) ‹_› hx hround
  · obtain rfl := Option.some.inj hround
    exact hx

/-- A custom read is finished, and its callback called, or it goes on. -/
theorem customRead_rule {env : ε} {sub : Submission} {res : ℤ} {data : Bytes}
    (h : m.customRead T app env sub res data = some m')
    (hfinished : ∀ readData, (m.onTcp fun s =>
        { s with finishedReads := s.finishedReads ++ [(sub.file, readData)] }).callback T
      (.customRead sub.req.clientIdx sub.req.customInfo readData)
      (app.customReadCb env m.app sub.req.clientIdx sub.req.customInfo readData) = some m' → R m')
    (hcontinued : ∀ readData readAmount,
      R (m.onTcp fun s => s.submit { sub with req := { sub.req with readData, readAmount } })) : R m' := by
  unfold customRead at h
  dsimp only at h
  split_ifs at h
  · exact hfinished _ h
  · obtain rfl := Option.some.inj h
    exact hcontinued _ _

end

end Machine

/-! ### Invariants of the application -/

/-- Every callback keeps `P`. -/
structure App.Maintains {σ ε : Type*} (app : App σ ε) (P : σ → Prop) : Prop where
  accept : ∀ a i a', P a → app.acceptCb a i = some a' → P a'
  close : ∀ a i info a', P a → app.closeCb a i info = some a' → P a'
  read : ∀ env a i buffer r, P a → app.readCb env a i buffer = some r → P r.1
  write : ∀ env a i info r, P a → app.writeCb env a i info = some r → P r.1
  event : ∀ env a r, P a → app.eventCb env a = some r → P r.1
  customRead : ∀ env a i fd buffer r, P a → app.customReadCb env a i fd buffer = some r → P r.1

namespace Machine

variable {σ ε : Type*} {app : App σ ε} {m m' : Machine σ} {i : ℕ} {P : σ → Prop} {T : ServerType} {env : ε}

theorem app_acceptCb (h : app.Maintains P) (hm : P m.app) (hcb : m.acceptCb app i = some m') : P m'.app := by
  obtain ⟨a, ha, rfl⟩ := Option.map_eq_some_iff.mp hcb
  exact h.accept _ _ _ hm ha

theorem app_readCb (h : app.Maintains P) (hm : P m.app) {buffer : Bytes}
    (hcb : m.readCb T app env i buffer = some m') : P m'.app := by
  obtain ⟨a, cs, hresult, -, rfl, -⟩ := callback_eq_some hcb
  exact h.read _ _ _ _ _ hm hresult

theorem app_writeCb (h : app.Maintains P) (hm : P m.app) {info : ℤ}
    (hcb : m.writeCb T app env i info = some m') : P m'.app := by
  obtain ⟨a, cs, hresult, -, rfl, -⟩ := callback_eq_some hcb
  exact h.write _ _ _ _ _ hm hresult

theorem app_drainAndClose (h : app.Maintains P) (hm : P m.app) (hclose : m.drainAndClose T app i = some m') :
    P m'.app := by
  obtain ⟨m₁, hm₁, rfl⟩ := Option.map_eq_some_iff.mp hclose
  show P m₁.app
  refine Runs.foldlM_keeps (R := fun x : Machine σ => P x.app) (fun b info b' _ hb hcb => ?_) hm hm₁
  obtain ⟨a, ha, rfl⟩ := Option.map_eq_some_iff.mp hcb
  exact h.close _ _ _ _ hb ha

theorem app_clientEvent (h : app.Maintains P) (hm : P m.app) {sub : Submission} {c : Completion ε}
    (hhandled : m.clientEvent T app sub i c = some m') : P m'.app := by
  refine clientEvent_rule hhandled (R := fun x => P x.app)
    (fun s _ _ _ _ hclose => app_drainAndClose (m := m.onTcp fun _ => s) h hm hclose) (fun _ _ => hm)
    (fun _ _ _ _ hplain => ?_) (fun _ _ _ _ htls => ?_)
  · refine plainHandler_rule hplain (R := fun x => P x.app) (fun _ s _ hm' => ?_) (fun _ _ _ _ => hm)
      (fun _ _ rest _ _ _ hm' => ?_) (fun _ _ _ hm' => ?_) hm
    · exact app_readCb (m := m.onTcp fun _ => s) h hm hm'
    · exact app_writeCb (m := m.onTcp fun s => (s.endWrite i).writeNext i rest) h hm hm'
    · exact app_writeCb (m := m.onTcp fun s => s.endWrite i) h hm hm'
  · refine tlsHandler_rule htls (R := fun x => P x.app) (fun _ _ => hm) (fun _ _ s _ _ hm' => ?_)
      (fun _ s m₁ _ _ hm₁ _ => ?_) (fun _ _ s m₁ s₁ _ _ hm₁ _ hm' => ?_) (fun _ _ s _ rest m₁ _ _ _ hm₁ _ => ?_)
    · exact app_readCb (m := m.onTcp fun _ => s) h hm hm'
    · have haccepted : P m₁.app := app_acceptCb (m := m.onTcp fun _ => s) h hm hm₁
      exact haccepted
    · have haccepted : P m₁.app := app_acceptCb (m := m.onTcp fun _ => s) h hm hm₁
      exact app_readCb (m := m₁.onTcp fun _ => s₁) h haccepted hm'
    · have hwritten : P m₁.app := app_writeCb (m := m.onTcp fun _ => s.setQueue i rest) h hm hm₁
      exact hwritten

/-- What every callback keeps, every round of the loop keeps. -/
theorem app_step (h : app.Maintains P) (hm : P m.app) {c : Completion ε} {log : List Callback}
    (hstep : step T app m c = some (m', log)) : P m'.app := by
  obtain ⟨sub, -, hhandled, -⟩ := step_eq_some hstep
  refine dispatch_rule hhandled (R := fun x => P x.app) (fun _ => hm) (fun _ hm' => ?_) (fun _ hm' => ?_)
    (fun _ m₁ hm₁ => ?_) (fun _ _ hm' => ?_) (fun _ _ => hm) (fun i _ _ hm' => ?_)
  · obtain ⟨a, cs, hresult, -, rfl, -⟩ := callback_eq_some hm'
    exact h.event _ _ _ hm hresult
  · refine customRead_rule hm' (R := fun x => P x.app) (fun readData hfinished => ?_) (fun _ _ => hm)
    obtain ⟨a, cs, hresult, -, rfl, -⟩ := callback_eq_some hfinished
    exact h.customRead _ _ _ _ _ _ hm hresult
  · show P m₁.app
    exact sweep_rule hm₁ (R := fun x => P x.app) hm fun x j x' _ _ hx hclose => app_drainAndClose h hx hclose
  · simp only [plainAccept] at hm'
    obtain ⟨m₁, hm₁, rfl⟩ := Option.map_eq_some_iff.mp hm'
    obtain ⟨a, ha, rfl⟩ := Option.map_eq_some_iff.mp hm₁
    exact h.accept _ _ _ hm ha
  · have htake : P (m.take c).app := hm
    exact app_clientEvent h htake hm'

end Machine

end LiburingServer
