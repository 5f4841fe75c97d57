import LiburingServer.TcpFrame
import LiburingServer.Lib.InFlight

/-! The writes of the plain server. A slot is idle, with no write request in flight, or busy, with one
that writes the front entry of its queue. The operations keep every slot in one of the two states; only
the sweep can empty the queue of a busy slot, and only an accept can hand out a busy one. -/

namespace LiburingServer

/-- A write request for slot `i`. -/
def Submission.IsWrite (i : ℕ) (sub : Submission) : Prop :=
  sub.req.event = .write ∧ sub.req.clientIdx = some i

instance (i : ℕ) : DecidablePred (Submission.IsWrite i) := fun sub =>
  inferInstanceAs (Decidable (sub.req.event = .write ∧ sub.req.clientIdx = some i))

namespace TcpServer

/-- The write requests of slot `i` in flight. -/
def writes (s : TcpServer) (i : ℕ) : List Submission := s.inflight.filter fun sub => sub.IsWrite i

variable (s : TcpServer) (i j : ℕ) (f : Client → Client) (sub : Submission)

@[simp] theorem modifyClient_writes : (s.modifyClient i f).writes j = s.writes j := rfl

theorem submit_writes : (s.submit sub).writes j = s.writes j ++ if sub.IsWrite j then [sub] else [] := by
  by_cases h : sub.IsWrite j <;> simp [writes, h]

theorem submit_writes_of_not {s : TcpServer} {sub : Submission} {j : ℕ} (h : ¬sub.IsWrite j) :
    (s.submit sub).writes j = s.writes j := by
  simp [submit_writes, h]

end TcpServer

/-- No write request of the slot is in flight; if it is active it has nothing to write. -/
def Idle (client : Client) (writes : List Submission) (active : Prop) : Prop :=
  writes = [] ∧ client.numWriteReqs = 0 ∧ (active → client.sendData = [])

/-- One write request of the slot is in flight, for the front entry of its queue. -/
def Busy (client : Client) (writes : List Submission) : Prop :=
  ∃ sub front rest, writes = [sub] ∧ client.numWriteReqs = 1 ∧ client.sendData = front :: rest ∧
    sub.req.buffer = front.ptr ∧ sub.addr = front.ptr ∧ sub.req.ID = client.id

/-- Every slot is idle or busy, and only slots that exist are busy. -/
structure WriteInv (s : TcpServer) : Prop where
  slot : ∀ i, Idle (s.clients i) (s.writes i) (i ∈ s.activeConnections) ∨
    i < s.numClients ∧ Busy (s.clients i) (s.writes i)
  plain : ∀ sub ∈ s.inflight, sub.req.event ≠ .acceptWrite

/-- The invariant of all slots but one. -/
structure WriteInvExcept (s : TcpServer) (i : ℕ) : Prop where
  slot : ∀ j, j ≠ i → Idle (s.clients j) (s.writes j) (j ∈ s.activeConnections) ∨
    j < s.numClients ∧ Busy (s.clients j) (s.writes j)
  plain : ∀ sub ∈ s.inflight, sub.req.event ≠ .acceptWrite

/-- What the server needs of its writes: an active slot has one write request in flight if its queue is
not empty and none otherwise, `num_write_reqs` counts them, the request writes the front entry of the
queue, and no write request is in flight for an empty queue. -/
structure WritesFit (s : TcpServer) : Prop where
  length : ∀ i ∈ s.activeConnections,
    (s.writes i).length = if (s.clients i).sendData = [] then 0 else 1
  num : ∀ i ∈ s.activeConnections, (s.clients i).numWriteReqs = (s.writes i).length
  front : ∀ i ∈ s.activeConnections, ∀ sub ∈ s.writes i, ∃ front rest,
    (s.clients i).sendData = front :: rest ∧ sub.req.buffer = front.ptr
  nonempty : ∀ i, ∀ sub ∈ s.writes i, (s.clients i).sendData ≠ []

namespace WriteInvExcept

open TcpServer

variable {s : TcpServer} {i : ℕ}

theorem modifyClient {f : Client → Client} (h : WriteInvExcept s i) :
    WriteInvExcept (s.modifyClient i f) i := by
  refine ⟨fun j hj => ?_, h.plain⟩
  rw [modifyClient_of_ne _ _ _ _ hj]
  exact h.slot j hj

theorem setQueue {sendData : List WriteData} (h : WriteInvExcept s i) :
    WriteInvExcept (s.setQueue i sendData) i := h.modifyClient

/-- The invariant holds of the remaining slot too. -/
theorem writeInv (h : WriteInvExcept s i)
    (hslot : Idle (s.clients i) (s.writes i) (i ∈ s.activeConnections) ∨
      i < s.numClients ∧ Busy (s.clients i) (s.writes i)) : WriteInv s := by
  refine ⟨fun j => ?_, h.plain⟩
  by_cases hj : j = i
  · rw [hj]
    exact hslot
  · exact h.slot j hj

end WriteInvExcept

namespace WriteInv

open TcpServer

variable {s s' : TcpServer} {i : ℕ}

theorem writesFit (h : WriteInv s) : WritesFit s := by
  refine ⟨fun i hi => ?_, fun i hi => ?_, fun i hi sub hsub => ?_, fun i sub hsub => ?_⟩
  · rcases h.slot i with ⟨hw, -, hq⟩ | ⟨-, sub, front, rest, hw, -, hq, -⟩
    · simp [hw, hq hi]
    · simp [hw, hq]
  · rcases h.slot i with ⟨hw, hn, -⟩ | ⟨-, sub, front, rest, hw, hn, -⟩
    · simp [hw, hn]
    · simp [hw, hn]
  · rcases h.slot i with ⟨hw, -⟩ | ⟨-, sub', front, rest, hw, -, hq, hbuffer, -⟩
    · simp [hw] at hsub
    · obtain rfl : sub = sub' := by simpa [hw] using hsub
      exact ⟨front, rest, hq, hbuffer⟩
  · rcases h.slot i with ⟨hw, -⟩ | ⟨-, sub', front, rest, -, -, hq, -⟩
    · simp [hw] at hsub
    · simp [hq]

/-- The parts of a client that matter here. -/
def SameQueue (a b : Client) : Prop :=
  a.sendData = b.sendData ∧ a.numWriteReqs = b.numWriteReqs ∧ a.id = b.id

/-- Changes that touch no queue and no write request. -/
theorem congr (h : WriteInv s) (hclients : ∀ i, SameQueue (s'.clients i) (s.clients i))
    (hwrites : ∀ i, s'.writes i = s.writes i) (hactive : s'.activeConnections = s.activeConnections)
    (hnum : s'.numClients = s.numClients) (hplain : ∀ sub ∈ s'.inflight, sub.req.event ≠ .acceptWrite) :
    WriteInv s' := by
  refine ⟨fun i => ?_, hplain⟩
  obtain ⟨hq, hn, hid⟩ := hclients i
  rw [hwrites, hactive, hnum]
  rcases h.slot i with ⟨hw, hn', hq'⟩ | ⟨hi, sub, front, rest, hw, hn', hq', hrest⟩
  · exact Or.inl ⟨hw, by rw [hn, hn'], by rwa [hq]⟩
  · exact Or.inr ⟨hi, sub, front, rest, hw, by rw [hn, hn'], by rw [hq, hq'], by rwa [hid]⟩

/-- One slot changes and the others do not. -/
theorem of_slot (h : WriteInv s)
    (hclients : ∀ j, j ≠ i → s'.clients j = s.clients j)
    (hwrites : ∀ j, j ≠ i → s'.writes j = s.writes j)
    (hactive : ∀ j, j ≠ i → (j ∈ s'.activeConnections ↔ j ∈ s.activeConnections))
    (hnum : s.numClients ≤ s'.numClients)
    (hplain : ∀ sub ∈ s'.inflight, sub.req.event ≠ .acceptWrite)
    (hslot : Idle (s'.clients i) (s'.writes i) (i ∈ s'.activeConnections) ∨
      i < s'.numClients ∧ Busy (s'.clients i) (s'.writes i)) : WriteInv s' := by
  refine ⟨fun j => ?_, hplain⟩
  by_cases hj : j = i
  · rw [hj]
    exact hslot
  · rw [hclients j hj, hwrites j hj, hactive j hj]
    rcases h.slot j with hidle | ⟨hlt, hbusy⟩
    · exact Or.inl hidle
    · exact Or.inr ⟨hlt.trans_le hnum, hbusy⟩

theorem except (h : WriteInv s) : WriteInvExcept s i := ⟨fun j _ => h.slot j, h.plain⟩

/-- A request that is not a write. -/
theorem submit {sub : Submission} (h : WriteInv s) (hsub : sub.req.event ≠ .write)
    (hsub' : sub.req.event ≠ .acceptWrite) : WriteInv (s.submit sub) := by
  refine h.congr (fun i => ⟨rfl, rfl, rfl⟩) (fun i => submit_writes_of_not fun hw => hsub hw.1) rfl rfl ?_
  intro sub' hmem
  rcases List.mem_append.mp hmem with hmem | hmem
  · exact h.plain sub' hmem
  · rw [List.mem_singleton.mp hmem]
    exact hsub'

theorem modifyClient {f : Client → Client} (h : WriteInv s) (hf : SameQueue (f (s.clients i)) (s.clients i)) :
    WriteInv (s.modifyClient i f) := by
  refine h.congr (fun j => ?_) (fun j => rfl) rfl rfl h.plain
  by_cases hj : j = i
  · subst hj
    simpa using hf
  · rw [modifyClient_of_ne _ _ _ _ hj]
    exact ⟨rfl, rfl, rfl⟩

theorem addReadReq (h : WriteInv s) : WriteInv (s.addReadReq i .read) := by
  unfold TcpServer.addReadReq
  split
  · exact h
  · apply WriteInv.modifyClient
    · apply h.submit <;> simp [readSubmission]
    · exact ⟨rfl, rfl, rfl⟩

theorem customReadReq (h : WriteInv s) (fd : ℤ) (toRead : ℕ) (clientIdx : Option ℕ) (buff : Bytes)
    (readAmount : ℕ) (file : Option Bytes) :
    WriteInv (s.customReadReq fd toRead clientIdx buff readAmount file) := by
  apply h.submit <;> simp

/-- A write request for the front entry makes a slot without requests busy. -/
theorem addWriteReq_slot {front : WriteData} {rest : List WriteData} (hw : s.writes i = [])
    (hn : (s.clients i).numWriteReqs = 0) (hq : (s.clients i).sendData = front :: rest) (length : ℕ) :
    Busy ((s.addWriteReq i .write front.ptr length).clients i)
      ((s.addWriteReq i .write front.ptr length).writes i) := by
  refine ⟨s.writeSubmission i .write front.ptr length, front, rest, ?_, ?_, ?_, rfl, rfl, ?_⟩
  · rw [addWriteReq, submit_writes, modifyClient_writes, hw, if_pos ⟨rfl, rfl⟩]
    rfl
  · simp [addWriteReq, hn]
  · simpa [addWriteReq] using hq
  · simp [addWriteReq, writeSubmission]

/-- A write request makes the invariant hold of its slot. -/
theorem addWriteReq (h : WriteInvExcept s i) {front : WriteData} {rest : List WriteData}
    (hi : i < s.numClients) (hw : s.writes i = []) (hn : (s.clients i).numWriteReqs = 0)
    (hq : (s.clients i).sendData = front :: rest) (length : ℕ) :
    WriteInv (s.addWriteReq i .write front.ptr length) := by
  refine ⟨fun j => ?_, fun sub hsub => ?_⟩
  · by_cases hj : j = i
    · rw [hj]
      exact Or.inr ⟨hi, addWriteReq_slot hw hn hq length⟩
    · have hclient : (s.addWriteReq i .write front.ptr length).clients j = s.clients j := by
        simp [TcpServer.addWriteReq, modifyClient_of_ne _ _ _ _ hj]
      have hwrites : (s.addWriteReq i .write front.ptr length).writes j = s.writes j := by
        rw [TcpServer.addWriteReq, submit_writes_of_not, modifyClient_writes]
        rintro ⟨-, hidx⟩
        exact hj (by simpa [writeSubmission] using hidx.symm)
      rw [hclient, hwrites]
      exact h.slot j hj
  · rcases List.mem_append.mp hsub with hsub | hsub
    · exact h.plain sub hsub
    · rw [List.mem_singleton.mp hsub]
      simp [writeSubmission]

/-- A new entry: the slot of an empty queue becomes busy with it. -/
theorem enqueue (h : WriteInv s) (hi : i < s.numClients) (data : WriteData) (length : ℕ) :
    WriteInv (s.enqueue .nonTls i data length) := by
  by_cases hq : (s.clients i).sendData = []
  · have hidle : Idle (s.clients i) (s.writes i) (i ∈ s.activeConnections) := by
      rcases h.slot i with hidle | ⟨-, sub, front, rest, -, -, hq', -⟩
      · exact hidle
      · simp [hq'] at hq
    rw [enqueue_plain_of_nil _ _ hq]
    have hpushed : ((s.pushEntry i data).clients i).sendData = data :: [] := by simp [pushEntry, hq]
    have hexcept : WriteInvExcept (s.pushEntry i data) i := h.except.setQueue
    exact addWriteReq hexcept hi hidle.1 (by simpa [pushEntry] using hidle.2.1) hpushed length
  · rw [enqueue_of_ne_nil _ _ _ hq]
    refine h.of_slot (i := i) (fun j hj => setQueue_of_ne _ _ _ _ hj) (fun j _ => rfl)
      (fun j _ => Iff.rfl) le_rfl h.plain ?_
    rcases h.slot i with ⟨hw, hn, hempty⟩ | ⟨-, sub, front, rest, hw, hn, hq', hrest⟩
    · refine Or.inl ⟨hw, by simpa [pushEntry] using hn, fun hactive => ?_⟩
      exact absurd (hempty hactive) hq
    · refine Or.inr ⟨hi, sub, front, rest ++ [data], hw, by simpa [pushEntry] using hn,
        by simp [pushEntry, hq'], ?_⟩
      simpa [pushEntry] using hrest

theorem enqueue_numClients (data : WriteData) (length : ℕ) :
    (s.enqueue .nonTls i data length).numClients = s.numClients := by
  by_cases hq : (s.clients i).sendData = []
  · rw [enqueue_plain_of_nil _ _ hq]
    rfl
  · rw [enqueue_of_ne_nil _ _ _ hq]
    rfl

theorem broadcastMessage (h : WriteInv s) {clientIdxs : List ℕ} (hidxs : ∀ i ∈ clientIdxs, i < s.numClients)
    (buff : Ptr) (length : ℕ) (customInfo : ℤ) :
    WriteInv (s.broadcastMessage .nonTls clientIdxs buff length customInfo) := by
  unfold TcpServer.broadcastMessage
  induction clientIdxs generalizing s with
  | nil => exact h
  | cons i clientIdxs ih =>
      refine ih (h.enqueue (hidxs i (by simp)) _ _) fun j hj => ?_
      rw [broadcastOne, enqueue_numClients]
      exact hidxs j (by simp [hj])

/-- Freeing an idle slot. -/
theorem freeSlot (h : WriteInv s) (hi : (s.clients i).numWriteReqs = 0) (hw : s.writes i = []) :
    WriteInv (s.freeSlot i) := by
  refine h.of_slot (i := i) (fun j hj => ?_) (fun j _ => rfl) (fun j hj => ?_)
    le_rfl h.plain (Or.inl ⟨hw, ?_, fun _ => ?_⟩)
  · simp [TcpServer.freeSlot, setQueue_of_ne _ _ _ _ hj]
  · simp [TcpServer.freeSlot, hj]
  · simpa [TcpServer.freeSlot] using hi
  · simp [TcpServer.freeSlot]

theorem closeConnection (h : WriteInv s) : WriteInv (s.closeConnection .nonTls i) := by
  unfold TcpServer.closeConnection
  split
  · rename_i hn
    apply h.freeSlot hn
    rcases h.slot i with ⟨hw, -⟩ | ⟨-, sub, front, rest, -, hn', -⟩
    · exact hw
    · omega
  · exact h

theorem call (h : WriteInv s) {c : TcpCall} (hcall : s.call .nonTls c = some s') : WriteInv s' := by
  unfold TcpServer.call at hcall
  split at hcall
  · rename_i hslots
    obtain rfl := Option.some.inj hcall
    cases c with
    | writeConnection i buff =>
        have hfresh : WriteInv { s with nextAddr := s.nextAddr + 1 } :=
          h.congr (fun _ => ⟨rfl, rfl, rfl⟩) (fun _ => rfl) rfl rfl h.plain
        exact hfresh.enqueue (hslots i (by simp [TcpCall.slots])) _ _
    | writeConnectionPtr i buff length => exact h.enqueue (hslots i (by simp [TcpCall.slots])) _ _
    | broadcastMessage clientIdxs buff length customInfo => exact h.broadcastMessage hslots buff length customInfo
    | closeConnection i => exact h.closeConnection
    | readConnection i => exact h.addReadReq
    | customReadReq fd toRead clientIdx buff readAmount file => exact h.customReadReq ..
  · cases hcall

theorem calls (h : WriteInv s) {cs : List TcpCall} (hcalls : s.calls .nonTls cs = some s') : WriteInv s' :=
  Runs.foldlM_keeps (fun _ _ _ _ hb hc => hb.call hc) h hcalls

/-- An accept: the new connection gets an idle slot, provided no write request for it is in flight. -/
theorem setupClient (h : WriteInv s) (sockfd : ℤ)
    (hfree : ∀ hne : s.freedIndexes.Nonempty, s.writes (s.freedIndexes.min' hne) = []) :
    WriteInv { (s.setupClient sockfd).1 with
      activeConnections := insert (s.setupClient sockfd).2 (s.setupClient sockfd).1.activeConnections } := by
  unfold TcpServer.setupClient
  split
  · rename_i hne
    refine h.of_slot (i := s.freedIndexes.min' hne) (fun j hj => by simp [hj]) (fun j _ => rfl)
      (fun j hj => by simp [hj]) le_rfl h.plain (Or.inl ⟨hfree hne, by simp, fun _ => by simp⟩)
  · have hnew : s.writes s.numClients = [] := by
      rcases h.slot s.numClients with ⟨hw, -⟩ | ⟨hlt, -⟩
      · exact hw
      · omega
    refine h.of_slot (i := s.numClients) (fun j hj => by simp [hj]) (fun j _ => rfl)
      (fun j hj => by simp [hj]) (Nat.le_succ _) h.plain (Or.inl ⟨hnew, by simp, fun _ => by simp⟩)

/-- The requests in flight when one of them is completed that is not a write. -/
theorem complete (h : WriteInv s) {n : ℕ} {sub : Submission} (hsub : s.inflight[n]? = some sub)
    (hevent : sub.req.event ≠ .write) (wolf : List WolfCall) :
    WriteInv (s.takeCompleted n wolf) := by
  refine h.congr (fun i => ⟨rfl, rfl, rfl⟩) (fun i => ?_) rfl rfl
    fun sub' hmem => h.plain sub' (List.mem_of_mem_eraseIdx hmem)
  exact InFlight.filter_eraseIdx_of_not hsub (by simp [Submission.IsWrite, hevent])

/-- The write request of a busy slot is completed. -/
theorem complete_write (h : WriteInv s) {n : ℕ} {sub : Submission} (hsub : s.inflight[n]? = some sub)
    (hwrite : sub.IsWrite i) (wolf : List WolfCall) :
    WriteInvExcept (s.takeCompleted n wolf) i ∧ (s.takeCompleted n wolf).writes i = [] ∧
      (s.clients i).numWriteReqs = 1 ∧ i < s.numClients ∧ sub.req.ID = (s.clients i).id ∧
      ∃ front rest, (s.clients i).sendData = front :: rest ∧ sub.req.buffer = front.ptr := by
  have hmem : sub ∈ s.writes i :=
    List.mem_filter.mpr ⟨List.mem_of_getElem? hsub, by simpa using hwrite⟩
  rcases h.slot i with ⟨hw, -⟩ | ⟨hi, sub', front, rest, hw, hn, hq, hbuffer, -, hid⟩
  · simp [hw] at hmem
  · obtain ⟨rfl, hnone⟩ := InFlight.filter_eraseIdx_of_single hsub (by simpa using hwrite) hw
    refine ⟨⟨fun j hj => ?_, fun sub' hmem => h.plain sub' (List.mem_of_mem_eraseIdx hmem)⟩, hnone, hn, hi,
      hid, front, rest, hq, hbuffer⟩
    have hother : (s.takeCompleted n wolf).writes j = s.writes j := by
      refine InFlight.filter_eraseIdx_of_not hsub (decide_eq_false fun hj' => hj ?_)
      have := hwrite.2.symm.trans hj'.2
      simpa using this.symm
    rw [hother]
    exact h.slot j

end WriteInv

/-- Closing a slot without write requests in flight leaves it idle. -/
theorem WriteInvExcept.drained {s : TcpServer} {i : ℕ} (h : WriteInvExcept s i) (hw : s.writes i = [])
    (hn : (s.clients i).numWriteReqs = 0) :
    WriteInv ((s.setQueue i []).closeConnection .nonTls i) := by
  apply WriteInv.closeConnection
  exact h.setQueue.writeInv (Or.inl ⟨hw, by simpa using hn, fun _ => by simp⟩)

/-! ### The event loop -/

namespace Machine

open TcpServer

variable {σ ε : Type*} {app : App σ ε} {m m' : Machine σ} {i : ℕ}

theorem writeInv_callback {cb : Callback} {result : Option (σ × List TcpCall)} (h : WriteInv m.tcp)
    (hcb : m.callback .nonTls cb result = some m') : WriteInv m'.tcp := by
  obtain ⟨a, cs, -, hcalls, -⟩ := callback_eq_some hcb
  exact h.calls hcalls

/-- The sweep keeps the invariant if it finds no connection that is writing. -/
theorem writeInv_sweep {order halfClosed : List ℕ} (h : WriteInv m.tcp)
    (hclosed : ∀ i ∈ m.tcp.activeConnections, i ∈ halfClosed → m.tcp.writes i = [])
    (hsweep : m.sweep .nonTls app order halfClosed = some m') : WriteInv m'.tcp := by
  -- closing a connection leaves the requests in flight alone
  refine (sweep_rule hsweep (R := fun x => WriteInv x.tcp ∧ x.tcp.inflight = m.tcp.inflight) ⟨h, rfl⟩ ?_).1
  rintro b i b' hactive hhalf ⟨hb, hflight⟩ hclose
  have hw : b.tcp.writes i = [] := by
    rw [← hclosed i hactive hhalf, writes, writes, hflight]
  have hn : (b.tcp.clients i).numWriteReqs = 0 := by
    rcases hb.slot i with ⟨-, hn, -⟩ | ⟨-, sub, front, rest, hw', -⟩
    · exact hn
    · simp [hw] at hw'
  rw [drainAndClose_tcp hclose]
  refine ⟨hb.except.drained hw hn, ?_⟩
  unfold TcpServer.closeConnection
  split
  · simpa [freeSlot] using hflight
  · exact hflight

/-- A connection without write requests in flight is closed. -/
theorem writeInv_closeIfIdle (h : WriteInvExcept m.tcp i) (hw : m.tcp.writes i = [])
    (hslot : (m.tcp.clients i).numWriteReqs = 0)
    (hclose : m.closeIfIdle .nonTls app i = some m') : WriteInv m'.tcp := by
  rw [closeIfIdle, if_pos hslot] at hclose
  rw [drainAndClose_tcp hclose]
  exact h.drained hw hslot

theorem writeInv_failed {event : EventType} (h : WriteInv m.tcp) (hwrite : event ≠ .write)
    (haccept : event ≠ .acceptWrite) (hfailed : m.failed .nonTls app i event = some m') :
    WriteInv m'.tcp := by
  rw [failed, if_neg (by simp [hwrite, haccept])] at hfailed
  rcases h.slot i with ⟨hw, hn, -⟩ | ⟨-, sub, front, rest, -, hn, -⟩
  · exact writeInv_closeIfIdle h.except hw hn hfailed
  · rw [closeIfIdle, if_neg (by omega)] at hfailed
    obtain rfl := Option.some.inj hfailed
    exact h

/-- A failed write closes its connection. -/
theorem writeInv_failed_write (h : WriteInvExcept m.tcp i) (hw : m.tcp.writes i = [])
    (hn : (m.tcp.clients i).numWriteReqs = 1) (hfailed : m.failed .nonTls app i .write = some m') :
    WriteInv m'.tcp := by
  rw [failed, if_pos (Or.inl rfl)] at hfailed
  have hdone : WriteInvExcept (m.tcp.endWrite i) i := h.modifyClient
  have hzero : ((m.tcp.endWrite i).clients i).numWriteReqs = 0 := by simp [endWrite, hn]
  exact writeInv_closeIfIdle (m := m.onTcp fun s => s.endWrite i) hdone hw hzero hfailed

/-- The write handler, after the request of a busy slot was completed. -/
theorem writeInv_plainWrite {env : ε} {sub : Submission} {res : ℤ} {front : WriteData}
    {rest : List WriteData} (h : WriteInvExcept m.tcp i) (hw : m.tcp.writes i = [])
    (hn : (m.tcp.clients i).numWriteReqs = 1) (hi : i < m.tcp.numClients) (hwrite : sub.IsWrite i)
    (hid : sub.req.ID = (m.tcp.clients i).id) (hq : (m.tcp.clients i).sendData = front :: rest)
    (hbuffer : sub.req.buffer = front.ptr)
    (hhandled : m.plainWrite app env sub i res = some m') : WriteInv m'.tcp := by
  simp only [plainWrite] at hhandled
  split at hhandled
  · -- the request goes on with the rest of the front entry
    simp only [hq] at hhandled
    obtain rfl := Option.some.inj hhandled
    refine WriteInvExcept.writeInv (i := i) ⟨fun j hj => ?_, fun sub' hsub' => ?_⟩ (Or.inr ⟨hi, ?_⟩)
    · rw [onTcp_tcp, submit_writes_of_not]
      · exact h.slot j hj
      · rintro ⟨-, hidx⟩
        exact hj (by simpa using hidx.symm.trans hwrite.2)
    · rcases List.mem_append.mp hsub' with hsub' | hsub'
      · exact h.plain sub' hsub'
      · rw [List.mem_singleton.mp hsub']
        simp [hwrite.1]
    · refine ⟨{ sub with addr := front.ptr, req := { sub.req with written := sub.req.written + res.toNat } },
        front, rest, ?_, hn, hq, hbuffer, rfl, hid⟩
      rw [onTcp_tcp, submit_writes, hw, if_pos]
      · rfl
      · exact hwrite
  · -- the front entry is done
    have hdone : WriteInvExcept (m.tcp.endWrite i) i := h.modifyClient
    have hzero : ((m.tcp.endWrite i).clients i).numWriteReqs = 0 := by simp [endWrite, hn]
    have hqueue : ((m.tcp.endWrite i).clients i).sendData = front :: rest := by simp [endWrite, hq]
    split at hhandled
    · simp only [onTcp_tcp, hqueue] at hhandled
      refine writeInv_callback ?_ hhandled
      cases rest with
      | nil => exact hdone.setQueue.writeInv (Or.inl ⟨hw, by simpa using hzero, fun _ => by simp⟩)
      | cons next rest =>
          exact WriteInv.addWriteReq hdone.setQueue hi hw (by simpa using hzero) (setQueue_sendData ..)
            next.size
    · rename_i hinactive
      refine writeInv_callback (hdone.writeInv (Or.inl ⟨hw, hzero, fun hactive => ?_⟩)) hhandled
      exact absurd ⟨hactive, by simpa [endWrite] using hid.symm⟩ hinactive

/-- The sweep finds no half-closed connection with a write request in flight, and an accept does not
hand out a slot with a write request in flight. -/
def KeepsWrites (m : Machine σ) (c : Completion ε) : Prop :=
  ∀ sub, m.tcp.inflight[c.index]? = some sub →
    (sub.req.event = .timerfd → ∀ i ∈ m.tcp.activeConnections, i ∈ c.halfClosed → m.tcp.writes i = []) ∧
    (sub.req.event = .accept → ∀ h : m.tcp.freedIndexes.Nonempty,
      m.tcp.writes (m.tcp.freedIndexes.min' h) = [])

instance (m : Machine σ) (c : Completion ε) : Decidable (m.KeepsWrites c) :=
  inferInstanceAs (Decidable (∀ sub ∈ m.tcp.inflight[c.index]?,
    (sub.req.event = .timerfd → ∀ i ∈ m.tcp.activeConnections, i ∈ c.halfClosed → m.tcp.writes i = []) ∧
    (sub.req.event = .accept → ∀ h : m.tcp.freedIndexes.Nonempty,
      m.tcp.writes (m.tcp.freedIndexes.min' h) = [])))

theorem writeInv_clientEvent {sub : Submission} {c : Completion ε} (h : WriteInv m.tcp)
    (hsub : m.tcp.inflight[c.index]? = some sub) (hidx : sub.req.clientIdx = some i)
    (hhandled : (m.take c).clientEvent .nonTls app sub i c = some m') : WriteInv m'.tcp := by
  unfold clientEvent at hhandled
  split at hhandled
  swap
  · cases hhandled
  by_cases hevent : sub.req.event = .write
  · obtain ⟨hexcept, hw, hn, hi, hid, front, rest, hq, hbuffer⟩ :=
      h.complete_write hsub ⟨hevent, hidx⟩ c.wolf
    split at hhandled
    · -- a busy slot has not been handed out again, so only the result can have failed the guard
      rename_i hguard
      have hres : c.res ≤ 0 := by
        rcases hguard with hres | ⟨-, hne⟩
        · exact hres
        · exact absurd hid.symm hne
      rw [if_pos ⟨hres, hid.symm⟩, hevent] at hhandled
      exact writeInv_failed_write (m := m.take c) hexcept hw hn hhandled
    · simp only [plainHandler, hevent] at hhandled
      exact writeInv_plainWrite (m := m.take c) hexcept hw hn hi ⟨hevent, hidx⟩ hid hq hbuffer hhandled
  · have hinv : WriteInv (m.take c).tcp := h.complete hsub hevent c.wolf
    split at hhandled
    · split at hhandled
      · exact writeInv_failed hinv hevent (h.plain sub (List.mem_of_getElem? hsub)) hhandled
      · obtain rfl := Option.some.inj hhandled
        exact hinv
    · simp only [plainHandler] at hhandled
      split at hhandled
      · refine writeInv_callback ?_ hhandled
        rw [onTcp_tcp]
        exact hinv.modifyClient ⟨rfl, rfl, rfl⟩
      · rename_i hwrite
        exact absurd hwrite hevent
      · obtain rfl := Option.some.inj hhandled
        exact hinv

theorem writeInv_customRead {env : ε} {sub : Submission} {res : ℤ} {data : Bytes} (h : WriteInv m.tcp)
    (hevent : sub.req.event = .customRead)
    (hhandled : m.customRead .nonTls app env sub res data = some m') : WriteInv m'.tcp := by
  refine customRead_rule hhandled (R := fun x => WriteInv x.tcp)
    (fun _ hfinished => writeInv_callback ?_ hfinished) (fun _ _ => h.submit (by simp [hevent]) (by simp [hevent]))
  exact h.congr (fun _ => ⟨rfl, rfl, rfl⟩) (fun _ => rfl) rfl rfl h.plain

theorem writeInv_plainAccept {res : ℤ} (h : WriteInv m.tcp)
    (hfree : ∀ hne : m.tcp.freedIndexes.Nonempty, m.tcp.writes (m.tcp.freedIndexes.min' hne) = [])
    (hhandled : m.plainAccept app res = some m') : WriteInv m'.tcp := by
  simp only [plainAccept] at hhandled
  obtain ⟨m₁, hm₁, rfl⟩ := Option.map_eq_some_iff.mp hhandled
  obtain ⟨a, -, rfl⟩ := Option.map_eq_some_iff.mp hm₁
  apply WriteInv.addReadReq
  refine WriteInv.setupClient (h.submit (by simp) (by simp)) res fun hne => ?_
  have hwrites : ∀ i, (m.tcp.addEventReq .accept).writes i = m.tcp.writes i := by
    intro i
    refine submit_writes_of_not fun hw => ?_
    simpa using hw.1
  exact (hwrites _).trans (hfree hne)

/-- One round of the loop. -/
theorem writeInv_step {c : Completion ε} {log : List Callback} (h : WriteInv m.tcp) (hc : m.KeepsWrites c)
    (hstep : step .nonTls app m c = some (m', log)) : WriteInv m'.tcp := by
  obtain ⟨sub, hsub, hhandled, -⟩ := step_eq_some hstep
  obtain ⟨hsweep, haccept⟩ := hc sub hsub
  have htake : sub.req.event ≠ .write → WriteInv (m.take c).tcp := fun hevent =>
    h.complete hsub hevent c.wolf
  have hwrites : ∀ i, sub.req.event ≠ .write → (m.take c).tcp.writes i = m.tcp.writes i := by
    intro i hevent
    exact InFlight.filter_eraseIdx_of_not hsub (by simp [Submission.IsWrite, hevent])
  refine dispatch_rule hhandled (R := fun m' => WriteInv m'.tcp) (fun hevent => ?_)
    (fun hevent hm' => ?_) (fun hevent hm' => ?_) (fun hevent m₁ hm₁ => ?_) (fun hevent _ hm' => ?_)
    (fun _ hT => ?_) (fun i hidx _ hm' => writeInv_clientEvent h hsub hidx hm')
  · have hinv := htake (by simp [hevent])
    exact hinv.congr (fun _ => ⟨rfl, rfl, rfl⟩) (fun _ => rfl) rfl rfl hinv.plain
  · refine writeInv_callback ?_ hm'
    apply (htake (by simp [hevent])).submit <;> simp
  · exact writeInv_customRead (htake (by simp [hevent])) hevent hm'
  · have hinv : WriteInv m₁.tcp := by
      refine writeInv_sweep (htake (by simp [hevent])) (fun i hi hclosed => ?_) hm₁
      rw [hwrites i (by simp [hevent])]
      exact hsweep hevent i hi hclosed
    apply hinv.submit <;> simp
  · refine writeInv_plainAccept (htake (by simp [hevent])) (fun hne => ?_) hm'
    rw [hwrites _ (by simp [hevent])]
    exact haccept hevent hne
  · cases hT

theorem writeInv_start (a : σ) (reads : List (ℤ × ℕ)) : WriteInv (start a reads).tcp := by
  have hempty : WriteInv {} := ⟨fun i => Or.inl ⟨rfl, rfl, fun _ => rfl⟩, by simp⟩
  have hreads : ∀ s, WriteInv s → WriteInv
      (reads.foldl (fun s r => s.customReadReq r.1 r.2 none [] 0 none) s) := by
    induction reads with
    | nil => exact fun s hs => hs
    | cons r reads ih => exact fun s hs => ih _ (hs.customReadReq ..)
  refine WriteInv.submit (hreads _ ?_) (by simp) (by simp)
  exact ((hempty.submit (by simp) (by simp)).submit (by simp) (by simp)).submit (by simp) (by simp)

end Machine

/-- A client connects and sends five bytes, which the server begins to write back. -/
def replyEvents : List (Completion Unit) :=
  [{ index := 3, res := 10, env := () }, { index := 4, res := 5, data := [1, 2, 3, 4, 5], env := () }]

end LiburingServer
