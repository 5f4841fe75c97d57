import LiburingServer.WebFrame
import LiburingServer.TcpBroadcasts

/-! The sockets that the plain server closes. A slot is free once its socket was closed, until an accept
hands it out again. Nothing keeps the server from closing the socket of a free slot: a request that was in
flight when the slot was freed still completes. -/

namespace LiburingServer

variable {N : ℕ}

/-- The socket of an earlier occupant of a slot was closed once; that of the present one was closed once
if the slot is free, and not otherwise. No free slot is active. -/
structure CloseInv (s : TcpServer) : Prop where
  active : ∀ i ∈ s.activeConnections, i < s.numClients ∧ i ∉ s.freedIndexes
  freed : ∀ i ∈ s.freedIndexes, i < s.numClients
  count : ∀ i k, s.closed.count (i, k) =
    if i < s.numClients ∧ (k < s.occupants i ∨ k = s.occupants i ∧ i ∈ s.freedIndexes) then 1 else 0

open TcpServer

section

variable {s s' s'' : TcpServer} {i : ℕ}

namespace CloseInv

theorem congr (h : CloseInv s) (hs : SameSlots s s') : CloseInv s' := by
  refine ⟨?_, ?_, ?_⟩
  · rw [hs.activeConnections, hs.numClients, hs.freedIndexes]
    exact h.active
  · rw [hs.freedIndexes, hs.numClients]
    exact h.freed
  · rw [hs.closed, hs.numClients, hs.occupants, hs.freedIndexes]
    exact h.count

/-- A slot that is not free is freed, and its socket closed. -/
theorem freeSlot (h : CloseInv s) (hi : i < s.numClients) (hfree : i ∉ s.freedIndexes) :
    CloseInv (s.freeSlot i) := by
  refine ⟨fun j hj => ?_, fun j hj => ?_, fun j k => ?_⟩
  · obtain ⟨hne, hactive⟩ := Finset.mem_erase.mp hj
    obtain ⟨hlt, hnot⟩ := h.active j hactive
    exact ⟨hlt, by simpa [TcpServer.freeSlot, hne] using hnot⟩
  · rcases Finset.mem_insert.mp hj with rfl | hj
    · exact hi
    · exact h.freed j hj
  · have hcount := h.count j k
    have hadded : (s.freeSlot i).closed.count (j, k) =
        s.closed.count (j, k) + if (i, s.occupants i) = (j, k) then 1 else 0 := by
      simp [TcpServer.freeSlot, List.count_append, List.count_singleton]
    rw [hadded, hcount]
    show _ = if j < s.numClients ∧ (k < s.occupants j ∨ k = s.occupants j ∧ j ∈ insert i s.freedIndexes) then 1
      else 0
    by_cases hj : j = i
    · subst hj
      rcases Nat.lt_trichotomy k (s.occupants j) with hk | rfl | hk
      · have hne : s.occupants j ≠ k := by omega
        simp [hi, hk, hne]
      · simp [hi, hfree]
      · have hne : s.occupants j ≠ k := by omega
        have hnot : ¬k < s.occupants j := by omega
        simp [hne, Ne.symm hne, hnot]
    · simp [hj, Ne.symm hj]

theorem closeConnection (h : CloseInv s) (hi : i < s.numClients)
    (hfree : (s.clients i).numWriteReqs = 0 → i ∉ s.freedIndexes) : CloseInv (s.closeConnection .nonTls i) := by
  unfold TcpServer.closeConnection
  split
  · exact h.freeSlot hi (hfree ‹_›)
  · exact h

/-- A slot is handed out. -/
theorem setupClient (h : CloseInv s) (sockfd : ℤ) :
    CloseInv { (s.setupClient sockfd).1 with
      activeConnections := insert (s.setupClient sockfd).2 (s.setupClient sockfd).1.activeConnections } := by
  unfold TcpServer.setupClient
  split
  · rename_i hne
    set index := s.freedIndexes.min' hne with hindex
    have hmem : index ∈ s.freedIndexes := Finset.min'_mem _ _
    have hlt : index < s.numClients := h.freed index hmem
    refine ⟨fun j hj => ?_, fun j hj => h.freed j (Finset.mem_of_mem_erase hj), fun j k => ?_⟩
    · rcases Finset.mem_insert.mp hj with rfl | hj
      · exact ⟨hlt, Finset.notMem_erase _ _⟩
      · obtain ⟨hj, hnot⟩ := h.active j hj
        exact ⟨hj, fun hmem => hnot (Finset.mem_of_mem_erase hmem)⟩
    · simp only [h.count j k]
      by_cases hj : j = index
      · -- the socket of the occupant before was closed when the slot was freed
        have hiff : k < s.occupants index ∨ k = s.occupants index ↔ k < s.occupants index + 1 := by omega
        simp [hj, hlt, hmem, hiff]
      · simp [hj]
  · refine ⟨fun j hj => ?_, fun j hj => Nat.lt_succ_of_lt (h.freed j hj), fun j k => ?_⟩
    · rcases Finset.mem_insert.mp hj with rfl | hj
      · exact ⟨Nat.lt_succ_self _, fun hmem => absurd (h.freed _ hmem) (lt_irrefl _)⟩
      · obtain ⟨hj, hnot⟩ := h.active j hj
        exact ⟨Nat.lt_succ_of_lt hj, hnot⟩
    · simp only [h.count j k]
      by_cases hj : j = s.numClients
      · subst hj
        have hnot : s.numClients ∉ s.freedIndexes := fun hmem => absurd (h.freed _ hmem) (lt_irrefl _)
        simp [hnot]
      · have hiff : j < s.numClients + 1 ↔ j < s.numClients := by omega
        simp [Function.update_of_ne hj, hiff]

end CloseInv

end

/-! ### The plain web server -/

namespace Machine

variable {m m' : Machine (WebServer N)} {i : ℕ} {env : WebEnv}

/-- What was read is no request, and the slot is no active websocket. -/
def EndsRead (m : Machine (WebServer N)) (sub : Submission) (i : ℕ) (c : Completion WebEnv) : Prop :=
  sub.req.event = .read ∧ (m.tcp.clients i).numWriteReqs ≤ 0 ∧
    isValidHttpReq (received sub.req.readData c.data c.res) = false ∧
    i ∉ m.app.activeWebsocketConnectionsClientIdxs

/-- All was written, and the slot is no websocket. -/
def EndsWritten (m : Machine (WebServer N)) (sub : Submission) (i : ℕ) (c : Completion WebEnv) : Prop :=
  sub.req.event = .write ∧ (m.tcp.clients i).numWriteReqs = 1 ∧
    sub.req.totalLength ≤ c.res + sub.req.written ∧ m.app.NoWebsocket i

/-- The completion ends the connection of slot `i`. -/
def EndsConnection (m : Machine (WebServer N)) (sub : Submission) (i : ℕ) (c : Completion WebEnv) : Prop :=
  m.EndsFailed sub i c ∨
    0 < c.res ∧ (i = 0 ∨ (m.tcp.clients i).id = sub.req.ID) ∧ (m.EndsRead sub i c ∨ m.EndsWritten sub i c)

/-- No completed request of a client ends the connection of a slot that is free. -/
def SparesFreed (m : Machine (WebServer N)) (c : Completion WebEnv) : Prop :=
  ∀ sub, m.tcp.inflight[c.index]? = some sub → sub.req.event.OfClient →
    ∀ i, sub.req.clientIdx = some i → i ∈ m.tcp.freedIndexes → ¬m.EndsConnection sub i c

section

variable (m : Machine (WebServer N)) (sub : Submission) (c : Completion WebEnv)

instance : Decidable (m.EndsRead sub i c) := by unfold EndsRead; infer_instance

instance : Decidable (m.EndsWritten sub i c) := by unfold EndsWritten; infer_instance

instance : Decidable (m.EndsConnection sub i c) := by unfold EndsConnection; infer_instance

instance : Decidable (m.SparesFreed c) :=
  inferInstanceAs (Decidable (∀ sub ∈ m.tcp.inflight[c.index]?, sub.req.event.OfClient →
    ∀ i ∈ sub.req.clientIdx, i ∈ m.tcp.freedIndexes → ¬m.EndsConnection sub i c))

end

theorem closeInv_drainAndClose (h : CloseInv m.tcp) (hi : i < m.tcp.numClients)
    (hfree : (m.tcp.clients i).numWriteReqs = 0 → i ∉ m.tcp.freedIndexes)
    (hclose : m.drainAndClose .nonTls (webApp N) i = some m') : CloseInv m'.tcp := by
  have hdrained : SameSlots m.tcp (m.tcp.setQueue i []) := (alters_setQueue []).sameSlots
  rw [drainAndClose_tcp hclose]
  refine (h.congr hdrained).closeConnection hi fun hzero => ?_
  rw [setQueue_numWriteReqs] at hzero
  exact hfree hzero

theorem closeInv_sweep {order halfClosed : List ℕ} (h : CloseInv m.tcp)
    (hsweep : m.sweep .nonTls (webApp N) order halfClosed = some m') : CloseInv m'.tcp := by
  have hnodup := nodup_visitOrder m.tcp.activeConnections order
  have hopen : ∀ i ∈ visitOrder m.tcp.activeConnections order, i < m.tcp.numClients ∧ i ∉ m.tcp.freedIndexes :=
    fun i hi => h.active i (mem_visitOrder.mp hi)
  unfold sweep at hsweep
  generalize visitOrder m.tcp.activeConnections order = slots at hsweep hnodup hopen
  -- a slot that is still to be visited is not free
  induction slots generalizing m with
  | nil =>
      obtain rfl : m = m' := by simpa using hsweep
      exact h
  | cons i slots ih =>
      obtain ⟨hnot, hnodup⟩ := List.nodup_cons.mp hnodup
      rw [List.foldlM_cons] at hsweep
      obtain ⟨m₁, hround, hrest⟩ := Option.bind_eq_some_iff.mp hsweep
      split at hround
      · obtain ⟨hi, hfree⟩ := hopen i (by simp)
        refine ih (closeInv_drainAndClose h hi (fun _ => hfree) hround) hrest hnodup fun j hj => ?_
        obtain ⟨hlt, hjfree⟩ := hopen j (by simp [hj])
        have hne : j ≠ i := fun heq => hnot (heq ▸ hj)
        rw [drainAndClose_tcp hround]
        unfold closeConnection
        split
        · exact ⟨hlt, by simpa [freeSlot, hne, setQueue, modifyClient] using hjfree⟩
        · exact ⟨hlt, hjfree⟩
      · obtain rfl := Option.some.inj hround
        exact ih h hrest hnodup fun j hj => hopen j (by simp [hj])

/-- The calls of a callback, of which only the closing of slot `i` matters. -/
theorem closeInv_callback {cb : Callback} {result : Option (WebServer N × List TcpCall)} (h : CloseInv m.tcp)
    (hcs : ∀ r, result = some r → (∀ c ∈ r.2, ∀ i, c ≠ .closeConnection i) ∨ r.2 = [.closeConnection i] ∧
      ((m.tcp.clients i).numWriteReqs = 0 → i ∉ m.tcp.freedIndexes))
    (hcb : m.callback .nonTls cb result = some m') : CloseInv m'.tcp := by
  obtain ⟨a, cs, hresult, hcalls, -, -⟩ := callback_eq_some hcb
  rcases hcs _ hresult with hother | ⟨hclose, hfree⟩
  · exact h.congr (sameSlots_calls hother hcalls)
  · simp only at hclose
    rw [hclose] at hcalls
    obtain ⟨hslots, htcp⟩ := calls_singleton hcalls
    rw [htcp]
    exact h.closeConnection (hslots i (by simp [TcpCall.slots])) hfree

theorem closeInv_plainHandler {sub : Submission} {c : Completion WebEnv} (h : CloseInv m.tcp)
    (hclosing : m.app.NoneClosing) (hres : 0 < c.res) (hguard : i = 0 ∨ (m.tcp.clients i).id = sub.req.ID)
    (hspares : i ∈ m.tcp.freedIndexes → ¬m.EndsConnection sub i c)
    (hhandled : m.plainHandler (webApp N) sub i c = some m') : CloseInv m'.tcp := by
  refine plainHandler_rule hhandled (R := fun x => CloseInv x.tcp) (fun hevent s hs hm' => ?_)
    (fun _ front rest _ => h.congr ⟨rfl, rfl, rfl, rfl, rfl, fun _ => rfl⟩)
    (fun hevent front rest _ hactive _ hm' => ?_)
    (fun hevent hinactive hdone hm' => ?_) h
  · have hslots : SameSlots m.tcp s := hs.alters.sameSlots
    refine closeInv_callback (m := m.onTcp fun _ => s) (i := i) (h.congr hslots) (fun r hr => ?_) hm'
    refine (WebServer.readCb_closes hr).imp_right fun ⟨hcs, hinvalid, hinactive⟩ => ⟨hcs, fun hzero hfree => ?_⟩
    simp only [onTcp_tcp, hslots.freedIndexes] at hfree hzero
    have hnum : (m.tcp.clients i).numWriteReqs ≤ 0 := hzero ▸ hs.num
    exact hspares hfree (Or.inr ⟨hres, hguard, Or.inl ⟨hevent, hnum, hinvalid, hinactive⟩⟩)
  · have hslots : SameSlots m.tcp ((m.tcp.endWrite i).writeNext i rest) :=
      (alters_endWrite.trans (alters_writeNext rest)).sameSlots
    refine closeInv_callback (i := i) (h.congr hslots) (fun r hr => ?_) hm'
    refine (WebServer.writeCb_closes hclosing hr).imp_right fun ⟨hcs, _⟩ => ⟨hcs, fun _ => ?_⟩
    rw [onTcp_tcp, hslots.freedIndexes]
    exact (h.active i hactive.1).2
  · have hslots : SameSlots m.tcp (m.tcp.endWrite i) := alters_endWrite.sameSlots
    refine closeInv_callback (m := m.onTcp fun s => s.endWrite i) (i := i) (h.congr hslots) (fun r hr => ?_) hm'
    have hcb : m.app.writeCb i (-1) = some r := hr
    refine (WebServer.writeCb_closes hclosing hcb).imp_right fun ⟨hcs, hnone⟩ => ⟨hcs, fun hzero hfree => ?_⟩
    have hnum : ((m.tcp.endWrite i).clients i).numWriteReqs = (m.tcp.clients i).numWriteReqs - 1 := by
      simp [endWrite]
    rw [onTcp_tcp, hnum] at hzero
    have hall : (sub.req.totalLength : ℤ) ≤ c.res + sub.req.written := by
      by_contra hmore
      exact hdone ⟨by omega, hres⟩
    exact hspares hfree (Or.inr ⟨hres, hguard, Or.inr ⟨hevent, by omega, hall, hnone⟩⟩)

theorem closeInv_clientEvent {sub : Submission} {c : Completion WebEnv} (h : CloseInv m.tcp)
    (hclosing : m.app.NoneClosing) (hspares : i ∈ m.tcp.freedIndexes → ¬m.EndsConnection sub i c)
    (hhandled : m.clientEvent .nonTls (webApp N) sub i c = some m') : CloseInv m'.tcp := by
  have hkept : ∀ s, s = m.tcp ∨ s = m.tcp.endWrite i → SameSlots m.tcp s :=
    fun s hs => (Alters.endedOrNot hs).sameSlots
  refine clientEvent_rule hhandled (R := fun x => CloseInv x.tcp) (fun s hs hi hends _ hclose => ?_)
    (fun s hs => h.congr (hkept s hs))
    (fun _ _ hres hid hm' => closeInv_plainHandler h hclosing hres hid hspares hm') (fun hT => ?_)
  · refine closeInv_drainAndClose (m := m.onTcp fun _ => s) (h.congr (hkept s hs)) ?_ (fun _ hfree => ?_) hclose
    · rw [onTcp_tcp, (hkept s hs).numClients]
      exact hi
    · rw [onTcp_tcp, (hkept s hs).freedIndexes] at hfree
      exact hspares hfree (Or.inl hends)
  · cases hT

/-- One round of the loop. -/
theorem closeInv_step {c : Completion WebEnv} {log : List Callback} (h : CloseInv m.tcp)
    (hclosing : m.app.NoneClosing) (hspares : m.SparesFreed c)
    (hstep : step .nonTls (webApp N) m c = some (m', log)) : CloseInv m'.tcp := by
  obtain ⟨sub, hsub, hhandled, -⟩ := step_eq_some hstep
  have htake : CloseInv (m.take c).tcp := h.congr ⟨rfl, rfl, rfl, rfl, rfl, fun _ => rfl⟩
  refine dispatch_rule hhandled (R := fun x => CloseInv x.tcp) (fun _ => ?_) (fun _ hm' => ?_) (fun _ hm' => ?_)
    (fun _ m₁ hm₁ => ?_) (fun _ _ hm' => ?_) (fun _ hT => ?_) (fun i hidx hevent hm' => ?_)
  · exact htake.congr ⟨rfl, rfl, rfl, rfl, rfl, fun _ => rfl⟩
  · refine closeInv_callback (i := 0) (m := (m.take c).onTcp fun s => s.addEventReq .notification)
      (htake.congr ⟨rfl, rfl, rfl, rfl, rfl, fun _ => rfl⟩) (fun r hr => Or.inl ?_) hm'
    obtain rfl := Option.some.inj hr
    simp only [WebServer.eventCb]
    split <;> simp
  · refine customRead_rule hm' (R := fun x => CloseInv x.tcp) (fun _ hfinished => ?_)
      (fun _ _ => htake.congr ⟨rfl, rfl, rfl, rfl, rfl, fun _ => rfl⟩)
    refine closeInv_callback (i := 0) ?_ (fun r hr => Or.inl (WebServer.customReadCb_closes hr)) hfinished
    exact htake.congr ⟨rfl, rfl, rfl, rfl, rfl, fun _ => rfl⟩
  · exact (closeInv_sweep htake hm₁).congr ⟨rfl, rfl, rfl, rfl, rfl, fun _ => rfl⟩
  · simp only [plainAccept] at hm'
    obtain ⟨m₁, hm₁, rfl⟩ := Option.map_eq_some_iff.mp hm'
    obtain ⟨a, -, rfl⟩ := Option.map_eq_some_iff.mp hm₁
    have hasked : CloseInv ((m.take c).tcp.addEventReq .accept) := htake.congr ⟨rfl, rfl, rfl, rfl, rfl, fun _ => rfl⟩
    exact (hasked.setupClient c.res).congr (touches_addReadReq (Or.inl rfl)).alters.sameSlots
  · cases hT
  · exact closeInv_clientEvent htake hclosing
      (fun hfree => hspares sub hsub hevent i hidx hfree) hm'

theorem closeInv_start (inotifyFd : ℤ) : CloseInv (webStart N inotifyFd).tcp := by
  have hempty : CloseInv {} := ⟨by simp, by simp, by simp⟩
  exact hempty.congr ⟨rfl, rfl, rfl, rfl, rfl, fun _ => rfl⟩

end Machine

/-- **Sockets are closed once.** In every run of the plain web server in which no completed request closes
the socket of a free slot, and for every slot and occupant: its socket was closed exactly once if the slot
was handed out again since or is free, and was not closed otherwise. -/
theorem sockets_closed_once (inotifyFd : ℤ) (cs : List (Completion WebEnv))
    (hcs : Runs.Along (Machine.step .nonTls (webApp N)) Machine.SparesFreed (webStart N inotifyFd) cs)
    (m : Machine (WebServer N)) (logs : List (List Callback))
    (hrun : Runs.exec (Machine.step .nonTls (webApp N)) (webStart N inotifyFd) cs = some (m, logs)) (i k : ℕ) :
    m.tcp.closed.count (i, k) =
      if i < m.tcp.numClients ∧ (k < m.tcp.occupants i ∨ k = m.tcp.occupants i ∧ i ∈ m.tcp.freedIndexes) then 1
      else 0 := by
  have hinv : CloseInv m.tcp ∧ m.app.NoneClosing := by
    refine Runs.exec_invariant (Q := fun m : Machine (WebServer N) => CloseInv m.tcp ∧ m.app.NoneClosing) ?_
      ⟨Machine.closeInv_start inotifyFd, by simp [webStart, Machine.start, WebServer.NoneClosing]⟩ hcs hrun
    rintro m c m' log ⟨h, hclosing⟩ hspares hstep
    exact ⟨Machine.closeInv_step h hclosing hspares hstep,
      Machine.app_step WebServer.maintains_noneClosing hclosing hstep⟩
  exact hinv.1.count i k

/-- A client connects and closes, and another one gets its slot. -/
theorem sockets_closed_once_reused :
    Runs.Along (Machine.step .nonTls (webApp 1)) Machine.SparesFreed (webStart 1 7)
        [{ index := 4, res := 10, env := {} }, { index := 5, res := 0, env := {} },
          { index := 4, res := 10, env := {} }] ∧
      ∃ m logs, Runs.exec (Machine.step .nonTls (webApp 1)) (webStart 1 7)
          [{ index := 4, res := 10, env := {} }, { index := 5, res := 0, env := {} },
            { index := 4, res := 10, env := {} }] = some (m, logs) ∧
        m.tcp.occupants 0 = 1 ∧ m.tcp.closed.count (0, 0) = 1 ∧ m.tcp.closed.count (0, 1) = 0 := by
  have hcs : Runs.Along (Machine.step .nonTls (webApp 1)) Machine.SparesFreed (webStart 1 7)
      [{ index := 4, res := 10, env := {} }, { index := 5, res := 0, env := {} },
        { index := 4, res := 10, env := {} }] := by decide +kernel
  have hsome : (Runs.exec (Machine.step .nonTls (webApp 1)) (webStart 1 7)
      [{ index := 4, res := 10, env := {} }, { index := 5, res := 0, env := {} },
        { index := 4, res := 10, env := {} }]).any (fun r =>
      r.1.tcp.numClients = 1 ∧ r.1.tcp.occupants 0 = 1 ∧ 0 ∉ r.1.tcp.freedIndexes) = true := by decide +kernel
  simp only [Option.any_eq_true, decide_eq_true_eq] at hsome
  obtain ⟨⟨m, logs⟩, hrun, hnum, hoccupants, hnot⟩ := hsome
  change m.tcp.numClients = 1 at hnum
  change m.tcp.occupants 0 = 1 at hoccupants
  refine ⟨hcs, m, logs, hrun, hoccupants, ?_, ?_⟩
  · rw [sockets_closed_once 7 _ hcs m logs hrun, if_pos ⟨by omega, Or.inl (by omega)⟩]
  · rw [sockets_closed_once 7 _ hcs m logs hrun, if_neg]
    rintro ⟨-, hlt | ⟨-, hfree⟩⟩
    · omega
    · exact hnot hfree

/-- The sweep finds a half-closed client and closes it; then the read that was in flight completes with
nothing read, for a slot that is free and still has the ID of the client, and the same socket is closed
again. -/
theorem socket_closed_twice :
    ∃ m logs, Runs.exec (Machine.step .nonTls (webApp 1)) (webStart 1 7)
        [{ index := 4, res := 10, env := {} }, { index := 2, res := 8, halfClosed := [0], env := {} },
          { index := 4, res := 0, env := {} }] = some (m, logs) ∧ m.tcp.closed = [(0, 0), (0, 0)] := by
  have hsome : (Runs.exec (Machine.step .nonTls (webApp 1)) (webStart 1 7)
      [{ index := 4, res := 10, env := {} }, { index := 2, res := 8, halfClosed := [0], env := {} },
        { index := 4, res := 0, env := {} }]).any (fun r => r.1.tcp.closed = [(0, 0), (0, 0)]) = true := by
    decide +kernel
  simp only [Option.any_eq_true, decide_eq_true_eq] at hsome
  obtain ⟨⟨m, logs⟩, hrun, hclosed⟩ := hsome
  exact ⟨m, logs, hrun, hclosed⟩

end LiburingServer
