import LiburingServer.TcpFrame

/-! The occupants of the client slots. A slot that is handed out again gets the next ID modulo 100, and
a request carries the ID of the occupant it was submitted for, so a completed request of an earlier
occupant is told apart from one of the present occupant, unless the IDs have come round. -/

namespace LiburingServer

/-- The ID of the `k`-th occupant of a slot: `-1` for the first one, then `0` to `99` in turn. -/
def idOf : ℕ → ℤ
  | 0 => -1
  | k + 1 => (k % 100 : ℕ)

theorem idOf_succ (k : ℕ) : (idOf k + 1) % 100 = idOf (k + 1) := by
  cases k with
  | zero => rfl
  | succ k =>
      simp only [idOf]
      omega

/-- Two occupants of a slot have the same ID if the number of times it was handed out between them is a
multiple of 100, and the earlier one is not the first occupant. -/
theorem idOf_eq_iff {k l : ℕ} (h : k < l) : idOf l = idOf k ↔ 0 < k ∧ 100 ∣ l - k := by
  obtain ⟨l, rfl⟩ : ∃ n, l = n + 1 := ⟨l - 1, by omega⟩
  cases k with
  | zero =>
      simp only [idOf]
      omega
  | succ k =>
      simp only [idOf]
      omega

/-- A request in flight is for one of the `n` slots, and for its present or an earlier occupant; one
that is checked carries the ID of that occupant. -/
structure Submission.Dated (n : ℕ) (occupants : ℕ → ℕ) (sub : Submission) : Prop where
  slot : ∀ i, sub.req.clientIdx = some i → i < n ∧ sub.occupant ≤ occupants i
  id : sub.req.event.OfClient → sub.req.clientIdx ≠ none ∧ sub.req.ID = idOf sub.occupant

/-- The slots and the requests of a server with `n` slots, by occupant. -/
structure OccupantInv (n : ℕ) (s : TcpServer) : Prop where
  num : s.numClients = n
  id : ∀ i, (s.clients i).id = idOf (s.occupants i)
  active : ∀ i ∈ s.activeConnections, i < n
  freed : ∀ i ∈ s.freedIndexes, i < n
  request : ∀ sub ∈ s.inflight, sub.Dated n s.occupants

namespace OccupantInv

open TcpServer

variable {n : ℕ} {s s' : TcpServer} {i : ℕ}

/-- Changes of the clients that keep their IDs, and of parts of the server that do not matter here. -/
theorem congr (h : OccupantInv n s) (hid : ∀ i, (s'.clients i).id = (s.clients i).id)
    (hnum : s'.numClients = s.numClients) (hactive : s'.activeConnections ⊆ s.activeConnections)
    (hfreed : s'.freedIndexes = s.freedIndexes) (hoccupants : s'.occupants = s.occupants)
    (hinflight : s'.inflight ⊆ s.inflight) : OccupantInv n s' := by
  refine ⟨hnum.trans h.num, fun i => ?_, fun i hi => h.active i (hactive hi), ?_, fun sub hsub => ?_⟩
  · rw [hid, hoccupants]
    exact h.id i
  · rw [hfreed]
    exact h.freed
  · rw [hoccupants]
    exact h.request sub (hinflight hsub)

theorem modifyClient (h : OccupantInv n s) {f : Client → Client}
    (hf : (f (s.clients i)).id = (s.clients i).id) : OccupantInv n (s.modifyClient i f) := by
  refine h.congr (fun j => ?_) rfl (Finset.Subset.refl _) rfl rfl (List.Subset.refl _)
  by_cases hj : j = i
  · rw [hj, modifyClient_self, hf]
  · rw [modifyClient_of_ne _ _ _ _ hj]

theorem endWrite (h : OccupantInv n s) : OccupantInv n (s.endWrite i) := h.modifyClient rfl

theorem submit (h : OccupantInv n s) {sub : Submission} (hsub : sub.Dated n s.occupants) :
    OccupantInv n (s.submit sub) := by
  refine ⟨h.num, h.id, h.active, h.freed, fun sub' hmem => ?_⟩
  rcases List.mem_append.mp hmem with hmem | hmem
  · exact h.request sub' hmem
  · rw [List.mem_singleton.mp hmem]
    exact hsub

/-- A request for the present occupant of a slot. -/
theorem dated_of_current (h : OccupantInv n s) (hi : i < n) {sub : Submission}
    (hidx : sub.req.clientIdx = some i) (hoccupant : sub.occupant = s.occupants i)
    (hid : sub.req.event.OfClient → sub.req.ID = (s.clients i).id) : sub.Dated n s.occupants := by
  refine ⟨fun j hj => ?_, fun hevent => ⟨by simp [hidx], ?_⟩⟩
  · obtain rfl : i = j := by simpa [hidx] using hj
    exact ⟨hi, hoccupant.le⟩
  · rw [hid hevent, hoccupant]
    exact h.id i

theorem dated_of_issued (h : OccupantInv n s) (hi : i < n) {sub : Submission} (hsub : s.Issued i sub) :
    sub.Dated n s.occupants := by
  rcases hsub with ⟨event, -, rfl⟩ | ⟨event, length, -, rfl⟩
  · exact h.dated_of_current hi rfl rfl fun _ => rfl
  · exact h.dated_of_current hi rfl rfl fun _ => rfl

theorem touches (h : OccupantInv n s) (hi : i < n) (ht : Touches i s s') : OccupantInv n s' := by
  obtain ⟨new, hnew, hissued⟩ := ht.inflight
  refine ⟨ht.numClients.trans h.num, fun j => ?_, ?_, ?_, fun sub hsub => ?_⟩
  · rw [ht.occupants, ← h.id j]
    by_cases hj : j = i
    · rw [hj, ht.id]
    · rw [ht.others j hj]
  · rw [ht.activeConnections]
    exact h.active
  · rw [ht.freedIndexes]
    exact h.freed
  · rw [ht.occupants]
    rcases List.mem_append.mp (hnew ▸ hsub) with hmem | hmem
    · exact h.request sub hmem
    · exact h.dated_of_issued hi (hissued sub hmem)

theorem addEventReq (h : OccupantInv n s) {event : EventType} (hevent : ¬event.OfClient) :
    OccupantInv n (s.addEventReq event) :=
  h.submit ⟨fun i hi => by simp at hi, fun hclient => absurd hclient hevent⟩

theorem setQueue (h : OccupantInv n s) {sendData : List WriteData} :
    OccupantInv n (s.setQueue i sendData) := h.modifyClient rfl

theorem addWriteReq (h : OccupantInv n s) (hi : i < n) {event : EventType} {buffer : Ptr} {length : ℕ} :
    OccupantInv n (s.addWriteReq i event buffer length) := by
  apply OccupantInv.submit (h.modifyClient rfl)
  exact h.dated_of_current hi rfl rfl fun _ => rfl

theorem writeNext (h : OccupantInv n s) (hi : i < n) {rest : List WriteData} :
    OccupantInv n (s.writeNext i rest) := by
  cases rest with
  | nil => exact h.setQueue
  | cons next rest => exact h.setQueue.addWriteReq hi

theorem enqueue (h : OccupantInv n s) (hi : i < n) (T : ServerType) (data : WriteData) (length : ℕ) :
    OccupantInv n (s.enqueue T i data length) := by
  have hpushed : OccupantInv n (s.pushEntry i data) := h.setQueue
  unfold TcpServer.enqueue
  split
  · cases T with
    | nonTls => exact hpushed.addWriteReq hi
    | tls => exact hpushed.touches hi touches_wolfCall
  · exact hpushed

theorem broadcastMessage (h : OccupantInv n s) (T : ServerType) {clientIdxs : List ℕ}
    (hidxs : ∀ i ∈ clientIdxs, i < n) (buff : Ptr) (length : ℕ) (customInfo : ℤ) :
    OccupantInv n (s.broadcastMessage T clientIdxs buff length customInfo) := by
  unfold TcpServer.broadcastMessage
  induction clientIdxs generalizing s with
  | nil => exact h
  | cons i clientIdxs ih =>
      refine ih (h.enqueue (hidxs i (by simp)) T _ _) fun j hj => hidxs j (by simp [hj])

theorem freeSlot (h : OccupantInv n s) (hi : i < n) : OccupantInv n (s.freeSlot i) := by
  have hqueue : OccupantInv n (s.setQueue i []) := h.setQueue
  refine ⟨hqueue.num, hqueue.id, fun j hj => ?_, fun j hj => ?_, hqueue.request⟩
  · exact h.active j (Finset.mem_of_mem_erase hj)
  · rcases Finset.mem_insert.mp hj with rfl | hj
    · exact hi
    · exact h.freed j hj

theorem closeConnection (h : OccupantInv n s) (hi : i < n) (T : ServerType) :
    OccupantInv n (s.closeConnection T i) := by
  unfold TcpServer.closeConnection
  split
  · cases T with
    | nonTls => exact h.freeSlot hi
    | tls =>
        have hshut : OccupantInv n (s.wolfCall i).1 := h.touches hi touches_wolfCall
        exact OccupantInv.freeSlot (hshut.modifyClient rfl) hi
  · exact h

theorem customReadReq (h : OccupantInv n s) {clientIdx : Option ℕ} (hidx : ∀ i ∈ clientIdx.toList, i < n)
    (fd : ℤ) (toRead : ℕ) (buff : Bytes) (readAmount : ℕ) (file : Option Bytes) :
    OccupantInv n (s.customReadReq fd toRead clientIdx buff readAmount file) := by
  refine h.submit ⟨fun i hi => ?_, fun hclient => ?_⟩
  · obtain rfl : clientIdx = some i := hi
    exact ⟨hidx i (by simp), by simp⟩
  · simp [EventType.OfClient] at hclient

theorem call (h : OccupantInv n s) {T : ServerType} {c : TcpCall} (hcall : s.call T c = some s') :
    OccupantInv n s' := by
  unfold TcpServer.call at hcall
  rw [h.num] at hcall
  split at hcall
  · rename_i hslots
    obtain rfl := Option.some.inj hcall
    cases c with
    | writeConnection i buff =>
        have hfresh : OccupantInv n { s with nextAddr := s.nextAddr + 1 } :=
          h.congr (fun _ => rfl) rfl (Finset.Subset.refl _) rfl rfl (List.Subset.refl _)
        exact hfresh.enqueue (hslots i (by simp [TcpCall.slots])) T _ _
    | writeConnectionPtr i buff length => exact h.enqueue (hslots i (by simp [TcpCall.slots])) T _ _
    | broadcastMessage clientIdxs buff length customInfo =>
        exact h.broadcastMessage T hslots buff length customInfo
    | closeConnection i => exact h.closeConnection (hslots i (by simp [TcpCall.slots])) T
    | readConnection i =>
        exact h.touches (hslots i (by simp [TcpCall.slots])) (touches_addReadReq (Or.inl rfl))
    | customReadReq fd toRead clientIdx buff readAmount file =>
        exact h.customReadReq hslots fd toRead buff readAmount file
  · cases hcall

theorem calls (h : OccupantInv n s) {T : ServerType} {cs : List TcpCall} (hcalls : s.calls T cs = some s') :
    OccupantInv n s' :=
  Runs.foldlM_keeps (fun _ _ _ _ hb hc => hb.call hc) h hcalls

theorem activate (h : OccupantInv n s) (hi : i < n) :
    OccupantInv n { s with activeConnections := insert i s.activeConnections } := by
  refine ⟨h.num, h.id, fun j hj => ?_, h.freed, h.request⟩
  rcases Finset.mem_insert.mp hj with rfl | hj
  · exact hi
  · exact h.active j hj

/-- A slot is handed out: a free one to its next occupant, or a new one. -/
theorem setupClient (h : OccupantInv n s) (sockfd : ℤ) :
    ∃ n', OccupantInv n' (s.setupClient sockfd).1 ∧ (s.setupClient sockfd).2 < n' := by
  unfold TcpServer.setupClient
  split
  · rename_i hne
    have hindex : s.freedIndexes.min' hne < n := h.freed _ (Finset.min'_mem _ hne)
    refine ⟨n, ⟨h.num, fun j => ?_, h.active, fun j hj => h.freed j (Finset.mem_of_mem_erase hj),
      fun sub hsub => ?_⟩, hindex⟩
    · by_cases hj : j = s.freedIndexes.min' hne
      · subst hj
        simp only [Function.update_self]
        rw [h.id, idOf_succ]
      · simp only [Function.update_of_ne hj]
        exact h.id j
    · obtain ⟨hslot, hreq⟩ := h.request sub hsub
      refine ⟨fun j hj => ⟨(hslot j hj).1, (hslot j hj).2.trans ?_⟩, hreq⟩
      by_cases hj' : j = s.freedIndexes.min' hne
      · subst hj'
        simp
      · simp [hj']
  · refine ⟨n + 1, ⟨by simp [h.num], fun j => ?_, fun j hj => (h.active j hj).trans (Nat.lt_succ_self n),
      fun j hj => (h.freed j hj).trans (Nat.lt_succ_self n), fun sub hsub => ?_⟩, by simp [h.num]⟩
    · by_cases hj : j = s.numClients
      · subst hj
        simp [idOf]
      · simp only [Function.update_of_ne hj]
        exact h.id j
    · -- requests in flight are for slots that were there before
      obtain ⟨hslot, hreq⟩ := h.request sub hsub
      refine ⟨fun j hj => ?_, hreq⟩
      obtain ⟨hlt, hle⟩ := hslot j hj
      refine ⟨hlt.trans (Nat.lt_succ_self _), ?_⟩
      simpa [h.num, hlt.ne] using hle

end OccupantInv

/-! ### The event loop -/

namespace Machine

open TcpServer

variable {σ ε : Type*} {T : ServerType} {app : App σ ε} {m m' : Machine σ} {n i : ℕ}

theorem occupantInv_callback {cb : Callback} {result : Option (σ × List TcpCall)}
    (h : OccupantInv n m.tcp) (hcb : m.callback T cb result = some m') : OccupantInv n m'.tcp := by
  obtain ⟨a, cs, -, hcalls, -⟩ := callback_eq_some hcb
  exact h.calls hcalls

theorem occupantInv_drainAndClose (h : OccupantInv n m.tcp) (hi : i < n)
    (hclose : m.drainAndClose T app i = some m') : OccupantInv n m'.tcp := by
  rw [drainAndClose_tcp hclose]
  exact h.setQueue.closeConnection hi T

theorem occupantInv_sweep {order halfClosed : List ℕ} (h : OccupantInv n m.tcp)
    (hsweep : m.sweep T app order halfClosed = some m') : OccupantInv n m'.tcp :=
  sweep_rule hsweep (R := fun x => OccupantInv n x.tcp) h
    fun _ j _ hj _ hx hclose => occupantInv_drainAndClose hx (h.active j hj) hclose

theorem occupantInv_customRead {env : ε} {sub : Submission} {res : ℤ} {data : Bytes}
    (h : OccupantInv n m.tcp) (hsub : sub.Dated n m.tcp.occupants)
    (hhandled : m.customRead T app env sub res data = some m') : OccupantInv n m'.tcp := by
  refine customRead_rule hhandled (R := fun x => OccupantInv n x.tcp)
    (fun _ hfinished => occupantInv_callback ?_ hfinished) (fun _ _ => h.submit ⟨hsub.slot, hsub.id⟩)
  exact h.congr (fun _ => rfl) rfl (Finset.Subset.refl _) rfl rfl (List.Subset.refl _)

theorem occupantInv_plainHandler {sub : Submission} {c : Completion ε} (h : OccupantInv n m.tcp)
    (hi : i < n) (hsub : sub.Dated n m.tcp.occupants)
    (hhandled : m.plainHandler app sub i c = some m') : OccupantInv n m'.tcp := by
  refine plainHandler_rule hhandled (R := fun m' => OccupantInv n m'.tcp) (fun _ s hs hm' => ?_)
    (fun _ front rest _ => h.submit ⟨hsub.slot, hsub.id⟩) (fun _ front rest _ _ _ hm' => ?_)
    (fun _ _ _ hm' => ?_) h
  · exact occupantInv_callback (m := m.onTcp fun _ => s) (h.touches hi hs) hm'
  · refine occupantInv_callback ?_ hm'
    exact h.endWrite.writeNext hi
  · exact occupantInv_callback (m := m.onTcp fun s => s.endWrite i) h.endWrite hm'

theorem occupantInv_plainAccept {res : ℤ} (h : OccupantInv n m.tcp)
    (hhandled : m.plainAccept app res = some m') : ∃ n', OccupantInv n' m'.tcp := by
  simp only [plainAccept] at hhandled
  obtain ⟨m₁, hm₁, rfl⟩ := Option.map_eq_some_iff.mp hhandled
  obtain ⟨a, -, rfl⟩ := Option.map_eq_some_iff.mp hm₁
  have haccept : OccupantInv n (m.tcp.addEventReq .accept) := h.addEventReq (by decide)
  obtain ⟨n', hsetup, hindex⟩ := haccept.setupClient res
  exact ⟨n', (hsetup.activate hindex).touches hindex (touches_addReadReq (Or.inl rfl))⟩

theorem occupantInv_tlsAccept {res : ℤ} (h : OccupantInv n m.tcp) :
    ∃ n', OccupantInv n' (m.tlsAccept res).tcp := by
  obtain ⟨n', hsetup, hindex⟩ := h.setupClient res
  have haccept : OccupantInv n' ((m.tcp.setupClient res).1.addEventReq .accept) :=
    hsetup.addEventReq (by decide)
  refine ⟨n', OccupantInv.touches ?_ hindex touches_wolfCall⟩
  exact haccept.modifyClient rfl

theorem occupantInv_tlsHandler {sub : Submission} {c : Completion ε} (h : OccupantInv n m.tcp)
    (hi : i < n) (hhandled : m.tlsHandler app sub i c = some m') : OccupantInv n m'.tcp := by
  have hactive : ∀ s s', Touches i m.tcp s →
      Touches i { s with activeConnections := insert i s.activeConnections } s' → OccupantInv n s' := by
    intro s s' hs hs'
    exact ((h.touches hi hs).activate hi).touches hi hs'
  refine tlsHandler_rule hhandled (R := fun m' => OccupantInv n m'.tcp) (fun s hs => ?_)
    (fun _ _ s buffer hs hm' => ?_) (fun _ s m₁ s₁ hs _ hs₁ => hactive s s₁ hs hs₁)
    (fun _ _ s m₁ s₁ buffer hs _ hs₁ hm' => ?_) (fun _ _ s front rest m₁ s₁ hs _ hm₁ hs₁ => ?_)
  · rcases hs with hs | hs
    · exact h.touches hi hs
    · exact h.endWrite.touches hi hs
  · exact occupantInv_callback (m := m.onTcp fun _ => s) (h.touches hi hs) hm'
  · exact occupantInv_callback (m := m₁.onTcp fun _ => s₁) (hactive s s₁ hs hs₁) hm'
  · have hpopped : OccupantInv n (s.setQueue i rest) := (h.endWrite.touches hi hs).setQueue
    exact (occupantInv_callback (m := m.onTcp fun _ => s.setQueue i rest) hpopped hm₁).touches hi hs₁

theorem occupantInv_clientEvent {sub : Submission} {c : Completion ε} (h : OccupantInv n m.tcp)
    (hsub : sub.Dated n m.tcp.occupants) (hhandled : m.clientEvent T app sub i c = some m') :
    OccupantInv n m'.tcp := by
  have hkept : ∀ s, s = m.tcp ∨ s = m.tcp.endWrite i → OccupantInv n s := by
    rintro s (rfl | rfl)
    · exact h
    · exact h.endWrite
  exact clientEvent_rule hhandled (R := fun x => OccupantInv n x.tcp)
    (fun s hs hi _ _ hclose =>
      occupantInv_drainAndClose (m := m.onTcp fun _ => s) (hkept s hs) (h.num ▸ hi) hclose) hkept
    (fun _ hi _ _ hplain => occupantInv_plainHandler h (h.num ▸ hi) hsub hplain)
    (fun _ hi _ _ htls => occupantInv_tlsHandler h (h.num ▸ hi) htls)

/-- One round of the loop. -/
theorem occupantInv_step {c : Completion ε} {log : List Callback} (h : OccupantInv n m.tcp)
    (hstep : step T app m c = some (m', log)) : ∃ n', OccupantInv n' m'.tcp := by
  obtain ⟨sub, hsub, hhandled, -⟩ := step_eq_some hstep
  have hdated : sub.Dated n m.tcp.occupants := h.request sub (List.mem_of_getElem? hsub)
  have htake : OccupantInv n (m.take c).tcp :=
    h.congr (fun _ => rfl) rfl (Finset.Subset.refl _) rfl rfl (List.eraseIdx_subset)
  refine dispatch_rule hhandled (R := fun m' => ∃ n', OccupantInv n' m'.tcp) (fun _ => ⟨n, ?_⟩)
    (fun _ hm' => ⟨n, ?_⟩) (fun _ hm' => ⟨n, occupantInv_customRead htake hdated hm'⟩)
    (fun _ m₁ hm₁ => ⟨n, ?_⟩) (fun _ _ hm' => occupantInv_plainAccept htake hm')
    (fun _ _ => occupantInv_tlsAccept htake) (fun i _ _ hm' => ⟨n, occupantInv_clientEvent htake hdated hm'⟩)
  · exact htake.congr (fun _ => rfl) rfl (Finset.Subset.refl _) rfl rfl (List.Subset.refl _)
  · refine occupantInv_callback ?_ hm'
    exact htake.addEventReq (by decide)
  · exact (occupantInv_sweep htake hm₁).addEventReq (by decide)

theorem occupantInv_start (a : σ) (reads : List (ℤ × ℕ)) : OccupantInv 0 (start a reads).tcp := by
  have hempty : OccupantInv 0 {} := ⟨rfl, fun _ => rfl, by simp, by simp, by simp⟩
  have hreads : ∀ s, OccupantInv 0 s → OccupantInv 0
      (reads.foldl (fun s r => s.customReadReq r.1 r.2 none [] 0 none) s) := by
    induction reads with
    | nil => exact fun s hs => hs
    | cons r reads ih => exact fun s hs => ih _ (hs.customReadReq (by simp) ..)
  refine OccupantInv.addEventReq (hreads _ ?_) (by decide)
  exact ((hempty.addEventReq (by decide)).addEventReq (by decide)).addEventReq (by decide)

/-- The invariant holds wherever a run leads. -/
theorem occupantInv_exec {a : σ} {reads : List (ℤ × ℕ)} {cs : List (Completion ε)}
    {logs : List (List Callback)} (hrun : Runs.exec (step T app) (start a reads) cs = some (m, logs)) :
    ∃ n, OccupantInv n m.tcp := by
  refine Runs.exec_invariant (P := fun _ _ => True) (Q := fun m : Machine σ => ∃ n, OccupantInv n m.tcp)
    ?_ ⟨0, occupantInv_start a reads⟩ ?_ hrun
  · rintro m c m' log ⟨n, h⟩ - hstep
    exact occupantInv_step h hstep
  · exact Runs.along_of_forall fun _ _ => trivial

end Machine

/-- **Completions for an earlier occupant.** Whatever the application of either server does, in every
state that is reached: a completed request that was submitted for an earlier occupant of slot `i` leaves
the clients as they are and no callback is called for it, if the slot is not the first one or the
request has failed, and if the slot was not handed out a multiple of 100 times since the request. The
ID of the very first occupant does not come round. -/
theorem stale_completion_ignored {σ ε : Type*} (T : ServerType) (app : App σ ε) (a : σ)
    (reads : List (ℤ × ℕ)) (cs : List (Completion ε)) (m : Machine σ) (logs : List (List Callback))
    (hrun : Runs.exec (Machine.step T app) (Machine.start a reads) cs = some (m, logs))
    (c : Completion ε) (sub : Submission) (i : ℕ) (hactive : m.tcp.isActive)
    (hsub : m.tcp.inflight[c.index]? = some sub) (hclient : sub.req.event.OfClient)
    (hidx : sub.req.clientIdx = some i) (hstale : sub.occupant < m.tcp.occupants i)
    (hguard : 0 < i ∨ c.res ≤ 0) (hround : ¬(0 < sub.occupant ∧ 100 ∣ m.tcp.occupants i - sub.occupant)) :
    ∃ m', Machine.step T app m c = some (m', []) ∧ m'.tcp.clients = m.tcp.clients := by
  obtain ⟨n, hinv⟩ := Machine.occupantInv_exec hrun
  have hdated := hinv.request sub (List.mem_of_getElem? hsub)
  have hlt : i < (m.take c).tcp.numClients := by
    rw [Machine.take_tcp, TcpServer.takeCompleted_numClients, hinv.num]
    exact (hdated.slot i hidx).1
  have hother : (m.tcp.clients i).id ≠ sub.req.ID := by
    rw [hinv.id, (hdated.id hclient).2]
    exact fun heq => hround ((idOf_eq_iff hstale).mp heq)
  -- the guard skips the completion, and the ID keeps it from being taken for a failure of the occupant
  have hignored : (m.take c).clientEvent T app sub i c = some (m.take c) := by
    have hskip : c.res ≤ 0 ∨ 0 < i ∧ ((m.take c).tcp.clients i).id ≠ sub.req.ID :=
      hguard.symm.imp_right fun hi => ⟨hi, hother⟩
    have hfailed : ¬(c.res ≤ 0 ∧ ((m.take c).tcp.clients i).id = sub.req.ID) := fun h => hother h.2
    unfold Machine.clientEvent
    rw [if_pos hlt, if_pos hskip, if_neg hfailed]
  have hdispatch : Machine.dispatch T app (m.take c) sub c = some (m.take c) := by
    rw [Machine.dispatch_ofClient hclient, hidx]
    exact hignored
  refine ⟨m.take c, ?_, rfl⟩
  simp [Machine.step, hsub, hactive, hdispatch]

/-- Two clients connect, the second one closes, the sweep closes its slot, and a third client gets it;
the read request of the second one is still in flight. -/
def reuseEvents : List (Completion Unit) :=
  [{ index := 3, res := 10, env := () }, { index := 3, res := 11, env := () },
    { index := 2, res := 8, halfClosed := [1], env := () }, { index := 3, res := 11, env := () }]

theorem stale_completion_ignored_reuse :
    ∃ m logs sub m', Runs.exec (Machine.step .nonTls replyApp) (Machine.start () []) reuseEvents =
        some (m, logs) ∧ m.tcp.inflight[3]? = some sub ∧ sub.req.clientIdx = some 1 ∧
      sub.occupant < m.tcp.occupants 1 ∧
      Machine.step .nonTls replyApp m { index := 3, res := 5, data := [1, 2, 3, 4, 5], env := () } =
        some (m', []) ∧ m'.tcp.clients = m.tcp.clients := by
  have hsome : (Runs.exec (Machine.step .nonTls replyApp) (Machine.start () []) reuseEvents).map
      (fun r => (r.1.tcp.inflight[3]?.map fun sub => (sub.req.event, sub.req.clientIdx, sub.occupant),
        r.1.tcp.occupants 1, r.1.tcp.isActive)) = some (some (.read, some 1, 0), 1, true) := by decide
  obtain ⟨⟨m, logs⟩, hrun, hm⟩ := Option.map_eq_some_iff.mp hsome
  simp only [Prod.mk.injEq, Option.map_eq_some_iff] at hm
  obtain ⟨⟨sub, hsub, hevent, hidx, hoccupant⟩, hoccupants, hactive⟩ := hm
  have hstale : sub.occupant < m.tcp.occupants 1 := by omega
  obtain ⟨m', hm', hclients⟩ := stale_completion_ignored .nonTls replyApp () [] reuseEvents m logs hrun
    { index := 3, res := 5, data := [1, 2, 3, 4, 5], env := () } sub 1 hactive hsub
    (by rw [hevent]; decide) hidx hstale (Or.inl (by decide)) (by omega)
  exact ⟨m, logs, sub, m', hrun, hsub, hidx, hstale, hm', hclients⟩

/-- The first slot is not guarded: a client connects, closes, the sweep closes its slot and a second
client gets it. When the read request of the first client completes, the read callback is called for the
second one. -/
theorem stale_completion_read_callback :
    ∃ m logs sub m' log, Runs.exec (Machine.step .nonTls replyApp) (Machine.start () [])
        [{ index := 3, res := 10, env := () }, { index := 2, res := 8, halfClosed := [0], env := () },
          { index := 2, res := 10, env := () }] = some (m, logs) ∧
      m.tcp.inflight[2]? = some sub ∧ sub.req.event = .read ∧ sub.req.clientIdx = some 0 ∧
      sub.occupant < m.tcp.occupants 0 ∧
      Machine.step .nonTls replyApp m { index := 2, res := 2, data := [1, 2], env := () } =
        some (m', log) ∧ .read 0 [1, 2] ∈ log := by
  have hsome : (Runs.exec (Machine.step .nonTls replyApp) (Machine.start () [])
      [{ index := 3, res := 10, env := () }, { index := 2, res := 8, halfClosed := [0], env := () },
        { index := 2, res := 10, env := () }]).map
      (fun r => (r.1.tcp.inflight[2]?.map fun sub => (sub.req.event, sub.req.clientIdx, sub.occupant),
        r.1.tcp.occupants 0, (Machine.step .nonTls replyApp r.1
          { index := 2, res := 2, data := [1, 2], env := () }).map Prod.snd)) =
      some (some (.read, some 0, 0), 1, some [.read 0 [1, 2]]) := by decide
  obtain ⟨⟨m, logs⟩, hrun, hm⟩ := Option.map_eq_some_iff.mp hsome
  simp only [Prod.mk.injEq, Option.map_eq_some_iff] at hm
  obtain ⟨⟨sub, hsub, hevent, hidx, hoccupant⟩, hoccupants, ⟨m', log⟩, hstep, hlog⟩ := hm
  refine ⟨m, logs, sub, m', log, hrun, hsub, hevent, hidx, by omega, hstep, ?_⟩
  obtain rfl : log = [.read 0 [1, 2]] := hlog
  exact List.mem_singleton_self _

end LiburingServer
