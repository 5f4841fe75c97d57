import LiburingServer.TcpFrame

/-! The slots of the plain server. A slot is given back by a callback of the application, by a failed
request or by the sweep, and possibly more than once; it is handed out again by an accept. -/

namespace LiburingServer

open TcpServer

/-- Every slot is either active or free, and there are no other active or free slots. -/
structure SlotsPartitioned (s : TcpServer) : Prop where
  active : ∀ i ∈ s.activeConnections, i < s.numClients
  freed : ∀ i ∈ s.freedIndexes, i < s.numClients
  exactly : ∀ i < s.numClients, i ∈ s.activeConnections ↔ i ∉ s.freedIndexes

/-- A new connection: its slot is handed out and is active. -/
def TcpServer.accepted (s : TcpServer) (sockfd : ℤ) : TcpServer :=
  { (s.setupClient sockfd).1 with
    activeConnections := insert (s.setupClient sockfd).2 (s.setupClient sockfd).1.activeConnections }

namespace SlotsPartitioned

variable {s s' : TcpServer} {i : ℕ}

theorem congr (h : SlotsPartitioned s) (hs : SameSlots s s') : SlotsPartitioned s' := by
  refine ⟨?_, ?_, ?_⟩
  · rw [hs.activeConnections, hs.numClients]
    exact h.active
  · rw [hs.freedIndexes, hs.numClients]
    exact h.freed
  · rw [hs.numClients, hs.activeConnections, hs.freedIndexes]
    exact h.exactly

/-- A slot can be given back any number of times. -/
theorem freeSlot (h : SlotsPartitioned s) (hi : i < s.numClients) : SlotsPartitioned (s.freeSlot i) := by
  refine ⟨fun j hj => h.active j (Finset.mem_of_mem_erase hj), fun j hj => ?_, fun j hj => ?_⟩
  · rcases Finset.mem_insert.mp hj with rfl | hj
    · exact hi
    · exact h.freed j hj
  · show j ∈ s.activeConnections.erase i ↔ j ∉ insert i s.freedIndexes
    have hexactly := h.exactly j hj
    rw [Finset.mem_erase, Finset.mem_insert]
    tauto

/-- The slot that is handed out next is not active. -/
theorem setupClient_inactive (h : SlotsPartitioned s) (sockfd : ℤ) :
    (s.setupClient sockfd).2 ∉ s.activeConnections := by
  intro hmem
  unfold setupClient at hmem
  split at hmem
  · rename_i hne
    have hfree : s.freedIndexes.min' hne ∈ s.freedIndexes := Finset.min'_mem _ _
    exact (h.exactly _ (h.freed _ hfree)).mp hmem hfree
  · exact absurd (h.active _ hmem) (lt_irrefl _)

theorem accepted (h : SlotsPartitioned s) (sockfd : ℤ) : SlotsPartitioned (s.accepted sockfd) := by
  unfold TcpServer.accepted setupClient
  split
  · rename_i hne
    set index := s.freedIndexes.min' hne with hindex
    have hmem : index ∈ s.freedIndexes := Finset.min'_mem _ _
    refine ⟨fun j hj => ?_, fun j hj => h.freed j (Finset.mem_of_mem_erase hj), fun j hj => ?_⟩
    · rcases Finset.mem_insert.mp hj with rfl | hj
      · exact h.freed _ hmem
      · exact h.active j hj
    · have hexactly := h.exactly j hj
      show j ∈ insert index s.activeConnections ↔ j ∉ s.freedIndexes.erase index
      rw [Finset.mem_insert, Finset.mem_erase]
      tauto
  · refine ⟨fun j hj => ?_, fun j hj => Nat.lt_succ_of_lt (h.freed j hj), fun j hj => ?_⟩
    · rcases Finset.mem_insert.mp hj with rfl | hj
      · exact Nat.lt_succ_self _
      · exact Nat.lt_succ_of_lt (h.active j hj)
    · show j ∈ insert s.numClients s.activeConnections ↔ j ∉ s.freedIndexes
      rcases Nat.lt_succ_iff_lt_or_eq.mp hj with hlt | rfl
      · have hne : j ≠ s.numClients := hlt.ne
        rw [Finset.mem_insert, ← h.exactly j hlt]
        tauto
      · have hnot : s.numClients ∉ s.freedIndexes := fun hmem => absurd (h.freed _ hmem) (lt_irrefl _)
        simp [hnot]

end SlotsPartitioned

/-! ### What each round of the loop of the plain server does to the slots -/

namespace Machine

variable {σ ε : Type*} {app : App σ ε} {m m' : Machine σ} {s s' : TcpServer} {i : ℕ}

theorem partitioned_closeConnection (h : SlotsPartitioned s) (hi : i < s.numClients) :
    SlotsPartitioned (s.closeConnection .nonTls i) := by
  unfold closeConnection
  split
  · exact h.freeSlot hi
  · exact h

/-- The calls of a callback name slots that exist. -/
theorem partitioned_calls {cs : List TcpCall} (h : SlotsPartitioned s) (hcalls : s.calls .nonTls cs = some s') :
    SlotsPartitioned s' := by
  refine Runs.foldlM_keeps (R := SlotsPartitioned) (fun s c s' _ hs hcall => ?_) h hcalls
  by_cases hclose : ∃ i, c = .closeConnection i
  · obtain ⟨i, rfl⟩ := hclose
    unfold call at hcall
    split at hcall
    · rename_i hslots
      obtain rfl := Option.some.inj hcall
      exact partitioned_closeConnection hs (hslots i (by simp [TcpCall.slots]))
    · cases hcall
  · exact hs.congr (sameSlots_call (fun i heq => hclose ⟨i, heq⟩) hcall)

theorem partitioned_callback {cb : Callback} {result : Option (σ × List TcpCall)} (h : SlotsPartitioned m.tcp)
    (hcb : m.callback .nonTls cb result = some m') : SlotsPartitioned m'.tcp := by
  obtain ⟨a, cs, -, hcalls, -, -⟩ := callback_eq_some hcb
  exact partitioned_calls h hcalls

theorem partitioned_drainAndClose (h : SlotsPartitioned m.tcp) (hi : i < m.tcp.numClients)
    (hclose : m.drainAndClose .nonTls app i = some m') : SlotsPartitioned m'.tcp := by
  have hdrained : SameSlots m.tcp (m.tcp.setQueue i []) := (alters_setQueue []).sameSlots
  rw [drainAndClose_tcp hclose]
  exact partitioned_closeConnection (h.congr hdrained) hi

/-- The sweep may find a slot already given back that it still has to visit. -/
theorem partitioned_sweep {order halfClosed : List ℕ} (h : SlotsPartitioned m.tcp)
    (hsweep : m.sweep .nonTls app order halfClosed = some m') : SlotsPartitioned m'.tcp := by
  have hkept : SlotsPartitioned m'.tcp ∧ m'.tcp.numClients = m.tcp.numClients := by
    refine sweep_rule hsweep (R := fun x => SlotsPartitioned x.tcp ∧ x.tcp.numClients = m.tcp.numClients) ⟨h, rfl⟩
      fun x j x' hj _ hx hclose => ?_
    have hlt : j < x.tcp.numClients := hx.2.symm ▸ h.active j hj
    refine ⟨partitioned_drainAndClose hx.1 hlt hclose, ?_⟩
    rw [drainAndClose_tcp hclose]
    unfold closeConnection
    split
    · exact hx.2
    · exact hx.2
  exact hkept.1

theorem partitioned_plainAccept {res : ℤ} (h : SlotsPartitioned m.tcp)
    (haccept : m.plainAccept app res = some m') : SlotsPartitioned m'.tcp := by
  obtain ⟨m₁, hm₁, rfl⟩ := Option.map_eq_some_iff.mp haccept
  obtain ⟨a, -, rfl⟩ := Option.map_eq_some_iff.mp hm₁
  have hrequest : SlotsPartitioned (m.tcp.addEventReq .accept) := h.congr ⟨rfl, rfl, rfl, rfl, rfl, fun _ => rfl⟩
  have hread : SameSlots ((m.tcp.addEventReq .accept).accepted res)
      (((m.tcp.addEventReq .accept).accepted res).addReadReq ((m.tcp.addEventReq .accept).setupClient res).2
        .read) := (touches_addReadReq (Or.inl rfl)).alters.sameSlots
  exact (hrequest.accepted res).congr hread

theorem partitioned_clientEvent {sub : Submission} {c : Completion ε} (h : SlotsPartitioned m.tcp)
    (hhandled : m.clientEvent .nonTls app sub i c = some m') : SlotsPartitioned m'.tcp := by
  have hended : SlotsPartitioned (m.tcp.endWrite i) := h.congr alters_endWrite.sameSlots
  refine clientEvent_rule hhandled (R := fun x => SlotsPartitioned x.tcp) (fun s hs hi _ _ hclose => ?_)
    (fun s hs => ?_) (fun _ _ _ _ hplain => ?_) nofun
  · rcases hs with rfl | rfl
    · exact partitioned_drainAndClose h hi hclose
    · exact partitioned_drainAndClose (m := m.onTcp fun s => s.endWrite i) hended hi hclose
  · rcases hs with rfl | rfl
    · exact h
    · exact hended
  · refine plainHandler_rule hplain (R := fun x => SlotsPartitioned x.tcp) (fun _ s hs hm' => ?_)
      (fun _ _ _ _ => ?_) (fun _ _ rest _ _ _ hm' => ?_) (fun _ _ _ hm' => ?_) h
    · exact partitioned_callback (m := m.onTcp fun _ => s) (h.congr hs.alters.sameSlots) hm'
    · exact h.congr ⟨rfl, rfl, rfl, rfl, rfl, fun _ => rfl⟩
    · exact partitioned_callback (m := m.onTcp fun s => (s.endWrite i).writeNext i rest)
        (hended.congr (alters_writeNext rest).sameSlots) hm'
    · exact partitioned_callback (m := m.onTcp fun s => s.endWrite i) hended hm'

theorem partitioned_customRead {env : ε} {sub : Submission} {res : ℤ} {data : Bytes}
    (h : SlotsPartitioned m.tcp) (hread : m.customRead .nonTls app env sub res data = some m') :
    SlotsPartitioned m'.tcp := by
  refine customRead_rule hread (R := fun x => SlotsPartitioned x.tcp) (fun _ hfinished => ?_) (fun _ _ => ?_)
  · refine partitioned_callback ?_ hfinished
    exact h.congr ⟨rfl, rfl, rfl, rfl, rfl, fun _ => rfl⟩
  · exact h.congr ⟨rfl, rfl, rfl, rfl, rfl, fun _ => rfl⟩

theorem partitioned_step {c : Completion ε} {log : List Callback} (h : SlotsPartitioned m.tcp)
    (hstep : step .nonTls app m c = some (m', log)) : SlotsPartitioned m'.tcp := by
  obtain ⟨sub, -, hhandled, -⟩ := step_eq_some hstep
  have htaken : SlotsPartitioned (m.take c).tcp := h.congr ⟨rfl, rfl, rfl, rfl, rfl, fun _ => rfl⟩
  refine dispatch_rule hhandled (R := fun x => SlotsPartitioned x.tcp) (fun _ => ?_) (fun _ hm' => ?_)
    (fun _ hm' => ?_) (fun _ m₁ hm₁ => ?_) (fun _ _ hm' => ?_) (fun _ htls => ?_) (fun i _ _ hm' => ?_)
  · exact htaken.congr ⟨rfl, rfl, rfl, rfl, rfl, fun _ => rfl⟩
  · refine partitioned_callback ?_ hm'
    exact htaken.congr ⟨rfl, rfl, rfl, rfl, rfl, fun _ => rfl⟩
  · exact partitioned_customRead htaken hm'
  · exact (partitioned_sweep htaken hm₁).congr ⟨rfl, rfl, rfl, rfl, rfl, fun _ => rfl⟩
  · exact partitioned_plainAccept htaken hm'
  · cases htls
  · exact partitioned_clientEvent htaken hm'

/-- No slot is there when the loop starts. -/
theorem sameSlots_start (a : σ) (reads : List (ℤ × ℕ)) : SameSlots {} (start a reads).tcp := by
  have hreads : ∀ s, SameSlots {} s →
      SameSlots {} (reads.foldl (fun s r => s.customReadReq r.1 r.2 none [] 0 none) s) := by
    induction reads with
    | nil => exact fun s hs => hs
    | cons r reads ih => exact fun s hs => ih _ (hs.trans ⟨rfl, rfl, rfl, rfl, rfl, fun _ => rfl⟩)
  have hasked := hreads (((({} : TcpServer).addEventReq .kill).addEventReq .notification).addEventReq .timerfd)
    ⟨rfl, rfl, rfl, rfl, rfl, fun _ => rfl⟩
  exact hasked.trans ⟨rfl, rfl, rfl, rfl, rfl, fun _ => rfl⟩

end Machine

/-- In every run of the plain server with any application, each slot below the size of the vector of
clients is either active or free, and an accept is never given a slot whose occupant is active. -/
theorem slots_partitioned {σ ε : Type*} (app : App σ ε) (a : σ) (reads : List (ℤ × ℕ)) (cs : List (Completion ε))
    (m : Machine σ) (logs : List (List Callback))
    (hrun : Runs.exec (Machine.step .nonTls app) (Machine.start a reads) cs = some (m, logs)) :
    (∀ i, i < m.tcp.numClients ↔ i ∈ m.tcp.activeConnections ∪ m.tcp.freedIndexes) ∧
      Disjoint m.tcp.activeConnections m.tcp.freedIndexes ∧
      ∀ sockfd, (m.tcp.setupClient sockfd).2 ∉ m.tcp.activeConnections := by
  have hempty : SlotsPartitioned {} := ⟨by simp, by simp, by simp⟩
  have hall : Runs.Along (Machine.step .nonTls app) (fun _ _ => True) (Machine.start a reads) cs :=
    Runs.along_of_forall fun _ _ => trivial
  have h : SlotsPartitioned m.tcp := Runs.exec_invariant (Q := fun m => SlotsPartitioned m.tcp)
    (fun m c m' log h _ hstep => Machine.partitioned_step h hstep)
    (hempty.congr (Machine.sameSlots_start a reads)) hall hrun
  refine ⟨fun i => ⟨fun hi => ?_, fun hi => ?_⟩, ?_, h.setupClient_inactive⟩
  · by_cases hfree : i ∈ m.tcp.freedIndexes
    · exact Finset.mem_union_right _ hfree
    · exact Finset.mem_union_left _ ((h.exactly i hi).mpr hfree)
  · exact (Finset.mem_union.mp hi).elim (h.active i) (h.freed i)
  · exact Finset.disjoint_left.mpr fun i hi => (h.exactly i (h.active i hi)).mp hi

/-- Two clients connect. The first is answered and closed, and the sweep closes the second one, whose read
completes only then: its answer is written to the free slot, which is closed again. The next accept is given
slot 0. -/
theorem slots_partitioned_reply :
    ∃ m logs, Runs.exec (Machine.step .nonTls replyApp) (Machine.start () [])
        [{ index := 3, res := 10, env := () }, { index := 3, res := 11, env := () },
          { index := 3, res := 2, data := [1, 2], env := () }, { index := 5, res := 2, env := () },
          { index := 2, res := 8, halfClosed := [1], env := () },
          { index := 3, res := 1, data := [3], env := () }, { index := 4, res := 1, env := () },
          { index := 2, res := 12, env := () }] = some (m, logs) ∧
      m.tcp.closed = [(0, 0), (1, 0), (1, 0)] ∧ m.tcp.activeConnections = {0} ∧
      1 ∈ m.tcp.activeConnections ∪ m.tcp.freedIndexes := by
  have hsome : (Runs.exec (Machine.step .nonTls replyApp) (Machine.start () [])
        [{ index := 3, res := 10, env := () }, { index := 3, res := 11, env := () },
          { index := 3, res := 2, data := [1, 2], env := () }, { index := 5, res := 2, env := () },
          { index := 2, res := 8, halfClosed := [1], env := () },
          { index := 3, res := 1, data := [3], env := () }, { index := 4, res := 1, env := () },
          { index := 2, res := 12, env := () }]).any
      (fun r => r.1.tcp.closed = [(0, 0), (1, 0), (1, 0)] ∧ r.1.tcp.activeConnections = {0} ∧
        1 < r.1.tcp.numClients) = true := by decide +kernel
  simp only [Option.any_eq_true, decide_eq_true_eq] at hsome
  obtain ⟨⟨m, logs⟩, hrun, hclosed, hactive, hlt⟩ := hsome
  exact ⟨m, logs, hrun, hclosed, hactive, ((slots_partitioned replyApp () [] _ m logs hrun).1 1).mp hlt⟩

end LiburingServer
