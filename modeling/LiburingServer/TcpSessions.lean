import LiburingServer.Lib.Peaks
import LiburingServer.TcpStanding

/-! The slots of both server types. The vector of clients grows only when no slot is free, so it is as long as the
greatest number of slots that were in use at once. A slot of the TLS server is in use exactly as long as it has a
session. -/

namespace LiburingServer

open TcpServer

namespace TcpServer

variable {s s' : TcpServer} {i : ℕ}

/-- The slots that were handed out and not given back. -/
def inUse (s : TcpServer) : Finset ℕ := Finset.range s.numClients \ s.freedIndexes

theorem mem_inUse : i ∈ s.inUse ↔ i < s.numClients ∧ i ∉ s.freedIndexes := by
  simp [inUse]

theorem card_inUse_le (s : TcpServer) : s.inUse.card ≤ s.numClients := by
  calc s.inUse.card ≤ (Finset.range s.numClients).card := Finset.card_le_card Finset.sdiff_subset
    _ = s.numClients := Finset.card_range _

/-- The vector of clients grows only when all its slots are in use. -/
def GrowsFull (s s' : TcpServer) : Prop :=
  s.numClients ≤ s'.numClients ∧ (s'.numClients = s.numClients ∨ s'.inUse.card = s'.numClients)

theorem growsFull_of_numClients (h : s'.numClients = s.numClients) : s.GrowsFull s' := ⟨h.ge, Or.inl h⟩

theorem growsFull_setupClient (s : TcpServer) (sockfd : ℤ) : s.GrowsFull (s.setupClient sockfd).1 := by
  unfold TcpServer.setupClient
  split
  · exact growsFull_of_numClients rfl
  · rename_i hnone
    refine ⟨Nat.le_succ _, Or.inr ?_⟩
    simp [inUse, Finset.not_nonempty_iff_eq_empty.mp hnone]

theorem GrowsFull.congr (h : s.GrowsFull s') {s'' : TcpServer} (hnum : s''.numClients = s'.numClients)
    (hfreed : s''.freedIndexes = s'.freedIndexes) : s.GrowsFull s'' := by
  have huse : s''.inUse = s'.inUse := by rw [inUse, inUse, hnum, hfreed]
  rw [GrowsFull, hnum, huse]
  exact h

/-! ### Sessions of the TLS server -/

/-- Slots are active only while they are in use, and in use exactly as long as they have a session. -/
structure SessionsPartitioned (s : TcpServer) : Prop where
  active : s.activeConnections ⊆ s.inUse
  freed : ∀ i ∈ s.freedIndexes, i < s.numClients
  session : ∀ i < s.numClients, (s.clients i).ssl = true ↔ i ∉ s.freedIndexes

theorem SessionsPartitioned.bounded (h : s.SessionsPartitioned) : s.Bounded := by
  intro i hi
  rcases Finset.mem_union.mp hi with hi | hi
  · exact (mem_inUse.mp (h.active hi)).1
  · exact h.freed i hi

theorem SessionsPartitioned.congr (h : s.SessionsPartitioned) (hs : SameSlots s s') : s'.SessionsPartitioned := by
  have huse : s'.inUse = s.inUse := by rw [inUse, inUse, hs.numClients, hs.freedIndexes]
  refine ⟨?_, ?_, fun i hi => ?_⟩
  · rw [hs.activeConnections, huse]
    exact h.active
  · rw [hs.freedIndexes, hs.numClients]
    exact h.freed
  · rw [hs.ssl, hs.freedIndexes]
    exact h.session i (hs.numClients ▸ hi)

/-- Closing a connection ends its session and frees its slot. -/
theorem SessionsPartitioned.freeSlot (h : s.SessionsPartitioned) (hi : i < s.numClients) :
    ((s.modifyClient i fun client => { client with ssl := false }).freeSlot i).SessionsPartitioned := by
  refine ⟨fun j hj => ?_, fun j hj => ?_, fun j hj => ?_⟩
  · obtain ⟨hne, hactive⟩ := Finset.mem_erase.mp hj
    obtain ⟨hlt, hfree⟩ := mem_inUse.mp (h.active hactive)
    refine mem_inUse.mpr ⟨hlt, fun hmem => ?_⟩
    exact (Finset.mem_insert.mp hmem).elim hne hfree
  · rcases Finset.mem_insert.mp hj with rfl | hj
    · exact hi
    · exact h.freed j hj
  · show _ ↔ j ∉ insert i s.freedIndexes
    rw [Finset.mem_insert, not_or]
    by_cases hji : j = i
    · subst hji
      simp [TcpServer.freeSlot, setQueue]
    · have hsession := h.session j hj
      simp only [TcpServer.freeSlot, setQueue, modifyClient_of_ne _ _ _ _ hji]
      rw [hsession]
      exact ⟨fun hfree => ⟨hji, hfree⟩, And.right⟩

theorem SessionsPartitioned.closeConnection (h : s.SessionsPartitioned) (hi : i < s.numClients) :
    (s.closeConnection .tls i).SessionsPartitioned := by
  unfold TcpServer.closeConnection
  split
  · have hcalled : SameSlots s (s.wolfCall i).1 := touches_wolfCall.alters.sameSlots
    exact (h.congr hcalled).freeSlot (by rwa [hcalled.numClients])
  · exact h

theorem SessionsPartitioned.activate (h : s.SessionsPartitioned) (hi : i < s.numClients)
    (hssl : (s.clients i).ssl = true) :
    SessionsPartitioned { s with activeConnections := insert i s.activeConnections } := by
  refine ⟨fun j hj => ?_, h.freed, h.session⟩
  rcases Finset.mem_insert.mp hj with rfl | hj
  · exact mem_inUse.mpr ⟨hi, (h.session _ hi).mp hssl⟩
  · exact h.active hj

/-- A slot that is handed out gets its session at once. -/
theorem SessionsPartitioned.setupClient (h : s.SessionsPartitioned) (sockfd : ℤ) :
    ((s.setupClient sockfd).1.modifyClient (s.setupClient sockfd).2
      fun client => { client with ssl := true }).SessionsPartitioned := by
  unfold TcpServer.setupClient
  split
  · rename_i hne
    set index := s.freedIndexes.min' hne with hindex
    have hmem : index ∈ s.freedIndexes := Finset.min'_mem _ _
    refine ⟨fun j hj => ?_, fun j hj => h.freed j (Finset.mem_of_mem_erase hj), fun j hj => ?_⟩
    · obtain ⟨hlt, hfree⟩ := mem_inUse.mp (h.active hj)
      exact mem_inUse.mpr ⟨hlt, fun hj => hfree (Finset.mem_of_mem_erase hj)⟩
    · show _ ↔ j ∉ s.freedIndexes.erase index
      by_cases hji : j = index
      · simp [hji]
      · have hsession := h.session j hj
        rw [modifyClient_of_ne _ _ _ _ hji]
        simp [hji, hsession]
  · refine ⟨fun j hj => ?_, fun j hj => Nat.lt_succ_of_lt (h.freed j hj), fun j hj => ?_⟩
    · obtain ⟨hlt, hfree⟩ := mem_inUse.mp (h.active hj)
      exact mem_inUse.mpr ⟨Nat.lt_succ_of_lt hlt, hfree⟩
    · show _ ↔ j ∉ s.freedIndexes
      rcases Nat.lt_succ_iff_lt_or_eq.mp hj with hlt | rfl
      · rw [modifyClient_of_ne _ _ _ _ hlt.ne]
        simp [hlt.ne, h.session j hlt]
      · have hnot : s.numClients ∉ s.freedIndexes := fun hmem => absurd (h.freed _ hmem) (lt_irrefl _)
        simp [hnot]

/-- Every handler of the TLS server keeps which slots have sessions. -/
theorem sessions_handlers : HandlerRelation .tls fun s s' =>
    s'.numClients = s.numClients ∧ (s.SessionsPartitioned → s'.SessionsPartitioned) where
  refl _ := ⟨rfl, id⟩
  trans _ _ _ h h' := ⟨h'.1.trans h.1, fun hs => h'.2 (h.2 hs)⟩
  numClients _ _ h := h.1
  alters _ _ _ h := ⟨h.sameSlots.numClients, fun hs => hs.congr h.sameSlots⟩
  finished _ _ := ⟨rfl, fun hs => hs.congr ⟨rfl, rfl, rfl, rfl, rfl, fun _ => rfl⟩⟩
  customRead _ _ _ := ⟨rfl, fun hs => hs.congr ⟨rfl, rfl, rfl, rfl, rfl, fun _ => rfl⟩⟩
  activate _ _ hi hssl := ⟨rfl, fun hs => hs.activate hi hssl⟩
  close _ _ hi := ⟨(sameStanding_closeConnection .tls hi).numClients, fun hs => hs.closeConnection hi⟩

end TcpServer

namespace Machine

variable {σ ε : Type*} {T : ServerType} {app : App σ ε} {m m' : Machine σ} {c : Completion ε} {log : List Callback}

/-- **One round of the loop.** The vector of clients grows only when all its slots are in use. -/
theorem growsFull_step (h : m.tcp.StandingInv) (hstep : step T app m c = some (m', log)) :
    m.tcp.GrowsFull m'.tcp := by
  refine (sameStanding_handlers T).step_rule h.bounded.active hstep (fun _ _ _ => growsFull_of_numClients rfl)
    (fun _ s _ _ hs => growsFull_of_numClients hs.numClients) (fun _ s _ _ hs => growsFull_of_numClients hs.numClients)
    (fun _ _ _ _ => ?_) (fun _ _ _ _ => ?_) (fun _ s _ _ hs => growsFull_of_numClients hs.numClients)
  · set s := ((m.take c).tcp.addEventReq .accept).accepted c.res
    have hread : SameSlots s (s.addReadReq (((m.take c).tcp.addEventReq .accept).setupClient c.res).2 .read) :=
      (touches_addReadReq (Or.inl rfl)).alters.sameSlots
    exact (growsFull_setupClient ((m.take c).tcp.addEventReq .accept) c.res).congr hread.numClients hread.freedIndexes
  · set s := (((m.take c).tcp.setupClient c.res).1.addEventReq .accept).modifyClient
      ((m.take c).tcp.setupClient c.res).2 fun client => { client with ssl := true }
    have hcalled : SameSlots s ((m.take c).tlsAccept c.res).tcp := touches_wolfCall.alters.sameSlots
    exact (growsFull_setupClient (m.take c).tcp c.res).congr hcalled.numClients hcalled.freedIndexes

/-- **One round of the loop of the TLS server.** Slots are in use exactly as long as they have a session. -/
theorem sessions_step (h : m.tcp.SessionsPartitioned) (hstep : step .tls app m c = some (m', log)) :
    m'.tcp.SessionsPartitioned := by
  have htaken : (m.take c).tcp.SessionsPartitioned := h.congr ⟨rfl, rfl, rfl, rfl, rfl, fun _ => rfl⟩
  have hasked : ∀ {s : TcpServer} {event : EventType}, s.SessionsPartitioned →
      (s.addEventReq event).SessionsPartitioned := fun hs => hs.congr ⟨rfl, rfl, rfl, rfl, rfl, fun _ => rfl⟩
  refine sessions_handlers.step_rule h.bounded.active hstep (fun _ _ _ => ?_) (fun _ s _ _ hs => hs.2 (hasked htaken))
    (fun _ s _ _ hs => hasked (hs.2 htaken)) (fun _ _ _ hT => absurd hT (by simp)) (fun _ _ _ _ => ?_)
    (fun _ s _ _ hs => hs.2 htaken)
  · exact htaken.congr ⟨rfl, rfl, rfl, rfl, rfl, fun _ => rfl⟩
  · set s := (((m.take c).tcp.setupClient c.res).1.addEventReq .accept).modifyClient
      ((m.take c).tcp.setupClient c.res).2 fun client => { client with ssl := true }
    have hset : s.SessionsPartitioned := (htaken.setupClient c.res).congr ⟨rfl, rfl, rfl, rfl, rfl, fun _ => rfl⟩
    have hcalled : SameSlots s ((m.take c).tlsAccept c.res).tcp := touches_wolfCall.alters.sameSlots
    exact hset.congr hcalled

end Machine

section

variable {σ ε : Type*} (T : ServerType) (app : App σ ε) (a : σ) (reads : List (ℤ × ℕ)) (cs : List (Completion ε))
  (m : Machine σ) (logs : List (List Callback))

/-- **Peaks.** In every run of both server types, with any application and any completions, the vector of clients is as
long as the greatest number of slots that were in use at once; the slots of the plain server that are in use are the
active ones. -/
theorem clients_peak (hrun : Runs.exec (Machine.step T app) (Machine.start a reads) cs = some (m, logs)) :
    IsGreatest {n | ∃ u, Peaks.Visited (Machine.step T app) (Machine.start a reads) cs u ∧ n = u.tcp.inUse.card}
        m.tcp.numClients ∧
      (T = .nonTls → m.tcp.inUse = m.tcp.activeConnections) := by
  have hnone := Machine.sameSlots_start a reads
  refine ⟨?_, ?_⟩
  · refine Peaks.isGreatest_used (I := fun m : Machine σ => m.tcp.StandingInv) (fun m => m.tcp.numClients)
      (fun m => m.tcp.inUse.card) (fun m => card_inUse_le m.tcp) (fun m c m' log h hstep => ?_)
      (Machine.standingInv_start a reads) ?_ hrun
    · exact ⟨Machine.standing_step h hstep, Machine.growsFull_step h hstep⟩
    · simp [inUse, hnone.numClients]
  · rintro rfl
    have hempty : SlotsPartitioned {} := ⟨by simp, by simp, by simp⟩
    have h : SlotsPartitioned m.tcp := Runs.exec_invariant (Q := fun m => SlotsPartitioned m.tcp)
      (fun m c m' log h _ hstep => Machine.partitioned_step h hstep) (hempty.congr hnone)
      (Runs.along_of_forall (P := fun _ _ => True) fun _ _ => trivial) hrun
    ext i
    rw [mem_inUse]
    constructor
    · rintro ⟨hi, hfree⟩
      exact (h.exactly i hi).mpr hfree
    · intro hi
      exact ⟨h.active i hi, (h.exactly i (h.active i hi)).mp hi⟩

end

/-- Two clients are connected at once, one of them is answered and closed, and a third one gets its slot. -/
theorem clients_peak_reply :
    ∃ m logs, Runs.exec (Machine.step .nonTls replyApp) (Machine.start () [])
        [{ index := 3, res := 10, env := () }, { index := 3, res := 11, env := () },
          { index := 3, res := 2, data := [1, 2], env := () }, { index := 5, res := 2, env := () },
          { index := 3, res := 12, env := () }] = some (m, logs) ∧
      m.tcp.numClients = 2 ∧ m.tcp.occupants 0 = 1 ∧ m.tcp.inUse = m.tcp.activeConnections := by
  have hsome : (Runs.exec (Machine.step .nonTls replyApp) (Machine.start () [])
        [{ index := 3, res := 10, env := () }, { index := 3, res := 11, env := () },
          { index := 3, res := 2, data := [1, 2], env := () }, { index := 5, res := 2, env := () },
          { index := 3, res := 12, env := () }]).any
      (fun r => r.1.tcp.numClients = 2 ∧ r.1.tcp.occupants 0 = 1) = true := by decide +kernel
  simp only [Option.any_eq_true, decide_eq_true_eq] at hsome
  obtain ⟨⟨m, logs⟩, hrun, hnum, hoccupant⟩ := hsome
  exact ⟨m, logs, hrun, hnum, hoccupant, (clients_peak .nonTls replyApp () [] _ m logs hrun).2 rfl⟩

/-- **Sessions.** In every run of the TLS server with any application, any completions and any behaviour of wolfSSL,
a slot has a session exactly if it is not free, an active slot is not free, and an accept is never given a slot that
is active or still has a session. -/
theorem sessions_partitioned {σ ε : Type*} (app : App σ ε) (a : σ) (reads : List (ℤ × ℕ)) (cs : List (Completion ε))
    (m : Machine σ) (logs : List (List Callback))
    (hrun : Runs.exec (Machine.step .tls app) (Machine.start a reads) cs = some (m, logs)) :
    (∀ i < m.tcp.numClients, (m.tcp.clients i).ssl = true ↔ i ∉ m.tcp.freedIndexes) ∧
      m.tcp.activeConnections ⊆ m.tcp.inUse ∧
      ∀ sockfd, (m.tcp.setupClient sockfd).2 ∉ m.tcp.activeConnections ∧
        ((m.tcp.setupClient sockfd).2 < m.tcp.numClients →
          (m.tcp.clients (m.tcp.setupClient sockfd).2).ssl = false) := by
  have hempty : SessionsPartitioned {} := ⟨by simp, by simp, by simp⟩
  have h : m.tcp.SessionsPartitioned := Runs.exec_invariant (Q := fun m : Machine σ => m.tcp.SessionsPartitioned)
    (fun m c m' log h _ hstep => Machine.sessions_step h hstep) (hempty.congr (Machine.sameSlots_start a reads))
    (Runs.along_of_forall (P := fun _ _ => True) fun _ _ => trivial) hrun
  refine ⟨h.session, h.active, fun sockfd => ?_⟩
  have hhanded : (m.tcp.setupClient sockfd).2 ∉ m.tcp.inUse := by
    unfold TcpServer.setupClient
    split
    · rename_i hne
      exact fun hmem => (mem_inUse.mp hmem).2 (Finset.min'_mem _ hne)
    · exact fun hmem => absurd (mem_inUse.mp hmem).1 (lt_irrefl _)
  refine ⟨fun hmem => hhanded (h.active hmem), fun hlt => ?_⟩
  by_contra hssl
  exact hhanded (mem_inUse.mpr ⟨hlt, (h.session _ hlt).mp (by simpa using hssl)⟩)

/-- A handshake in one round; the connection fails afterwards, and the next one gets its slot and a session. -/
theorem sessions_partitioned_failed :
    ∃ m logs, Runs.exec (Machine.step .tls replyApp) (Machine.start () [])
        [{ index := 3, res := 10, wolf := [{ io := [.recv 5] }], env := () },
          { index := 4, res := 5, data := [1, 2, 3, 4, 5],
            wolf := [{ io := [.recv 5], ret := 1 }, { io := [.recv 5], ret := -1 }], env := () },
          { index := 4, res := -104, wolf := [{ ret := -1 }], env := () },
          { index := 3, res := 11, wolf := [{ io := [.recv 5] }], env := () }] = some (m, logs) ∧
      m.tcp.closed = [(0, 0)] ∧ m.tcp.numClients = 1 ∧ (m.tcp.clients 0).ssl = true ∧ 0 ∉ m.tcp.freedIndexes := by
  have hsome : (Runs.exec (Machine.step .tls replyApp) (Machine.start () [])
        [{ index := 3, res := 10, wolf := [{ io := [.recv 5] }], env := () },
          { index := 4, res := 5, data := [1, 2, 3, 4, 5],
            wolf := [{ io := [.recv 5], ret := 1 }, { io := [.recv 5], ret := -1 }], env := () },
          { index := 4, res := -104, wolf := [{ ret := -1 }], env := () },
          { index := 3, res := 11, wolf := [{ io := [.recv 5] }], env := () }]).any
      (fun r => r.1.tcp.closed = [(0, 0)] ∧ r.1.tcp.numClients = 1 ∧ (r.1.tcp.clients 0).ssl = true) = true := by
    decide +kernel
  simp only [Option.any_eq_true, decide_eq_true_eq] at hsome
  obtain ⟨⟨m, logs⟩, hrun, hclosed, hnum, hssl⟩ := hsome
  obtain ⟨hsession, -, -⟩ := sessions_partitioned replyApp () [] _ m logs hrun
  have hlt : 0 < m.tcp.numClients := hnum ▸ Nat.one_pos
  exact ⟨m, logs, hrun, hclosed, hnum, hssl, (hsession 0 hlt).mp hssl⟩

end LiburingServer
