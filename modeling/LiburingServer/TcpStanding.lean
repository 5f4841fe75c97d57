import LiburingServer.TcpHandlers

/-! The requests that the loop always has in flight: an accept, a read of the notification eventfd, a read of the timer
and, until it completes, a read of the eventfd that ends the server. Each is submitted again by the round that handles
it, and nothing else submits one. -/

namespace LiburingServer

open TcpServer

/-- The requests that the loop itself keeps in flight. -/
def EventType.Standing (event : EventType) : Prop := event ∈ [.accept, .notification, .timerfd, .kill]

instance : DecidablePred EventType.Standing := fun event =>
  inferInstanceAs (Decidable (event ∈ [EventType.accept, .notification, .timerfd, .kill]))

namespace EventType

theorem Standing.not_ofClient {event : EventType} (h : event.Standing) : ¬event.OfClient := by
  revert h
  cases event <;> decide

theorem Standing.ne_customRead {event : EventType} (h : event.Standing) : event ≠ .customRead := by
  rintro rfl
  revert h
  decide

end EventType

namespace TcpServer

variable {s s' : TcpServer} {i : ℕ} {event : EventType}

/-- How many requests of a kind are in flight. -/
def pending (s : TcpServer) (event : EventType) : ℕ := (s.inflight.filter fun sub => sub.req.event = event).length

theorem pending_submit (sub : Submission) :
    (s.submit sub).pending event = s.pending event + if sub.req.event = event then 1 else 0 := by
  simp only [pending, submit_inflight, List.filter_append, List.length_append, List.filter_cons, List.filter_nil]
  by_cases h : sub.req.event = event <;> simp [h]

@[simp] theorem pending_addEventReq (e : EventType) :
    (s.addEventReq e).pending event = s.pending event + if e = event then 1 else 0 := pending_submit _

theorem pending_takeCompleted {n : ℕ} {sub : Submission} (event : EventType) (wolf : List WolfCall)
    (hsub : s.inflight[n]? = some sub) :
    (s.takeCompleted n wolf).pending event + (if sub.req.event = event then 1 else 0) = s.pending event := by
  have hlength := InFlight.length_filter_eraseIdx (fun sub : Submission => decide (sub.req.event = event)) hsub
  simpa only [pending, takeCompleted_inflight, decide_eq_true_eq] using hlength

/-- Active and free slots exist. -/
def Bounded (s : TcpServer) : Prop := ∀ i ∈ s.activeConnections ∪ s.freedIndexes, i < s.numClients

theorem Bounded.active (h : s.Bounded) : ∀ i ∈ s.activeConnections, i < s.numClients :=
  fun i hi => h i (Finset.mem_union_left _ hi)

theorem Bounded.freed (h : s.Bounded) : ∀ i ∈ s.freedIndexes, i < s.numClients :=
  fun i hi => h i (Finset.mem_union_right _ hi)

theorem Bounded.activate (h : s.Bounded) (hi : i < s.numClients) :
    Bounded { s with activeConnections := insert i s.activeConnections } := by
  intro j hj
  rw [Finset.insert_union] at hj
  rcases Finset.mem_insert.mp hj with rfl | hj
  · exact hi
  · exact h j hj

theorem Bounded.freeSlot (h : s.Bounded) (hi : i < s.numClients) : (s.freeSlot i).Bounded := by
  intro j hj
  rcases Finset.mem_union.mp hj with hj | hj
  · exact h.active j (Finset.mem_of_mem_erase hj)
  · rcases Finset.mem_insert.mp hj with rfl | hj
    · exact hi
    · exact h.freed j hj

/-- The slot that is handed out exists, and so do the others. -/
theorem Bounded.setupClient (h : s.Bounded) (sockfd : ℤ) : (s.setupClient sockfd).1.Bounded ∧
    (s.setupClient sockfd).2 < (s.setupClient sockfd).1.numClients := by
  unfold TcpServer.setupClient
  split
  · rename_i hne
    refine ⟨fun j hj => h j ?_, h.freed _ (Finset.min'_mem _ hne)⟩
    exact Finset.union_subset_union_right (Finset.erase_subset _ _) hj
  · exact ⟨fun j hj => Nat.lt_succ_of_lt (h j hj), Nat.lt_succ_self _⟩

/-- The requests of the loop that are in flight are the same, and so is whether the loop goes on. -/
structure SameStanding (s s' : TcpServer) : Prop where
  pending : ∀ event : EventType, event.Standing → s'.pending event = s.pending event
  isActive : s'.isActive = s.isActive
  numClients : s'.numClients = s.numClients
  bounded : s.Bounded → s'.Bounded

theorem SameStanding.refl (s : TcpServer) : SameStanding s s := ⟨fun _ _ => rfl, rfl, rfl, id⟩

theorem SameStanding.trans {s'' : TcpServer} (h : SameStanding s s') (h' : SameStanding s' s'') :
    SameStanding s s'' :=
  ⟨fun event he => (h'.pending event he).trans (h.pending event he), h'.isActive.trans h.isActive,
    h'.numClients.trans h.numClients, fun hs => h'.bounded (h.bounded hs)⟩

/-- Requests of clients are none of the loop. -/
theorem Alters.sameStanding (h : Alters i s s') : SameStanding s s' := by
  obtain ⟨new, hnew, hof⟩ := h.inflight
  refine ⟨fun event he => ?_, by rw [h.rest], by rw [h.rest], fun hs => by rw [h.rest]; exact hs⟩
  have hnone : new.filter (fun sub => sub.req.event = event) = [] := by
    refine List.filter_eq_nil_iff.mpr fun sub hsub => ?_
    simp only [decide_eq_true_eq]
    rintro rfl
    exact he.not_ofClient (hof sub hsub).1
  simp [pending, hnew, hnone]

theorem sameStanding_freeSlot (hi : i < s.numClients) : SameStanding s (s.freeSlot i) :=
  ⟨fun _ _ => rfl, rfl, rfl, fun hs => hs.freeSlot hi⟩

theorem sameStanding_closeConnection (T : ServerType) (hi : i < s.numClients) :
    SameStanding s (s.closeConnection T i) := by
  unfold closeConnection
  split
  · cases T with
    | nonTls => exact sameStanding_freeSlot hi
    | tls =>
        have hshut : Touches i s (s.wolfCall i).1 := touches_wolfCall
        have hended : SameStanding (s.wolfCall i).1
            ((s.wolfCall i).1.modifyClient i fun client => { client with ssl := false }) :=
          ⟨fun _ _ => rfl, rfl, rfl, id⟩
        exact (hshut.alters.sameStanding.trans hended).trans
          (sameStanding_freeSlot (by simpa [hshut.numClients] using hi))
  · exact SameStanding.refl s

/-- No handler submits or completes a request of the loop. -/
theorem sameStanding_handlers (T : ServerType) : HandlerRelation T SameStanding where
  refl := SameStanding.refl
  trans _ _ _ := SameStanding.trans
  numClients _ _ h := h.numClients
  alters _ _ _ := Alters.sameStanding
  finished _ _ := ⟨fun _ _ => rfl, rfl, rfl, id⟩
  customRead s sub hsub := by
    refine ⟨fun event he => ?_, rfl, rfl, id⟩
    have hne : sub.req.event ≠ event := fun heq => he.ne_customRead (heq ▸ hsub)
    rw [pending_submit, if_neg hne, Nat.add_zero]
  activate _ _ hi _ := ⟨fun _ _ => rfl, rfl, rfl, fun hs => hs.activate hi⟩
  close _ _ := sameStanding_closeConnection T

/-- One request of each kind is in flight, except that the one that ends the server is not once it has ended it. -/
structure StandingInv (s : TcpServer) : Prop where
  pending : ∀ event : EventType, event.Standing →
    s.pending event = if event = .kill ∧ s.isActive = false then 0 else 1
  bounded : s.Bounded

/-- The request that was completed has been submitted again, and the requests of the loop are otherwise the same. -/
theorem StandingInv.renewed {n : ℕ} {sub : Submission} (wolf : List WolfCall) (h : s.StandingInv)
    (hsub : s.inflight[n]? = some sub)
    (hpending : ∀ event : EventType, event.Standing → s'.pending event =
      (s.takeCompleted n wolf).pending event + if sub.req.event = event then 1 else 0)
    (hisActive : s'.isActive = s.isActive) (hbounded : s'.Bounded) : s'.StandingInv := by
  refine ⟨fun event he => ?_, hbounded⟩
  rw [hpending event he, pending_takeCompleted event wolf hsub, h.pending event he, hisActive]

/-- An accept hands out a slot and leaves the requests of the loop alone. -/
theorem setupClient_pending (s : TcpServer) (sockfd : ℤ) (event : EventType) :
    (s.setupClient sockfd).1.pending event = s.pending event ∧ (s.setupClient sockfd).1.isActive = s.isActive := by
  unfold TcpServer.setupClient
  split <;> exact ⟨rfl, rfl⟩

end TcpServer

namespace Machine

variable {σ ε : Type*} {T : ServerType} {app : App σ ε} {m m' : Machine σ}

/-- **One round of the loop.** The request that is handled is submitted again, unless it ends the server. -/
theorem standing_step {c : Completion ε} {log : List Callback} (h : m.tcp.StandingInv)
    (hstep : step T app m c = some (m', log)) : m'.tcp.StandingInv := by
  have hkept := sameStanding_handlers T
  have htaken : (m.take c).tcp.Bounded := h.bounded
  have hactive : m.tcp.isActive = true := by
    unfold step at hstep
    split at hstep
    · cases hstep
    · by_contra hnot
      simp [hnot] at hstep
  refine hkept.step_rule h.bounded.active hstep (Q := StandingInv) (fun sub hsub hevent => ?_)
    (fun sub s hsub hevent hs => ?_) (fun sub s hsub hevent hs => ?_) (fun sub hsub hevent _ => ?_)
    (fun sub hsub hevent _ => ?_) (fun sub s hsub hevent hs => ?_)
  · refine ⟨fun event he => ?_, htaken⟩
    have hleft := pending_takeCompleted event c.wolf hsub
    rw [h.pending event he, hactive, hevent] at hleft
    show (m.take c).tcp.pending event = _
    by_cases hkill : event = .kill
    · subst hkill
      simpa using hleft
    · have hne : ¬EventType.kill = event := fun heq => hkill heq.symm
      simpa [hkill, hne] using hleft
  · refine h.renewed c.wolf hsub (fun event he => ?_) hs.isActive (hs.bounded htaken)
    rw [hs.pending event he, pending_addEventReq, hevent]
    rfl
  · refine h.renewed c.wolf hsub (fun event he => ?_) hs.isActive (hs.bounded htaken)
    rw [pending_addEventReq, hs.pending event he, hevent]
    rfl
  · set s := (m.take c).tcp.addEventReq .accept with hs
    have hbounded : s.Bounded := htaken
    obtain ⟨hslots, hlt⟩ := hbounded.setupClient c.res
    have hread : SameStanding (s.accepted c.res) ((s.accepted c.res).addReadReq (s.setupClient c.res).2 .read) :=
      (touches_addReadReq (Or.inl rfl)).alters.sameStanding
    have haccepted : (s.accepted c.res).Bounded := hslots.activate hlt
    refine h.renewed c.wolf hsub (fun event he => ?_) ?_ (hread.bounded haccepted)
    · rw [hread.pending event he]
      calc (s.accepted c.res).pending event = (s.setupClient c.res).1.pending event := rfl
        _ = s.pending event := (setupClient_pending s c.res event).1
        _ = _ := by rw [hs, pending_addEventReq, hevent, take_tcp]
    · exact hread.isActive.trans (setupClient_pending s c.res .accept).2
  · obtain ⟨hslots, -⟩ := htaken.setupClient c.res
    set s := ((m.take c).tcp.setupClient c.res).1.addEventReq .accept with hs
    have hcalled : SameStanding (s.modifyClient ((m.take c).tcp.setupClient c.res).2
          fun client => { client with ssl := true }) ((m.take c).tlsAccept c.res).tcp :=
      touches_wolfCall.alters.sameStanding
    refine h.renewed c.wolf hsub (fun event he => ?_) ?_ (hcalled.bounded hslots)
    · rw [hcalled.pending event he]
      calc s.pending event = ((m.take c).tcp.setupClient c.res).1.pending event +
            (if EventType.accept = event then 1 else 0) := pending_addEventReq _
        _ = _ := by rw [(setupClient_pending _ c.res event).1, hevent, take_tcp]
    · exact hcalled.isActive.trans (setupClient_pending _ c.res .accept).2
  · refine h.renewed c.wolf hsub (fun event he => ?_) hs.isActive (hs.bounded htaken)
    have hne : sub.req.event ≠ event := by
      rintro rfl
      exact hevent.elim he.not_ofClient he.ne_customRead
    rw [hs.pending event he, if_neg hne, take_tcp, Nat.add_zero]

/-- The loop starts with one request of each kind. -/
theorem standingInv_start (a : σ) (reads : List (ℤ × ℕ)) : (start a reads).tcp.StandingInv := by
  have hreads : ∀ s, SameStanding s (reads.foldl (fun s r => s.customReadReq r.1 r.2 none [] 0 none) s) := by
    induction reads with
    | nil => exact SameStanding.refl
    | cons r reads ih => exact fun s => ((sameStanding_handlers .nonTls).customRead s _ rfl).trans (ih _)
  set s : TcpServer := ((({} : TcpServer).addEventReq .kill).addEventReq .notification).addEventReq .timerfd with hs
  have hnone : s.Bounded := fun i hi => absurd hi (Finset.notMem_empty i)
  refine ⟨fun event he => ?_, (hreads s).bounded hnone⟩
  have hstart : (start a reads).tcp.isActive = true := (hreads s).isActive
  have hpending : (start a reads).tcp.pending event =
      (((if EventType.kill = event then 1 else 0) + if EventType.notification = event then 1 else 0) +
        if EventType.timerfd = event then 1 else 0) + if EventType.accept = event then 1 else 0 := by
    calc (start a reads).tcp.pending event = _ := pending_addEventReq .accept
      _ = s.pending event + _ := by rw [(hreads s).pending event he]
      _ = _ := by rw [hs]; simp only [pending_addEventReq]; simp [pending]
  rw [hpending, hstart]
  revert he
  cases event <;> decide

end Machine

/-- **Standing requests.** In every run of both server types, with any application and any completions, the loop has
one accept, one read of the notification eventfd and one read of the timer in flight. It also has one read of the
eventfd that ends it, whose completion always ends it, until it has ended; no request is handled from then on. -/
theorem standing_requests {σ ε : Type*} (T : ServerType) (app : App σ ε) (a : σ) (reads : List (ℤ × ℕ))
    (cs : List (Completion ε)) (m : Machine σ) (logs : List (List Callback))
    (hrun : Runs.exec (Machine.step T app) (Machine.start a reads) cs = some (m, logs)) :
    (∀ event : EventType, event.Standing →
      m.tcp.pending event = if event = .kill ∧ m.tcp.isActive = false then 0 else 1) ∧
    (m.tcp.isActive = true → ∃ n, ∀ c : Completion ε, c.index = n →
      ∃ m', Machine.step T app m c = some (m', []) ∧ m'.tcp.isActive = false) ∧
    (m.tcp.isActive = false → ∀ c, Machine.step T app m c = none) := by
  have h : m.tcp.StandingInv := Runs.exec_invariant (Q := fun m : Machine σ => m.tcp.StandingInv)
    (fun m c m' log h _ hstep => Machine.standing_step h hstep) (Machine.standingInv_start a reads)
    (Runs.along_of_forall (P := fun _ _ => True) fun _ _ => trivial) hrun
  refine ⟨h.pending, fun hactive => ?_, fun hended c => ?_⟩
  · have hone := h.pending .kill (by decide)
    rw [if_neg (by simp [hactive])] at hone
    obtain ⟨sub, hsub⟩ := List.exists_mem_of_length_pos (Nat.lt_of_lt_of_eq Nat.one_pos hone.symm)
    obtain ⟨hmem, hevent⟩ := List.mem_filter.mp hsub
    obtain ⟨n, hn⟩ := List.mem_iff_getElem?.mp hmem
    refine ⟨n, fun c hc => ⟨(m.take c).onTcp fun s => { s with isActive := false }, ?_, rfl⟩⟩
    simp [Machine.step, hc, hn, hactive, Machine.dispatch, of_decide_eq_true hevent]
  · unfold Machine.step
    split
    · rfl
    · simp [hended]

/-- A client is answered and closed and the timer has run; then the server is ended. -/
theorem standing_requests_reply :
    ∃ m logs, Runs.exec (Machine.step .nonTls replyApp) (Machine.start () [])
        [{ index := 3, res := 10, env := () }, { index := 4, res := 2, data := [1, 2], env := () },
          { index := 4, res := 2, env := () }, { index := 2, res := 8, env := () },
          { index := 0, res := 8, env := () }] = some (m, logs) ∧
      m.tcp.closed = [(0, 0)] ∧ m.tcp.isActive = false ∧ m.tcp.pending .accept = 1 ∧ m.tcp.pending .kill = 0 ∧
      ∀ c, Machine.step .nonTls replyApp m c = none := by
  have hsome : (Runs.exec (Machine.step .nonTls replyApp) (Machine.start () [])
        [{ index := 3, res := 10, env := () }, { index := 4, res := 2, data := [1, 2], env := () },
          { index := 4, res := 2, env := () }, { index := 2, res := 8, env := () },
          { index := 0, res := 8, env := () }]).any
      (fun r => r.1.tcp.closed = [(0, 0)] ∧ r.1.tcp.isActive = false) = true := by decide +kernel
  simp only [Option.any_eq_true, decide_eq_true_eq] at hsome
  obtain ⟨⟨m, logs⟩, hrun, hclosed, hended⟩ := hsome
  obtain ⟨hpending, -, hnone⟩ := standing_requests .nonTls replyApp () [] _ m logs hrun
  refine ⟨m, logs, hrun, hclosed, hended, ?_, ?_, hnone hended⟩
  · simpa using hpending .accept (by decide)
  · rw [hpending .kill (by decide), if_pos ⟨rfl, hended⟩]

end LiburingServer
