import LiburingServer.TcpReports

/-! The connections that the plain server has something in flight for. A connection that is accepted is read from, and
as long as its callbacks go on with a call for it, it is either closed or waits for a request of its own. -/

namespace LiburingServer

variable {σ ε : Type*}

/-- How many reads of files for slot `i` are in flight. -/
def TcpServer.fileReads (s : TcpServer) (i : ℕ) : ℕ := s.reads.countP fun r => r.1.clientIdx = some i

/-- A call that writes to slot `i`, reads a file for it or closes it. -/
def TcpCall.Answers (i : ℕ) : TcpCall → Prop
  | .readConnection _ => False
  | c => i ∈ c.slots

/-- A callback for what has completed for slot `i`. -/
def Callback.Completes (i : ℕ) : Callback → Prop
  | .read j _ => j = i
  | .write j _ => j = i
  | .customRead j _ _ => j = some i
  | _ => False

namespace TcpServer

variable {s s' s'' : TcpServer} {i j : ℕ}

/-- A read for the connection is in flight, something is queued for it or a file is read for it. -/
def Served (s : TcpServer) (i : ℕ) : Prop := 0 < s.reading i ∨ s.entries i ≠ [] ∨ 0 < s.fileReads i

/-- A connection that is still active is served if it was. -/
def Sustains (i : ℕ) (s s' : TcpServer) : Prop :=
  i ∈ s'.activeConnections → i ∈ s.activeConnections ∧ (s.Served i → s'.Served i)

theorem Sustains.refl (i : ℕ) (s : TcpServer) : Sustains i s s := fun hi => ⟨hi, id⟩

theorem Sustains.trans (h : Sustains i s s') (h' : Sustains i s' s'') : Sustains i s s'' := fun hi =>
  have hi' := h' hi
  have hi'' := h hi'.1
  ⟨hi''.1, hi'.2 ∘ hi''.2⟩

theorem Served.mono (h : s.Served i) (hreads : s.reading i ≤ s'.reading i) (hentries : s.entries i ≠ [] → s'.entries i ≠ [])
    (hfiles : s.fileReads i ≤ s'.fileReads i) : s'.Served i := by
  rcases h with h | h | h
  · exact Or.inl (h.trans_le hreads)
  · exact Or.inr (Or.inl (hentries h))
  · exact Or.inr (Or.inr (h.trans_le hfiles))

theorem sustains_of (hreads : s.reading i ≤ s'.reading i) (hkeeps : KeepsEntries s s')
    (hfiles : s.fileReads i ≤ s'.fileReads i) : Sustains i s s' := fun hi => by
  obtain ⟨hactive, hentries⟩ := hkeeps i hi
  exact ⟨hactive, fun h => h.mono hreads (hentries ▸ id) hfiles⟩

theorem fileReads_congr (h : s'.reads = s.reads) : s'.fileReads i = s.fileReads i := by rw [fileReads, h, fileReads]

theorem fileReads_eq (s : TcpServer) (i : ℕ) : s.fileReads i =
    (s.inflight.filter fun sub => sub.req.event = .customRead ∧ sub.req.clientIdx = some i).length := by
  rw [fileReads, reads, customReads, List.countP_map, List.countP_filter, List.countP_eq_length_filter]
  refine congrArg List.length (List.filter_congr fun sub _ => ?_)
  simp [Bool.and_comm]

theorem fileReads_submit (s : TcpServer) (i : ℕ) (sub : Submission) : (s.submit sub).fileReads i =
    s.fileReads i + if sub.req.event = .customRead ∧ sub.req.clientIdx = some i then 1 else 0 := by
  rw [fileReads_eq, fileReads_eq, submit, List.filter_append, List.length_append]
  by_cases h : sub.req.event = .customRead ∧ sub.req.clientIdx = some i <;> simp [h]

/-- A request is completed. -/
theorem fileReads_takeCompleted {n : ℕ} {sub : Submission} (h : s.inflight[n]? = some sub) (wolf : List WolfCall)
    (i : ℕ) : (s.takeCompleted n wolf).fileReads i +
      (if sub.req.event = .customRead ∧ sub.req.clientIdx = some i then 1 else 0) = s.fileReads i := by
  rw [fileReads_eq, fileReads_eq]
  simpa using InFlight.length_filter_eraseIdx
    (fun sub => decide (sub.req.event = .customRead ∧ sub.req.clientIdx = some i)) h

theorem reading_call {c : TcpCall} (h : s.call .nonTls c = some s') : s.reading i ≤ s'.reading i := by
  rcases call_reading h with ⟨j, rfl, rfl⟩ | ⟨-, hsame⟩
  · rw [reading_addReadReq]
    exact Nat.le_add_right _ _
  · exact (hsame.reading i).ge

theorem fileReads_call {c : TcpCall} (h : s.call .nonTls c = some s') : s'.fileReads i =
    s.fileReads i + c.read.toList.countP fun r => r.1.clientIdx = some i := by
  rw [fileReads, reads_call h, List.countP_append]
  rfl

theorem sustains_call {c : TcpCall} (h : s.call .nonTls c = some s') : Sustains i s s' := by
  intro hi
  obtain ⟨hactive, hentries⟩ := call_entries h hi
  refine ⟨hactive, fun hserved => hserved.mono (reading_call h) (fun hne => ?_) ?_⟩
  · rw [hentries]
    exact List.append_ne_nil_of_left_ne_nil hne _
  · rw [fileReads_call h]
    exact Nat.le_add_right _ _

theorem sustains_calls {cs : List TcpCall} (h : s.calls .nonTls cs = some s') : Sustains i s s' :=
  Runs.foldlM_keeps (R := Sustains i s) (fun _ _ _ _ hs hcall => hs.trans (sustains_call hcall)) (.refl i s) h

/-- A call for a connection serves it, unless it closes it. -/
theorem served_call {c : TcpCall} (h : s.call .nonTls c = some s') (hc : c.Answers i)
    (hwrites : (s.clients i).numWriteReqs = 0 ∨ s.entries i ≠ []) (hi : i ∈ s'.activeConnections) : s'.Served i := by
  have hqueued : c.entries i ≠ [] → s'.Served i := by
    intro hne
    refine Or.inr (Or.inl ?_)
    rw [(call_entries h hi).2]
    exact List.append_ne_nil_of_right_ne_nil _ hne
  cases c with
  | writeConnection j buff =>
      obtain rfl : i = j := List.mem_singleton.mp hc
      exact hqueued (by simp [TcpCall.entries])
  | writeConnectionPtr j buff length =>
      obtain rfl : i = j := List.mem_singleton.mp hc
      exact hqueued (by simp [TcpCall.entries])
  | broadcastMessage clientIdxs buff length customInfo =>
      have hmem : i ∈ clientIdxs := hc
      refine hqueued ?_
      simpa [TcpCall.entries] using hmem
  | closeConnection j =>
      obtain rfl : i = j := List.mem_singleton.mp hc
      have hs' : s' = s.closeConnection .nonTls i := by
        unfold call at h
        split at h
        · exact (Option.some.inj h).symm
        · cases h
      rcases hwrites with hidle | hne
      · -- the connection is closed
        rw [hs', closeConnection, if_pos hidle] at hi
        exact absurd hi (by simp [freeSlot])
      · refine Or.inr (Or.inl ?_)
        rw [(call_entries h hi).2]
        exact List.append_ne_nil_of_left_ne_nil hne _
  | readConnection j => exact hc.elim
  | customReadReq fd toRead clientIdx buff readAmount file =>
      have hidx : clientIdx = some i := Option.mem_toList.mp hc
      refine Or.inr (Or.inr ?_)
      rw [fileReads_call h]
      simp [TcpCall.read, Request.customRead, hidx]

/-- The first call is for the connection. -/
theorem served_calls {c : TcpCall} {cs : List TcpCall} (h : s.calls .nonTls (c :: cs) = some s') (hc : c.Answers i)
    (hwrites : (s.clients i).numWriteReqs = 0 ∨ s.entries i ≠ []) (hi : i ∈ s'.activeConnections) : s'.Served i := by
  rw [calls, List.foldlM_cons] at h
  obtain ⟨s₁, hcall, hrest⟩ := Option.bind_eq_some_iff.mp h
  obtain ⟨hactive, hkept⟩ := sustains_calls (i := i) hrest hi
  exact hkept (served_call hcall hc hwrites hactive)

/-- A request is submitted. -/
theorem sustains_submit {sub : Submission} : Sustains i s (s.submit sub) := by
  refine sustains_of ?_ (keepsEntries_congr (fun _ => rfl) rfl) ?_
  · rw [reading_submit]
    exact Nat.le_add_right _ _
  · rw [fileReads_submit]
    exact Nat.le_add_right _ _

theorem sustains_addReadReq : Sustains i s (s.addReadReq j .read) := by
  refine sustains_of ?_ (keepsEntries_touches (touches_addReadReq (Or.inl rfl))) (fileReads_congr ?_).ge
  · rw [reading_addReadReq]
    exact Nat.le_add_right _ _
  · exact (touches_addReadReq (Or.inl rfl)).alters.reads

/-- A connection is closed that nothing is written to. -/
theorem sustains_drained (h : (s.clients j).numWriteReqs = 0) :
    Sustains i s ((s.setQueue j []).closeConnection .nonTls j) := by
  have hreads : SameReads s ((s.setQueue j []).closeConnection .nonTls j) :=
    sameReads_setQueue.trans sameReads_closeConnection
  refine sustains_of (hreads.reading i).ge (keepsEntries_drained h) (fileReads_congr ?_).ge
  rw [closeConnection, if_pos (by simpa using h)]
  rfl

theorem sustains_endWrite : Sustains i s (s.endWrite j) := by
  have hreads : SameReads s (s.endWrite j) := sameReads_modifyClient fun _ => rfl
  exact sustains_of (hreads.reading i).ge keepsEntries_endWrite (fileReads_congr rfl).ge

end TcpServer

open TcpServer

namespace Machine

variable {app : App σ ε} {m m₁ m' next : Machine σ} {c : Completion ε} {i : ℕ}

/-- A round of the loop after which connection `i`, if it is active, is served: it was accepted, or it was served, as
long as what has completed for it was answered. -/
def ServesRound (app : App σ ε) (m : Machine σ) (c : Completion ε) (i : ℕ) (next : Machine σ) : Prop :=
  i ∈ next.tcp.activeConnections →
  (.accept i ∉ next.log → i ∈ m.tcp.activeConnections → m.tcp.Served i) →
  (∀ cb cs, next.log = [cb] → cb.Completes i → app.invoke m.app (c.env, cb) = some (next.app, cs) →
    ∃ call rest, cs = call :: rest ∧ call.Answers i) →
  next.tcp.Served i

theorem servesRound_of_sustains (h : Sustains i m.tcp next.tcp) (hlog : .accept i ∉ next.log) :
    ServesRound app m c i next := fun hi hserved _ =>
  have hi' := h hi
  hi'.2 (hserved hlog hi'.1)

/-- A callback that is not for something that has completed for the connection. -/
theorem servesRound_other {cb : Callback} {result : Option (σ × List TcpCall)} (h : Sustains i m.tcp m₁.tcp)
    (hlog : m₁.log = []) (haccept : cb ≠ .accept i) (hcb : m₁.callback .nonTls cb result = some m') :
    ServesRound app m c i m' := by
  obtain ⟨a, cs, -, hcalls, rfl, hlog'⟩ := callback_eq_some hcb
  refine servesRound_of_sustains (h.trans (sustains_calls hcalls)) ?_
  rw [hlog', hlog]
  simpa using haccept.symm

/-- A callback that is. -/
theorem servesRound_own {cb : Callback} {result : Option (σ × List TcpCall)} (hcompletes : cb.Completes i)
    (hlog : m₁.log = []) (hinvoke : app.invoke m.app (c.env, cb) = result)
    (hcb : m₁.callback .nonTls cb result = some m')
    (hwrites : (m₁.tcp.clients i).numWriteReqs = 0 ∨ m₁.tcp.entries i ≠ []) : ServesRound app m c i m' := by
  obtain ⟨a, cs, hresult, hcalls, rfl, hlog'⟩ := callback_eq_some hcb
  intro hi _ hanswers
  obtain ⟨call, rest, rfl, hcall⟩ := hanswers cb cs (by rw [hlog', hlog]; rfl) hcompletes (hinvoke.trans hresult)
  exact served_calls hcalls hcall hwrites hi

/-- A request is completed that is neither a read of the connection nor one of a file for it. -/
theorem sustains_take {sub : Submission} (hsub : m.tcp.inflight[c.index]? = some sub) (hread : ¬m.tcp.IsReading i sub)
    (hfile : ¬(sub.req.event = .customRead ∧ sub.req.clientIdx = some i)) : Sustains i m.tcp (m.take c).tcp := by
  refine sustains_of ?_ (keepsEntries_congr (fun _ => rfl) rfl) ?_
  · have htaken := reading_takeCompleted hsub c.wolf i
    rw [if_neg hread] at htaken
    exact htaken.ge
  · have htaken := fileReads_takeCompleted hsub c.wolf i
    rw [if_neg hfile] at htaken
    exact htaken.ge

/-- Nothing is queued for a connection without write requests. -/
theorem entries_of_numWriteReqs {s : TcpServer} (h : WriteInv s) (i : ℕ) :
    (s.clients i).numWriteReqs = 0 ∨ s.entries i ≠ [] := by
  rcases h.slot i with ⟨-, hn, -⟩ | ⟨-, sub, front, rest, -, -, hqueue, -⟩
  · exact Or.inl hn
  · exact Or.inr (by simp [entries, hqueue])

/-- The only read of a connection is completed and not handed on: the connection is closed, or it is written to. -/
theorem servesRound_failed {n : ℕ} {sub : Submission} (hw : WriteInv m.tcp) (hocc : OccupantInv n m.tcp)
    (hsub : m.tcp.inflight[c.index]? = some sub) (hown : m.tcp.IsReading i sub)
    (hfailed : c.res ≤ 0 ∨ 0 < i ∧ ((m.take c).tcp.clients i).id ≠ sub.req.ID)
    (hhandled : (m.take c).clientEvent .nonTls app sub i c = some m') : ServesRound app m c i m' := by
  have hid : (m.tcp.clients i).id = sub.req.ID := by
    have hdated := (hocc.request sub (List.mem_of_getElem? hsub)).id (by simp [EventType.OfClient, hown.1])
    rw [hocc.id, hdated.2, hown.2.2]
  have hres : c.res ≤ 0 := by
    rcases hfailed with hres | ⟨-, hother⟩
    · exact hres
    · exact absurd hid hother
  intro hi _ _
  unfold clientEvent at hhandled
  split at hhandled
  · rw [if_pos ⟨hres, hid⟩, failed, if_neg (by simp [hown.1]), closeIfIdle] at hhandled
    split at hhandled
    · -- the connection is closed
      rename_i hidle
      have hclosed := drainAndClose_tcp hhandled
      rw [closeConnection, if_pos (by simpa using hidle)] at hclosed
      rw [hclosed] at hi
      exact absurd hi (by simp [freeSlot])
    · rename_i hbusy
      obtain rfl := Option.some.inj hhandled
      exact Or.inr (Or.inl ((entries_of_numWriteReqs hw i).resolve_left hbusy))
  · cases hhandled

/-- What was read is handed on. -/
theorem servesRound_read {sub : Submission} (hw : WriteInv m.tcp) (hevent : sub.req.event = .read)
    (hhandled : (m.take c).plainHandler app sub i c = some m') : ServesRound app m c i m' := by
  simp only [plainHandler, hevent] at hhandled
  have hcompletes : (Callback.read i (received sub.req.readData c.data c.res)).Completes i := rfl
  refine servesRound_own hcompletes (by simp) rfl hhandled ?_
  simpa [entries] using entries_of_numWriteReqs hw i

/-- A write of a connection is done: the rest of its queue is written. -/
theorem numWriteReqs_writeNext {s : TcpServer} (hn : (s.clients i).numWriteReqs = 1) (rest : List WriteData) :
    (((s.endWrite i).writeNext i rest).clients i).numWriteReqs = 0 ∨ ((s.endWrite i).writeNext i rest).entries i ≠ [] := by
  cases rest with
  | nil => exact Or.inl (by simp [writeNext, endWrite, hn])
  | cons next rest =>
      refine Or.inr ?_
      rw [(entries_writeNext (next :: rest)).2, if_pos rfl]
      simp

theorem sustains_writeNext {s : TcpServer} {j : ℕ} (hij : i ≠ j) (rest : List WriteData) :
    Sustains i s ((s.endWrite j).writeNext j rest) := by
  obtain ⟨hactive, hentries⟩ := entries_writeNext (s := s) (i := j) (j := i) rest
  rw [if_neg hij] at hentries
  have hfiles : ((s.endWrite j).writeNext j rest).reads = s.reads :=
    (alters_endWrite.trans (alters_writeNext rest)).reads
  exact fun hi => ⟨hactive ▸ hi, fun h => h.mono ((sameReads_writeNext rest).reading i).ge (hentries ▸ id)
    (fileReads_congr hfiles).ge⟩

/-- What a completed request of slot `j` is handed to. -/
theorem servesRound_plainHandler {j : ℕ} {sub : Submission} (hw : WriteInv m.tcp)
    (hsub : m.tcp.inflight[c.index]? = some sub) (hidx : sub.req.clientIdx = some j)
    (htaken : Sustains i m.tcp (m.take c).tcp) (hhandled : (m.take c).plainHandler app sub j c = some m') :
    ServesRound app m c i m' := by
  refine plainHandler_rule hhandled (R := ServesRound app m c i) (fun hevent _ _ _ => ?_)
    (fun _ front rest _ => servesRound_of_sustains (htaken.trans sustains_submit) (by simp))
    (fun hevent front rest _ _ _ hm' => ?_) (fun hevent hother _ hm' => ?_) (servesRound_of_sustains htaken (by simp))
  · by_cases hij : i = j
    · subst hij
      exact servesRound_read hw hevent hhandled
    · simp only [plainHandler, hevent] at hhandled
      have hkept : Sustains i m.tcp ((m.take c).onTcp fun s =>
          s.modifyClient j fun client => { client with readReqActive := false }).tcp :=
        htaken.trans (sustains_of le_rfl (keepsEntries_modifyClient fun _ => rfl) le_rfl)
      exact servesRound_other hkept (by simp) (by simp) hhandled
  · obtain ⟨-, -, hn, -, -, -⟩ := hw.complete_write hsub ⟨hevent, hidx⟩ c.wolf
    by_cases hij : i = j
    · subst hij
      have hcompletes : (Callback.write i front.broadcastInfo).Completes i := rfl
      have hlast : ((m.take c).tcp.clients i).numWriteReqs = 1 := hn
      exact servesRound_own hcompletes (by simp) rfl hm' (numWriteReqs_writeNext hlast rest)
    · have hkept : Sustains i m.tcp ((m.take c).onTcp fun s => (s.endWrite j).writeNext j rest).tcp :=
        htaken.trans (sustains_writeNext hij rest)
      exact servesRound_other hkept (by simp) (by simp) hm'
  · have hkept : Sustains i m.tcp ((m.take c).onTcp fun s => s.endWrite j).tcp := htaken.trans sustains_endWrite
    exact servesRound_other hkept (by simp) (by simp) hm'

/-- A request of a client. -/
theorem servesRound_clientEvent {n j : ℕ} {sub : Submission} (hw : WriteInv m.tcp) (hocc : OccupantInv n m.tcp)
    (hsub : m.tcp.inflight[c.index]? = some sub) (hidx : sub.req.clientIdx = some j) (hevent : sub.req.event.OfClient)
    (hhandled : (m.take c).clientEvent .nonTls app sub j c = some m') : ServesRound app m c i m' := by
  have hfile : ¬(sub.req.event = .customRead ∧ sub.req.clientIdx = some i) := by
    rintro ⟨hcustom, -⟩
    simp [EventType.OfClient, hcustom] at hevent
  by_cases hread : m.tcp.IsReading i sub
  · obtain rfl : i = j := Option.some.inj (hread.2.1.symm.trans hidx)
    by_cases hfailed : c.res ≤ 0 ∨ 0 < i ∧ ((m.take c).tcp.clients i).id ≠ sub.req.ID
    · exact servesRound_failed hw hocc hsub hread hfailed hhandled
    · unfold clientEvent at hhandled
      split at hhandled
      · exact servesRound_read hw hread.1 hhandled
      · cases hhandled
  · have htaken := sustains_take hsub hread hfile
    have hkept : ∀ s, s = (m.take c).tcp ∨ s = (m.take c).tcp.endWrite j → Sustains i m.tcp s := by
      rintro s (rfl | rfl)
      · exact htaken
      · exact htaken.trans sustains_endWrite
    refine clientEvent_rule hhandled (R := ServesRound app m c i) (fun s hs _ _ hn hclose => ?_)
      (fun s hs => servesRound_of_sustains (hkept s hs) (by simp))
      (fun _ _ _ _ hplain => servesRound_plainHandler hw hsub hidx htaken hplain) (fun hT => by cases hT)
    have hquiet : Quiet s ((m.take c).onTcp fun _ => s) := ⟨.refl s, by simp⟩
    have hdrained : Sustains i m.tcp m'.tcp := by
      rw [drainAndClose_tcp hclose]
      exact (hkept s hs).trans (sustains_drained hn)
    exact servesRound_of_sustains hdrained fun hmem => ((hquiet.drainAndClose hclose).log _ hmem).1 i rfl

/-- The sweep closes connections that nothing is written to. -/
theorem servesRound_sweep {sub : Submission} (hw : WriteInv m.tcp) (hc : m.KeepsWrites c)
    (hsub : m.tcp.inflight[c.index]? = some sub) (hevent : sub.req.event = .timerfd)
    (htaken : Sustains i m.tcp (m.take c).tcp)
    (hswept : (m.take c).sweep .nonTls app c.order c.halfClosed = some m₁) :
    ServesRound app m c i (m₁.onTcp fun s => s.addEventReq .timerfd) := by
  have hidle : ∀ k ∈ m.tcp.activeConnections, k ∈ c.halfClosed → (m.tcp.clients k).numWriteReqs = 0 := by
    intro k hactive hhalf
    rcases hw.slot k with ⟨-, hn, -⟩ | ⟨-, sub', front, rest, hwrites, -⟩
    · exact hn
    · rw [(hc sub hsub).1 hevent k hactive hhalf] at hwrites
      cases hwrites
  obtain ⟨hsustained, hquiet, -⟩ := sweep_rule hswept
    (R := fun x => Sustains i m.tcp x.tcp ∧ Quiet (m.take c).tcp x ∧
      ∀ k, (x.tcp.clients k).numWriteReqs = (m.tcp.clients k).numWriteReqs)
    ⟨htaken, ⟨.refl _, by simp⟩, fun _ => rfl⟩ fun x j x' hactive hhalf hx hclose => by
      have hn : (x.tcp.clients j).numWriteReqs = 0 := (hx.2.2 j).trans (hidle j hactive hhalf)
      refine ⟨?_, hx.2.1.drainAndClose hclose, fun k => ?_⟩
      · rw [drainAndClose_tcp hclose]
        exact hx.1.trans (sustains_drained hn)
      · rw [drainAndClose_tcp hclose, closeConnection, if_pos (by simpa using hn), ← hx.2.2 k]
        by_cases hkj : k = j
        · subst hkj
          simp [freeSlot]
        · simp [freeSlot, setQueue_of_ne _ _ _ _ hkj]
  exact servesRound_of_sustains (hsustained.trans sustains_submit) fun hmem => (hquiet.log _ hmem).1 i rfl

/-- A connection is accepted and read from. -/
theorem servesRound_accept {n : ℕ} (hocc : OccupantInv n m.tcp)
    (htaken : Sustains i m.tcp (m.take c).tcp) (haccepted : (m.take c).plainAccept app c.res = some m') :
    ServesRound app m c i m' := by
  obtain ⟨m₁, hm₁, rfl⟩ := Option.map_eq_some_iff.mp haccepted
  obtain ⟨a, -, rfl⟩ := Option.map_eq_some_iff.mp hm₁
  set s := (m.take c).tcp.addEventReq .accept with hs
  have hinv : OccupantInv n s := by
    refine OccupantInv.addEventReq ?_ (by decide)
    exact hocc.congr (fun _ => rfl) rfl (Finset.Subset.refl _) rfl rfl List.eraseIdx_subset
  have hreads := reading_setupClient hinv c.res i
  by_cases hij : i = (s.setupClient c.res).2
  · -- it is this one
    rw [if_pos hij] at hreads
    intro _ _ _
    refine Or.inl ?_
    show 0 < ((s.accepted c.res).addReadReq (s.setupClient c.res).2 .read).reading i
    have hfree : ((s.accepted c.res).clients (s.setupClient c.res).2).readReqActive = false := hij ▸ hreads.2
    rw [reading_addReadReq, if_pos ⟨hij, hfree⟩]
    exact Nat.succ_pos _
  · rw [if_neg hij] at hreads
    have haccepted : Sustains i s (s.accepted c.res) := fun hi => by
      obtain ⟨hactive, hentries⟩ := (entries_accepted (s := s) c.res).2 i hi hij
      have hfiles : (s.accepted c.res).reads = s.reads := reads_congr (setupClient_reads s c.res).1
      exact ⟨hactive, fun h => h.mono hreads.1.ge (hentries ▸ id) (fileReads_congr hfiles).ge⟩
    have hkept : Sustains i m.tcp ((s.accepted c.res).addReadReq (s.setupClient c.res).2 .read) :=
      ((htaken.trans sustains_submit).trans haccepted).trans sustains_addReadReq
    exact servesRound_of_sustains hkept (by simpa using hij)

theorem servesRound_step {n : ℕ} {log : List Callback} (hw : WriteInv m.tcp) (hocc : OccupantInv n m.tcp)
    (hc : m.KeepsWrites c) (hstep : step .nonTls app m c = some (m', log)) (i : ℕ) :
    ServesRound app m c i m' ∧ log = m'.log := by
  obtain ⟨sub, hsub, hhandled, rfl⟩ := step_eq_some hstep
  refine ⟨?_, rfl⟩
  have htaken : sub.req.event ≠ .read → ¬(sub.req.event = .customRead ∧ sub.req.clientIdx = some i) →
      Sustains i m.tcp (m.take c).tcp := fun hread => sustains_take hsub fun hreading => hread hreading.1
  refine dispatch_rule hhandled (R := ServesRound app m c i) (fun hevent => ?_) (fun hevent hm' => ?_)
    (fun hevent hm' => ?_) (fun hevent m₁ hm₁ => ?_) (fun hevent _ hm' => ?_) (fun _ hT => nomatch hT)
    (fun j hidx hevent hm' => servesRound_clientEvent hw hocc hsub hidx hevent hm')
  · exact servesRound_of_sustains (htaken (by simp [hevent]) (by simp [hevent])) (by simp)
  · exact servesRound_other ((htaken (by simp [hevent]) (by simp [hevent])).trans sustains_submit) (by simp) (by simp) hm'
  · refine customRead_rule hm' (R := ServesRound app m c i) (fun readData hfinished => ?_)
      (fun readData readAmount => servesRound_of_sustains ?_ (by simp))
    · by_cases hidx : sub.req.clientIdx = some i
      · have hcompletes : (Callback.customRead sub.req.clientIdx sub.req.customInfo readData).Completes i := hidx
        exact servesRound_own hcompletes (by simp) rfl hfinished (entries_of_numWriteReqs hw i)
      · have hkept : Sustains i m.tcp ((m.take c).onTcp fun s =>
            { s with finishedReads := s.finishedReads ++ [(sub.file, readData)] }).tcp :=
          htaken (by simp [hevent]) fun h => hidx h.2
        exact servesRound_other hkept (by simp) (by simp) hfinished
    · -- the read goes on
      refine sustains_of ?_ (keepsEntries_congr (fun _ => rfl) rfl) ?_
      · have hreads := reading_takeCompleted hsub c.wolf i
        rw [if_neg fun hreading => by simp [hreading.1] at hevent] at hreads
        rw [onTcp_tcp, reading_submit]
        exact hreads.ge.trans (Nat.le_add_right _ _)
      · rw [onTcp_tcp, fileReads_submit]
        exact (fileReads_takeCompleted hsub c.wolf i).ge
  · exact servesRound_sweep hw hc hsub hevent (htaken (by simp [hevent]) (by simp [hevent])) hm₁
  · exact servesRound_accept hocc (htaken (by simp [hevent]) (by simp [hevent])) hm'

end Machine

end LiburingServer
