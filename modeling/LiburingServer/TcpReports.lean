import LiburingServer.TcpReading
import LiburingServer.TcpStreams

/-! What the plain server reports of its writes. As long as a connection is active, its write callback is called once
for every entry that has left its queue, in the order of the calls that queued them. -/

namespace LiburingServer

variable {σ ε : Type*}

/-- An entry of a queue, wherever the bytes of its vector are and whatever was last written of it. -/
def WriteData.entry (d : WriteData) : WriteData := { d with addr := 0, lastWritten := -1 }

theorem WriteData.broadcastInfo_entry (d : WriteData) : d.entry.broadcastInfo = d.broadcastInfo := rfl

/-- The entries that a call queues for slot `i`. -/
def TcpCall.entries (i : ℕ) : TcpCall → List WriteData
  | .writeConnection j buff => if j = i then [{ buff }] else []
  | .writeConnectionPtr j buff length => if j = i then [{ ptrBuff := buff, totalLength := length }] else []
  | .broadcastMessage clientIdxs buff length customInfo =>
      (clientIdxs.filter (· = i)).map fun _ =>
        { ptrBuff := buff, totalLength := length, broadcast := true, customInfo }
  | _ => []

/-- What a callback reports of the writes of slot `i`. -/
def Callback.reports (i : ℕ) : Callback → List ℤ
  | .write j info => if j = i then [info] else []
  | _ => []

theorem Callback.reports_eq_nil {i : ℕ} {cb : Callback} (h : ∀ i info, cb ≠ .write i info) : cb.reports i = [] := by
  cases cb with
  | write j info => exact absurd rfl (h j info)
  | _ => rfl

namespace TcpServer

variable {s s' s'' : TcpServer} {i j : ℕ}

/-- The entries of slot `i`. -/
def entries (s : TcpServer) (i : ℕ) : List WriteData := (s.clients i).sendData.map WriteData.entry

/-- Connections that are still active have the queues they had. -/
def KeepsEntries (s s' : TcpServer) : Prop :=
  ∀ i ∈ s'.activeConnections, i ∈ s.activeConnections ∧ s'.entries i = s.entries i

theorem KeepsEntries.refl (s : TcpServer) : KeepsEntries s s := fun _ hi => ⟨hi, rfl⟩

theorem KeepsEntries.trans (h : KeepsEntries s s') (h' : KeepsEntries s' s'') : KeepsEntries s s'' := fun i hi =>
  have hi' := h' i hi
  have hi'' := h i hi'.1
  ⟨hi''.1, hi'.2.trans hi''.2⟩

theorem keepsEntries_congr (hclients : ∀ i, (s'.clients i).sendData = (s.clients i).sendData)
    (hactive : s'.activeConnections = s.activeConnections) : KeepsEntries s s' := fun i hi =>
  ⟨hactive ▸ hi, by rw [entries, hclients, entries]⟩

theorem keepsEntries_modifyClient {f : Client → Client} (hf : ∀ c, (f c).sendData = c.sendData) :
    KeepsEntries s (s.modifyClient i f) := by
  refine keepsEntries_congr (fun j => ?_) rfl
  by_cases hj : j = i
  · rw [hj, modifyClient_self, hf]
  · rw [modifyClient_of_ne _ _ _ _ hj]

theorem entries_addWriteReq {event : EventType} {buffer : Ptr} {length : ℕ} :
    (s.addWriteReq i event buffer length).entries j = s.entries j := by
  by_cases hj : j = i
  · subst hj
    simp [entries, addWriteReq]
  · simp [entries, addWriteReq, modifyClient_of_ne _ _ _ _ hj]

theorem entries_touches (h : Touches i s s') (j : ℕ) : s'.entries j = s.entries j := by
  have hqueue : ∀ client : Client, client.sendData.map WriteData.entry = client.queue.map WriteData.entry := fun _ => by
    rw [Client.queue, List.map_map]
    rfl
  by_cases hji : j = i
  · rw [hji, entries, hqueue, h.queue, ← hqueue, entries]
  · rw [entries, h.others j hji, entries]

theorem keepsEntries_touches (h : Touches i s s') : KeepsEntries s s' := fun j hj =>
  ⟨h.activeConnections ▸ hj, entries_touches h j⟩

theorem entries_setQueue {sendData : List WriteData} :
    (s.setQueue i sendData).entries j = if j = i then sendData.map WriteData.entry else s.entries j := by
  unfold entries
  split
  · subst j
    simp
  · rw [setQueue_of_ne _ _ _ _ ‹_›]

/-- A connection is closed, and the others keep their queues. -/
theorem keepsEntries_erase (hclients : ∀ j, j ≠ i → (s'.clients j).sendData = (s.clients j).sendData)
    (hactive : s'.activeConnections = s.activeConnections.erase i) : KeepsEntries s s' := fun j hj => by
  rw [hactive] at hj
  obtain ⟨hji, hj⟩ := Finset.mem_erase.mp hj
  exact ⟨hj, by rw [entries, hclients j hji, entries]⟩

theorem keepsEntries_closeConnection : KeepsEntries s (s.closeConnection .nonTls i) := by
  unfold closeConnection
  split
  · exact keepsEntries_erase (fun j hj => by simp [freeSlot, setQueue_of_ne _ _ _ _ hj]) rfl
  · exact .refl s

theorem keepsEntries_drained (h : (s.clients i).numWriteReqs = 0) :
    KeepsEntries s ((s.setQueue i []).closeConnection .nonTls i) := by
  rw [closeConnection, if_pos (by simpa using h)]
  exact keepsEntries_erase (fun j hj => by simp [freeSlot, setQueue_of_ne _ _ _ _ hj]) rfl

theorem keepsEntries_endWrite : KeepsEntries s (s.endWrite i) := keepsEntries_modifyClient fun _ => rfl

theorem entries_writeNext (rest : List WriteData) :
    ((s.endWrite i).writeNext i rest).activeConnections = s.activeConnections ∧
      ((s.endWrite i).writeNext i rest).entries j = if j = i then rest.map WriteData.entry else s.entries j := by
  have hended : ((s.endWrite i).setQueue i rest).entries j =
      if j = i then rest.map WriteData.entry else s.entries j := by
    rw [entries_setQueue]
    split
    · rfl
    · rw [entries, endWrite, modifyClient_of_ne _ _ _ _ ‹_›, entries]
  cases rest with
  | nil => exact ⟨rfl, hended⟩
  | cons next rest => exact ⟨rfl, entries_addWriteReq.trans hended⟩

/-- The slot that is handed out has an empty queue. -/
theorem entries_accepted (sockfd : ℤ) : (s.accepted sockfd).entries (s.setupClient sockfd).2 = [] ∧
    ∀ i ∈ (s.accepted sockfd).activeConnections, i ≠ (s.setupClient sockfd).2 →
      i ∈ s.activeConnections ∧ (s.accepted sockfd).entries i = s.entries i := by
  unfold accepted setupClient
  split
  · exact ⟨by simp [entries], fun i hi hne => ⟨by simpa [hne] using hi, by simp [entries, hne]⟩⟩
  · exact ⟨by simp [entries], fun i hi hne => ⟨by simpa [hne] using hi, by simp [entries, hne]⟩⟩

theorem activeConnections_enqueue {data : WriteData} {length : ℕ} :
    (s.enqueue .nonTls i data length).activeConnections = s.activeConnections := by
  by_cases hqueue : (s.clients i).sendData = []
  · rw [enqueue_plain_of_nil _ _ hqueue]
    rfl
  · rw [enqueue_of_ne_nil _ _ _ hqueue]
    rfl

theorem entries_enqueue {data : WriteData} {length : ℕ} :
    (s.enqueue .nonTls i data length).entries j = s.entries j ++ if j = i then [data.entry] else [] := by
  have hpushed : (s.pushEntry i data).entries j = s.entries j ++ if j = i then [data.entry] else [] := by
    rw [pushEntry, entries_setQueue]
    split
    · subst j
      simp [entries]
    · simp
  by_cases hqueue : (s.clients i).sendData = []
  · rw [enqueue_plain_of_nil _ _ hqueue, entries_addWriteReq, hpushed]
  · rw [enqueue_of_ne_nil _ _ _ hqueue, hpushed]

theorem entries_broadcastMessage (clientIdxs : List ℕ) (buff : Ptr) (length : ℕ) (customInfo : ℤ) :
    (s.broadcastMessage .nonTls clientIdxs buff length customInfo).activeConnections = s.activeConnections ∧
      (s.broadcastMessage .nonTls clientIdxs buff length customInfo).entries i =
        s.entries i ++ (TcpCall.broadcastMessage clientIdxs buff length customInfo).entries i := by
  unfold broadcastMessage TcpCall.entries
  induction clientIdxs generalizing s with
  | nil => simp
  | cons j clientIdxs ih =>
      rw [List.foldl_cons]
      obtain ⟨hactive, hentries⟩ := ih (s := broadcastOne .nonTls buff length customInfo s j)
      refine ⟨hactive.trans activeConnections_enqueue, hentries.trans ?_⟩
      rw [broadcastOne, entries_enqueue, List.append_assoc]
      by_cases hj : i = j
      · subst hj
        simp [WriteData.entry]
      · simp [hj, Ne.symm hj]

/-- A call adds its entries to the queue of a connection, unless it closes it. -/
theorem call_entries {c : TcpCall} (h : s.call .nonTls c = some s') (hi : i ∈ s'.activeConnections) :
    i ∈ s.activeConnections ∧ s'.entries i = s.entries i ++ c.entries i := by
  unfold call at h
  split at h
  · obtain rfl := Option.some.inj h
    cases c with
    | readConnection j =>
        obtain ⟨hactive, hentries⟩ := keepsEntries_touches (touches_addReadReq (Or.inl rfl)) i hi
        exact ⟨hactive, hentries.trans (List.append_nil _).symm⟩
    | writeConnection j buff =>
        rw [run, writeConnection, activeConnections_enqueue] at hi
        refine ⟨hi, entries_enqueue.trans ?_⟩
        simp [TcpCall.entries, WriteData.entry, entries, eq_comm]
    | writeConnectionPtr j buff length =>
        rw [run, writeConnectionPtr, activeConnections_enqueue] at hi
        refine ⟨hi, entries_enqueue.trans ?_⟩
        simp [TcpCall.entries, WriteData.entry, eq_comm]
    | broadcastMessage clientIdxs buff length customInfo =>
        obtain ⟨hactive, hentries⟩ := entries_broadcastMessage (s := s) (i := i) clientIdxs buff length customInfo
        exact ⟨hactive ▸ hi, hentries⟩
    | closeConnection j =>
        obtain ⟨hactive, hentries⟩ := keepsEntries_closeConnection i hi
        exact ⟨hactive, hentries.trans (List.append_nil _).symm⟩
    | customReadReq fd toRead clientIdx buff readAmount file =>
        exact ⟨hi, (List.append_nil _).symm⟩
  · cases h

theorem calls_entries {cs : List TcpCall} (h : s.calls .nonTls cs = some s') (hi : i ∈ s'.activeConnections) :
    i ∈ s.activeConnections ∧ s'.entries i = s.entries i ++ cs.flatMap (TcpCall.entries i) := by
  induction cs generalizing s with
  | nil =>
      obtain rfl : s = s' := by simpa [calls] using h
      simpa using hi
  | cons c cs ih =>
      rw [calls, List.foldlM_cons] at h
      obtain ⟨s₁, hcall, hrest⟩ := Option.bind_eq_some_iff.mp h
      obtain ⟨hactive, hentries⟩ := ih hrest
      obtain ⟨hactive', hentries'⟩ := call_entries hcall hactive
      exact ⟨hactive', by rw [hentries, hentries', List.flatMap_cons, List.append_assoc]⟩

end TcpServer

open TcpServer

namespace Machine

variable {app : App σ ε} {m m' : Machine σ} {c : Completion ε} {i : ℕ}

/-- What a round of the loop does about the queues: a connection with an empty one is accepted, connections are closed
or nothing happens, or a callback is called, for the front entry of a queue if it is the write callback. -/
inductive WriteRound (app : App σ ε) (m : Machine σ) (c : Completion ε) : Machine σ → Prop
  | accept {next : Machine σ} (j : ℕ) (hlog : next.log = [.accept j])
      (hcb : app.invoke m.app (c.env, .accept j) = some (next.app, [])) (hempty : next.tcp.entries j = [])
      (hothers : ∀ i ∈ next.tcp.activeConnections, i ≠ j →
        i ∈ m.tcp.activeConnections ∧ next.tcp.entries i = m.tcp.entries i) : WriteRound app m c next
  | quiet {next : Machine σ} (hlog : ∀ cb ∈ next.log, ∃ i info, cb = .close i info)
      (hkeeps : KeepsEntries m.tcp next.tcp) : WriteRound app m c next
  | callback {next : Machine σ} (cb : Callback) (s : TcpServer) (cs : List TcpCall) (hlog : next.log = [cb])
      (haccept : ∀ i, cb ≠ .accept i) (hcb : app.invoke m.app (c.env, cb) = some (next.app, cs))
      (hpopped : ∀ i ∈ s.activeConnections, i ∈ m.tcp.activeConnections ∧
        ∃ popped, m.tcp.entries i = popped ++ s.entries i ∧ popped.map WriteData.broadcastInfo = cb.reports i)
      (hcalls : s.calls .nonTls cs = some next.tcp) : WriteRound app m c next

/-- Connections are closed. -/
structure Closes (before : TcpServer) (m : Machine σ) : Prop where
  log : ∀ cb ∈ m.log, ∃ i info, cb = .close i info
  keeps : KeepsEntries before m.tcp

theorem Closes.drainAndClose {before : TcpServer} (h : Closes before m) (hn : (m.tcp.clients i).numWriteReqs = 0)
    (hclose : m.drainAndClose .nonTls app i = some m') : Closes before m' := by
  refine ⟨?_, drainAndClose_tcp hclose ▸ h.keeps.trans (keepsEntries_drained hn)⟩
  obtain ⟨m₁, hm₁, rfl⟩ := Option.map_eq_some_iff.mp hclose
  have hcloses : ∀ cb ∈ m₁.log, ∃ i info, cb = .close i info := by
    refine Runs.foldlM_keeps (R := fun x : Machine σ => ∀ cb ∈ x.log, ∃ i info, cb = .close i info) ?_ h.log hm₁
    intro b info b' _ hb hcb cb hmem
    obtain ⟨a, -, rfl⟩ := Option.map_eq_some_iff.mp hcb
    rcases List.mem_append.mp hmem with hmem | hmem
    · exact hb cb hmem
    · exact ⟨i, info, List.mem_singleton.mp hmem⟩
  exact hcloses

/-- A callback that is not the write callback. -/
theorem writeRound_callback {m₁ : Machine σ} {cb : Callback} {result : Option (σ × List TcpCall)}
    (haccept : ∀ i, cb ≠ .accept i) (hwrite : ∀ i info, cb ≠ .write i info) (hlog : m₁.log = [])
    (hkeeps : KeepsEntries m.tcp m₁.tcp) (hinvoke : app.invoke m.app (c.env, cb) = result)
    (hcb : m₁.callback .nonTls cb result = some m') : WriteRound app m c m' := by
  obtain ⟨a, cs, hresult, hcalls, rfl, hlog'⟩ := callback_eq_some hcb
  refine .callback cb m₁.tcp cs (by rw [hlog', hlog]; rfl) haccept (hinvoke.trans hresult) (fun i hi => ?_) hcalls
  obtain ⟨hactive, hentries⟩ := hkeeps i hi
  exact ⟨hactive, [], hentries.symm, by rw [Callback.reports_eq_nil hwrite]; rfl⟩

theorem writeRound_plainHandler {m₁ : Machine σ} {sub : Submission} (hm₁ : m₁ = m.take c)
    (hid : sub.req.event = .write → sub.req.ID = (m.tcp.clients i).id)
    (hhandled : m₁.plainHandler app sub i c = some m') : WriteRound app m c m' := by
  subst hm₁
  have htaken : KeepsEntries m.tcp (m.take c).tcp := keepsEntries_congr (fun _ => rfl) rfl
  refine plainHandler_rule hhandled (R := WriteRound app m c) (fun _ s hs hm' => ?_) (fun _ front rest _ => ?_)
    (fun hevent front rest hqueue hown _ hm' => ?_) (fun hevent hother _ hm' => ?_) (.quiet (by simp) htaken)
  · have hread : KeepsEntries m.tcp ((m.take c).onTcp fun _ => s).tcp := htaken.trans (keepsEntries_touches hs)
    exact writeRound_callback (by simp) (by simp) rfl hread rfl hm'
  · exact .quiet (by simp) htaken
  · obtain ⟨a, cs, hresult, hcalls, rfl, hlog⟩ := callback_eq_some hm'
    refine .callback (.write i front.broadcastInfo) _ cs hlog (by simp) hresult (fun j hj => ?_) hcalls
    obtain ⟨hactive, hentries⟩ := entries_writeNext (s := (m.take c).tcp) (i := i) (j := j) rest
    refine ⟨hactive ▸ hj, ?_⟩
    by_cases hji : j = i
    · subst hji
      refine ⟨[front.entry], ?_, by simp [Callback.reports, WriteData.broadcastInfo_entry]⟩
      rw [if_pos rfl] at hentries
      have hfront : m.tcp.entries j = front.entry :: rest.map WriteData.entry := congrArg (List.map _) hqueue
      exact hfront.trans (congrArg _ hentries.symm)
    · rw [if_neg hji] at hentries
      exact ⟨[], hentries.symm, by simp [Callback.reports, Ne.symm hji]⟩
  · obtain ⟨a, cs, hresult, hcalls, rfl, hlog⟩ := callback_eq_some hm'
    refine .callback (.write i (-1)) _ cs hlog (by simp) hresult (fun j hj => ?_) hcalls
    obtain ⟨hactive, hentries⟩ := keepsEntries_endWrite (s := (m.take c).tcp) (i := i) j hj
    have hji : j ≠ i := by
      rintro rfl
      exact hother ⟨hactive, (hid hevent).symm⟩
    exact ⟨hactive, [], hentries.symm, by simp [Callback.reports, Ne.symm hji]⟩

theorem writeRound_step {log : List Callback} (h : WriteInv m.tcp) (hc : m.KeepsWrites c)
    (hstep : step .nonTls app m c = some (m', log)) : WriteRound app m c m' ∧ log = m'.log := by
  obtain ⟨sub, hsub, hhandled, rfl⟩ := step_eq_some hstep
  refine ⟨?_, rfl⟩
  have htaken : KeepsEntries m.tcp (m.take c).tcp := keepsEntries_congr (fun _ => rfl) rfl
  refine dispatch_rule hhandled (R := WriteRound app m c) (fun _ => .quiet (by simp) htaken) (fun _ hm' => ?_)
    (fun _ hm' => ?_) (fun hevent m₁ hm₁ => ?_) (fun _ _ hm' => ?_) (fun _ hT => nomatch hT) (fun i hidx _ hm' => ?_)
  · have hasked : KeepsEntries m.tcp ((m.take c).onTcp fun s => s.addEventReq .notification).tcp := htaken
    exact writeRound_callback (by simp) (by simp) rfl hasked rfl hm'
  · refine customRead_rule hm' (R := WriteRound app m c) (fun readData hfinished => ?_) (fun readData readAmount => ?_)
    · have hfinish : KeepsEntries m.tcp ((m.take c).onTcp fun s =>
          { s with finishedReads := s.finishedReads ++ [(sub.file, readData)] }).tcp := htaken
      exact writeRound_callback (by simp) (by simp) rfl hfinish rfl hfinished
    · exact .quiet (by simp) htaken
  · have hidle : ∀ i ∈ m.tcp.activeConnections, i ∈ c.halfClosed → (m.tcp.clients i).numWriteReqs = 0 := by
      intro i hactive hhalf
      rcases h.slot i with ⟨-, hn, -⟩ | ⟨-, sub', front, rest, hw, -⟩
      · exact hn
      · rw [(hc sub hsub).1 hevent i hactive hhalf] at hw
        cases hw
    obtain ⟨hcloses, -⟩ := sweep_rule hm₁
      (R := fun x => Closes m.tcp x ∧ ∀ i, (x.tcp.clients i).numWriteReqs = (m.tcp.clients i).numWriteReqs)
      ⟨⟨by simp, htaken⟩, fun _ => rfl⟩ fun x j x' hactive hhalf hx hclose => by
        have hn : (x.tcp.clients j).numWriteReqs = 0 := (hx.2 j).trans (hidle j hactive hhalf)
        refine ⟨hx.1.drainAndClose hn hclose, fun i => ?_⟩
        rw [drainAndClose_tcp hclose, closeConnection, if_pos (by simpa using hn), ← hx.2 i]
        by_cases hij : i = j
        · subst hij
          simp [freeSlot]
        · simp [freeSlot, setQueue_of_ne _ _ _ _ hij]
    exact .quiet hcloses.log hcloses.keeps
  · obtain ⟨m₁, hm₁, rfl⟩ := Option.map_eq_some_iff.mp hm'
    obtain ⟨a, ha, rfl⟩ := Option.map_eq_some_iff.mp hm₁
    obtain ⟨hempty, hothers⟩ := entries_accepted (s := (m.take c).tcp.addEventReq .accept) c.res
    refine .accept (((m.take c).tcp.addEventReq .accept).setupClient c.res).2 rfl ?_ ?_ ?_
    · exact (congrArg (Option.map fun a => (a, [])) ha).trans rfl
    · exact (entries_touches (touches_addReadReq (Or.inl rfl)) _).trans hempty
    · intro i hi hne
      obtain ⟨hactive, hentries⟩ := keepsEntries_touches (touches_addReadReq (Or.inl rfl)) i hi
      obtain ⟨hbefore, hsame⟩ := hothers i hactive hne
      exact ⟨hbefore, hentries.trans hsame⟩
  · have hkept : ∀ s, s = (m.take c).tcp ∨ s = (m.take c).tcp.endWrite i → KeepsEntries m.tcp s := by
      rintro s (rfl | rfl)
      · exact htaken
      · exact htaken.trans keepsEntries_endWrite
    refine clientEvent_rule hm' (R := WriteRound app m c) (fun s hs _ _ hn hclose => ?_) (fun s hs => ?_)
      (fun _ _ _ _ hplain => ?_) (fun hT => nomatch hT)
    · have hcloses : Closes m.tcp ((m.take c).onTcp fun _ => s) := ⟨by simp, hkept s hs⟩
      have hclosed := hcloses.drainAndClose hn hclose
      exact .quiet hclosed.log hclosed.keeps
    · exact .quiet (by simp) (hkept s hs)
    · refine writeRound_plainHandler rfl (fun hevent => ?_) hplain
      obtain ⟨-, -, -, -, hid, -⟩ := h.complete_write hsub ⟨hevent, hidx⟩ c.wolf
      exact hid

end Machine

/-! ### Runs -/

/-- The entries that were queued for slot `i` since it was last accepted. -/
def queuedOf (i : ℕ) (past : List ((ε × Callback) × List TcpCall)) : List WriteData :=
  (sinceAccept i past).flatMap fun e => e.2.flatMap (TcpCall.entries i)

/-- What was reported of the writes of slot `i` since it was last accepted. -/
def reportsOf (i : ℕ) (past : List ((ε × Callback) × List TcpCall)) : List ℤ :=
  (sinceAccept i past).flatMap fun e => e.1.2.reports i

/-- What was queued for a connection that is active is in its queue or was reported. -/
structure WritesReported (s : TcpServer) (past : List ((ε × Callback) × List TcpCall)) : Prop where
  writes : WriteInv s
  reported : ∀ i ∈ s.activeConnections, ∃ reported, queuedOf i past = reported ++ s.entries i ∧
    reported.map WriteData.broadcastInfo = reportsOf i past

section

variable {past es : List ((ε × Callback) × List TcpCall)} {i : ℕ}

theorem queuedOf_append (h : ∀ e ∈ es, e.1.2 ≠ .accept i) :
    queuedOf i (past ++ es) = queuedOf i past ++ es.flatMap fun e => e.2.flatMap (TcpCall.entries i) := by
  rw [queuedOf, sinceAccept_append h, List.flatMap_append, queuedOf]

theorem reportsOf_append (h : ∀ e ∈ es, e.1.2 ≠ .accept i) :
    reportsOf i (past ++ es) = reportsOf i past ++ es.flatMap fun e => e.1.2.reports i := by
  rw [reportsOf, sinceAccept_append h, List.flatMap_append, reportsOf]

end

namespace Machine

variable {app : App σ ε} {m m' : Machine σ} {c : Completion ε} {past : List ((ε × Callback) × List TcpCall)}

/-- The close callback asks for nothing. -/
theorem calls_of_closes {a a' : σ} {env : ε} {log : List Callback} {calls : List (List TcpCall)}
    (hlog : ∀ cb ∈ log, ∃ i info, cb = .close i info)
    (hcalls : Runs.exec app.invoke a (log.map fun cb => (env, cb)) = some (a', calls)) : ∀ cs ∈ calls, cs = [] := by
  induction log generalizing a calls with
  | nil =>
      obtain ⟨-, rfl⟩ : a = a' ∧ [] = calls := by simpa [Runs.exec] using hcalls
      simp
  | cons cb log ih =>
      obtain ⟨a₁, cs, calls', hcb, hrest, rfl⟩ := Runs.exec_cons hcalls
      obtain ⟨i, info, rfl⟩ := hlog cb (by simp)
      obtain ⟨b, -, heq⟩ := Option.map_eq_some_iff.mp (show (app.closeCb a i info).map (·, []) = some (a₁, cs) from hcb)
      obtain ⟨-, rfl⟩ := Prod.mk.inj heq
      have hothers := ih (fun cb' hcb' => hlog cb' (List.mem_cons_of_mem _ hcb')) hrest
      simpa using hothers

theorem writesReported_quiet {calls : List (List TcpCall)} (h : WritesReported m.tcp past) (hwrites : WriteInv m'.tcp)
    (hlog : ∀ cb ∈ m'.log, ∃ i info, cb = .close i info) (hkeeps : KeepsEntries m.tcp m'.tcp)
    (hcalls : Runs.exec app.invoke m.app (m'.log.map fun cb => (c.env, cb)) = some (m'.app, calls)) :
    WritesReported m'.tcp (past ++ (m'.log.map fun cb => (c.env, cb)).zip calls) := by
  set es := (m'.log.map fun cb => (c.env, cb)).zip calls with hes
  have hround : ∀ e ∈ es, (∃ i info, e.1.2 = .close i info) ∧ e.2 = [] := by
    rintro ⟨e, cs⟩ he
    obtain ⟨hcb, hcs⟩ := List.of_mem_zip he
    obtain ⟨cb, hmem, rfl⟩ := List.mem_map.mp hcb
    exact ⟨hlog cb hmem, calls_of_closes hlog hcalls cs hcs⟩
  refine ⟨hwrites, fun i hi => ?_⟩
  obtain ⟨hactive, hentries⟩ := hkeeps i hi
  obtain ⟨reported, hqueued, hreported⟩ := h.reported i hactive
  have haccept : ∀ e ∈ es, e.1.2 ≠ .accept i := by
    intro e he
    obtain ⟨⟨j, info, hcb⟩, -⟩ := hround e he
    simp [hcb]
  have hnothing : (es.flatMap fun e => e.2.flatMap (TcpCall.entries i)) = [] := by
    refine List.flatMap_eq_nil_iff.mpr fun e he => ?_
    rw [(hround e he).2]
    rfl
  have hunreported : (es.flatMap fun e => e.1.2.reports i) = [] := by
    refine List.flatMap_eq_nil_iff.mpr fun e he => ?_
    obtain ⟨⟨j, info, hcb⟩, -⟩ := hround e he
    rw [hcb]
    rfl
  rw [queuedOf_append haccept, reportsOf_append haccept, hnothing, hunreported, hentries]
  exact ⟨reported, by simpa using hqueued, by simpa using hreported⟩

/-- One round of the loop. -/
theorem writesReported_step {log : List Callback} {calls : List (List TcpCall)} (h : WritesReported m.tcp past)
    (hc : m.KeepsWrites c) (hstep : step .nonTls app m c = some (m', log))
    (hcalls : Runs.exec app.invoke m.app (log.map fun cb => (c.env, cb)) = some (m'.app, calls)) :
    WritesReported m'.tcp (past ++ (log.map fun cb => (c.env, cb)).zip calls) := by
  have hwrites : WriteInv m'.tcp := writeInv_step h.writes hc hstep
  obtain ⟨hround, rfl⟩ := writeRound_step h.writes hc hstep
  cases hround with
  | accept j hlog hcb hempty hothers =>
      rw [hlog] at hcalls ⊢
      obtain rfl := callback_calls hcb hcalls
      refine ⟨hwrites, fun i hi => ?_⟩
      by_cases hij : i = j
      · subst hij
        refine ⟨[], ?_, ?_⟩
        · rw [hempty]
          simp [queuedOf, sinceAccept_accept]
        · simp [reportsOf, sinceAccept_accept]
      · obtain ⟨hactive, hentries⟩ := hothers i hi hij
        obtain ⟨reported, hqueued, hreported⟩ := h.reported i hactive
        have hother : ∀ e ∈ [((c.env, Callback.accept j), ([] : List TcpCall))], e.1.2 ≠ .accept i := by
          simpa using Ne.symm hij
        refine ⟨reported, ?_, ?_⟩
        · simpa [queuedOf_append hother, hentries] using hqueued
        · simpa [reportsOf_append hother, Callback.reports] using hreported
  | quiet hlog hkeeps => exact writesReported_quiet h hwrites hlog hkeeps hcalls
  | callback cb s cs hlog haccept hcb hpopped hcalled =>
      rw [hlog] at hcalls ⊢
      obtain rfl := callback_calls hcb hcalls
      refine ⟨hwrites, fun i hi => ?_⟩
      obtain ⟨hactive, hentries⟩ := calls_entries hcalled hi
      obtain ⟨hbefore, popped, hfront, hinfos⟩ := hpopped i hactive
      obtain ⟨reported, hqueued, hreported⟩ := h.reported i hbefore
      have hother : ∀ e ∈ [((c.env, cb), cs)], e.1.2 ≠ .accept i := by simpa using haccept i
      refine ⟨reported ++ popped, (queuedOf_append hother).trans ?_, Eq.trans ?_ (reportsOf_append hother).symm⟩
      · simp [hqueued, hfront, hentries]
      · simp [hreported, hinfos]

theorem writesReported_start (a : σ) (reads : List (ℤ × ℕ)) :
    WritesReported (start a reads).tcp ([] : List ((ε × Callback) × List TcpCall)) := by
  refine ⟨writeInv_start a reads, fun i hi => ?_⟩
  have hempty : (start a reads).tcp.activeConnections = ∅ := (sameSlots_start a reads).activeConnections
  simp [hempty] at hi

end Machine

/-- **Reports of writes.** Whatever the application of the plain server does, in every run in which the sweep finds no
half-closed connection that is writing, and no slot with a write in flight is accepted: since a connection that is
active was accepted, its write callback was called once for every entry that was queued for it, in this order and with
the number of its broadcast, but for the entries that are in its queue. -/
theorem writes_reported (app : App σ ε) (a : σ) (reads : List (ℤ × ℕ)) (cs : List (Completion ε))
    (hcs : Runs.Along (Machine.step .nonTls app) Machine.KeepsWrites (Machine.start a reads) cs) (m : Machine σ)
    (logs : List (List Callback))
    (hrun : Runs.exec (Machine.step .nonTls app) (Machine.start a reads) cs = some (m, logs)) :
    ∃ calls, Runs.exec app.invoke a (invoked cs logs) = some (m.app, calls) ∧ ∀ i ∈ m.tcp.activeConnections,
      ∀ before after env, (invoked cs logs).zip calls = before ++ ((env, .accept i), []) :: after →
        (∀ e ∈ after, e.1.2 ≠ .accept i) →
        ∃ reported, (after.flatMap fun e => e.2.flatMap (TcpCall.entries i)) = reported ++ m.tcp.entries i ∧
          (after.flatMap fun e => e.1.2.reports i) = reported.map WriteData.broadcastInfo := by
  obtain ⟨calls, hcalls⟩ := Machine.replays_run hrun
  have hreported := Machine.history_run (P := fun m past => WritesReported m.tcp past)
    (fun _ _ _ _ _ _ h hc hstep hcalls => Machine.writesReported_step h hc hstep hcalls)
    (Machine.writesReported_start a reads) hcs hrun hcalls
  rw [List.nil_append] at hreported
  refine ⟨calls, hcalls, fun i hi before after env heq hafter => ?_⟩
  obtain ⟨reported, hqueued, hinfos⟩ := hreported.reported i hi
  have hsince : sinceAccept i ((invoked cs logs).zip calls) = after := by
    rw [heq]
    exact sinceAccept_cons hafter
  rw [queuedOf, hsince] at hqueued
  rw [reportsOf, hsince] at hinfos
  exact ⟨reported, hqueued, hinfos.symm⟩

/-- A client sends five bytes, which are queued for it, and a pointer behind them. The first entry is written. -/
theorem writes_reported_echo :
    let cs : List (Completion Unit) :=
      [{ index := 3, res := 10, env := () }, { index := 4, res := 5, data := [1, 2, 3, 4, 5], env := () },
        { index := 4, res := 5, env := () }]
    Runs.Along (Machine.step .nonTls echoApp) Machine.KeepsWrites (Machine.start () []) cs ∧
      ∃ m logs, Runs.exec (Machine.step .nonTls echoApp) (Machine.start () []) cs = some (m, logs) ∧
        logs = [[.accept 0], [.read 0 [1, 2, 3, 4, 5]], [.write 0 (-1)]] ∧ m.tcp.entries 0 =
          [{ ptrBuff := .item 0, totalLength := 3 }] ∧ ∃ reported,
          [{ buff := [1, 2, 3, 4, 5] }, { ptrBuff := .item 0, totalLength := 3 }] = reported ++ m.tcp.entries 0 ∧
            [-1] = reported.map WriteData.broadcastInfo := by
  intro cs
  have hcs : Runs.Along (Machine.step .nonTls echoApp) Machine.KeepsWrites (Machine.start () []) cs := by decide +kernel
  have hsome : (Runs.exec (Machine.step .nonTls echoApp) (Machine.start () []) cs).any
      (fun r => r.2 = [[.accept 0], [.read 0 [1, 2, 3, 4, 5]], [.write 0 (-1)]] ∧ 0 ∈ r.1.tcp.activeConnections ∧
        r.1.tcp.entries 0 = [{ ptrBuff := .item 0, totalLength := 3 }]) = true := by decide +kernel
  simp only [Option.any_eq_true, decide_eq_true_eq] at hsome
  obtain ⟨⟨m, logs⟩, hrun, rfl : logs = _, hactive, hentries⟩ := hsome
  obtain ⟨calls, hcalls, hreported⟩ := writes_reported echoApp () [] cs hcs m _ hrun
  have hmade : [[], [.writeConnection 0 [1, 2, 3, 4, 5], .writeConnectionPtr 0 (.item 0) 3], []] = calls :=
    (Prod.mk.inj (Option.some.inj (show some ((), [[],
      [.writeConnection 0 [1, 2, 3, 4, 5], .writeConnectionPtr 0 (.item 0) 3], []]) = some (m.app, calls)
      from hcalls))).2
  refine ⟨hcs, m, _, hrun, rfl, hentries, ?_⟩
  have hlast := hreported 0 hactive
  rw [← hmade] at hlast
  exact hlast [] [(((), .read 0 [1, 2, 3, 4, 5]),
    [.writeConnection 0 [1, 2, 3, 4, 5], .writeConnectionPtr 0 (.item 0) 3]), (((), .write 0 (-1)), [])] () rfl (by simp)

end LiburingServer
