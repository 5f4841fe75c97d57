import LiburingServer.TcpOccupants
import LiburingServer.TcpCallbacks
import LiburingServer.TcpSlots

/-! The reads of the plain server. A connection is read from once when it is accepted and then only when its
application asks for it, and at most one of its reads is in flight, as long as no completed read of an earlier
occupant of its slot is taken for one of its own. -/

namespace LiburingServer

variable {σ ε : Type*}

/-- A read for the present occupant of slot `i`. -/
def TcpServer.IsReading (s : TcpServer) (i : ℕ) (sub : Submission) : Prop :=
  sub.req.event = .read ∧ sub.req.clientIdx = some i ∧ sub.occupant = s.occupants i

instance (s : TcpServer) (i : ℕ) : DecidablePred (s.IsReading i) := fun _ => inferInstanceAs (Decidable (_ ∧ _))

/-- How many reads for the present occupant of slot `i` are in flight. -/
def TcpServer.reading (s : TcpServer) (i : ℕ) : ℕ := (s.inflight.filter fun sub => s.IsReading i sub).length

/-- `read_req_active` is set while a read is in flight, and there is no second one then. -/
def TcpServer.ReadInv (s : TcpServer) : Prop :=
  ∀ i, s.reading i ≤ if (s.clients i).readReqActive then 1 else 0

/-- A step that starts and ends no read. -/
structure TcpServer.SameReads (s s' : TcpServer) : Prop where
  reading : ∀ i, s'.reading i = s.reading i
  active : ∀ i, (s'.clients i).readReqActive = (s.clients i).readReqActive

namespace TcpServer

variable {s s' s'' : TcpServer} {i j : ℕ} {sub : Submission}

theorem SameReads.refl (s : TcpServer) : SameReads s s := ⟨fun _ => rfl, fun _ => rfl⟩

theorem SameReads.trans (h : SameReads s s') (h' : SameReads s' s'') : SameReads s s'' :=
  ⟨fun i => (h'.reading i).trans (h.reading i), fun i => (h'.active i).trans (h.active i)⟩

theorem SameReads.readInv (h : SameReads s s') (hinv : s.ReadInv) : s'.ReadInv := fun i => by
  rw [h.reading, h.active]
  exact hinv i

theorem reading_submit (s : TcpServer) (i : ℕ) (sub : Submission) :
    (s.submit sub).reading i = s.reading i + if s.IsReading i sub then 1 else 0 := by
  have hsame : ∀ sub', (s.submit sub).IsReading i sub' ↔ s.IsReading i sub' := fun _ => Iff.rfl
  by_cases h : s.IsReading i sub <;> simp [reading, hsame, h]

theorem sameReads_submit (h : sub.req.event ≠ .read) : SameReads s (s.submit sub) := by
  refine ⟨fun i => ?_, fun _ => rfl⟩
  rw [reading_submit, if_neg fun hreading => h hreading.1, Nat.add_zero]

theorem sameReads_modifyClient {f : Client → Client} (hf : ∀ c, (f c).readReqActive = c.readReqActive) :
    SameReads s (s.modifyClient i f) := by
  refine ⟨fun _ => rfl, fun j => ?_⟩
  by_cases hj : j = i
  · rw [hj, modifyClient_self, hf]
  · rw [modifyClient_of_ne _ _ _ _ hj]

theorem sameReads_addWriteReq {event : EventType} {buffer : Ptr} {length : ℕ} (h : event ≠ .read) :
    SameReads s (s.addWriteReq i event buffer length) := by
  refine SameReads.trans (sameReads_modifyClient ?_) (sameReads_submit h)
  exact fun _ => rfl

theorem sameReads_setQueue {sendData : List WriteData} : SameReads s (s.setQueue i sendData) :=
  sameReads_modifyClient fun _ => rfl

theorem sameReads_writeNext (rest : List WriteData) : SameReads s ((s.endWrite i).writeNext i rest) := by
  have hended : SameReads s (s.endWrite i) := sameReads_modifyClient fun _ => rfl
  cases rest with
  | nil => exact hended.trans sameReads_setQueue
  | cons next rest => exact (hended.trans sameReads_setQueue).trans (sameReads_addWriteReq (by decide))

theorem sameReads_enqueue {data : WriteData} {length : ℕ} : SameReads s (s.enqueue .nonTls i data length) := by
  by_cases hqueue : (s.clients i).sendData = []
  · rw [enqueue_plain_of_nil _ _ hqueue]
    exact sameReads_setQueue.trans (sameReads_addWriteReq (by decide))
  · rw [enqueue_of_ne_nil _ _ _ hqueue]
    exact sameReads_setQueue

theorem sameReads_broadcastMessage {clientIdxs : List ℕ} {buff : Ptr} {length : ℕ} {customInfo : ℤ} :
    SameReads s (s.broadcastMessage .nonTls clientIdxs buff length customInfo) := by
  unfold broadcastMessage
  induction clientIdxs generalizing s with
  | nil => exact .refl s
  | cons i clientIdxs ih => exact sameReads_enqueue.trans ih

theorem sameReads_closeConnection : SameReads s (s.closeConnection .nonTls i) := by
  unfold closeConnection
  split
  · have hqueue : SameReads s (s.setQueue i []) := sameReads_setQueue
    exact ⟨hqueue.reading, hqueue.active⟩
  · exact .refl s

/-- A read for a slot, unless one is active. -/
theorem reading_addReadReq : (s.addReadReq i .read).reading j =
    s.reading j + if j = i ∧ (s.clients i).readReqActive = false then 1 else 0 := by
  unfold addReadReq
  cases hactive : (s.clients i).readReqActive with
  | true => simp
  | false =>
      have hsub : s.IsReading j (s.readSubmission i .read) ↔ j = i := by
        constructor
        · exact fun h => (Option.some.inj h.2.1).symm
        · rintro rfl
          exact ⟨rfl, rfl, rfl⟩
      rw [if_neg Bool.false_ne_true]
      show (s.submit (s.readSubmission i .read)).reading j = _
      rw [reading_submit]
      simp [hsub]

theorem active_addReadReq : ((s.addReadReq i .read).clients j).readReqActive =
    (decide (j = i) || (s.clients j).readReqActive) := by
  unfold addReadReq
  by_cases hj : j = i
  · subst hj
    split <;> simp [*]
  · split
    · simp [hj]
    · simp [modifyClient_of_ne _ _ _ _ hj, hj]

theorem ReadInv.addReadReq (h : s.ReadInv) : (s.addReadReq i .read).ReadInv := by
  intro j
  have hj := h j
  rw [reading_addReadReq, active_addReadReq]
  by_cases hji : j = i
  · subst hji
    cases hactive : (s.clients j).readReqActive <;> simp_all
  · simpa [hji] using hj

/-- A call starts a read if it asks for one, and ends none. -/
theorem call_reading {c : TcpCall} (h : s.call .nonTls c = some s') :
    (∃ i, c = .readConnection i ∧ s' = s.addReadReq i .read) ∨
      (∀ i, c ≠ .readConnection i) ∧ SameReads s s' := by
  unfold call at h
  split at h
  · obtain rfl := Option.some.inj h
    cases c with
    | readConnection i => exact Or.inl ⟨i, rfl, rfl⟩
    | writeConnection i buff =>
        have hfresh : SameReads s { s with nextAddr := s.nextAddr + 1 } := ⟨fun _ => rfl, fun _ => rfl⟩
        exact Or.inr ⟨by simp, hfresh.trans sameReads_enqueue⟩
    | writeConnectionPtr i buff length => exact Or.inr ⟨by simp, sameReads_enqueue⟩
    | broadcastMessage clientIdxs buff length customInfo => exact Or.inr ⟨by simp, sameReads_broadcastMessage⟩
    | closeConnection i => exact Or.inr ⟨by simp, sameReads_closeConnection⟩
    | customReadReq fd toRead clientIdx buff readAmount file => exact Or.inr ⟨by simp, sameReads_submit (by simp)⟩
  · cases h

theorem calls_reading {cs : List TcpCall} (hinv : s.ReadInv) (h : s.calls .nonTls cs = some s') :
    s'.ReadInv ∧ ∀ i, s'.reading i ≤ s.reading i + cs.count (.readConnection i) := by
  induction cs generalizing s with
  | nil =>
      obtain rfl : s = s' := by simpa [calls] using h
      exact ⟨hinv, fun i => Nat.le_add_right _ _⟩
  | cons c cs ih =>
      rw [calls, List.foldlM_cons] at h
      obtain ⟨s₁, hcall, hrest⟩ := Option.bind_eq_some_iff.mp h
      rcases call_reading hcall with ⟨j, rfl, rfl⟩ | ⟨hother, hsame⟩
      · obtain ⟨hlast, hle⟩ := ih hinv.addReadReq hrest
        refine ⟨hlast, fun i => ?_⟩
        have hi := hle i
        rw [reading_addReadReq] at hi
        rw [List.count_cons]
        by_cases hij : i = j
        · subst hij
          simp only [true_and, beq_self_eq_true, if_true] at hi ⊢
          split at hi <;> omega
        · simpa [hij, Ne.symm hij] using hi
      · obtain ⟨hlast, hle⟩ := ih (hsame.readInv hinv) hrest
        refine ⟨hlast, fun i => ?_⟩
        rw [List.count_cons_of_ne (hother i), ← hsame.reading i]
        exact hle i

/-- A request is completed. -/
theorem reading_takeCompleted {n : ℕ} (h : s.inflight[n]? = some sub) (wolf : List WolfCall) (i : ℕ) :
    (s.takeCompleted n wolf).reading i + (if s.IsReading i sub then 1 else 0) = s.reading i := by
  have hsame : ∀ sub', (s.takeCompleted n wolf).IsReading i sub' ↔ s.IsReading i sub' := fun _ => Iff.rfl
  simpa [reading, hsame] using InFlight.length_filter_eraseIdx (fun sub => decide (s.IsReading i sub)) h

theorem reading_congr (hflight : s'.inflight = s.inflight) (hoccupants : s'.occupants i = s.occupants i) :
    s'.reading i = s.reading i := by
  have hsame : ∀ sub, s'.IsReading i sub ↔ s.IsReading i sub := fun sub => by rw [IsReading, hoccupants]; rfl
  simp [reading, hflight, hsame]

theorem reading_eq_zero (h : ∀ sub ∈ s.inflight, sub.req.clientIdx = some i → sub.occupant ≠ s.occupants i) :
    s.reading i = 0 := by
  have hnone : ∀ sub ∈ s.inflight, ¬s.IsReading i sub := fun sub hsub hreading => h sub hsub hreading.2.1 hreading.2.2
  simpa [reading] using hnone

/-- The slot that is handed out has no reads yet. -/
theorem reading_setupClient {n : ℕ} (h : OccupantInv n s) (sockfd : ℤ) (j : ℕ) :
    if j = (s.setupClient sockfd).2 then
      (s.setupClient sockfd).1.reading j = 0 ∧ ((s.setupClient sockfd).1.clients j).readReqActive = false
    else (s.setupClient sockfd).1.reading j = s.reading j ∧
      ((s.setupClient sockfd).1.clients j).readReqActive = (s.clients j).readReqActive := by
  unfold setupClient
  split
  · rename_i hne
    dsimp only
    split
    · rename_i hj
      refine ⟨reading_eq_zero fun sub hsub hidx hoccupant => ?_, by simp [hj]⟩
      have hdated := ((h.request sub hsub).slot j hidx).2
      simp only [hj, Function.update_self] at hoccupant hdated
      omega
    · rename_i hj
      exact ⟨reading_congr rfl (Function.update_of_ne hj _ _), by simp [hj]⟩
  · dsimp only
    split
    · rename_i hj
      refine ⟨reading_eq_zero fun sub hsub hidx => ?_, by simp [hj]⟩
      have hlt := ((h.request sub hsub).slot j hidx).1
      rw [hj, h.num] at hlt
      exact absurd hlt (lt_irrefl n)
    · rename_i hj
      exact ⟨reading_congr rfl (Function.update_of_ne hj _ _), by simp [hj]⟩

end TcpServer

open TcpServer

namespace Machine

variable {app : App σ ε} {m m' : Machine σ} {c : Completion ε} {i : ℕ}

/-- No accept or read callback was called, and no read was started or ended. -/
structure Quiet (before : TcpServer) (m : Machine σ) : Prop where
  reads : SameReads before m.tcp
  log : ∀ cb ∈ m.log, (∀ i, cb ≠ .accept i) ∧ ∀ i buffer, cb ≠ .read i buffer

/-- What the last callback of a round asks for, if that is not an accept or read callback; what is done before starts
and ends no read. -/
def QuietRound (app : App σ ε) (env : ε) (a : σ) (before : TcpServer) (m : Machine σ) : Prop :=
  Quiet before m ∨ ∃ cb s cs, m.log = [cb] ∧ (∀ i, cb ≠ .accept i) ∧ (∀ i buffer, cb ≠ .read i buffer) ∧
    app.invoke a (env, cb) = some (m.app, cs) ∧ SameReads before s ∧ s.calls .nonTls cs = some m.tcp

namespace Quiet

variable {before s : TcpServer}

theorem onTcp (h : Quiet before m) (hs : SameReads m.tcp s) : Quiet before (m.onTcp fun _ => s) :=
  ⟨h.reads.trans hs, h.log⟩

theorem closeCb (h : Quiet before m) {info : ℤ} (hcb : closeCb app i m info = some m') : Quiet before m' := by
  obtain ⟨a, -, rfl⟩ := Option.map_eq_some_iff.mp hcb
  refine ⟨h.reads, fun cb hmem => ?_⟩
  rcases List.mem_append.mp hmem with hmem | hmem
  · exact h.log cb hmem
  · rw [List.mem_singleton.mp hmem]
    exact ⟨by simp, by simp⟩

theorem drainAndClose (h : Quiet before m) (hclose : m.drainAndClose .nonTls app i = some m') : Quiet before m' := by
  obtain ⟨m₁, hm₁, rfl⟩ := Option.map_eq_some_iff.mp hclose
  have hcallbacks : Quiet before m₁ := Runs.foldlM_keeps (fun b info b' _ hb hcb => hb.closeCb hcb) h hm₁
  exact hcallbacks.onTcp (sameReads_setQueue.trans sameReads_closeConnection)

theorem callback (h : Quiet before m) (hlog : m.log = []) {cb : Callback} {result : Option (σ × List TcpCall)} {env : ε}
    (haccept : ∀ i, cb ≠ .accept i) (hread : ∀ i buffer, cb ≠ .read i buffer)
    (hinvoke : app.invoke m.app (env, cb) = result) (hcb : m.callback .nonTls cb result = some m') :
    QuietRound app env m.app before m' := by
  obtain ⟨a, cs, hresult, hcalls, rfl, hlog'⟩ := callback_eq_some hcb
  refine Or.inr ⟨cb, m.tcp, cs, by rw [hlog', hlog]; rfl, haccept, hread, hinvoke.trans hresult, h.reads, hcalls⟩

end Quiet

/-- A completed request of a client, if it does not end up in the read callback. -/
theorem quiet_clientEvent {sub : Submission} (hlog : m.log = [])
    (hread : sub.req.event = .read → c.res ≤ 0 ∨ 0 < i ∧ (m.tcp.clients i).id ≠ sub.req.ID)
    (hhandled : m.clientEvent .nonTls app sub i c = some m') : QuietRound app c.env m.app m.tcp m' := by
  have hkept : ∀ s, s = m.tcp ∨ s = m.tcp.endWrite i → Quiet m.tcp (m.onTcp fun _ => s) := by
    have hended : SameReads m.tcp (m.tcp.endWrite i) := sameReads_modifyClient fun _ => rfl
    rintro s (rfl | rfl)
    · exact ⟨.refl _, by simp [hlog]⟩
    · exact ⟨hended, by simp [hlog]⟩
  refine clientEvent_rule hhandled (R := QuietRound app c.env m.app m.tcp)
    (fun s hs _ _ _ hclose => Or.inl ((hkept s hs).drainAndClose hclose)) (fun s hs => Or.inl (hkept s hs))
    (fun _ _ hres hpresent hplain => ?_) (fun hT => nomatch hT)
  refine plainHandler_rule hplain (R := QuietRound app c.env m.app m.tcp) (fun hevent _ _ _ => ?_)
    (fun hevent front _ _ => Or.inl ?_) (fun _ _ rest _ _ _ hm' => ?_) (fun _ _ _ hm' => ?_)
    (Or.inl (hkept _ (Or.inl rfl)))
  · rcases hread hevent with hfailed | ⟨hpos, hother⟩
    · omega
    · rcases hpresent with rfl | hid
      · exact absurd hpos (lt_irrefl 0)
      · exact absurd hid hother
  · refine Quiet.onTcp (hkept _ (Or.inl rfl)) (sameReads_submit ?_)
    simp [hevent]
  · have hnext : Quiet m.tcp (m.onTcp fun s => (s.endWrite i).writeNext i rest) :=
      ⟨sameReads_writeNext rest, by simp [hlog]⟩
    exact hnext.callback hlog (by simp) (by simp) rfl hm'
  · exact (hkept _ (Or.inr rfl)).callback hlog (by simp) (by simp) rfl hm'

/-- What a round of the loop does about reads: a connection is accepted and read from, what was read is handed on, or
neither. -/
inductive ReadRound (app : App σ ε) (m : Machine σ) (c : Completion ε) (sub : Submission) : Machine σ → Prop
  | accept {next : Machine σ} (j : ℕ) (hj : j = (((m.take c).tcp.addEventReq .accept).setupClient c.res).2)
      (hlog : next.log = [.accept j]) (hevent : sub.req.event = .accept)
      (hcb : app.invoke m.app (c.env, .accept j) = some (next.app, []))
      (htcp : next.tcp = (((m.take c).tcp.addEventReq .accept).accepted c.res).addReadReq j .read) :
      ReadRound app m c sub next
  | read {next : Machine σ} (i : ℕ) (buffer : Bytes) (cs : List TcpCall) (hevent : sub.req.event = .read)
      (hidx : sub.req.clientIdx = some i) (hres : 0 < c.res) (hpresent : i = 0 ∨ (m.tcp.clients i).id = sub.req.ID)
      (hlog : next.log = [.read i buffer]) (hcb : app.invoke m.app (c.env, .read i buffer) = some (next.app, cs))
      (hcalls : ((m.take c).tcp.modifyClient i fun client => { client with readReqActive := false }).calls .nonTls cs =
        some next.tcp) : ReadRound app m c sub next
  | quiet {next : Machine σ} (h : QuietRound app c.env m.app (m.take c).tcp next) : ReadRound app m c sub next

theorem readRound_step {log : List Callback} (hstep : step .nonTls app m c = some (m', log)) :
    ∃ sub, m.tcp.inflight[c.index]? = some sub ∧ log = m'.log ∧ ReadRound app m c sub m' := by
  obtain ⟨sub, hsub, hhandled, rfl⟩ := step_eq_some hstep
  have htaken : Quiet (m.take c).tcp (m.take c) := ⟨.refl _, by simp⟩
  refine ⟨sub, hsub, rfl, ?_⟩
  refine dispatch_rule hhandled (R := ReadRound app m c sub) (fun _ => ?_) (fun _ hm' => ?_) (fun hcustom hm' => ?_)
    (fun _ m₁ hm₁ => ?_) (fun hevent _ hm' => ?_) (fun _ hT => nomatch hT) (fun i hidx _ hm' => ?_)
  · exact .quiet (Or.inl ⟨⟨fun _ => rfl, fun _ => rfl⟩, by simp⟩)
  · have hasked : Quiet (m.take c).tcp ((m.take c).onTcp fun s => s.addEventReq .notification) :=
      ⟨sameReads_submit (by simp), by simp⟩
    exact .quiet (hasked.callback rfl (by simp) (by simp) rfl hm')
  · refine customRead_rule hm' (R := ReadRound app m c sub) (fun readData hfinished => ?_) (fun readData readAmount => ?_)
    · have hfinish : Quiet (m.take c).tcp ((m.take c).onTcp fun s =>
          { s with finishedReads := s.finishedReads ++ [(sub.file, readData)] }) :=
        ⟨⟨fun _ => rfl, fun _ => rfl⟩, by simp⟩
      exact .quiet (hfinish.callback rfl (by simp) (by simp) rfl hfinished)
    · exact .quiet (Or.inl ⟨sameReads_submit (by simp [hcustom]), by simp⟩)
  · have hswept : Quiet (m.take c).tcp m₁ :=
      sweep_rule hm₁ htaken fun _ _ _ _ _ hx hclose => hx.drainAndClose hclose
    exact .quiet (Or.inl (hswept.onTcp (sameReads_submit (by simp))))
  · obtain ⟨m₁, hm₁, rfl⟩ := Option.map_eq_some_iff.mp hm'
    obtain ⟨a, ha, rfl⟩ := Option.map_eq_some_iff.mp hm₁
    refine .accept _ rfl rfl hevent ?_ rfl
    exact (congrArg (Option.map fun a => (a, [])) ha).trans rfl
  · by_cases hread : sub.req.event = .read → c.res ≤ 0 ∨ 0 < i ∧ ((m.take c).tcp.clients i).id ≠ sub.req.ID
    · exact .quiet (quiet_clientEvent (m := m.take c) rfl hread hm')
    · obtain ⟨hevent, hpasses⟩ := Classical.not_imp.mp hread
      have hplain : (m.take c).plainHandler app sub i c = some m' := by
        unfold clientEvent at hm'
        by_cases hi : i < (m.take c).tcp.numClients
        · rwa [if_pos hi, if_neg hpasses] at hm'
        · rw [if_neg hi] at hm'
          cases hm'
      simp only [plainHandler, hevent] at hplain
      obtain ⟨a, cs, hresult, hcalls, rfl, hlog⟩ := callback_eq_some hplain
      refine .read i _ cs hevent hidx ?_ ?_ hlog hresult hcalls
      · exact not_le.mp fun hle => hpasses (Or.inl hle)
      · by_contra hother
        obtain ⟨hpos, hid⟩ := not_or.mp hother
        exact hpasses (Or.inr ⟨Nat.pos_of_ne_zero hpos, hid⟩)

/-- A completed read that is handed on was submitted for the present occupant of its slot. -/
def ReadsOwn (m : Machine σ) (c : Completion ε) : Prop :=
  ∀ sub ∈ m.tcp.inflight[c.index]?, sub.req.event = .read → ∀ i ∈ sub.req.clientIdx, 0 < c.res →
    i = 0 ∨ (m.tcp.clients i).id = sub.req.ID → sub.occupant = m.tcp.occupants i

instance (m : Machine σ) (c : Completion ε) : Decidable (m.ReadsOwn c) :=
  inferInstanceAs (Decidable (∀ sub ∈ m.tcp.inflight[c.index]?, _))

end Machine

/-! ### Histories -/

/-- A callback of slot `i` for bytes that were read. -/
def Callback.ReadOf (i : ℕ) : Callback → Bool
  | .read j _ => j = i
  | _ => false

theorem Callback.readOf_eq_false {i : ℕ} {cb : Callback} (h : ∀ buffer, cb ≠ .read i buffer) : cb.ReadOf i = false := by
  cases cb with
  | read j buffer =>
      have hne : j ≠ i := by
        rintro rfl
        exact h buffer rfl
      simpa [ReadOf] using hne
  | _ => rfl

/-- What has happened since slot `i` was last accepted: callbacks, and what they asked for. -/
def sinceAccept (i : ℕ) (past : List ((ε × Callback) × List TcpCall)) : List ((ε × Callback) × List TcpCall) :=
  (past.reverse.takeWhile fun e => e.1.2 ≠ .accept i).reverse

/-- How often the read callback of slot `i` was called since it was last accepted. -/
def readsOf (i : ℕ) (past : List ((ε × Callback) × List TcpCall)) : ℕ :=
  (sinceAccept i past).countP fun e => e.1.2.ReadOf i

/-- How often the application has asked for a read of slot `i` since it was last accepted. -/
def askedOf (i : ℕ) (past : List ((ε × Callback) × List TcpCall)) : ℕ :=
  ((sinceAccept i past).flatMap Prod.snd).count (.readConnection i)

section

variable {past es : List ((ε × Callback) × List TcpCall)} {i : ℕ}

theorem sinceAccept_append (h : ∀ e ∈ es, e.1.2 ≠ .accept i) : sinceAccept i (past ++ es) = sinceAccept i past ++ es := by
  have hall : ∀ e ∈ es.reverse, decide (e.1.2 ≠ .accept i) = true := by simpa using h
  rw [sinceAccept, List.reverse_append, List.takeWhile_append_of_pos hall, List.reverse_append, List.reverse_reverse]
  rfl

theorem sinceAccept_accept (env : ε) (cs : List TcpCall) : sinceAccept i (past ++ [((env, .accept i), cs)]) = [] := by
  simp [sinceAccept]

theorem sinceAccept_cons {before : List ((ε × Callback) × List TcpCall)} {env : ε} {cs : List TcpCall}
    (h : ∀ e ∈ es, e.1.2 ≠ .accept i) : sinceAccept i (before ++ ((env, .accept i), cs) :: es) = es := by
  rw [List.append_cons, sinceAccept_append h, sinceAccept_accept, List.nil_append]

/-- Callbacks, paired with as many lists of calls. -/
theorem countP_zip {es : List (ε × Callback)} {calls : List (List TcpCall)} (h : calls.length = es.length)
    (p : Callback → Bool) : ((es.zip calls).countP fun e => p e.1.2) = es.countP fun e => p e.2 := by
  calc (es.zip calls).countP (fun e => p e.1.2)
      = ((es.zip calls).map Prod.fst).countP fun e => p e.2 := by
        rw [List.countP_map]
        rfl
    _ = es.countP fun e => p e.2 := by rw [List.map_fst_zip h.ge]

theorem flatMap_snd_zip {es : List (ε × Callback)} {calls : List (List TcpCall)} (h : calls.length = es.length) :
    (es.zip calls).flatMap Prod.snd = calls.flatten := by
  rw [List.flatMap_def, List.map_snd_zip h.le]

theorem askedOf_append (h : ∀ e ∈ es, e.1.2 ≠ .accept i) :
    askedOf i (past ++ es) = askedOf i past + (es.flatMap Prod.snd).count (.readConnection i) := by
  rw [askedOf, sinceAccept_append h, List.flatMap_append, List.count_append]
  rfl

theorem readsOf_append (h : ∀ e ∈ es, e.1.2 ≠ .accept i) :
    readsOf i (past ++ es) = readsOf i past + es.countP fun e => e.1.2.ReadOf i := by
  rw [readsOf, sinceAccept_append h, List.countP_append]
  rfl

end

/-- Every read for the present occupant of a slot that is in flight or was handed on was asked for, but for the one
that is submitted when it is accepted. -/
structure ReadsAsked (s : TcpServer) (past : List ((ε × Callback) × List TcpCall)) : Prop where
  occupants : ∃ n, OccupantInv n s
  once : s.ReadInv
  asked : ∀ i, readsOf i past + s.reading i ≤ 1 + askedOf i past

/-- A round that accepts no connection. -/
theorem ReadsAsked.append {s s' : TcpServer} {past es : List ((ε × Callback) × List TcpCall)} (h : ReadsAsked s past)
    (hoccupants : ∃ n, OccupantInv n s') (honce : s'.ReadInv) (haccept : ∀ e ∈ es, ∀ i, e.1.2 ≠ .accept i)
    (hle : ∀ i, (es.countP fun e => e.1.2.ReadOf i) + s'.reading i ≤
      s.reading i + (es.flatMap Prod.snd).count (.readConnection i)) : ReadsAsked s' (past ++ es) := by
  refine ⟨hoccupants, honce, fun i => ?_⟩
  rw [readsOf_append fun e he => haccept e he i, askedOf_append fun e he => haccept e he i]
  have hbefore := h.asked i
  have hround := hle i
  omega

/-- What there was since a slot was accepted. -/
theorem ReadsAsked.since {s : TcpServer} {before after : List ((ε × Callback) × List TcpCall)} {env : ε}
    {cs : List TcpCall} {i : ℕ} (h : ReadsAsked s (before ++ ((env, .accept i), cs) :: after))
    (hafter : ∀ e ∈ after, e.1.2 ≠ .accept i) : (after.countP fun e => e.1.2.ReadOf i) + s.reading i ≤
      1 + (after.flatMap Prod.snd).count (.readConnection i) := by
  have hi := h.asked i
  rwa [readsOf, askedOf, sinceAccept_cons hafter] at hi

namespace Machine

variable {app : App σ ε} {m m' : Machine σ} {c : Completion ε} {past : List ((ε × Callback) × List TcpCall)}

theorem take_reading {sub : Submission} (hsub : m.tcp.inflight[c.index]? = some sub) (i : ℕ) :
    (m.take c).tcp.reading i ≤ m.tcp.reading i :=
  Nat.le_of_add_right_le (reading_takeCompleted hsub c.wolf i).le

theorem take_readInv {sub : Submission} (hsub : m.tcp.inflight[c.index]? = some sub) (h : m.tcp.ReadInv) :
    (m.take c).tcp.ReadInv := fun i => (take_reading hsub i).trans (h i)

/-- The callback of a round that calls one. -/
theorem callback_calls {a a' : σ} {env : ε} {cb : Callback} {cs : List TcpCall} {calls : List (List TcpCall)}
    (hcb : app.invoke a (env, cb) = some (a', cs))
    (hcalls : Runs.exec app.invoke a ([cb].map fun cb => (env, cb)) = some (a', calls)) : calls = [cs] := by
  rw [List.map_singleton, Runs.exec_singleton hcb] at hcalls
  simpa [eq_comm] using hcalls

/-- A connection is accepted: its slot has no reads, and one is started. -/
theorem readsAsked_accept {n j : ℕ} (h : ReadsAsked m.tcp past) (hoccupants : OccupantInv n m.tcp)
    (hoccupants' : ∃ n, OccupantInv n m'.tcp) {sub : Submission} (hsub : m.tcp.inflight[c.index]? = some sub)
    (hj : j = (((m.take c).tcp.addEventReq .accept).setupClient c.res).2)
    (htcp : m'.tcp = (((m.take c).tcp.addEventReq .accept).accepted c.res).addReadReq j .read) :
    ReadsAsked m'.tcp (past ++ [((c.env, .accept j), [])]) := by
  have hinv : OccupantInv n ((m.take c).tcp.addEventReq .accept) := by
    refine OccupantInv.addEventReq ?_ (by decide)
    exact hoccupants.congr (fun _ => rfl) rfl (Finset.Subset.refl _) rfl rfl List.eraseIdx_subset
  have hasked : SameReads (m.take c).tcp ((m.take c).tcp.addEventReq .accept) := sameReads_submit (by simp)
  set s := ((m.take c).tcp.addEventReq .accept).accepted c.res with hs
  have hslot : ∀ i, if i = j then s.reading i = 0 ∧ (s.clients i).readReqActive = false
      else s.reading i = (m.take c).tcp.reading i ∧
        (s.clients i).readReqActive = ((m.take c).tcp.clients i).readReqActive := by
    intro i
    rw [← hasked.reading i, ← hasked.active i, hj]
    exact reading_setupClient hinv c.res i
  have haccepted : s.ReadInv := by
    intro i
    have hi := hslot i
    split at hi
    · exact hi.1.le.trans (Nat.zero_le _)
    · rw [hi.1, hi.2]
      exact take_readInv hsub h.once i
  refine ⟨hoccupants', htcp ▸ haccepted.addReadReq, fun i => ?_⟩
  have hi := hslot i
  rw [htcp, reading_addReadReq]
  by_cases hij : i = j
  · rw [if_pos hij] at hi
    rw [hij] at hi ⊢
    simp [readsOf, askedOf, sinceAccept_accept, hi.1, hi.2]
  · rw [if_neg hij] at hi
    have hother : ∀ e ∈ [((c.env, Callback.accept j), ([] : List TcpCall))], e.1.2 ≠ .accept i := by
      simpa using Ne.symm hij
    rw [readsOf_append hother, askedOf_append hother, hi.1]
    simpa [hij, Callback.ReadOf] using (Nat.add_le_add_left (take_reading hsub i) _).trans (h.asked i)

/-- What was read is handed on: the only read of its slot was completed. -/
theorem readsAsked_read {i : ℕ} {buffer : Bytes} {cs : List TcpCall} (h : ReadsAsked m.tcp past)
    (hoccupants' : ∃ n, OccupantInv n m'.tcp) {sub : Submission} (hsub : m.tcp.inflight[c.index]? = some sub)
    (hread : m.tcp.IsReading i sub)
    (hcalls : ((m.take c).tcp.modifyClient i fun client => { client with readReqActive := false }).calls .nonTls cs =
      some m'.tcp) : ReadsAsked m'.tcp (past ++ [((c.env, .read i buffer), cs)]) := by
  have htake := reading_takeCompleted hsub c.wolf
  have hended : (m.take c).tcp.reading i + 1 = m.tcp.reading i := by simpa [hread] using htake i
  have hothers : ∀ j, j ≠ i → (m.take c).tcp.reading j = m.tcp.reading j := by
    intro j hj
    have hnot : ¬m.tcp.IsReading j sub := fun hreading => hj (Option.some.inj (hreading.2.1.symm.trans hread.2.1))
    simpa [hnot] using htake j
  set s := (m.take c).tcp.modifyClient i fun client => { client with readReqActive := false } with hs
  have hsame : ∀ j, s.reading j = (m.take c).tcp.reading j := fun _ => rfl
  have hfree : s.ReadInv := by
    intro j
    rw [hsame]
    by_cases hj : j = i
    · have honce : m.tcp.reading i ≤ 1 := (h.once i).trans (by split <;> decide)
      rw [hj]
      omega
    · rw [hs, modifyClient_of_ne _ _ _ _ hj]
      exact take_readInv hsub h.once j
  obtain ⟨honce, hle⟩ := calls_reading hfree hcalls
  refine h.append hoccupants' honce (by simp) fun j => ?_
  have hj := hle j
  rw [hsame] at hj
  by_cases hji : j = i
  · subst hji
    simp only [List.countP_singleton, Callback.ReadOf, decide_true, if_true, List.flatMap_singleton]
    omega
  · rw [hothers j hji] at hj
    simpa [Callback.ReadOf, Ne.symm hji] using hj

/-- Neither: the reads in flight are those before and those that the callback asks for. -/
theorem readsAsked_quiet {calls : List (List TcpCall)} (h : ReadsAsked m.tcp past)
    (hoccupants' : ∃ n, OccupantInv n m'.tcp) {sub : Submission} (hsub : m.tcp.inflight[c.index]? = some sub)
    (hcalls : Runs.exec app.invoke m.app (m'.log.map fun cb => (c.env, cb)) = some (m'.app, calls))
    (hquiet : QuietRound app c.env m.app (m.take c).tcp m') :
    ReadsAsked m'.tcp (past ++ (m'.log.map fun cb => (c.env, cb)).zip calls) := by
  have htaken : (m.take c).tcp.ReadInv := take_readInv hsub h.once
  rcases hquiet with hquiet | ⟨cb, s, cs, hlog, haccept, hread, hcb, hsame, hcalled⟩
  · have hmem : ∀ e ∈ (m'.log.map fun cb => (c.env, cb)).zip calls, e.1.2 ∈ m'.log := by
      intro e he
      obtain ⟨cb, hcb, heq⟩ := List.mem_map.mp (List.of_mem_zip he).1
      exact heq ▸ hcb
    refine h.append hoccupants' (hquiet.reads.readInv htaken) (fun e he i => ?_) fun i => ?_
    · exact (hquiet.log e.1.2 (hmem e he)).1 i
    · have hnone : (((m'.log.map fun cb => (c.env, cb)).zip calls).countP fun e => e.1.2.ReadOf i) = 0 := by
        refine List.countP_eq_zero.mpr fun e he => ?_
        rw [Callback.readOf_eq_false ((hquiet.log e.1.2 (hmem e he)).2 i)]
        exact Bool.false_ne_true
      rw [hnone, Nat.zero_add, hquiet.reads.reading]
      exact (take_reading hsub i).trans (Nat.le_add_right _ _)
  · rw [hlog] at hcalls ⊢
    obtain rfl := callback_calls hcb hcalls
    obtain ⟨honce, hle⟩ := calls_reading (hsame.readInv htaken) hcalled
    refine h.append hoccupants' honce (by simpa using haccept) fun i => ?_
    have hnot : Callback.ReadOf i cb = false := Callback.readOf_eq_false (hread i)
    have hi := hle i
    rw [hsame.reading] at hi
    simpa [hnot] using hi.trans (Nat.add_le_add_right (take_reading hsub i) _)

/-- One round of the loop. -/
theorem readsAsked_step {log : List Callback} {calls : List (List TcpCall)} (h : ReadsAsked m.tcp past)
    (hown : m.ReadsOwn c) (hstep : step .nonTls app m c = some (m', log))
    (hcalls : Runs.exec app.invoke m.app (log.map fun cb => (c.env, cb)) = some (m'.app, calls)) :
    ReadsAsked m'.tcp (past ++ (log.map fun cb => (c.env, cb)).zip calls) := by
  obtain ⟨n, hoccupants⟩ := h.occupants
  have hoccupants' : ∃ n, OccupantInv n m'.tcp := occupantInv_step hoccupants hstep
  obtain ⟨sub, hsub, rfl, hround⟩ := readRound_step hstep
  cases hround with
  | accept j hj hlog hevent hcb htcp =>
      rw [hlog] at hcalls ⊢
      obtain rfl := callback_calls hcb hcalls
      exact readsAsked_accept h hoccupants hoccupants' hsub hj htcp
  | read i buffer cs hevent hidx hres hpresent hlog hcb hcalled =>
      rw [hlog] at hcalls ⊢
      obtain rfl := callback_calls hcb hcalls
      exact readsAsked_read h hoccupants' hsub ⟨hevent, hidx, hown sub hsub hevent i hidx hres hpresent⟩ hcalled
  | quiet hquiet => exact readsAsked_quiet h hoccupants' hsub hcalls hquiet

/-- What every round keeps of the server and of the callbacks so far, with what they asked for, a run keeps. -/
theorem history_run {T : ServerType} {P : Machine σ → List ((ε × Callback) × List TcpCall) → Prop}
    {Q : Machine σ → Completion ε → Prop}
    (hround : ∀ m past c m' log calls, P m past → Q m c → step T app m c = some (m', log) →
      Runs.exec app.invoke m.app (log.map fun cb => (c.env, cb)) = some (m'.app, calls) →
      P m' (past ++ (log.map fun cb => (c.env, cb)).zip calls))
    {cs : List (Completion ε)} {logs : List (List Callback)} {calls : List (List TcpCall)} (h : P m past)
    (hcs : Runs.Along (step T app) Q m cs) (hrun : Runs.exec (step T app) m cs = some (m', logs))
    (hcalls : Runs.exec app.invoke m.app (invoked cs logs) = some (m'.app, calls)) :
    P m' (past ++ (invoked cs logs).zip calls) := by
  induction cs generalizing m past logs calls with
  | nil =>
      obtain ⟨rfl, rfl⟩ : m = m' ∧ [] = logs := by simpa [Runs.exec] using hrun
      simpa [invoked] using h
  | cons c cs ih =>
      obtain ⟨m₁, log, logs₁, hstep, hrest, rfl⟩ := Runs.exec_cons hrun
      rw [invoked_cons] at hcalls ⊢
      obtain ⟨a, calls₁, calls₂, hfirst, hsecond, rfl⟩ := Runs.exec_append.mp hcalls
      obtain ⟨-, calls₁', -, hfirst', -⟩ := replays_step hstep
      obtain ⟨rfl, rfl⟩ : a = m₁.app ∧ calls₁ = calls₁' := by simpa [hfirst] using hfirst'
      have hkept := hround m past c m₁ log calls₁ h hcs.1 hstep hfirst
      rw [List.zip_append (Runs.length_exec hfirst).symm, ← List.append_assoc]
      exact ih hkept (hcs.2 m₁ log hstep) hrest hsecond

theorem readsAsked_start (a : σ) (reads : List (ℤ × ℕ)) :
    ReadsAsked (start a reads).tcp ([] : List ((ε × Callback) × List TcpCall)) := by
  have hempty : SameReads {} ((({} : TcpServer).addEventReq .kill).addEventReq .notification |>.addEventReq .timerfd) :=
    ((sameReads_submit (by simp)).trans (sameReads_submit (by simp))).trans (sameReads_submit (by simp))
  have hreads : ∀ s, SameReads {} s →
      SameReads {} (reads.foldl (fun s r => s.customReadReq r.1 r.2 none [] 0 none) s) := by
    induction reads with
    | nil => exact fun s hs => hs
    | cons r reads ih => exact fun s hs => ih _ (hs.trans (sameReads_submit (by simp)))
  have hstart : SameReads {} (start a reads).tcp := (hreads _ hempty).trans (sameReads_submit (by simp))
  refine ⟨⟨0, occupantInv_start a reads⟩, hstart.readInv fun _ => Nat.zero_le _, fun i => ?_⟩
  rw [hstart.reading]
  exact Nat.zero_le _

/-- A whole run. -/
theorem readsAsked_run {a : σ} {reads : List (ℤ × ℕ)} {cs : List (Completion ε)} {logs : List (List Callback)}
    {calls : List (List TcpCall)} (hown : Runs.Along (step .nonTls app) ReadsOwn (start a reads) cs)
    (hrun : Runs.exec (step .nonTls app) (start a reads) cs = some (m, logs))
    (hcalls : Runs.exec app.invoke a (invoked cs logs) = some (m.app, calls)) :
    ReadsAsked m.tcp ((invoked cs logs).zip calls) := by
  have hkept := history_run (P := fun m past => ReadsAsked m.tcp past)
    (fun _ _ _ _ _ _ h hc hstep hcalls => readsAsked_step h hc hstep hcalls) (readsAsked_start a reads) hown hrun hcalls
  rwa [List.nil_append] at hkept

end Machine

/-- **Reads of the plain server.** Whatever its application does, in every run in which no completed read of an earlier
occupant of a slot is taken for one of the present occupant: at most one read of each connection is in flight, and
since its slot was accepted the read callback was called at most once more often than the application has asked for a
read, counting the read in flight. -/
theorem reads_asked (app : App σ ε) (a : σ) (reads : List (ℤ × ℕ)) (cs : List (Completion ε))
    (hown : Runs.Along (Machine.step .nonTls app) Machine.ReadsOwn (Machine.start a reads) cs) (m : Machine σ)
    (logs : List (List Callback))
    (hrun : Runs.exec (Machine.step .nonTls app) (Machine.start a reads) cs = some (m, logs)) :
    ∃ calls, Runs.exec app.invoke a (invoked cs logs) = some (m.app, calls) ∧ ∀ i,
      m.tcp.reading i ≤ 1 ∧
        ∀ before after env, (invoked cs logs).zip calls = before ++ ((env, .accept i), []) :: after →
          (∀ e ∈ after, e.1.2 ≠ .accept i) →
          (after.countP fun e => e.1.2.ReadOf i) + m.tcp.reading i ≤
            1 + (after.flatMap Prod.snd).count (.readConnection i) := by
  obtain ⟨calls, hcalls⟩ := Machine.replays_run hrun
  have hasked := Machine.readsAsked_run hown hrun hcalls
  refine ⟨calls, hcalls, fun i => ⟨(hasked.once i).trans (by split <;> decide), fun before after env heq hafter => ?_⟩⟩
  rw [heq] at hasked
  exact hasked.since hafter

/-- A client connects and sends five bytes. The application does not ask for more. -/
theorem reads_asked_reply :
    let cs : List (Completion Unit) :=
      [{ index := 3, res := 10, env := () }, { index := 4, res := 5, data := [1, 2, 3, 4, 5], env := () }]
    Runs.Along (Machine.step .nonTls replyApp) Machine.ReadsOwn (Machine.start () []) cs ∧
      ∃ m logs, Runs.exec (Machine.step .nonTls replyApp) (Machine.start () []) cs = some (m, logs) ∧
        logs = [[.accept 0], [.read 0 [1, 2, 3, 4, 5]]] ∧ m.tcp.reading 0 = 0 := by
  intro cs
  have hown : Runs.Along (Machine.step .nonTls replyApp) Machine.ReadsOwn (Machine.start () []) cs := by decide +kernel
  have hsome : (Runs.exec (Machine.step .nonTls replyApp) (Machine.start () []) cs).any
      (fun r => r.2 = [[.accept 0], [.read 0 [1, 2, 3, 4, 5]]]) = true := by decide +kernel
  simp only [Option.any_eq_true, decide_eq_true_eq] at hsome
  obtain ⟨⟨m, logs⟩, hrun, rfl : logs = _⟩ := hsome
  obtain ⟨calls, hcalls, hreads⟩ := reads_asked replyApp () [] cs hown m _ hrun
  have hmade : [[], [.writeConnection 0 [1, 2, 3, 4, 5]]] = calls :=
    (Prod.mk.inj (Option.some.inj (show some ((), [[], [.writeConnection 0 [1, 2, 3, 4, 5]]]) = some (m.app, calls)
      from hcalls))).2
  obtain ⟨-, hasked⟩ := hreads 0
  rw [← hmade] at hasked
  have hlast := hasked [] [(((), .read 0 [1, 2, 3, 4, 5]), [.writeConnection 0 [1, 2, 3, 4, 5]])] () rfl (by simp)
  have hnone : 1 + m.tcp.reading 0 ≤ 1 := by simpa [Callback.ReadOf] using hlast
  exact ⟨hown, m, _, hrun, rfl, by omega⟩

end LiburingServer
