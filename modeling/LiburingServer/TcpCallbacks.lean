import LiburingServer.TcpFrame
import LiburingServer.Lib.InFlight

/-! The application on its own. The event loop calls callbacks and carries out what they ask for; the state of
the application after a run is that after its callbacks, in their order and whatever the server did in
between. The custom reads in flight are those that the callbacks have asked for and that are not finished. -/

namespace LiburingServer

variable {σ ε : Type*}

/-- A callback, with what the environment contributes to it. -/
def App.invoke (app : App σ ε) (a : σ) : ε × Callback → Option (σ × List TcpCall)
  | (_, .accept i) => (app.acceptCb a i).map fun a => (a, [])
  | (_, .close i info) => (app.closeCb a i info).map fun a => (a, [])
  | (env, .read i buffer) => app.readCb env a i buffer
  | (env, .write i info) => app.writeCb env a i info
  | (env, .event) => app.eventCb env a
  | (env, .customRead i fd buffer) => app.customReadCb env a i fd buffer

/-- The callbacks of a run: those of each event, with what its completion contributes. -/
def invoked (cs : List (Completion ε)) (logs : List (List Callback)) : List (ε × Callback) :=
  (cs.zip logs).flatMap fun r => r.2.map fun cb => (r.1.env, cb)

theorem invoked_cons (c : Completion ε) (cs : List (Completion ε)) (log : List Callback)
    (logs : List (List Callback)) :
    invoked (c :: cs) (log :: logs) = (log.map fun cb => (c.env, cb)) ++ invoked cs logs := by
  simp [invoked]

/-- What every callback keeps, it keeps when it is invoked on its own. -/
theorem App.Maintains.invoke {app : App σ ε} {P : σ → Prop} (h : app.Maintains P) {a a' : σ}
    {e : ε × Callback} {cs : List TcpCall} (ha : P a) (hcb : app.invoke a e = some (a', cs)) : P a' := by
  obtain ⟨env, cb⟩ := e
  cases cb with
  | accept i =>
      obtain ⟨b, hb, heq⟩ := Option.map_eq_some_iff.mp (show (app.acceptCb a i).map (·, []) = _ from hcb)
      obtain ⟨rfl, -⟩ := Prod.mk.inj heq
      exact h.accept _ _ _ ha hb
  | close i info =>
      obtain ⟨b, hb, heq⟩ := Option.map_eq_some_iff.mp (show (app.closeCb a i info).map (·, []) = _ from hcb)
      obtain ⟨rfl, -⟩ := Prod.mk.inj heq
      exact h.close _ _ _ _ ha hb
  | read i buffer => exact h.read _ _ _ _ _ ha hcb
  | write i info => exact h.write _ _ _ _ _ ha hcb
  | event => exact h.event _ _ _ ha hcb
  | customRead i fd buffer => exact h.customRead _ _ _ _ _ _ ha hcb

/-- The custom read that a call asks for: its request, and the path of its file. -/
def TcpCall.read : TcpCall → Option (Request × Option Bytes)
  | .customReadReq fd toRead clientIdx buff readAmount file =>
      some (.customRead fd toRead clientIdx buff readAmount, file)
  | _ => none

namespace TcpServer

variable {T : ServerType} {s s' : TcpServer} {i : ℕ}

/-- The requests of the custom reads in flight, and their files. -/
def reads (s : TcpServer) : List (Request × Option Bytes) := s.customReads.map fun sub => (sub.req, sub.file)

theorem reads_congr (h : s'.customReads = s.customReads) : s'.reads = s.reads := by rw [reads, h, reads]

theorem Alters.reads (h : Alters i s s') : s'.reads = s.reads := reads_congr h.customReads

theorem reads_submit {sub : Submission} (h : sub.req.event = .customRead) :
    (s.submit sub).reads = s.reads ++ [(sub.req, sub.file)] := by
  simp [TcpServer.reads, customReads, h]

theorem reads_call {c : TcpCall} (h : s.call T c = some s') : s'.reads = s.reads ++ c.read.toList := by
  unfold call at h
  split at h
  · obtain rfl := Option.some.inj h
    have hnone : ∀ {s' : TcpServer}, s'.reads = s.reads → s'.reads = s.reads ++ [] := fun heq => by simp [heq]
    cases c with
    | writeConnection i buff => exact hnone (alters_writeConnection T buff).reads
    | writeConnectionPtr i buff length => exact hnone (alters_enqueue T _ _).reads
    | broadcastMessage clientIdxs buff length customInfo =>
        exact hnone (reads_congr (broadcastMessage_reads T _ _ _ _).1)
    | closeConnection i => exact hnone (reads_congr (closeConnection_reads T).1)
    | readConnection i => exact hnone (touches_addReadReq (Or.inl rfl)).alters.reads
    | customReadReq fd toRead clientIdx buff readAmount file => exact reads_submit rfl
  · cases h

theorem reads_calls {cs : List TcpCall} (h : s.calls T cs = some s') :
    s'.reads = s.reads ++ cs.filterMap TcpCall.read := by
  induction cs generalizing s with
  | nil =>
      obtain rfl : s = s' := by simpa [calls] using h
      simp
  | cons c cs ih =>
      rw [calls, List.foldlM_cons] at h
      obtain ⟨s₁, hcall, hrest⟩ := Option.bind_eq_some_iff.mp h
      rw [ih hrest, reads_call hcall]
      cases hread : c.read <;> simp [hread]

end TcpServer

open TcpServer

namespace Machine

variable {T : ServerType} {app : App σ ε} {a : σ} {env : ε} {m m' : Machine σ} {s : TcpServer} {i : ℕ}
  {before : List (Request × Option Bytes)}

/-- The callbacks for the event being handled lead from `a` to the present state of the application, what they
ask for has been added to the custom reads `before`, and none of them is for the end of a custom read. -/
def Replays (app : App σ ε) (a : σ) (env : ε) (before : List (Request × Option Bytes)) (m : Machine σ) : Prop :=
  ∃ calls, Runs.exec app.invoke a (m.log.map fun cb => (env, cb)) = some (m.app, calls) ∧
    m.tcp.reads = before ++ calls.flatten.filterMap TcpCall.read ∧
    ∀ idx fd buffer, .customRead idx fd buffer ∉ m.log

namespace Replays

/-- The server does something that starts and ends no custom read. -/
theorem onTcp (h : Replays app a env before m) (hs : s.reads = m.tcp.reads) :
    Replays app a env before (m.onTcp fun _ => s) := by
  obtain ⟨calls, hcalls, hreads, hlog⟩ := h
  exact ⟨calls, hcalls, hs.trans hreads, hlog⟩

theorem invoke (h : Replays app a env before m) {cb : Callback} {cs : List TcpCall}
    (hkind : ∀ idx fd buffer, .customRead idx fd buffer ≠ cb)
    (hcb : app.invoke m.app (env, cb) = some (m'.app, cs)) (hlog : m'.log = m.log ++ [cb])
    (hs : m'.tcp.reads = m.tcp.reads ++ cs.filterMap TcpCall.read) : Replays app a env before m' := by
  obtain ⟨calls, hcalls, hreads, hnone⟩ := h
  refine ⟨calls ++ [cs], ?_, ?_, fun idx fd buffer hmem => ?_⟩
  · rw [hlog, List.map_append]
    exact Runs.exec_append.mpr ⟨_, _, _, hcalls, Runs.exec_singleton hcb, rfl⟩
  · rw [hs, hreads]
    simp
  · rw [hlog] at hmem
    rcases List.mem_append.mp hmem with hmem | hmem
    · exact hnone idx fd buffer hmem
    · exact hkind idx fd buffer (List.mem_singleton.mp hmem)

theorem callback (h : Replays app a env before m) {cb : Callback} {result : Option (σ × List TcpCall)}
    (hkind : ∀ idx fd buffer, .customRead idx fd buffer ≠ cb) (hinvoke : app.invoke m.app (env, cb) = result)
    (hcb : m.callback T cb result = some m') : Replays app a env before m' := by
  obtain ⟨a', cs, hresult, hcalls, rfl, hlog⟩ := callback_eq_some hcb
  exact h.invoke hkind (hinvoke.trans hresult) hlog (reads_calls hcalls)

theorem acceptCb (h : Replays app a env before m) (hcb : m.acceptCb app i = some m') :
    Replays app a env before m' := by
  obtain ⟨a', ha, rfl⟩ := Option.map_eq_some_iff.mp hcb
  have hinvoke : app.invoke m.app (env, .accept i) = some (a', []) := by simp [App.invoke, ha]
  exact h.invoke (by simp) hinvoke rfl (by simp)

theorem closeCb (h : Replays app a env before m) {info : ℤ} (hcb : closeCb app i m info = some m') :
    Replays app a env before m' := by
  obtain ⟨a', ha, rfl⟩ := Option.map_eq_some_iff.mp hcb
  have hinvoke : app.invoke m.app (env, .close i info) = some (a', []) := by simp [App.invoke, ha]
  exact h.invoke (by simp) hinvoke rfl (by simp)

theorem drainAndClose (h : Replays app a env before m) (hclose : m.drainAndClose T app i = some m') :
    Replays app a env before m' := by
  obtain ⟨m₁, hm₁, rfl⟩ := Option.map_eq_some_iff.mp hclose
  have hcallbacks : Replays app a env before m₁ :=
    Runs.foldlM_keeps (R := Replays app a env before) (fun b info b' _ hb hcb => hb.closeCb hcb) h hm₁
  have hclosed : ((m₁.tcp.setQueue i []).closeConnection T i).reads = (m₁.tcp.setQueue i []).reads :=
    reads_congr (closeConnection_reads T).1
  exact hcallbacks.onTcp hclosed

end Replays

theorem replays_plainHandler {sub : Submission} {c : Completion ε} (h : Replays app a c.env before m)
    (hevent : sub.req.event ≠ .customRead) (hhandled : m.plainHandler app sub i c = some m') :
    Replays app a c.env before m' := by
  refine plainHandler_rule hhandled (fun _ s hs hm' => ?_) (fun _ front _ _ => ?_) (fun _ _ rest _ _ _ hm' => ?_)
    (fun _ _ _ hm' => ?_) h
  · exact Replays.callback (h.onTcp hs.alters.reads) (by simp) rfl hm'
  · exact h.onTcp (reads_congr (customReads_of_append rfl (by simpa using hevent)))
  · exact Replays.callback (h.onTcp (alters_endWrite.trans (alters_writeNext rest)).reads) (by simp) rfl hm'
  · exact Replays.callback (h.onTcp alters_endWrite.reads) (by simp) rfl hm'

theorem replays_tlsHandler {sub : Submission} {c : Completion ε} (h : Replays app a c.env before m)
    (hhandled : m.tlsHandler app sub i c = some m') : Replays app a c.env before m' := by
  refine tlsHandler_rule hhandled (fun s hs => ?_) (fun _ _ s _ hs hm' => ?_) (fun _ s m₁ s₁ hs hm₁ hs₁ => ?_)
    (fun _ _ s m₁ s₁ _ hs hm₁ hs₁ hm' => ?_) (fun _ _ s _ rest m₁ s₁ hs _ hm₁ hs₁ => ?_)
  · rcases hs with hs | hs
    · exact h.onTcp hs.alters.reads
    · exact h.onTcp (alters_endWrite.trans hs.alters).reads
  · exact Replays.callback (h.onTcp hs.alters.reads) (by simp) rfl hm'
  · have haccepted : Replays app a c.env before m₁ := (h.onTcp hs.alters.reads).acceptCb hm₁
    have htcp : m₁.tcp = s := by
      obtain ⟨b, -, rfl⟩ := Option.map_eq_some_iff.mp hm₁
      rfl
    have hreads : s₁.reads = m₁.tcp.reads := by rw [htcp]; exact hs₁.alters.reads
    exact haccepted.onTcp hreads
  · have haccepted : Replays app a c.env before m₁ := (h.onTcp hs.alters.reads).acceptCb hm₁
    have htcp : m₁.tcp = s := by
      obtain ⟨b, -, rfl⟩ := Option.map_eq_some_iff.mp hm₁
      rfl
    have hreads : s₁.reads = m₁.tcp.reads := by rw [htcp]; exact hs₁.alters.reads
    exact Replays.callback (haccepted.onTcp hreads) (by simp) rfl hm'
  · have hpopped := ((alters_endWrite.trans hs.alters).trans (alters_setQueue rest)).reads
    have hwritten : Replays app a c.env before m₁ := Replays.callback (h.onTcp hpopped) (by simp) rfl hm₁
    exact hwritten.onTcp hs₁.alters.reads

theorem replays_clientEvent {sub : Submission} {c : Completion ε} (h : Replays app a c.env before m)
    (hevent : sub.req.event ≠ .customRead) (hhandled : m.clientEvent T app sub i c = some m') :
    Replays app a c.env before m' := by
  have hkept : ∀ s, s = m.tcp ∨ s = m.tcp.endWrite i → Replays app a c.env before (m.onTcp fun _ => s) := by
    rintro s (rfl | rfl)
    · exact h
    · exact h.onTcp alters_endWrite.reads
  exact clientEvent_rule hhandled (fun s hs _ _ _ hclose => (hkept s hs).drainAndClose hclose) hkept
    (fun _ _ _ _ hplain => replays_plainHandler h hevent hplain) (fun _ _ _ _ htls => replays_tlsHandler h htls)

theorem setupClient_reads (s : TcpServer) (sockfd : ℤ) :
    (s.setupClient sockfd).1.customReads = s.customReads ∧
      (s.setupClient sockfd).1.finishedReads = s.finishedReads := by
  unfold setupClient
  split
  · exact ⟨rfl, rfl⟩
  · exact ⟨rfl, rfl⟩

/-- The callbacks of one round of the loop that finishes no custom read. -/
theorem replays_dispatch {sub : Submission} {c : Completion ε} (h : Replays app a c.env before m)
    (hevent : sub.req.event ≠ .customRead) (hhandled : dispatch T app m sub c = some m') :
    Replays app a c.env before m' := by
  have hasked : ∀ {s : TcpServer} {event : EventType}, event ≠ .customRead → (s.addEventReq event).reads = s.reads :=
    fun hne => reads_congr (customReads_addEventReq hne)
  refine dispatch_rule hhandled (R := Replays app a c.env before) (fun _ => ?_) (fun _ hm' => ?_)
    (fun hread _ => absurd hread hevent) (fun _ m₁ hm₁ => ?_) (fun _ _ hm' => ?_) (fun _ _ => ?_)
    (fun i _ _ hm' => replays_clientEvent h hevent hm')
  · exact h.onTcp rfl
  · exact Replays.callback (h.onTcp (hasked (by simp))) (by simp) rfl hm'
  · have hswept : Replays app a c.env before m₁ :=
      sweep_rule hm₁ h fun _ _ _ _ _ hx hclose => hx.drainAndClose hclose
    exact hswept.onTcp (hasked (by simp))
  · obtain ⟨m₁, hm₁, rfl⟩ := Option.map_eq_some_iff.mp hm'
    have hset : ((m.tcp.addEventReq .accept).setupClient c.res).1.reads = m.tcp.reads :=
      (reads_congr (setupClient_reads _ _).1).trans (hasked (by simp))
    have haccepted : Replays app a c.env before m₁ := by
      apply Replays.acceptCb _ hm₁
      exact h.onTcp hset
    exact haccepted.onTcp (touches_addReadReq (Or.inl rfl)).alters.reads
  · have hset : (((m.tcp.setupClient c.res).1.addEventReq .accept).modifyClient (m.tcp.setupClient c.res).2
        fun client => { client with ssl := true }).reads = m.tcp.reads :=
      (hasked (by simp)).trans (reads_congr (setupClient_reads _ _).1)
    exact h.onTcp (touches_wolfCall.alters.reads.trans hset)

/-- What a completed custom read finds in its buffer. -/
def stored (req : Request) (res : ℤ) (data : Bytes) : Bytes :=
  req.readData.take req.readAmount ++ data.take res.toNat ++
    req.readData.drop (req.readAmount + (data.take res.toNat).length)

/-- A completed custom read is finished, and its callback invoked, or it goes on. -/
theorem customRead_cases {sub : Submission} {res : ℤ} {data : Bytes}
    (hread : m.customRead T app env sub res data = some m') :
    (((stored sub.req res data).length : ℤ) = (res + sub.req.readAmount) % 2 ^ 64 ∧ ∃ cs,
        app.invoke m.app (env, .customRead sub.req.clientIdx sub.req.customInfo (stored sub.req res data)) =
          some (m'.app, cs) ∧
        m'.tcp.reads = m.tcp.reads ++ cs.filterMap TcpCall.read ∧
        m'.log = m.log ++ [.customRead sub.req.clientIdx sub.req.customInfo (stored sub.req res data)]) ∨
      m' = m.onTcp fun s => s.submit { sub with req := { sub.req with
        readData := stored sub.req res data, readAmount := ((sub.req.readAmount + res) % 2 ^ 64).toNat } } := by
  unfold customRead at hread
  dsimp only at hread
  split_ifs at hread with hfits hfinished
  · obtain ⟨a, cs, hresult, hcalls, rfl, hlog⟩ := callback_eq_some hread
    have hreads : m'.tcp.reads = m.tcp.reads ++ cs.filterMap TcpCall.read := by
      rw [reads_calls hcalls]
      rfl
    exact Or.inl ⟨hfinished, cs, hresult, hreads, hlog⟩
  · exact Or.inr (Option.some.inj hread).symm

/-- The callbacks of one round of the loop, and the custom reads after it. A custom read that completes is
taken out; it is finished or goes on with what it has stored so far. -/
theorem replays_step {c : Completion ε} {log : List Callback} (hstep : step T app m c = some (m', log)) :
    ∃ sub calls, m.tcp.inflight[c.index]? = some sub ∧
      Runs.exec app.invoke m.app (log.map fun cb => (c.env, cb)) = some (m'.app, calls) ∧
      if sub.req.event = .customRead then
        ∃ others, m.tcp.reads.Perm ((sub.req, sub.file) :: others) ∧
          ((((stored sub.req c.res c.data).length : ℤ) = (c.res + sub.req.readAmount) % 2 ^ 64 ∧
              log = [.customRead sub.req.clientIdx sub.req.customInfo (stored sub.req c.res c.data)] ∧
              m'.tcp.reads = others ++ calls.flatten.filterMap TcpCall.read) ∨
            (log = [] ∧ m'.tcp.reads = others ++ [({ sub.req with
              readData := stored sub.req c.res c.data,
              readAmount := ((sub.req.readAmount + c.res) % 2 ^ 64).toNat }, sub.file)]))
      else m'.tcp.reads = m.tcp.reads ++ calls.flatten.filterMap TcpCall.read ∧
        ∀ idx fd buffer, .customRead idx fd buffer ∉ log := by
  obtain ⟨sub, hsub, hhandled, rfl⟩ := step_eq_some hstep
  by_cases hevent : sub.req.event = .customRead
  · have hperm : m.tcp.reads.Perm ((sub.req, sub.file) :: (m.take c).tcp.reads) := by
      obtain ⟨l₁, l₂, hinflight, herase⟩ := InFlight.exists_split hsub
      simp only [TcpServer.reads, customReads, take_tcp, takeCompleted_inflight]
      rw [herase, hinflight]
      simp only [List.filter_append, List.filter_cons, hevent, decide_true, if_true, List.map_append, List.map_cons]
      exact List.perm_middle
    simp only [dispatch, hevent] at hhandled
    rcases customRead_cases hhandled with ⟨hlength, cs, hcb, hreads, hlog⟩ | rfl
    · refine ⟨sub, [cs], hsub, ?_, ?_⟩
      · rw [hlog]
        exact Runs.exec_singleton hcb
      · rw [if_pos hevent]
        exact ⟨_, hperm, Or.inl ⟨hlength, hlog, by simpa using hreads⟩⟩
    · refine ⟨sub, [], hsub, rfl, ?_⟩
      rw [if_pos hevent]
      exact ⟨_, hperm, Or.inr ⟨rfl, reads_submit hevent⟩⟩
  · have hsame : (m.take c).tcp.reads = m.tcp.reads :=
      reads_congr (InFlight.filter_eraseIdx_of_not hsub (by simpa using hevent))
    have htaken : Replays app m.app c.env m.tcp.reads (m.take c) :=
      ⟨[], rfl, by rw [hsame]; simp, by simp⟩
    obtain ⟨calls, hcalls, hreads, hlog⟩ := replays_dispatch htaken hevent hhandled
    refine ⟨sub, calls, hsub, hcalls, ?_⟩
    rw [if_neg hevent]
    exact ⟨hreads, hlog⟩

/-- **The callbacks of a run.** Invoking them one after the other leads to the state of the application that
the run leads to. -/
theorem replays_run {cs : List (Completion ε)} {logs : List (List Callback)}
    (hrun : Runs.exec (step T app) m cs = some (m', logs)) :
    ∃ calls, Runs.exec app.invoke m.app (invoked cs logs) = some (m'.app, calls) := by
  induction cs generalizing m logs with
  | nil =>
      obtain ⟨rfl, rfl⟩ : m = m' ∧ [] = logs := by simpa [Runs.exec] using hrun
      exact ⟨[], rfl⟩
  | cons c cs ih =>
      obtain ⟨m₁, log, logs₁, hstep, hrest, rfl⟩ := Runs.exec_cons hrun
      obtain ⟨-, calls, -, hcalls, -⟩ := replays_step hstep
      obtain ⟨calls₁, hcalls₁⟩ := ih hrest
      rw [invoked_cons]
      exact ⟨calls ++ calls₁, Runs.exec_append.mpr ⟨_, _, _, hcalls, hcalls₁, rfl⟩⟩

/-! ### The read callback -/

/-- No read callback was called for the event being handled. -/
def Unread (m : Machine σ) : Prop := ∀ i buffer, .read i buffer ∉ m.log

/-- If a read callback was called, it was the last thing that was done. -/
def ReadLast (T : ServerType) (app : App σ ε) (env : ε) (m : Machine σ) : Prop :=
  ∀ i buffer, .read i buffer ∈ m.log → ∃ m₁ : Machine σ, m₁.readCb T app env i buffer = some m

theorem Unread.onTcp (h : m.Unread) (f : TcpServer → TcpServer) : (m.onTcp f).Unread := h

theorem Unread.add (h : m.Unread) {cb : Callback} (hcb : ∀ i buffer, .read i buffer ≠ cb)
    (hlog : m'.log = m.log ++ [cb]) : m'.Unread := by
  intro i buffer hmem
  rw [hlog] at hmem
  rcases List.mem_append.mp hmem with hmem | hmem
  · exact h i buffer hmem
  · exact hcb i buffer (List.mem_singleton.mp hmem)

theorem Unread.callback (h : m.Unread) {cb : Callback} {result : Option (σ × List TcpCall)}
    (hcb : ∀ i buffer, .read i buffer ≠ cb) (hresult : m.callback T cb result = some m') : m'.Unread := by
  obtain ⟨a, cs, -, -, -, hlog⟩ := callback_eq_some hresult
  exact h.add hcb hlog

theorem Unread.acceptCb (h : m.Unread) (hcb : m.acceptCb app i = some m') : m'.Unread := by
  obtain ⟨a, -, rfl⟩ := Option.map_eq_some_iff.mp hcb
  exact h.add (by simp) rfl

theorem Unread.drainAndClose (h : m.Unread) (hclose : m.drainAndClose T app i = some m') : m'.Unread := by
  obtain ⟨m₁, hm₁, rfl⟩ := Option.map_eq_some_iff.mp hclose
  show m₁.Unread
  refine Runs.foldlM_keeps (R := Unread) (fun b info b' _ hb hcb => ?_) h hm₁
  obtain ⟨a, -, rfl⟩ := Option.map_eq_some_iff.mp hcb
  exact hb.add (by simp) rfl

theorem Unread.readLast (h : m.Unread) : m.ReadLast T app env := fun i buffer hmem => absurd hmem (h i buffer)

theorem readLast_readCb (h : m.Unread) {buffer : Bytes} (hcb : m.readCb T app env i buffer = some m') :
    m'.ReadLast T app env := by
  intro j buffer' hmem
  obtain ⟨a, cs, -, -, -, hlog⟩ := callback_eq_some hcb
  rw [hlog] at hmem
  rcases List.mem_append.mp hmem with hmem | hmem
  · exact absurd hmem (h j buffer')
  · obtain ⟨rfl, rfl⟩ : j = i ∧ buffer' = buffer := by simpa using hmem
    exact ⟨m, hcb⟩

theorem readLast_clientEvent {sub : Submission} {c : Completion ε} (h : m.Unread)
    (hhandled : m.clientEvent T app sub i c = some m') : m'.ReadLast T app c.env := by
  refine clientEvent_rule hhandled
    (fun s _ _ _ _ hclose => (Unread.drainAndClose (m := m.onTcp fun _ => s) h hclose).readLast)
    (fun _ _ => (h.onTcp _).readLast) (fun hT _ _ _ hplain => ?_) (fun hT _ _ _ htls => ?_)
  · subst hT
    refine plainHandler_rule hplain (R := ReadLast .nonTls app c.env) (fun _ s _ hm' => ?_)
      (fun _ _ _ _ => (h.onTcp _).readLast) (fun _ _ rest _ _ _ hm' => ?_) (fun _ _ _ hm' => ?_) h.readLast
    · exact readLast_readCb (m := m.onTcp fun _ => s) h hm'
    · exact (Unread.callback (m := m.onTcp fun s => (s.endWrite i).writeNext i rest) h (by simp) hm').readLast
    · exact (Unread.callback (m := m.onTcp fun s => s.endWrite i) h (by simp) hm').readLast
  · subst hT
    refine tlsHandler_rule htls (R := ReadLast .tls app c.env) (fun _ _ => (h.onTcp _).readLast)
      (fun _ _ s _ _ hm' => ?_) (fun _ s m₁ _ _ hm₁ _ => ?_) (fun _ _ s m₁ s₁ _ _ hm₁ _ hm' => ?_)
      (fun _ _ s _ rest m₁ _ _ _ hm₁ _ => ?_)
    · exact readLast_readCb (m := m.onTcp fun _ => s) h hm'
    · have haccepted : m₁.Unread := Unread.acceptCb (m := m.onTcp fun _ => s) h hm₁
      exact Unread.readLast haccepted
    · have haccepted : m₁.Unread := Unread.acceptCb (m := m.onTcp fun _ => s) h hm₁
      exact readLast_readCb (m := m₁.onTcp fun _ => s₁) haccepted hm'
    · have hwritten : m₁.Unread := Unread.callback (m := m.onTcp fun _ => s.setQueue i rest) h (by simp) hm₁
      exact Unread.readLast hwritten

/-- A read callback is the last thing that a round of the loop does. -/
theorem readLast_step {c : Completion ε} {log : List Callback} (hstep : step T app m c = some (m', log)) :
    m'.ReadLast T app c.env := by
  obtain ⟨sub, -, hhandled, -⟩ := step_eq_some hstep
  have htaken : (m.take c).Unread := by simp [Unread]
  refine dispatch_rule hhandled (R := ReadLast T app c.env) (fun _ => ?_) (fun _ hm' => ?_) (fun hevent hm' => ?_)
    (fun _ m₁ hm₁ => ?_) (fun _ _ hm' => ?_) (fun _ _ => ?_) (fun i _ _ hm' => readLast_clientEvent htaken hm')
  · exact Unread.readLast htaken
  · exact (Unread.callback (m := (m.take c).onTcp fun s => s.addEventReq .notification) htaken (by simp)
      hm').readLast
  · rcases customRead_cases hm' with ⟨-, cs, -, -, hlog⟩ | rfl
    · exact (htaken.add (by simp) hlog).readLast
    · exact Unread.readLast htaken
  · have hswept : m₁.Unread := sweep_rule hm₁ htaken fun _ _ _ _ _ hx hclose => hx.drainAndClose hclose
    exact Unread.readLast hswept
  · obtain ⟨m₁, hm₁, rfl⟩ := Option.map_eq_some_iff.mp hm'
    have haccepted : m₁.Unread := by
      apply Unread.acceptCb _ hm₁
      exact htaken
    exact Unread.readLast haccepted
  · exact Unread.readLast htaken
end Machine

end LiburingServer
