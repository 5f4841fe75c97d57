import LiburingServer.WebDescriptors
import LiburingServer.WebReads

/-! The read of the inotify descriptor, which the web server starts before its loop and starts again in the callback of
each event: the server never stops watching the files of its cache. -/

namespace LiburingServer

open TcpServer

variable {N : ℕ}

/-- The reads of the inotify descriptor. -/
def watchReads (inotifyFd : ℤ) (reads : List (Request × Option Bytes)) : List (Request × Option Bytes) :=
  reads.filter fun r => r.1.customInfo = inotifyFd

theorem watchReads_append (inotifyFd : ℤ) (reads reads' : List (Request × Option Bytes)) :
    watchReads inotifyFd (reads ++ reads') = watchReads inotifyFd reads ++ watchReads inotifyFd reads' :=
  List.filter_append ..

theorem watchReads_cons (inotifyFd : ℤ) (r : Request × Option Bytes) (reads : List (Request × Option Bytes)) :
    watchReads inotifyFd (r :: reads) =
      (if r.1.customInfo = inotifyFd then [r] else []) ++ watchReads inotifyFd reads := by
  by_cases h : r.1.customInfo = inotifyFd <;> simp [watchReads, h]

theorem watchReads_eq_nil {inotifyFd : ℤ} {reads : List (Request × Option Bytes)}
    (h : ∀ fd ∈ reads.map fun r => r.1.customInfo, fd ≠ inotifyFd) : watchReads inotifyFd reads = [] := by
  refine List.filter_eq_nil_iff.mpr fun r hr => ?_
  simpa using h _ (List.mem_map.mpr ⟨r, hr, rfl⟩)

/-- The read that waits for the next event. -/
def watchRead (inotifyFd : ℤ) : Request × Option Bytes :=
  (.customRead inotifyFd inotifyEventSize none [] 0, none)

/-- What the callback for a completed read of the inotify descriptor starts. -/
def rewatches (inotifyFd : ℤ) : Callback → List (Request × Option Bytes)
  | .customRead _ fd _ => if fd = inotifyFd then [watchRead inotifyFd] else []
  | _ => []

namespace WebServer

variable {w w' : WebServer N} {cs : List TcpCall}

/-- Only the callback for an inotify event reads the inotify descriptor, and it does so once. -/
theorem watchReads_invoke {env : WebEnv} (cb : Callback) (hnew : ∀ n, (env.files n).1 ≠ w.inotifyFd)
    (h : (webApp N).invoke w (env, cb) = some (w', cs)) :
    w'.inotifyFd = w.inotifyFd ∧ watchReads w.inotifyFd (cs.filterMap TcpCall.read) = rewatches w.inotifyFd cb := by
  obtain ⟨hfd, hfiles⟩ := fileFds_invoke hnew h
  refine ⟨hfd, ?_⟩
  cases cb with
  | customRead i fd buffer =>
      rcases customReadCb_cases (show w.customReadCb env i fd buffer = some (w', cs) from h) with
        ⟨rfl, -, hcs⟩ | ⟨hother, j, p, -, -, -, -, hcs⟩
      · simp only at hcs
        rw [hcs]
        simp [watchReads, rewatches, TcpCall.read, watchRead]
      · rw [rewatches, if_neg hother]
        rcases hcs with ⟨ptr, size, hcs, -⟩ | hcs
        all_goals
          simp only at hcs
          rw [hcs]
          rfl
  | read i buffer =>
      have hcb : w.readCb env i buffer = some (w', cs) := h
      rcases readCb_cases hcb with hkeeps | ⟨p, hread, -⟩ | ⟨-, hcs, -, -⟩
      · rw [filterMap_read_mild hkeeps.calls]
        rfl
      · unfold diskRead at hread
        obtain ⟨hvalid, hpath⟩ : isValidHttpReq buffer = true ∧ _ := by simpa using hread
        cases hreq : parseRequest (buffer ++ env.beyond) with
        | none => simp [hreq] at hpath
        | some req =>
            have hresponds : w.respond env i req = some (w', cs) := by
              simpa [readCb, hvalid, hreq] using hcb
            refine watchReads_eq_nil fun fd hfd => ?_
            rw [(respond_reads hresponds).2] at hfd
            split at hfd
            · cases hfd
            · obtain ⟨n, rfl⟩ := HttpRequest.mem_openedFds hfd
              exact hnew n
      · simp only at hcs
        rw [hcs]
        rfl
  | accept i =>
      obtain ⟨-, rfl⟩ : w.newTcpClient i = w' ∧ [] = cs := by simpa [App.invoke, webApp] using h
      rfl
  | close i info =>
      obtain ⟨-, rfl⟩ : w.closeCb i info = some w' ∧ [] = cs := by simpa [App.invoke, webApp] using h
      rfl
  | write i info =>
      obtain ⟨w₁, -, -, hcs⟩ := writeCb_cases (show w.writeCb i info = some (w', cs) from h)
      rcases hcs with hcs | ⟨-, j, hcs⟩ | ⟨-, hcs⟩
      all_goals
        simp only at hcs
        rw [hcs]
        rfl
  | event =>
      obtain ⟨-, rfl⟩ : (w.eventCb env).1 = w' ∧ (w.eventCb env).2 = cs := Prod.mk.inj (Option.some.inj h)
      unfold eventCb
      dsimp only
      split <;> rfl

/-- The callbacks of one round of the loop. -/
theorem watchReads_exec {es : List (WebEnv × Callback)} {calls : List (List TcpCall)}
    (hnew : ∀ e ∈ es, ∀ n, (e.1.files n).1 ≠ w.inotifyFd)
    (hrun : Runs.exec (webApp N).invoke w es = some (w', calls)) :
    w'.inotifyFd = w.inotifyFd ∧ watchReads w.inotifyFd (calls.flatten.filterMap TcpCall.read) =
      es.flatMap fun e => rewatches w.inotifyFd e.2 := by
  induction es generalizing w calls with
  | nil =>
      obtain ⟨rfl, rfl⟩ : w = w' ∧ [] = calls := by simpa [Runs.exec] using hrun
      exact ⟨rfl, rfl⟩
  | cons e es ih =>
      obtain ⟨w₁, cs₁, calls₂, hcb, hrest, rfl⟩ := Runs.exec_cons hrun
      obtain ⟨hfd, hwatch⟩ := watchReads_invoke e.2 (hnew e (by simp)) hcb
      obtain ⟨hfd', hwatch'⟩ := ih (fun e he => hfd ▸ hnew e (List.mem_cons_of_mem _ he)) hrest
      refine ⟨hfd'.trans hfd, ?_⟩
      rw [List.flatten_cons, List.filterMap_append, watchReads_append, hwatch, ← hfd, hwatch', hfd, List.flatMap_cons]

end WebServer

namespace Machine

variable {T : ServerType} {m m' : Machine (WebServer N)}

/-- One read of the inotify descriptor is in flight. -/
def Watches (m : Machine (WebServer N)) (req : Request) : Prop :=
  watchReads m.app.inotifyFd m.tcp.reads = [(req, none)] ∧ req.clientIdx = none ∧
    req.readData.length = inotifyEventSize

theorem watches_watchRead {inotifyFd : ℤ} (hfd : m.app.inotifyFd = inotifyFd)
    (h : watchReads inotifyFd m.tcp.reads = [watchRead inotifyFd]) :
    m.Watches (.customRead inotifyFd inotifyEventSize none [] 0) := by
  refine ⟨?_, rfl, ?_⟩
  · rw [hfd, h]
    rfl
  · simp [inotifyEventSize]

/-- A custom read that is completed is taken from those in flight. -/
theorem reads_take {c : Completion WebEnv} {sub : Submission} (hsub : m.tcp.inflight[c.index]? = some sub)
    (hevent : sub.req.event = .customRead) : ∃ r₁ r₂, m.tcp.reads = r₁ ++ (sub.req, sub.file) :: r₂ ∧
      (m.take c).tcp.reads = r₁ ++ r₂ := by
  obtain ⟨l₁, l₂, hl, herase⟩ := InFlight.exists_split hsub
  refine ⟨TcpServer.reads { inflight := l₁ }, TcpServer.reads { inflight := l₂ }, ?_, ?_⟩
  · simp [TcpServer.reads, customReads, hl, hevent]
  · simp [TcpServer.reads, customReads, herase]

/-- What a completed custom read leaves in flight for the inotify descriptor. -/
theorem watchReads_customRead {env : WebEnv} {sub : Submission} {res : ℤ} {data : Bytes} (inotifyFd : ℤ)
    (hm : m.app.inotifyFd = inotifyFd) (hnew : ∀ n, (env.files n).1 ≠ inotifyFd)
    (hevent : sub.req.event = .customRead) (hread : m.customRead T (webApp N) env sub res data = some m') :
    m'.app.inotifyFd = inotifyFd ∧ ∃ x : Request × Option Bytes,
      watchReads inotifyFd m'.tcp.reads =
        watchReads inotifyFd m.tcp.reads ++ (if sub.req.customInfo = inotifyFd then [x] else []) ∧
      (x = watchRead inotifyFd ∨ x.2 = sub.file ∧ x.1.clientIdx = sub.req.clientIdx ∧
        x.1.readData.length = sub.req.readData.length) := by
  subst hm
  rw [Machine.customRead_eq, Request.complete] at hread
  split_ifs at hread with hover hfull
  · obtain ⟨a, cs, hresult, hcalls, rfl, -⟩ := callback_eq_some hread
    obtain ⟨hfd, hwatch⟩ := WebServer.watchReads_invoke
      (.customRead sub.req.clientIdx sub.req.customInfo (stored sub.req res data)) hnew hresult
    refine ⟨hfd, watchRead m.app.inotifyFd, ?_, Or.inl rfl⟩
    rw [reads_calls hcalls, watchReads_append, hwatch]
    rfl
  · obtain rfl := Option.some.inj hread
    refine ⟨rfl, ({ sub.req with
        readData := stored sub.req res data
        readAmount := ((sub.req.readAmount + res) % 2 ^ 64).toNat }, sub.file), ?_,
      Or.inr ⟨rfl, rfl, Request.stored_length hover⟩⟩
    rw [onTcp_tcp, reads_submit (by exact hevent), watchReads_append, watchReads_cons]
    simp only [watchReads, List.filter_nil, List.append_nil]

/-- **One round of the loop.** The read of the inotify descriptor that completes is started again. -/
theorem watches_step {c : Completion WebEnv} {log : List Callback} {req : Request}
    (hnew : ∀ n, (c.env.files n).1 ≠ m.app.inotifyFd) (h : m.Watches req)
    (hstep : step T (webApp N) m c = some (m', log)) :
    m'.app.inotifyFd = m.app.inotifyFd ∧ ∃ req', m'.Watches req' := by
  obtain ⟨hone, hidx, hlength⟩ := h
  by_cases hcustom : ∃ sub, m.tcp.inflight[c.index]? = some sub ∧ sub.req.event = .customRead
  · obtain ⟨sub, hsub, hevent⟩ := hcustom
    obtain ⟨sub', hsub', hhandled, -⟩ := step_eq_some hstep
    obtain rfl : sub = sub' := Option.some.inj (hsub.symm.trans hsub')
    have hread : (m.take c).customRead T (webApp N) c.env sub c.res c.data = some m' := by
      simpa [dispatch, hevent] using hhandled
    obtain ⟨r₁, r₂, hreads, htaken⟩ := reads_take hsub hevent
    obtain ⟨hfd, x, hafter, hx⟩ := watchReads_customRead (m := m.take c) m.app.inotifyFd rfl hnew hevent hread
    refine ⟨hfd, ?_⟩
    rw [htaken, watchReads_append] at hafter
    rw [hreads, watchReads_append, watchReads_cons] at hone
    by_cases hwatched : sub.req.customInfo = m.app.inotifyFd
    · rw [if_pos hwatched] at hone hafter
      have hcount := congrArg List.length hone
      simp only [List.length_append, List.length_cons, List.length_nil] at hcount
      have h₁ : watchReads m.app.inotifyFd r₁ = [] := List.length_eq_zero_iff.mp (by omega)
      have h₂ : watchReads m.app.inotifyFd r₂ = [] := List.length_eq_zero_iff.mp (by omega)
      rw [h₁, h₂] at hone hafter
      obtain ⟨hreq, hfile⟩ : sub.req = req ∧ sub.file = none := by simpa using hone
      rcases hx with rfl | ⟨hxfile, hxidx, hxlength⟩
      · exact ⟨_, watches_watchRead hfd hafter⟩
      · refine ⟨x.1, ?_, by rw [hxidx, hreq, hidx], by rw [hxlength, hreq, hlength]⟩
        rw [hfd, hafter, ← hxfile.trans hfile]
        rfl
    · rw [if_neg hwatched, List.nil_append] at hone
      rw [if_neg hwatched, List.append_nil] at hafter
      exact ⟨req, by rw [hfd, hafter, hone], hidx, hlength⟩
  · obtain ⟨sub, calls, hsub, hcalls, hreads⟩ := replays_step hstep
    rw [if_neg fun hevent => hcustom ⟨sub, hsub, hevent⟩] at hreads
    obtain ⟨hfd, hwatch⟩ := WebServer.watchReads_exec (fun e he => by
      obtain ⟨cb, -, rfl⟩ := List.mem_map.mp he
      exact hnew) hcalls
    refine ⟨hfd, req, ?_, hidx, hlength⟩
    have hnone : (log.map fun cb => (c.env, cb)).flatMap (fun e => rewatches m.app.inotifyFd e.2) = [] := by
      refine List.flatMap_eq_nil_iff.mpr fun e he => ?_
      obtain ⟨cb, hcb, rfl⟩ := List.mem_map.mp he
      cases cb with
      | customRead i fd buffer => exact absurd hcb (hreads.2 i fd buffer)
      | _ => rfl
    rw [hfd, hreads.1, watchReads_append, hone, hwatch, hnone, List.append_nil]

theorem watches_start (N : ℕ) (inotifyFd : ℤ) :
    (webStart N inotifyFd).Watches (.customRead inotifyFd inotifyEventSize none [] 0) :=
  watches_watchRead rfl (by simp [watchReads, watchRead, webStart, start, TcpServer.reads, customReads, customReadReq,
    addEventReq])

/-- An event that the inotify descriptor yields as a whole is handled. -/
theorem watches_handled {sub : Submission} {c : Completion WebEnv} (h : m.Watches sub.req)
    (hactive : m.tcp.isActive = true) (hsub : m.tcp.inflight[c.index]? = some sub)
    (hevent : sub.req.event = .customRead) (hfd : sub.req.customInfo = m.app.inotifyFd)
    (hnone : sub.req.readAmount = 0) (hsize : c.data.length = inotifyEventSize) (hres : c.res = inotifyEventSize) :
    ∃ m', step T (webApp N) m c = some (m', [.customRead none m.app.inotifyFd c.data]) ∧
      m'.app = { m.app with webCache := m.app.webCache.inotifyEventHandler (inotifyWatch c.data) } := by
  obtain ⟨-, hidx, hlength⟩ := h
  have hstored : stored sub.req c.res c.data = c.data := by
    have htake : c.data.take c.res.toNat = c.data := List.take_of_length_le (by simp [hsize, hres])
    rw [stored, htake, hnone, hsize, ← hlength]
    simp
  have hcomplete : sub.req.complete c.res c.data = .finished c.data := by
    rw [Request.complete, hstored, if_neg, if_pos]
    · rw [hsize, hres, hnone]
      decide
    · rintro ⟨-, hover⟩
      rw [hlength, hnone, hres, List.length_take, hsize] at hover
      simp at hover
  have hhandled : ∃ m', dispatch T (webApp N) (m.take c) sub c = some m' ∧
      m'.log = [.customRead none m.app.inotifyFd c.data] ∧
      m'.app = { m.app with webCache := m.app.webCache.inotifyEventHandler (inotifyWatch c.data) } := by
    simp only [dispatch, hevent, Machine.customRead_eq, hcomplete, hidx, hfd]
    simp [callback, webApp, WebServer.customReadCb, calls, call, TcpCall.slots]
  obtain ⟨m', hm', hlog, happ⟩ := hhandled
  exact ⟨m', by simp [step, hsub, hactive, hm', hlog], happ⟩

end Machine

/-- **The inotify descriptor.** In every run of the web server of either type in which `open` never returns the
descriptor of the inotify instance, one read of that descriptor is in flight, for no client and with a buffer for one
event. While the server runs, an event that the descriptor yields as a whole is handled: the item of the watch it names
is marked as outdated, and no other callback is called. -/
theorem inotify_standing (T : ServerType) (N : ℕ) (inotifyFd : ℤ) (cs : List (Completion WebEnv))
    (m : Machine (WebServer N)) (logs : List (List Callback))
    (hopen : ∀ c ∈ cs, ∀ n, (c.env.files n).1 ≠ inotifyFd)
    (hrun : Runs.exec (Machine.step T (webApp N)) (webStart N inotifyFd) cs = some (m, logs)) :
    ∃ req : Request, watchReads inotifyFd m.tcp.reads = [(req, none)] ∧ req.clientIdx = none ∧
      req.readData.length = inotifyEventSize ∧
      (m.tcp.isActive = true → req.readAmount = 0 → ∃ n, ∀ c : Completion WebEnv, c.index = n →
        c.data.length = inotifyEventSize → c.res = inotifyEventSize →
        ∃ m', Machine.step T (webApp N) m c = some (m', [.customRead none inotifyFd c.data]) ∧
          m'.app = { m.app with webCache := m.app.webCache.inotifyEventHandler (inotifyWatch c.data) }) := by
  have h : m.app.inotifyFd = inotifyFd ∧ ∃ req, m.Watches req :=
    Runs.exec_invariant (Q := fun m : Machine (WebServer N) => m.app.inotifyFd = inotifyFd ∧ ∃ req, m.Watches req)
      (fun m c m' log hm hc hstep => by
        obtain ⟨hfd, req, hreq⟩ := hm
        obtain ⟨hfd', hkept⟩ := Machine.watches_step (fun n => hfd ▸ hc n) hreq hstep
        exact ⟨hfd'.trans hfd, hkept⟩)
      ⟨rfl, _, Machine.watches_start N inotifyFd⟩
      (Runs.along_of_mem (P := fun c : Completion WebEnv => ∀ n, (c.env.files n).1 ≠ inotifyFd) hopen) hrun
  obtain ⟨rfl, req, hwatch⟩ := h
  obtain ⟨hone, hidx, hlength⟩ := id hwatch
  refine ⟨req, hone, hidx, hlength, fun hactive hnone => ?_⟩
  have hmem : (req, none) ∈ watchReads m.app.inotifyFd m.tcp.reads := by simp [hone]
  obtain ⟨hread, hfd⟩ := List.mem_filter.mp hmem
  obtain ⟨sub, hsub, heq⟩ := List.mem_map.mp hread
  obtain ⟨hinflight, hevent⟩ := List.mem_filter.mp hsub
  obtain ⟨rfl, -⟩ := Prod.mk.inj heq
  obtain ⟨n, hn⟩ := List.mem_iff_getElem?.mp hinflight
  refine ⟨n, ?_⟩
  rintro c rfl hsize hres
  exact Machine.watches_handled hwatch hactive hn (of_decide_eq_true hevent) (of_decide_eq_true hfd) hnone hsize hres

/-- A client connects, and a first event arrives in two parts of which the second one is all zeros. -/
theorem inotify_standing_parts :
    ∃ m logs, Runs.exec (Machine.step .nonTls (webApp 2)) (webStart 2 7)
        [{ index := 4, res := 10, env := {} }, { index := 3, res := 4, data := [5, 0, 0, 0], env := {} },
          { index := 5, res := 12, data := List.replicate 12 0, env := {} }] = some (m, logs) ∧
      logs = [[.accept 0], [], [.customRead none 7 (5 :: List.replicate 15 0)]] ∧
      ∃ req : Request, watchReads 7 m.tcp.reads = [(req, none)] ∧ req.clientIdx = none := by
  have hsome : (Runs.exec (Machine.step .nonTls (webApp 2)) (webStart 2 7)
        [{ index := 4, res := 10, env := {} }, { index := 3, res := 4, data := [5, 0, 0, 0], env := {} },
          { index := 5, res := 12, data := List.replicate 12 0, env := {} }]).any
      (fun r => r.2 = [[.accept 0], [], [.customRead none 7 (5 :: List.replicate 15 0)]]) = true := by
    decide +kernel
  simp only [Option.any_eq_true, decide_eq_true_eq] at hsome
  obtain ⟨⟨m, logs⟩, hrun, hlogs⟩ := hsome
  obtain ⟨req, hone, hidx, -⟩ := inotify_standing .nonTls 2 7 _ m logs (by simp) hrun
  exact ⟨m, logs, hrun, hlogs, req, hone, hidx⟩

end LiburingServer
