import LiburingServer.WebFrame
import LiburingServer.TcpCallbacks

/-! The descriptors of the files that a worker opens. A file is opened before the cache is asked for it, and
closed when it has been read: a request that the cache serves leaves its descriptor open. -/

namespace LiburingServer

variable {N : ℕ}

/-- The descriptors that the handling of a request gets from `open`. -/
def HttpRequest.openedFds (env : WebEnv) (req : HttpRequest) : List ℤ :=
  let opened (n : ℕ) := if (env.files n).1 < 0 then [] else [(env.files n).1]
  if req.isGet then
    if req.isWebsocket then [] else if (env.files 0).1 < 0 then opened 1 else opened 0
  else opened 0

theorem HttpRequest.openedFds_of_fileRequest (env : WebEnv) (req : HttpRequest) :
    req.openedFds env = ((req.fileRequest env).map fun q => (env.files q.opening).1).toList := by
  unfold HttpRequest.openedFds HttpRequest.fileRequest
  dsimp only
  split_ifs <;> rfl

theorem HttpRequest.mem_openedFds {env : WebEnv} {req : HttpRequest} {fd : ℤ} (h : fd ∈ req.openedFds env) :
    ∃ n, (env.files n).1 = fd := by
  rw [openedFds_of_fileRequest, Option.mem_toList] at h
  obtain ⟨q, -, hq⟩ := Option.map_eq_some_iff.mp h
  exact ⟨q.opening, hq⟩

/-- A request for which a file is opened gets a descriptor. -/
theorem HttpRequest.openedFds_ne_nil {env : WebEnv} {req : HttpRequest} {p : Bytes}
    (h : WebServer.openedFile env req = some p) : req.openedFds env ≠ [] := by
  rw [WebServer.openedFile_eq] at h
  obtain ⟨q, hq, -⟩ := Option.map_eq_some_iff.mp h
  simp [openedFds_of_fileRequest, hq]

/-- The descriptors that a callback gets from `open`. -/
def openedFds : WebEnv × Callback → List ℤ
  | (env, .read _ buffer) =>
      if isValidHttpReq buffer then
        ((parseRequest (buffer ++ env.beyond)).map (HttpRequest.openedFds env)).getD []
      else []
  | _ => []

/-- The descriptor that a callback closes. -/
def closedFds (inotifyFd : ℤ) : WebEnv × Callback → List ℤ
  | (_, .customRead _ fd _) => if fd = inotifyFd then [] else [fd]
  | _ => []

/-- The descriptors of the files that are being read. -/
def fileFds (inotifyFd : ℤ) (reads : List (Request × Option Bytes)) : List ℤ :=
  (reads.map fun r => r.1.customInfo).filter (· ≠ inotifyFd)

theorem fileFds_append (inotifyFd : ℤ) (reads reads' : List (Request × Option Bytes)) :
    fileFds inotifyFd (reads ++ reads') = fileFds inotifyFd reads ++ fileFds inotifyFd reads' := by
  simp [fileFds]

theorem TcpCall.Mild.read {c : TcpCall} (h : c.Mild) : c.read = none := by
  cases c with
  | customReadReq fd toRead clientIdx buff readAmount file => exact h.elim
  | _ => rfl

theorem filterMap_read_mild {cs : List TcpCall} (h : ∀ c ∈ cs, c.Mild) : cs.filterMap TcpCall.read = [] :=
  List.filterMap_eq_nil_iff.mpr fun c hc => (h c hc).read

namespace WebServer

/-- The file that a callback answers with from the cache. -/
def servedFile (w : WebServer N) : WebEnv × Callback → Option Bytes
  | (env, .read _ buffer) =>
      if isValidHttpReq buffer then
        ((parseRequest (buffer ++ env.beyond)).bind (openedFile env)).filter fun p => w.webCache.serves p
      else none
  | _ => none

/-- The callback answers no request from the cache. -/
def MissesCache (w : WebServer N) (e : WebEnv × Callback) : Prop := w.servedFile e = none

instance (w : WebServer N) (e : WebEnv × Callback) : Decidable (w.MissesCache e) :=
  inferInstanceAs (Decidable (w.servedFile e = none))

variable {w w' : WebServer N} {i : ℕ} {env : WebEnv} {cs : List TcpCall} {r : WebServer N × List TcpCall}

/-- The custom reads that a file request starts: one of the file that was opened, unless the cache has it. -/
theorem sendFileRequest_reads {n code : ℕ} {p : Bytes} {accept opened : Bool}
    (h : w.sendFileRequest env n i p accept code = some (w', cs, opened)) :
    w'.inotifyFd = w.inotifyFd ∧ opened = !decide ((env.files n).1 < 0) ∧
      (cs.filterMap TcpCall.read).map (fun r => r.1.customInfo) =
        if (env.files n).1 < 0 ∨ w.webCache.serves p then [] else [(env.files n).1] := by
  unfold sendFileRequest at h
  dsimp only at h
  split at h
  · rename_i hfailed
    obtain ⟨rfl, rfl, rfl⟩ : w = w' ∧ [] = cs ∧ false = opened := by simpa using h
    simp [hfailed]
  · rename_i hfd
    split at h
    · cases h
    · split at h
      · cases h
      · rename_i hfetch
        have hfound := (Cache.fetchItem_found hfetch).1
        split_ifs at h with hsize hhit
        · obtain ⟨rfl, rfl, rfl⟩ : _ ∧ _ ∧ _ := by simpa only [Option.some.injEq, Prod.mk.injEq] using h
          have hserved : w.webCache.serves p = true := hfound.symm.trans hhit
          refine ⟨rfl, by rw [decide_eq_false hfd]; rfl, ?_⟩
          rw [if_pos (Or.inr hserved)]
          rfl
        · obtain ⟨rfl, rfl, rfl⟩ : _ ∧ _ ∧ _ := by simpa only [Option.some.injEq, Prod.mk.injEq] using h
          have hmissed : ¬w.webCache.serves p = true := fun hserved => hhit (hfound.trans hserved)
          refine ⟨rfl, by rw [decide_eq_false hfd]; rfl, ?_⟩
          rw [if_neg (not_or_intro hfd hmissed)]
          rfl

theorem Keeps.inotifyFd_reads (h : w.Keeps r) :
    r.1.inotifyFd = w.inotifyFd ∧ r.2.filterMap TcpCall.read = [] :=
  ⟨h.steady.inotifyFd, filterMap_read_mild h.calls⟩

/-- The custom reads that the answer to a request starts. -/
theorem respond_reads {req : HttpRequest} (h : w.respond env i req = some r) :
    r.1.inotifyFd = w.inotifyFd ∧
      (r.2.filterMap TcpCall.read).map (fun r => r.1.customInfo) =
        if (openedFile env req).any w.webCache.serves then [] else req.openedFds env := by
  rw [openedFile_eq, HttpRequest.openedFds_of_fileRequest]
  rcases respond_eq_some h with ⟨r₁, again, ⟨hget, hws⟩, hr₁, rfl, hagain⟩ |
    ⟨-, ⟨q, w₁, cs₁, again, hq, hsent, rfl, hagain⟩ | ⟨hq, rfl⟩⟩
  · obtain ⟨hfd, hreads⟩ := (websocketAcceptReadCb_keeps hr₁).inotifyFd_reads
    refine ⟨hfd, ?_⟩
    simp [hreads, filterMap_read_mild (mild_again hagain), HttpRequest.fileRequest, hget, hws]
  · obtain ⟨hfd, hopened, hreads⟩ := sendFileRequest_reads hsent
    have hnonneg : ¬(env.files q.opening).1 < 0 := by simpa using hopened.symm
    refine ⟨hfd, ?_⟩
    simp [hreads, filterMap_read_mild (mild_again hagain), hq, hnonneg]
  · simp [hq]

/-- A callback reads what it opens, unless it answers from the cache. -/
theorem fileFds_invoke {e : WebEnv × Callback} (hnew : ∀ n, (e.1.files n).1 ≠ w.inotifyFd)
    (h : (webApp N).invoke w e = some (w', cs)) :
    w'.inotifyFd = w.inotifyFd ∧
      fileFds w.inotifyFd (cs.filterMap TcpCall.read) = if w.MissesCache e then openedFds e else [] := by
  obtain ⟨env, cb⟩ := e
  have hquiet : openedFds (env, cb) = [] → w'.inotifyFd = w.inotifyFd → cs.filterMap TcpCall.read = [] →
      w'.inotifyFd = w.inotifyFd ∧ fileFds w.inotifyFd (cs.filterMap TcpCall.read) =
        if w.MissesCache (env, cb) then openedFds (env, cb) else [] := by
    intro hopened hfd hreads
    refine ⟨hfd, ?_⟩
    rw [hopened, hreads, ite_self]
    rfl
  cases cb with
  | accept i =>
      obtain ⟨rfl, rfl⟩ : w.newTcpClient i = w' ∧ [] = cs := by simpa [App.invoke, webApp] using h
      exact hquiet rfl rfl rfl
  | close i info =>
      obtain ⟨hclose, rfl⟩ : w.closeCb i info = some w' ∧ [] = cs := by simpa [App.invoke, webApp] using h
      obtain ⟨w₁, hused, hsteady⟩ := closeCb_cases hclose
      exact hquiet rfl (hsteady.inotifyFd.trans (broadcastUsed_rest hused).2.1) rfl
  | read i buffer =>
      have hcb : w.readCb env i buffer = some (w', cs) := h
      unfold readCb at hcb
      by_cases hvalid : isValidHttpReq buffer
      · rw [if_pos hvalid] at hcb
        cases hreq : parseRequest (buffer ++ env.beyond) with
        | none => simp [hreq] at hcb
        | some req =>
            rw [hreq] at hcb
            obtain ⟨hfd, hreads⟩ := respond_reads hcb
            refine ⟨hfd, ?_⟩
            have hserved : w.MissesCache (env, .read i buffer) ↔
                ¬(openedFile env req).any w.webCache.serves = true := by
              simp only [MissesCache, servedFile, hvalid, hreq, if_true, Option.bind_some]
              cases openedFile env req with
              | none => simp
              | some p => simp [Option.filter]
            have hopened : openedFds (env, .read i buffer) = req.openedFds env := by
              simp [openedFds, hvalid, hreq]
            have hkept : (req.openedFds env).filter (· ≠ w.inotifyFd) = req.openedFds env := by
              refine List.filter_eq_self.mpr fun fd hfd => ?_
              obtain ⟨n, rfl⟩ := HttpRequest.mem_openedFds hfd
              exact decide_eq_true (hnew n)
            rw [fileFds, hreads, hopened]
            by_cases hhit : (openedFile env req).any w.webCache.serves = true
            · rw [if_pos hhit, if_neg (fun hmiss => hserved.mp hmiss hhit)]
              rfl
            · rw [if_neg hhit, if_pos (hserved.mpr hhit), hkept]
      · have hopened : openedFds (env, .read i buffer) = [] := by simp [openedFds, hvalid]
        rw [if_neg hvalid] at hcb
        split at hcb
        · obtain ⟨r', hr', heq⟩ := Option.map_eq_some_iff.mp hcb
          obtain ⟨rfl, rfl⟩ := Prod.mk.inj heq
          obtain ⟨hfd, hreads⟩ := (websocketProcessReadCb_keeps hr').inotifyFd_reads
          exact hquiet hopened hfd (by simp [hreads, TcpCall.read])
        · obtain ⟨hsteady, hcs⟩ := closeConnection_steady hcb
          obtain rfl : cs = [.closeConnection i] := hcs
          exact hquiet hopened hsteady.inotifyFd rfl
  | write i info =>
      obtain ⟨w₁, hused, hsteady, hcs⟩ := writeCb_cases (show w.writeCb i info = some (w', cs) from h)
      apply hquiet rfl (hsteady.inotifyFd.trans (broadcastUsed_rest hused).2.1)
      rcases hcs with hcs | ⟨-, j, hcs⟩ | ⟨-, hcs⟩
      all_goals
        simp only at hcs
        rw [hcs]
        rfl
  | event =>
      obtain ⟨rfl, rfl⟩ : (w.eventCb env).1 = w' ∧ (w.eventCb env).2 = cs := Prod.mk.inj (Option.some.inj h)
      have hevent : (w.eventCb env).1.inotifyFd = w.inotifyFd ∧
          (w.eventCb env).2.filterMap TcpCall.read = [] := by
        unfold eventCb
        dsimp only
        split
        · exact ⟨rfl, rfl⟩
        · exact ⟨rfl, rfl⟩
      exact hquiet rfl hevent.1 hevent.2
  | customRead i fd buffer =>
      rcases customReadCb_cases (show w.customReadCb env i fd buffer = some (w', cs) from h) with
        ⟨-, hsteady, hcs⟩ | ⟨-, j, p, -, -, hsteady, -, hcs⟩
      · simp only at hcs
        refine ⟨hsteady.inotifyFd, ?_⟩
        rw [hcs]
        simp [fileFds, TcpCall.read, openedFds]
      · refine hquiet rfl hsteady.inotifyFd ?_
        rcases hcs with ⟨ptr, size, hcs, -⟩ | hcs
        all_goals
          simp only at hcs
          rw [hcs]
          rfl

/-- A callback that answers from the cache has opened the file. -/
theorem openedFds_ne_nil {e : WebEnv × Callback} (h : ¬w.MissesCache e) : openedFds e ≠ [] := by
  obtain ⟨env, cb⟩ := e
  cases cb with
  | read i buffer =>
      simp only [MissesCache, servedFile] at h
      split at h
      · rename_i hvalid
        cases hreq : parseRequest (buffer ++ env.beyond) with
        | none => simp [hreq] at h
        | some req =>
            rw [hreq, Option.bind_some] at h
            cases hopened : openedFile env req with
            | none => simp [hopened] at h
            | some p => simpa [openedFds, hvalid, hreq] using HttpRequest.openedFds_ne_nil hopened
      · simp at h
  | _ => exact absurd rfl h

/-- What callbacks open they read, but for what is left open by answers from the cache. -/
theorem openedFds_exec {es : List (WebEnv × Callback)} {calls : List (List TcpCall)}
    (hnew : ∀ e ∈ es, ∀ n, (e.1.files n).1 ≠ w.inotifyFd)
    (hrun : Runs.exec (webApp N).invoke w es = some (w', calls)) :
    w'.inotifyFd = w.inotifyFd ∧ ∃ left, (es.flatMap openedFds).Perm
        (fileFds w.inotifyFd (calls.flatten.filterMap TcpCall.read) ++ left) ∧
      (left = [] ↔ Runs.Along (webApp N).invoke MissesCache w es) := by
  induction es generalizing w calls with
  | nil =>
      obtain ⟨rfl, rfl⟩ : w = w' ∧ [] = calls := by simpa [Runs.exec] using hrun
      exact ⟨rfl, [], by simp [fileFds], by simp [Runs.Along]⟩
  | cons e es ih =>
      obtain ⟨w₁, cs₁, calls₂, hcb, hrest, rfl⟩ := Runs.exec_cons hrun
      obtain ⟨hfd, hfds⟩ := fileFds_invoke (hnew e (by simp)) hcb
      obtain ⟨hfd', left, hperm, hleft⟩ := ih (fun e he => hfd ▸ hnew e (List.mem_cons_of_mem _ he)) hrest
      refine ⟨hfd'.trans hfd, (if w.MissesCache e then [] else openedFds e) ++ left, ?_, ?_⟩
      · rw [hfd] at hperm
        refine List.perm_iff_count.mpr fun fd => ?_
        have hcount := hperm.count_eq fd
        simp only [List.flatMap_cons, List.flatten_cons, List.filterMap_append, fileFds_append, hfds,
          List.count_append] at hcount ⊢
        split
        · simp only [List.count_nil]
          omega
        · simp only [List.count_nil]
          omega
      · have halong : Runs.Along (webApp N).invoke MissesCache w (e :: es) ↔
            w.MissesCache e ∧ Runs.Along (webApp N).invoke MissesCache w₁ es := by simp [Runs.Along, hcb]
        rw [halong, ← hleft, List.append_eq_nil_iff]
        by_cases hmiss : w.MissesCache e
        · simp [hmiss]
        · simp [hmiss, openedFds_ne_nil hmiss]

end WebServer

namespace Machine

variable {T : ServerType} {m m' : Machine (WebServer N)}

/-- The callbacks of one event close what is no longer read. -/
theorem openedFds_step {c : Completion WebEnv} {log : List Callback}
    (hnew : ∀ n, (c.env.files n).1 ≠ m.app.inotifyFd) (hstep : step T (webApp N) m c = some (m', log)) :
    m'.app.inotifyFd = m.app.inotifyFd ∧ ∃ left,
      ((log.map fun cb => (c.env, cb)).flatMap openedFds ++ fileFds m.app.inotifyFd m.tcp.reads).Perm
        ((log.map fun cb => (c.env, cb)).flatMap (closedFds m.app.inotifyFd) ++
          fileFds m.app.inotifyFd m'.tcp.reads ++ left) ∧
      (left = [] ↔ Runs.Along (webApp N).invoke WebServer.MissesCache m.app (log.map fun cb => (c.env, cb))) := by
  obtain ⟨sub, calls, -, hcalls, hreads⟩ := replays_step hstep
  have hnewAll : ∀ e ∈ log.map fun cb => (c.env, cb), ∀ n, (e.1.files n).1 ≠ m.app.inotifyFd := by
    intro e he
    obtain ⟨cb, -, rfl⟩ := List.mem_map.mp he
    exact hnew
  obtain ⟨hfd, left, hperm, hleft⟩ := WebServer.openedFds_exec hnewAll hcalls
  refine ⟨hfd, left, List.perm_iff_count.mpr fun fd => ?_, hleft⟩
  have hcount := hperm.count_eq fd
  rw [List.count_append] at hcount
  rw [List.count_append, List.count_append, List.count_append]
  split at hreads
  · obtain ⟨others, htaken, hdone⟩ := hreads
    have hbefore : (fileFds m.app.inotifyFd m.tcp.reads).count fd =
        (fileFds m.app.inotifyFd ((sub.req, sub.file) :: others)).count fd :=
      ((htaken.map _).filter _).count_eq fd
    rcases hdone with ⟨-, hlog, hafter⟩ | ⟨hlog, hafter⟩
    · rw [hbefore, hafter, fileFds_append, List.count_append, hcount]
      have hclosed : fileFds m.app.inotifyFd ((sub.req, sub.file) :: others) =
          (log.map fun cb => (c.env, cb)).flatMap (closedFds m.app.inotifyFd) ++
            fileFds m.app.inotifyFd others := by
        by_cases hinotify : sub.req.customInfo = m.app.inotifyFd
        · simp [fileFds, hlog, closedFds, hinotify]
        · simp [fileFds, hlog, closedFds, hinotify]
      rw [hclosed, List.count_append]
      omega
    · subst hlog
      obtain rfl : calls = [] := by simpa [Runs.exec] using congrArg (Option.map Prod.snd) hcalls
      rw [hbefore, hafter, fileFds_append, List.count_append]
      have hsame : fileFds m.app.inotifyFd ((sub.req, sub.file) :: others) =
          fileFds m.app.inotifyFd [({ sub.req with
              readData := stored sub.req c.res c.data,
              readAmount := ((sub.req.readAmount + c.res) % 2 ^ 64).toNat }, sub.file)] ++
            fileFds m.app.inotifyFd others := by
        by_cases hinotify : sub.req.customInfo = m.app.inotifyFd
        · simp [fileFds, hinotify]
        · simp [fileFds, hinotify]
      rw [hsame, List.count_append]
      simp only [List.map_nil, List.flatMap_nil, List.count_nil] at hcount ⊢
      omega
  · obtain ⟨hafter, hnone⟩ := hreads
    have hclosed : (log.map fun cb => (c.env, cb)).flatMap (closedFds m.app.inotifyFd) = [] := by
      refine List.flatMap_eq_nil_iff.mpr fun e he => ?_
      obtain ⟨cb, hcb, rfl⟩ := List.mem_map.mp he
      cases cb with
      | customRead idx fd buffer => exact absurd hcb (hnone idx fd buffer)
      | _ => rfl
    rw [hafter, fileFds_append, List.count_append, hclosed, List.count_nil]
    omega

theorem openedFds_run {cs : List (Completion WebEnv)} {logs : List (List Callback)}
    (hnew : ∀ c ∈ cs, ∀ n, (c.env.files n).1 ≠ m.app.inotifyFd)
    (hrun : Runs.exec (step T (webApp N)) m cs = some (m', logs)) :
    m'.app.inotifyFd = m.app.inotifyFd ∧ ∃ left,
      ((invoked cs logs).flatMap openedFds ++ fileFds m.app.inotifyFd m.tcp.reads).Perm
        ((invoked cs logs).flatMap (closedFds m.app.inotifyFd) ++ fileFds m.app.inotifyFd m'.tcp.reads ++ left) ∧
      (left = [] ↔ Runs.Along (webApp N).invoke WebServer.MissesCache m.app (invoked cs logs)) := by
  induction cs generalizing m logs with
  | nil =>
      obtain ⟨rfl, rfl⟩ : m = m' ∧ [] = logs := by simpa [Runs.exec] using hrun
      exact ⟨rfl, [], by simp [invoked], by simp [invoked, Runs.Along]⟩
  | cons c cs ih =>
      obtain ⟨m₁, log, logs₁, hstep, hrest, rfl⟩ := Runs.exec_cons hrun
      obtain ⟨hfd, left, hperm, hleft⟩ := openedFds_step (hnew c (by simp)) hstep
      obtain ⟨hfd', left', hperm', hleft'⟩ :=
        ih (fun c hc => hfd ▸ hnew c (List.mem_cons_of_mem _ hc)) hrest
      obtain ⟨-, calls, -, hcalls, -⟩ := replays_step hstep
      refine ⟨hfd'.trans hfd, left ++ left', ?_, ?_⟩
      · rw [hfd] at hperm'
        rw [invoked_cons]
        refine List.perm_iff_count.mpr fun fd => ?_
        have hcount := hperm.count_eq fd
        have hcount' := hperm'.count_eq fd
        simp only [List.count_append, List.flatMap_append] at hcount hcount' ⊢
        omega
      · rw [invoked_cons, Runs.along_append hcalls, ← hleft, ← hleft', List.append_eq_nil_iff]

end Machine

/-- **The descriptors of a worker.** In every run of either server type in which `open` never returns the
descriptor of the inotify instance, each descriptor that was opened for a file is either that of one file read
in flight or has been closed once, and no other one is in flight or was closed, exactly if no request was
answered from the cache. -/
theorem descriptors_balanced_iff (T : ServerType) (N : ℕ) (inotifyFd : ℤ) (cs : List (Completion WebEnv))
    (m : Machine (WebServer N)) (logs : List (List Callback))
    (hopen : ∀ c ∈ cs, ∀ n, (c.env.files n).1 ≠ inotifyFd)
    (hrun : Runs.exec (Machine.step T (webApp N)) (webStart N inotifyFd) cs = some (m, logs)) :
    ((invoked cs logs).flatMap openedFds).Perm
        ((invoked cs logs).flatMap (closedFds inotifyFd) ++ fileFds inotifyFd m.tcp.reads) ↔
      Runs.Along (webApp N).invoke WebServer.MissesCache { inotifyFd } (invoked cs logs) := by
  have hstart : fileFds inotifyFd (webStart N inotifyFd).tcp.reads = [] := by
    simp [webStart, Machine.start, TcpServer.reads, TcpServer.customReads, TcpServer.addEventReq,
      TcpServer.customReadReq, fileFds]
  obtain ⟨-, left, hperm, hleft⟩ := Machine.openedFds_run hopen hrun
  replace hperm : ((invoked cs logs).flatMap openedFds ++ fileFds inotifyFd (webStart N inotifyFd).tcp.reads).Perm
    ((invoked cs logs).flatMap (closedFds inotifyFd) ++ fileFds inotifyFd m.tcp.reads ++ left) := hperm
  rw [hstart, List.append_nil] at hperm
  refine Iff.trans ⟨fun h => ?_, fun h => ?_⟩ hleft
  · have hlength := (h.symm.trans hperm).length_eq
    simp only [List.length_append] at hlength
    exact List.length_eq_zero_iff.mp (by omega)
  · rwa [h, List.append_nil] at hperm

/-- A client asks for a file, which is read and stored in the cache, and a second one sends a request. -/
def secondRequestRun (request : Bytes) : List (Completion WebEnv) :=
  [{ index := 4, res := 10, env := {} },
    { index := 5, res := 17, data := ascii "GET /a HTTP/1.0\r\n", env := { files := fun _ => (20, 3) } },
    { index := 5, res := 3, data := [1, 2, 3], env := {} }, { index := 4, res := 11, env := {} },
    { index := 6, res := 17, data := request, env := { files := fun _ => (21, 3) } }]

/-- The second request is for another file, which is being read. -/
theorem descriptors_balanced_other :
    ∃ m logs, Runs.exec (Machine.step .nonTls (webApp 2)) (webStart 2 7)
        (secondRequestRun (ascii "GET /b HTTP/1.0\r\n")) = some (m, logs) ∧
      fileFds 7 m.tcp.reads = [21] ∧
      ((invoked (secondRequestRun (ascii "GET /b HTTP/1.0\r\n")) logs).flatMap openedFds).Perm
        ((invoked (secondRequestRun (ascii "GET /b HTTP/1.0\r\n")) logs).flatMap (closedFds 7) ++
          fileFds 7 m.tcp.reads) := by
  have hsome : (Runs.exec (Machine.step .nonTls (webApp 2)) (webStart 2 7)
      (secondRequestRun (ascii "GET /b HTTP/1.0\r\n"))).any (fun r => fileFds 7 r.1.tcp.reads = [21] ∧
        Runs.Along (webApp 2).invoke WebServer.MissesCache { inotifyFd := 7 }
          (invoked (secondRequestRun (ascii "GET /b HTTP/1.0\r\n")) r.2)) = true := by decide +kernel
  simp only [Option.any_eq_true, decide_eq_true_eq] at hsome
  obtain ⟨⟨m, logs⟩, hrun, hfds, hmisses⟩ := hsome
  have hopen : ∀ c ∈ secondRequestRun (ascii "GET /b HTTP/1.0\r\n"), ∀ n, (c.env.files n).1 ≠ 7 := by
    simp [secondRequestRun]
  exact ⟨m, logs, hrun, hfds, (descriptors_balanced_iff .nonTls 2 7 _ m logs hopen hrun).mpr hmisses⟩

/-- The second request is for the same file, which the cache has: its descriptor stays open. -/
theorem descriptor_leaked :
    ∃ m logs, Runs.exec (Machine.step .nonTls (webApp 2)) (webStart 2 7)
        (secondRequestRun (ascii "GET /a HTTP/1.0\r\n")) = some (m, logs) ∧
      (invoked (secondRequestRun (ascii "GET /a HTTP/1.0\r\n")) logs).flatMap openedFds = [20, 21] ∧
      (invoked (secondRequestRun (ascii "GET /a HTTP/1.0\r\n")) logs).flatMap (closedFds 7) = [20] ∧
      fileFds 7 m.tcp.reads = [] := by
  have hsome : (Runs.exec (Machine.step .nonTls (webApp 2)) (webStart 2 7)
      (secondRequestRun (ascii "GET /a HTTP/1.0\r\n"))).any (fun r =>
        (invoked (secondRequestRun (ascii "GET /a HTTP/1.0\r\n")) r.2).flatMap openedFds = [20, 21] ∧
        (invoked (secondRequestRun (ascii "GET /a HTTP/1.0\r\n")) r.2).flatMap (closedFds 7) = [20] ∧
        fileFds 7 r.1.tcp.reads = []) = true := by decide +kernel
  simp only [Option.any_eq_true, decide_eq_true_eq] at hsome
  obtain ⟨⟨m, logs⟩, hrun, h⟩ := hsome
  exact ⟨m, logs, hrun, h⟩

end LiburingServer
