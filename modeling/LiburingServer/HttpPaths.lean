import LiburingServer.Lib.LexicalPath
import LiburingServer.Lib.Strtok
import LiburingServer.WebDescriptors
import LiburingServer.WebPaths

/-! The paths that requests make the server open. The path of a request is put behind `public/` as it is, and
nothing looks at its `..` components. -/

namespace LiburingServer

open LexicalPath

variable {N : ℕ}

/-! ### Components -/

/-- The components of a relative path; empty ones and `.` lead nowhere. -/
def pathSteps (path : Bytes) : List (LexicalPath.Step Bytes) :=
  ((strtok (ascii "/") path).filter (· ≠ ascii ".")).map fun component =>
    if component = ascii ".." then .up else .name component

/-- The path leads to the directory `public` or to what is in it. -/
def InsidePublic (path : Bytes) : Prop := Inside (ascii "public") (pathSteps path)

instance : DecidablePred InsidePublic := fun path =>
  inferInstanceAs (Decidable (Inside (ascii "public") (pathSteps path)))

theorem pathSteps_public (path : Bytes) :
    pathSteps (ascii "public/" ++ path) = .name (ascii "public") :: pathSteps path := by
  have hslash : (fun b : UInt8 => decide (b ∈ ascii "/")) 47 = true := by decide
  have hpublic : Strtok.tokens (· ∈ ascii "/") (ascii "public") = [ascii "public"] := by decide
  have hcut : ascii "public/" ++ path = ascii "public" ++ 47 :: path := rfl
  have htokens : strtok (ascii "/") (ascii "public/" ++ path) = ascii "public" :: strtok (ascii "/") path := by
    rw [hcut, strtok, List.splitOnP_append_cons (p := (· ∈ ascii "/")) _ _ hslash, List.filter_append]
    exact congrArg (· ++ strtok (ascii "/") path) hpublic
  have hdot : ascii "public" ≠ ascii "." := by decide
  have hup : ascii "public" ≠ ascii ".." := by decide
  simp [pathSteps, htokens, hdot, hup]

theorem insidePublic_notFound : InsidePublic (ascii "public/404.html") := by decide

theorem insidePublic_filepath (req : HttpRequest) :
    InsidePublic req.filepath ↔ CutAt (ascii "public") (.name (ascii "public") :: pathSteps req.path) := by
  rw [← inside_iff_cutAt, HttpRequest.filepath]
  by_cases hpath : req.path = []
  · rw [if_pos hpath, hpath]
    exact iff_of_true (by decide) (by decide)
  · rw [if_neg hpath, InsidePublic, pathSteps_public]

/-! ### Requests -/

/-- The paths that the handling of a request gives to `open`, in this order. -/
def HttpRequest.openArguments (env : WebEnv) (req : HttpRequest) : List Bytes :=
  if req.isGet then
    if req.isWebsocket then []
    else if (env.files 0).1 < 0 then [req.filepath, ascii "public/404.html"] else [req.filepath]
  else [ascii "public/404.html"]

/-- A `GET` of a file keeps to `public`: its path, behind this name, is a path back to where the server is, the name
`public` and a path without more `..` than names at any point. -/
def HttpRequest.StaysInPublic (req : HttpRequest) : Prop :=
  req.isGet → ¬req.isWebsocket → CutAt (ascii "public") (.name (ascii "public") :: pathSteps req.path)

instance (a : Bytes) (steps : List (LexicalPath.Step Bytes)) : Decidable (CutAt a steps) :=
  decidable_of_iff _ inside_iff_cutAt

instance : DecidablePred HttpRequest.StaysInPublic := fun req =>
  inferInstanceAs (Decidable (req.isGet → ¬req.isWebsocket →
    CutAt (ascii "public") (.name (ascii "public") :: pathSteps req.path)))

/-- The descriptors of a request are what `open` returns for its paths. -/
theorem HttpRequest.openedFds_eq (env : WebEnv) (req : HttpRequest) : req.openedFds env =
    ((List.range (req.openArguments env).length).map fun n => (env.files n).1).filter fun fd => 0 ≤ fd := by
  have hopened : ∀ fd : ℤ, (if fd < 0 then [] else [fd]) = if 0 ≤ fd then [fd] else [] := by
    intro fd
    rw [← ite_not]
    simp only [not_lt]
  unfold openedFds openArguments
  dsimp only
  by_cases hget : req.isGet
  · by_cases hws : req.isWebsocket
    · simp [hget, hws]
    · by_cases hfailed : (env.files 0).1 < 0
      · simp [hget, hws, hfailed, hopened, List.range_succ, List.filter_cons]
      · simp [hget, hws, hfailed, not_lt.mp hfailed]
  · simp [hget, hopened, List.filter_cons]

theorem HttpRequest.openedFile_mem {env : WebEnv} {req : HttpRequest} {p : Bytes}
    (h : WebServer.openedFile env req = some p) : p ∈ req.openArguments env := by
  unfold WebServer.openedFile at h
  unfold openArguments
  dsimp only at h
  split_ifs at h ⊢ with hget hws hfailed hfailed'
  all_goals
    obtain rfl := Option.some.inj h
    simp

theorem HttpRequest.openArguments_inside_iff (env : WebEnv) (req : HttpRequest) :
    (∀ p ∈ req.openArguments env, InsidePublic p) ↔ req.StaysInPublic := by
  have hpage := insidePublic_notFound
  have hpath := insidePublic_filepath req
  unfold openArguments StaysInPublic
  split_ifs with hget hws hfailed
  · simp [hws]
  · simp [hget, hws, hpage, hpath]
  · simp [hget, hws, hpath]
  · simp [hget, hpage]

/-! ### Callbacks -/

/-- The request that a callback handles. -/
def requests : WebEnv × Callback → List HttpRequest
  | (env, .read _ buffer) =>
      if isValidHttpReq buffer then (parseRequest (buffer ++ env.beyond)).toList else []
  | _ => []

/-- The paths that a callback gives to `open`. -/
def openArguments (e : WebEnv × Callback) : List Bytes := (requests e).flatMap (HttpRequest.openArguments e.1)

theorem openArguments_inside_iff (e : WebEnv × Callback) :
    (∀ p ∈ openArguments e, InsidePublic p) ↔ ∀ req ∈ requests e, req.StaysInPublic := by
  simp only [openArguments, List.mem_flatMap, forall_exists_index, and_imp]
  rw [forall_comm]
  refine forall_congr' fun req => ?_
  rw [forall_comm]
  exact forall_congr' fun _ => HttpRequest.openArguments_inside_iff e.1 req

/-- The paths of the files in a list of reads. -/
def filePaths (reads : List (Request × Option Bytes)) : List Bytes := reads.filterMap Prod.snd

theorem filePaths_append (reads reads' : List (Request × Option Bytes)) :
    filePaths (reads ++ reads') = filePaths reads ++ filePaths reads' := List.filterMap_append

namespace WebServer

variable {w w' : WebServer N} {i : ℕ} {env : WebEnv} {cs : List TcpCall}

theorem KeepsPaths.filterMap_read (h : w.KeepsPaths (w', cs)) : cs.filterMap TcpCall.read = [] := by
  refine List.filterMap_eq_nil_iff.mpr fun c hc => ?_
  cases c with
  | customReadReq fd toRead clientIdx buff readAmount file => exact absurd trivial (h.calls _ hc)
  | _ => rfl

/-- A callback reads only files whose paths it has given to `open`. -/
theorem filePaths_invoke {e : WebEnv × Callback} (h : (webApp N).invoke w e = some (w', cs)) :
    filePaths (cs.filterMap TcpCall.read) ⊆ openArguments e := by
  obtain ⟨env, cb⟩ := e
  have hquiet : w.KeepsPaths (w', cs) → filePaths (cs.filterMap TcpCall.read) ⊆ openArguments (env, cb) := by
    intro hkeeps
    rw [hkeeps.filterMap_read]
    exact List.nil_subset _
  cases cb with
  | accept i =>
      obtain ⟨-, rfl⟩ : w.newTcpClient i = w' ∧ [] = cs := by simpa [App.invoke, webApp] using h
      exact List.nil_subset _
  | close i info =>
      obtain ⟨-, rfl⟩ : w.closeCb i info = some w' ∧ [] = cs := by simpa [App.invoke, webApp] using h
      exact List.nil_subset _
  | read i buffer =>
      rcases readCb_cases (show w.readCb env i buffer = some (w', cs) from h) with
        hkeeps | ⟨p, hdisk, hreads⟩ | ⟨hsteady, hcs, -⟩
      · exact hquiet hkeeps.keepsPaths
      · obtain ⟨fd, size, buff, amount, rest, hcs, hrest⟩ := hreads.calls
        simp only at hcs
        have hfiles : filePaths (cs.filterMap TcpCall.read) = [p] := by
          rw [hcs, List.filterMap_cons, filterMap_read_mild hrest]
          rfl
        rw [hfiles, List.cons_subset]
        -- the file that is read is the file that could be opened
        unfold diskRead at hdisk
        split at hdisk
        · rename_i hvalid
          obtain ⟨req, hreq, hopened⟩ := Option.bind_eq_some_iff.mp (Option.filter_eq_some_iff.mp hdisk).1
          have hrequests : requests (env, .read i buffer) = [req] := by simp [requests, hvalid, hreq]
          rw [openArguments, hrequests, List.flatMap_singleton]
          exact ⟨HttpRequest.openedFile_mem hopened, List.nil_subset _⟩
        · cases hdisk
      · exact hquiet (hsteady.keepsPaths (by simp_all [TcpCall.StartsRead]))
  | write i info => exact hquiet (writeCb_keepsPaths (show w.writeCb i info = some (w', cs) from h))
  | event =>
      obtain ⟨rfl, rfl⟩ : (w.eventCb env).1 = w' ∧ (w.eventCb env).2 = cs := Prod.mk.inj (Option.some.inj h)
      exact hquiet eventCb_keepsPaths
  | customRead i fd buffer =>
      rcases customReadCb_cases (show w.customReadCb env i fd buffer = some (w', cs) from h) with
        ⟨-, -, hcs⟩ | ⟨-, j, p, -, -, -, -, ⟨ptr, size, hcs, -⟩ | hcs⟩
      all_goals
        simp only at hcs
        rw [hcs]
        exact List.nil_subset _

end WebServer

namespace Machine

variable {T : ServerType} {m m' : Machine (WebServer N)}

/-- The paths of the files that are being read. -/
def filesRead (m : Machine (WebServer N)) : List Bytes := filePaths m.tcp.reads

theorem filesRead_step {c : Completion WebEnv} {log : List Callback}
    (hstep : step T (webApp N) m c = some (m', log)) {p : Bytes} (hp : p ∈ m'.filesRead) :
    p ∈ m.filesRead ∨ p ∈ (log.map fun cb => (c.env, cb)).flatMap openArguments := by
  obtain ⟨sub, calls, -, hcalls, hreads⟩ := replays_step hstep
  have hnew : p ∈ filePaths (calls.flatten.filterMap TcpCall.read) →
      p ∈ (log.map fun cb => (c.env, cb)).flatMap openArguments := by
    intro hp
    obtain ⟨r, hr, hfile⟩ := List.mem_filterMap.mp hp
    obtain ⟨call, hcall, hread⟩ := List.mem_filterMap.mp hr
    obtain ⟨cs, hcs, hcall⟩ := List.mem_flatten.mp hcall
    obtain ⟨e, he, hinvoked⟩ := Runs.exec_mem_outputs
      (R := fun e cs => filePaths (cs.filterMap TcpCall.read) ⊆ openArguments e)
      (fun _ _ _ _ => WebServer.filePaths_invoke) hcalls cs hcs
    refine List.mem_flatMap.mpr ⟨e, he, hinvoked ?_⟩
    exact List.mem_filterMap.mpr ⟨r, List.mem_filterMap.mpr ⟨call, hcall, hread⟩, hfile⟩
  split at hreads
  · obtain ⟨others, hperm, hdone⟩ := hreads
    have hbefore : ∀ r ∈ (sub.req, sub.file) :: others, r.2 = some p → p ∈ m.filesRead := fun r hr hfile =>
      List.mem_filterMap.mpr ⟨r, hperm.mem_iff.mpr hr, hfile⟩
    have hothers : p ∈ filePaths others → p ∈ m.filesRead := by
      intro hp
      obtain ⟨r, hr, hfile⟩ := List.mem_filterMap.mp hp
      exact hbefore r (List.mem_cons_of_mem _ hr) hfile
    rw [filesRead] at hp
    rcases hdone with ⟨-, -, hafter⟩ | ⟨-, hafter⟩
    · rw [hafter, filePaths_append, List.mem_append] at hp
      exact hp.imp hothers hnew
    · -- a read that goes on is of the same file
      rw [hafter, filePaths_append, List.mem_append] at hp
      refine Or.inl (hp.elim hothers fun hsame => hbefore _ (List.mem_cons_self ..) ?_)
      obtain ⟨r, hr, hfile⟩ := List.mem_filterMap.mp hsame
      obtain rfl := List.mem_singleton.mp hr
      exact hfile
  · rw [filesRead, hreads.1, filePaths_append, List.mem_append] at hp
    exact hp.imp id hnew

/-- Every file that a run is reading was opened in it, or was read before. -/
theorem filesRead_run {cs : List (Completion WebEnv)} {logs : List (List Callback)}
    (hrun : Runs.exec (step T (webApp N)) m cs = some (m', logs)) {p : Bytes} (hp : p ∈ m'.filesRead) :
    p ∈ m.filesRead ∨ p ∈ (invoked cs logs).flatMap openArguments := by
  induction cs generalizing m logs with
  | nil =>
      obtain ⟨rfl, rfl⟩ : m = m' ∧ [] = logs := by simpa [Runs.exec] using hrun
      exact Or.inl hp
  | cons c cs ih =>
      obtain ⟨m₁, log, logs₁, hstep, hrest, rfl⟩ := Runs.exec_cons hrun
      rw [invoked_cons, List.flatMap_append, List.mem_append, ← or_assoc]
      exact (ih hrest).imp_left (filesRead_step hstep)

end Machine

/-- **The paths that are opened.** In every run of either server type, each path given to `open`, and each file that
is being read, is inside `public` exactly if every request of the run keeps to it. -/
theorem opened_inside_iff (T : ServerType) (N : ℕ) (inotifyFd : ℤ) (cs : List (Completion WebEnv))
    (m : Machine (WebServer N)) (logs : List (List Callback))
    (hrun : Runs.exec (Machine.step T (webApp N)) (webStart N inotifyFd) cs = some (m, logs)) :
    ((∀ p ∈ (invoked cs logs).flatMap openArguments, InsidePublic p) ∧ ∀ p ∈ m.filesRead, InsidePublic p) ↔
      ∀ req ∈ (invoked cs logs).flatMap requests, req.StaysInPublic := by
  have hstart : (webStart N inotifyFd).filesRead = [] := rfl
  have hfiles : ∀ p ∈ m.filesRead, p ∈ (invoked cs logs).flatMap openArguments := fun p hp =>
    (Machine.filesRead_run hrun hp).resolve_left (by simp [hstart])
  have hopened : (∀ p ∈ (invoked cs logs).flatMap openArguments, InsidePublic p) ↔
      ∀ req ∈ (invoked cs logs).flatMap requests, req.StaysInPublic := by
    calc (∀ p ∈ (invoked cs logs).flatMap openArguments, InsidePublic p)
        ↔ ∀ e ∈ invoked cs logs, ∀ p ∈ openArguments e, InsidePublic p := List.forall_mem_flatMap
      _ ↔ ∀ e ∈ invoked cs logs, ∀ req ∈ requests e, req.StaysInPublic :=
          forall₂_congr fun e _ => openArguments_inside_iff e
      _ ↔ ∀ req ∈ (invoked cs logs).flatMap requests, req.StaysInPublic := List.forall_mem_flatMap.symm
  rw [← hopened]
  exact ⟨And.left, fun h => ⟨h, fun p hp => h p (hfiles p hp)⟩⟩

/-- A client connects and sends a request. -/
def requestRun (request : Bytes) : List (Completion WebEnv) :=
  [{ index := 4, res := 10, env := {} },
    { index := 5, res := request.length, data := request, env := { files := fun _ => (20, 3) } }]

/-- A path that goes up and stays inside. -/
theorem opened_inside_detour :
    ∃ m logs, Runs.exec (Machine.step .nonTls (webApp 2)) (webStart 2 7)
        (requestRun (ascii "GET /a/../b HTTP/1.0\r\n")) = some (m, logs) ∧
      m.filesRead = [ascii "public/a/../b"] ∧ ∀ p ∈ m.filesRead, InsidePublic p := by
  have hsome : (Runs.exec (Machine.step .nonTls (webApp 2)) (webStart 2 7)
      (requestRun (ascii "GET /a/../b HTTP/1.0\r\n"))).any (fun r =>
        r.1.filesRead = [ascii "public/a/../b"] ∧
        ∀ req ∈ (invoked (requestRun (ascii "GET /a/../b HTTP/1.0\r\n")) r.2).flatMap requests,
          req.StaysInPublic) = true := by decide +kernel
  simp only [Option.any_eq_true, decide_eq_true_eq] at hsome
  obtain ⟨⟨m, logs⟩, hrun, hfiles, hstays⟩ := hsome
  exact ⟨m, logs, hrun, hfiles, ((opened_inside_iff .nonTls 2 7 _ m logs hrun).mpr hstays).2⟩

/-- A request makes the server read the file `.config` beside `public`. -/
theorem opened_outside :
    ∃ m logs, Runs.exec (Machine.step .nonTls (webApp 2)) (webStart 2 7)
        (requestRun (ascii "GET /../.config HTTP/1.1\r\n\r\n")) = some (m, logs) ∧
      ascii "public/../.config" ∈
        (invoked (requestRun (ascii "GET /../.config HTTP/1.1\r\n\r\n")) logs).flatMap openArguments ∧
      ascii "public/../.config" ∈ m.filesRead ∧ ¬InsidePublic (ascii "public/../.config") := by
  have hsome : (Runs.exec (Machine.step .nonTls (webApp 2)) (webStart 2 7)
      (requestRun (ascii "GET /../.config HTTP/1.1\r\n\r\n"))).any (fun r =>
        ascii "public/../.config" ∈
          (invoked (requestRun (ascii "GET /../.config HTTP/1.1\r\n\r\n")) r.2).flatMap openArguments ∧
        ascii "public/../.config" ∈ r.1.filesRead ∧ ¬InsidePublic (ascii "public/../.config")) = true := by
    decide +kernel
  simp only [Option.any_eq_true, decide_eq_true_eq] at hsome
  obtain ⟨⟨m, logs⟩, hrun, houtside⟩ := hsome
  exact ⟨m, logs, hrun, houtside⟩

end LiburingServer
