import LiburingServer.CacheContents
import LiburingServer.WebDescriptors
import LiburingServer.WebLeases
import LiburingServer.WebPaths

/-! The responses that the cache sends. What is stored for a path is a whole response, with the headers of the
request that the file was read for. A later request that the cache serves gets these headers, whatever it asked
for itself. -/

namespace LiburingServer

variable {N : ℕ}

/-- Headers begin with the status line, and say before the length of the file whether bytes are accepted. -/
theorem fileHeaders_append_inj (p rest : Bytes) (size : ℕ) (accept accept' : Bool) (code code' : ℕ) :
    fileHeaders p size accept false code ++ rest = fileHeaders p size accept' false code' ++ rest ↔
      accept = accept' ∧ (code = 200 ↔ code' = 200) := by
  constructor
  · intro h
    have hline : ∀ a c, (fileHeaders p size a false c).take 10 =
        if c = 200 then ascii "HTTP/1.0 2" else ascii "HTTP/1.0 4" := by
      intro a c
      by_cases hc : c = 200
      · simp only [fileHeaders, hc, if_true, List.append_assoc]
        rfl
      · simp only [fileHeaders, hc, if_false, List.append_assoc]
        rfl
    have hheaders := List.append_cancel_right h
    have hcode : code = 200 ↔ code' = 200 := by
      have htake := congrArg (List.take 10) hheaders
      rw [hline, hline] at htake
      by_cases hc : code = 200 <;> by_cases hc' : code' = 200
      · simp [hc, hc']
      · simp only [hc, hc', if_true, if_false] at htake
        exact absurd htake (by decide)
      · simp only [hc, hc', if_true, if_false] at htake
        exact absurd htake (by decide)
      · simp [hc, hc']
    refine ⟨?_, hcode⟩
    simp only [fileHeaders, hcode, List.append_assoc] at hheaders
    have hrange := List.append_cancel_left (List.append_cancel_left hheaders)
    cases accept with
    | true =>
        cases accept' with
        | true => rfl
        | false => exact absurd (congrArg List.head? hrange) (by simp [ascii])
    | false =>
        cases accept' with
        | true => exact absurd (congrArg List.head? hrange) (by simp [ascii])
        | false => rfl
  · rintro ⟨rfl, hcode⟩
    simp only [fileHeaders, hcode]

/-! ### Requests of files -/

/-- The file request that a callback makes. -/
def fileRequest : WebEnv × Callback → Option FileRequest
  | (env, .read _ buffer) =>
      if isValidHttpReq buffer then
        (parseRequest (buffer ++ env.beyond)).bind (HttpRequest.fileRequest env)
      else none
  | _ => none

/-- A regular file that does not change. -/
structure RegularFile where
  filepath : Bytes
  contents : Bytes
  length_lt : contents.length < 2 ^ 63

namespace RegularFile

variable (f : RegularFile)

/-- The headers and the contents that a request gets for which the file is read. -/
def response (acceptBytes : Bool) (responseCode : ℕ) : Bytes :=
  fileHeaders f.filepath f.contents.length acceptBytes false responseCode ++ f.contents

theorem response_inj (accept accept' : Bool) (code code' : ℕ) :
    f.response accept code = f.response accept' code' ↔ accept = accept' ∧ (code = 200 ↔ code' = 200) :=
  fileHeaders_append_inj ..

/-- A read of the file, for a request, whose buffer is a response that is filled up to `read_amount`. -/
structure Filling (acceptBytes : Bool) (responseCode : ℕ) (req : Request) : Prop where
  total : req.totalLength = f.contents.length
  length : req.readData.length = (f.response acceptBytes responseCode).length
  headers : (f.response acceptBytes responseCode).length ≤ req.readAmount + f.contents.length
  amount : req.readAmount ≤ req.readData.length
  filled : req.readData.take req.readAmount = (f.response acceptBytes responseCode).take req.readAmount
  length_lt : (f.response acceptBytes responseCode).length < 2 ^ 64

/-- A completed read of the file has read its contents from the offset on that the read was for. -/
def Delivers (req : Request) (c : Completion WebEnv) : Prop :=
  c.res = c.data.length ∧
    c.data <+: f.contents.drop (req.readAmount - (req.readData.length - req.totalLength))

instance (req : Request) (c : Completion WebEnv) : Decidable (f.Delivers req c) :=
  inferInstanceAs (Decidable (_ ∧ _))

/-- If the callback opens the file, the file has its size. -/
def Sized (e : WebEnv × Callback) : Prop :=
  ∀ req ∈ fileRequest e, req.filepath = f.filepath → (e.1.files req.opening).2 = f.contents.length

instance (e : WebEnv × Callback) : Decidable (f.Sized e) :=
  inferInstanceAs (Decidable (∀ req ∈ fileRequest e, _))

/-- The callback is not for an event that reports the item for the file as modified. -/
def Unreported (w : WebServer N) : Callback → Prop
  | .customRead _ fd buffer => fd = w.inotifyFd → ∀ i ∈ w.webCache.filepathToCacheIdx f.filepath,
      w.webCache.watchToCacheIdx (inotifyWatch buffer) ≠ some i
  | _ => True

instance (w : WebServer N) : DecidablePred (f.Unreported w)
  | .customRead _ fd buffer => inferInstanceAs (Decidable (fd = w.inotifyFd →
      ∀ i ∈ w.webCache.filepathToCacheIdx f.filepath, w.webCache.watchToCacheIdx (inotifyWatch buffer) ≠ some i))
  | .accept _ => isTrue trivial
  | .close _ _ => isTrue trivial
  | .read _ _ => isTrue trivial
  | .write _ _ => isTrue trivial
  | .event => isTrue trivial

/-- The buffer is the response to a request that was asked for. -/
def Answers (asked : Bool → ℕ → Prop) (buff : Bytes) : Prop :=
  ∃ accept code, asked accept code ∧ buff = f.response accept code

end RegularFile

/-! ### The callbacks -/

namespace WebServer

variable {f : RegularFile} {asked : Bool → ℕ → Prop} {w w' : WebServer N} {env : WebEnv} {i : ℕ}
  {cs : List TcpCall} {r : WebServer N × List TcpCall}

/-- What a file request does for which the file could be opened: the cache is asked for the file, and has it, or
the file is read. -/
theorem sendFileRequest_opened {n code : ℕ} {p : Bytes} {accept : Bool}
    (h : w.sendFileRequest env n i p accept code = some (w', cs, true)) :
    ∃ client client' item, w.webCache.fetchItem p i client = some (w'.webCache, client', item) ∧
      ((item.found = true ∧ cs = [.writeConnectionPtr i item.ptr item.size]) ∨
        (item.found = false ∧
          (fileHeaders p (env.files n).2 accept false code).length ≤
            ((env.files n).2 + (fileHeaders p (env.files n).2 accept false code).length) % 2 ^ 64 ∧
          cs = [.customReadReq (env.files n).1 (env.files n).2 (some i)
            (fileHeaders p (env.files n).2 accept false code ++ List.replicate (env.files n).2 0)
            (fileHeaders p (env.files n).2 accept false code).length (some p)])) := by
  unfold sendFileRequest at h
  dsimp only at h
  split at h
  · simp at h
  · split at h
    · cases h
    · rename_i client _
      split at h
      · cases h
      · rename_i cache client' item hfetch
        split_ifs at h with hsize hfound
        · obtain ⟨rfl, rfl⟩ : _ ∧ _ := by simpa using h
          exact ⟨client, client', item, hfetch, Or.inl ⟨hfound, rfl⟩⟩
        · simp only [Bool.not_eq_true] at hfound
          rw [hfound] at hsize h
          obtain ⟨rfl, rfl⟩ : _ ∧ _ := by simpa using h
          exact ⟨client, client', item, hfetch, Or.inr ⟨hfound, not_lt.mp hsize, rfl⟩⟩

/-- The read that a file request starts has the headers in its buffer, and nothing of the file yet. -/
theorem filling_start {accept : Bool} {code : ℕ} {fd : ℤ}
    (hsize : (fileHeaders f.filepath f.contents.length accept false code).length ≤
      (f.contents.length + (fileHeaders f.filepath f.contents.length accept false code).length) % 2 ^ 64)
    {req : Request} {file : Option Bytes}
    (hread : (TcpCall.customReadReq fd f.contents.length (some i)
      (fileHeaders f.filepath f.contents.length accept false code ++ List.replicate f.contents.length 0)
      (fileHeaders f.filepath f.contents.length accept false code).length (some f.filepath)).read =
        some (req, file)) : f.Filling accept code req := by
  obtain ⟨rfl, -⟩ := Prod.mk.inj (Option.some.inj hread)
  have hsmall := f.length_lt
  generalize hheaders : fileHeaders f.filepath f.contents.length accept false code = headers at hsize
  have hresponse : f.response accept code = headers ++ f.contents := by rw [RegularFile.response, hheaders]
  -- otherwise the size would have wrapped to less than the headers
  have hlt : f.contents.length + headers.length < 2 ^ 64 := by omega
  have hdata : (Request.customRead fd f.contents.length (some i) (headers ++ List.replicate f.contents.length 0)
      headers.length).readData = headers ++ List.replicate f.contents.length 0 :=
    Request.customRead_readData fd (some i) (by simp [Nat.add_comm]) hlt
  refine ⟨rfl, ?_, ?_, ?_, ?_, ?_⟩
  · rw [hdata, hresponse]
    simp
  · simp [hresponse]
  · simp [hdata]
  · rw [hdata, hresponse]
    simp
  · rw [hresponse, List.length_append]
    omega

/-- What a callback leaves the cache with, and the reads of the file that it starts. -/
structure Serves (f : RegularFile) (asked : Bool → ℕ → Prop) (r : WebServer N × List TcpCall) : Prop where
  cache : r.1.webCache.Holds f.filepath (f.Answers asked)
  reads : ∀ x ∈ r.2.filterMap TcpCall.read, x.2 = some f.filepath →
    ∃ accept code, asked accept code ∧ f.Filling accept code x.1

theorem serves_mild (h : w.webCache.Holds f.filepath (f.Answers asked)) (hcs : ∀ c ∈ cs, c.Mild) :
    Serves f asked (w, cs) := by
  refine ⟨h, ?_⟩
  simp [filterMap_read_mild hcs]

theorem Serves.andCall (h : Serves f asked (w, cs)) {cs' : List TcpCall} (hcs' : ∀ c ∈ cs', c.Mild) :
    Serves f asked (w, cs ++ cs') := by
  refine ⟨h.cache, fun x hx => h.reads x ?_⟩
  simpa [filterMap_read_mild hcs'] using hx

theorem killClient_cache (h : w.killClient i = some w') :
    ∃ client client', w.webCache.finishedWithItem i client = some (w'.webCache, client') := by
  unfold killClient at h
  split at h
  · cases h
  · rename_i client _
    obtain ⟨⟨cache, client'⟩, hdone, rfl⟩ := Option.map_eq_some_iff.mp h
    refine ⟨client, client', ?_⟩
    dsimp only
    split
    · exact hdone
    · exact hdone

theorem holds_killClient (h : w.webCache.Holds f.filepath (f.Answers asked)) (hkill : w.killClient i = some w') :
    w'.webCache.Holds f.filepath (f.Answers asked) := by
  obtain ⟨client, client', hdone⟩ := killClient_cache hkill
  exact h.finishedWithItem hdone

theorem serves_closeConnection (h : w.webCache.Holds f.filepath (f.Answers asked))
    (hclose : w.closeConnection i = some r) : Serves f asked r := by
  obtain ⟨w₁, hkill, rfl⟩ := Option.map_eq_some_iff.mp hclose
  refine ⟨holds_killClient h hkill, ?_⟩
  simp [TcpCall.read]

theorem serves_sendFileRequest (h : w.webCache.Holds f.filepath (f.Answers asked)) {n code : ℕ} {p : Bytes}
    {accept : Bool} (hfile : p = f.filepath → (env.files n).2 = f.contents.length ∧ asked accept code)
    (hsend : w.sendFileRequest env n i p accept code = some (w', cs, true)) : Serves f asked (w', cs) := by
  obtain ⟨client, client', item, hfetch, hcs⟩ := sendFileRequest_opened hsend
  refine ⟨h.fetchItem hfetch, ?_⟩
  rcases hcs with ⟨-, rfl⟩ | ⟨-, hsize, rfl⟩
  · simp [TcpCall.read]
  · intro x hx hpath
    have hread := List.mem_filterMap.mp hx
    simp only [List.mem_singleton, exists_eq_left] at hread
    obtain ⟨req, file⟩ := x
    obtain rfl : p = f.filepath := by
      obtain ⟨-, hfile'⟩ := Prod.mk.inj (Option.some.inj hread)
      exact Option.some.inj (hfile'.trans hpath)
    obtain ⟨hlength, hasked⟩ := hfile rfl
    rw [hlength] at hsize hread
    exact ⟨accept, code, hasked, filling_start hsize hread⟩

/-- The answer to a request; the read of the file that it starts is for the request that was made. -/
theorem serves_respond (h : w.webCache.Holds f.filepath (f.Answers asked)) {req : HttpRequest}
    (hfile : ∀ q ∈ req.fileRequest env, q.filepath = f.filepath →
      (env.files q.opening).2 = f.contents.length ∧ asked q.acceptBytes q.responseCode)
    (hr : w.respond env i req = some r) : Serves f asked r := by
  rcases respond_eq_some hr with ⟨⟨w₁, cs₁⟩, again, -, hr₁, rfl, hagain⟩ |
    ⟨-, ⟨q, w₁, cs₁, again, hq, hsent, rfl, hagain⟩ | ⟨-, rfl⟩⟩
  · have hsame : w₁.webCache = w.webCache := (websocketAcceptReadCb_files hr₁).files.cache
    exact (serves_mild (hsame ▸ h) (websocketAcceptReadCb_keeps hr₁).calls).andCall (mild_again hagain)
  · exact (serves_sendFileRequest h (hfile q hq) hsent).andCall (mild_again hagain)
  · exact serves_mild h (by simp)

theorem serves_readCb (h : w.webCache.Holds f.filepath (f.Answers asked)) {buffer : Bytes}
    (hsized : f.Sized (env, .read i buffer))
    (hasked : ∀ q ∈ fileRequest (env, .read i buffer), q.filepath = f.filepath → asked q.acceptBytes q.responseCode)
    (hr : w.readCb env i buffer = some r) : Serves f asked r := by
  unfold readCb at hr
  split at hr
  · rename_i hvalid
    split at hr
    · cases hr
    · rename_i req hreq
      have hrequest : fileRequest (env, .read i buffer) = req.fileRequest env := by
        simp [fileRequest, hvalid, hreq]
      refine serves_respond h (fun q hq hpath => ?_) hr
      rw [← hrequest] at hq
      exact ⟨hsized q hq hpath, hasked q hq hpath⟩
  · split at hr
    · obtain ⟨⟨w₁, cs₁⟩, hws, rfl⟩ := Option.map_eq_some_iff.mp hr
      have hsame : w₁.webCache = w.webCache := (websocketProcessReadCb_files hws).files.cache
      exact (serves_mild (hsame ▸ h) (websocketProcessReadCb_keeps hws).calls).andCall (by simp [TcpCall.Mild])
    · exact serves_closeConnection h hr

theorem serves_writeCb (h : w.webCache.Holds f.filepath (f.Answers asked)) {info : ℤ}
    (hr : w.writeCb i info = some r) : Serves f asked r := by
  unfold writeCb at hr
  split at hr
  · cases hr
  · rename_i w₁ hused
    have hcache : w₁.webCache.Holds f.filepath (f.Answers asked) := (sameFiles_broadcastUsed hused).cache ▸ h
    split at hr
    · cases hr
    · split at hr
      · unfold closeWsConnectionPotentialConfirm at hr
        split at hr
        · cases hr
        · split at hr
          · split at hr
            · obtain ⟨r₁, hclose, rfl⟩ := Option.map_eq_some_iff.mp hr
              obtain ⟨hclosed, hreads⟩ := serves_closeConnection hcache hclose
              exact ⟨hclosed, hreads⟩
            · obtain rfl := Option.some.inj hr
              exact serves_mild hcache (by simp)
          · obtain rfl := Option.some.inj hr
            exact serves_mild hcache (by simp)
      · exact serves_closeConnection hcache hr

/-- The end of a custom read: an event that is not for the item, or what has been read for the path of the
slot. -/
theorem serves_customReadCb (h : w.webCache.Holds f.filepath (f.Answers asked)) {idx : Option ℕ} {fd : ℤ}
    {buff : Bytes} (hunreported : f.Unreported w (.customRead idx fd buff))
    (hread : fd ≠ w.inotifyFd → ∀ i, idx = some i → w.paths[i]? = some f.filepath → f.Answers asked buff)
    (hr : w.customReadCb env idx fd buff = some r) : Serves f asked r := by
  unfold customReadCb at hr
  split at hr
  · rename_i hfd
    obtain rfl := Option.some.inj hr
    refine ⟨h.inotifyEventHandler (hunreported hfd), ?_⟩
    simp [TcpCall.read]
  · rename_i hfd
    split at hr
    · cases hr
    · rename_i i
      split at hr
      · cases hr
      · rename_i client hclient
        dsimp only at hr
        have hgood : client.lastRequestedReadFilepath = f.filepath → f.Answers asked buff := by
          intro hpath
          exact hread hfd i rfl (by simp [paths, hclient, hpath])
        split at hr
        · cases hr
        · rename_i cache hinsert
          obtain ⟨⟨cache', client', item⟩, hfetch, rfl⟩ := Option.map_eq_some_iff.mp hr
          refine ⟨(h.tryInsertItem hgood hinsert).fetchItem hfetch, ?_⟩
          simp [TcpCall.read]
        · obtain rfl := Option.some.inj hr
          exact serves_mild h (by simp [TcpCall.Mild])

/-- Any callback but the end of a custom read. -/
theorem serves_invoke (h : w.webCache.Holds f.filepath (f.Answers asked)) {e : WebEnv × Callback}
    (hkind : ∀ idx fd buff, e.2 ≠ .customRead idx fd buff) (hsized : f.Sized e)
    (hasked : ∀ q ∈ fileRequest e, q.filepath = f.filepath → asked q.acceptBytes q.responseCode)
    (hcb : (webApp N).invoke w e = some r) : Serves f asked r := by
  obtain ⟨env, cb⟩ := e
  cases cb with
  | accept i =>
      obtain rfl : (w.newTcpClient i, []) = r := by simpa [App.invoke, webApp] using hcb
      exact serves_mild h (by simp)
  | close i info =>
      obtain ⟨w₁, hclose, rfl⟩ := Option.map_eq_some_iff.mp
        (show (w.closeCb i info).map (fun w => (w, [])) = some r from hcb)
      obtain ⟨w₂, hused, hkill⟩ := Option.bind_eq_some_iff.mp hclose
      have hcache : w₂.webCache.Holds f.filepath (f.Answers asked) := (sameFiles_broadcastUsed hused).cache ▸ h
      exact serves_mild (holds_killClient hcache hkill) (by simp)
  | read i buffer => exact serves_readCb h hsized hasked hcb
  | write i info => exact serves_writeCb h hcb
  | event =>
      obtain rfl : w.eventCb env = r := Option.some.inj hcb
      have hsame : (w.eventCb env).1.webCache = w.webCache := (sameFiles_eventCb env w).cache
      refine ⟨hsame ▸ h, ?_⟩
      unfold eventCb
      dsimp only
      split <;> simp [TcpCall.read]
  | customRead idx fd buff => exact absurd rfl (hkind idx fd buff)

/-- Callbacks of which none is the end of a custom read. -/
theorem serves_exec {es : List (WebEnv × Callback)} {calls : List (List TcpCall)}
    (h : w.webCache.Holds f.filepath (f.Answers asked))
    (hkind : ∀ e ∈ es, ∀ idx fd buff, e.2 ≠ .customRead idx fd buff) (hsized : ∀ e ∈ es, f.Sized e)
    (hasked : ∀ e ∈ es, ∀ q ∈ fileRequest e, q.filepath = f.filepath → asked q.acceptBytes q.responseCode)
    (hrun : Runs.exec (webApp N).invoke w es = some (w', calls)) : Serves f asked (w', calls.flatten) := by
  induction es generalizing w calls with
  | nil =>
      obtain ⟨rfl, rfl⟩ : w = w' ∧ [] = calls := by simpa [Runs.exec] using hrun
      exact serves_mild h (by simp)
  | cons e es ih =>
      obtain ⟨w₁, cs₁, calls₂, hcb, hrest, rfl⟩ := Runs.exec_cons hrun
      obtain ⟨hcache, hreads⟩ := serves_invoke h (hkind e (by simp)) (hsized e (by simp)) (hasked e (by simp)) hcb
      have hmem : ∀ e' ∈ es, e' ∈ e :: es := fun e' => List.mem_cons_of_mem e
      obtain ⟨hcache', hreads'⟩ := ih hcache (fun e' he => hkind e' (hmem e' he))
        (fun e' he => hsized e' (hmem e' he)) (fun e' he => hasked e' (hmem e' he)) hrest
      refine ⟨hcache', fun x hx => ?_⟩
      rw [List.flatten_cons, List.filterMap_append] at hx
      rcases List.mem_append.mp hx with hx | hx
      · exact hreads x hx
      · exact hreads' x hx

end WebServer

/-! ### Runs -/

namespace RegularFile

variable {f : RegularFile} {accept : Bool} {code : ℕ} {req : Request} {c : Completion WebEnv}

/-- A completion fills the buffer further. -/
theorem Filling.deliver (h : f.Filling accept code req) (hc : f.Delivers req c) :
    ∃ amount : ℕ, req.readAmount + c.res = amount ∧ amount < 2 ^ 64 ∧
      f.Filling accept code { req with readData := Machine.stored req c.res c.data, readAmount := amount } := by
  obtain ⟨htotal, hlength, hheaders, hamount, hfilled, hlt⟩ := h
  obtain ⟨hres, hdata⟩ := hc
  have hresponse : (f.response accept code).length =
      (fileHeaders f.filepath f.contents.length accept false code).length + f.contents.length := by simp [response]
  have hstored : Machine.stored req c.res c.data =
      req.readData.take req.readAmount ++ c.data ++ req.readData.drop (req.readAmount + c.data.length) := by
    simp [Machine.stored, hres]
  generalize hheader : fileHeaders f.filepath f.contents.length accept false code = headers at hresponse
  have hoffset : req.readAmount - (req.readData.length - req.totalLength) = req.readAmount - headers.length := by
    omega
  rw [hoffset] at hdata
  have hfits : req.readAmount + c.data.length ≤ req.readData.length := by
    have := hdata.length_le
    rw [List.length_drop] at this
    omega
  refine ⟨req.readAmount + c.data.length, by omega, by omega, htotal, ?_, ?_, ?_, ?_, hlt⟩
  · simp only [hstored, List.length_append, List.length_take, List.length_drop]
    omega
  · simp only
    omega
  · simp only [hstored, List.length_append, List.length_take, List.length_drop]
    omega
  · -- the data are what comes next in the response
    have hnext : c.data = ((f.response accept code).drop req.readAmount).take c.data.length := by
      have hdrop : (f.response accept code).drop req.readAmount =
          f.contents.drop (req.readAmount - headers.length) := by
        rw [response, hheader, List.drop_append, List.drop_eq_nil_of_le (by omega), List.nil_append]
      rw [hdrop]
      exact List.prefix_iff_eq_take.mp hdata
    have htaken : (req.readData.take req.readAmount ++ c.data).length = req.readAmount + c.data.length := by
      rw [List.length_append, List.length_take, Nat.min_eq_left hamount]
    simp only
    rw [hstored, ← htaken, List.take_left, htaken, List.take_add, hfilled]
    exact congrArg _ hnext

/-- A buffer that is filled to its end is the response. -/
theorem Filling.full (h : f.Filling accept code req) (hfull : req.readAmount = req.readData.length) :
    req.readData = f.response accept code := by
  have hfilled := h.filled
  rwa [hfull, List.take_length, h.length, List.take_length] at hfilled

end RegularFile

namespace Machine

variable {T : ServerType} {f : RegularFile} {asked : Bool → ℕ → Prop} {m m' : Machine (WebServer N)}
  {c : Completion WebEnv} {log : List Callback}

/-- The step treats the file as one that does not change: what opens it finds its size, a read of it delivers its
contents, and no event reports the item that the cache has for it as modified. -/
def Unchanged (T : ServerType) (f : RegularFile) (m : Machine (WebServer N)) (c : Completion WebEnv) : Prop :=
  (∀ sub ∈ m.tcp.inflight[c.index]?, sub.req.event = .customRead → sub.file = some f.filepath →
    f.Delivers sub.req c) ∧
  ∀ r ∈ step T (webApp N) m c, ∀ cb ∈ r.2, f.Sized (c.env, cb) ∧ f.Unreported m.app cb

instance (m : Machine (WebServer N)) (c : Completion WebEnv) : Decidable (m.Unchanged T f c) :=
  inferInstanceAs (Decidable (_ ∧ _))

/-- The cached item is a response, and the reads of the file fill responses, to requests that were asked for. -/
structure Responds (f : RegularFile) (asked : Bool → ℕ → Prop) (m : Machine (WebServer N)) : Prop where
  cache : m.app.webCache.Holds f.filepath (f.Answers asked)
  reads : ∀ x ∈ m.tcp.reads, x.2 = some f.filepath → ∃ accept code, asked accept code ∧ f.Filling accept code x.1

/-- A read of the file that is finished has read the response. -/
theorem Responds.finished (h : m.Responds f asked) (hsame : m.Unchanged T f c) {sub : Submission}
    (hsub : m.tcp.inflight[c.index]? = some sub) (hevent : sub.req.event = .customRead)
    (hfile : sub.file = some f.filepath)
    (hfull : ((stored sub.req c.res c.data).length : ℤ) = (c.res + sub.req.readAmount) % 2 ^ 64) :
    f.Answers asked (stored sub.req c.res c.data) := by
  have hread : (sub.req, sub.file) ∈ m.tcp.reads :=
    List.mem_map_of_mem (List.mem_filter.mpr ⟨List.mem_of_getElem? hsub, by simpa using hevent⟩)
  obtain ⟨accept, code, hasked, hfilling⟩ : ∃ accept code, asked accept code ∧ f.Filling accept code sub.req :=
    h.reads _ hread hfile
  obtain ⟨amount, hamount, hlt, hfilled⟩ := hfilling.deliver (hsame.1 sub hsub hevent hfile)
  refine ⟨accept, code, hasked, hfilled.full ?_⟩
  simp only
  omega

/-- The callback for the end of a custom read. -/
theorem serves_finished (h : m.Responds f asked) (hpaths : PathInv m) (hsame : m.Unchanged T f c) {sub : Submission}
    (hsub : m.tcp.inflight[c.index]? = some sub) (hevent : sub.req.event = .customRead)
    (hfull : ((stored sub.req c.res c.data).length : ℤ) = (c.res + sub.req.readAmount) % 2 ^ 64)
    (hunreported : f.Unreported m.app
      (.customRead sub.req.clientIdx sub.req.customInfo (stored sub.req c.res c.data)))
    {r : WebServer N × List TcpCall} (hcb : m.app.customReadCb c.env sub.req.clientIdx sub.req.customInfo
      (stored sub.req c.res c.data) = some r) : WebServer.Serves f asked r := by
  have hmem : sub ∈ m.tcp.customReads :=
    List.mem_filter.mpr ⟨List.mem_of_getElem? hsub, by simpa using hevent⟩
  refine WebServer.serves_customReadCb h.cache hunreported (fun hfd i hidx hpath => ?_) hcb
  -- the path of the slot is the one that the read was started for
  obtain ⟨j, p, hidx', hfile, hpath'⟩ := (hpaths.pending sub hmem).resolve_left hfd
  obtain rfl : i = j := Option.some.inj (hidx.symm.trans hidx')
  obtain rfl : f.filepath = p := Option.some.inj (hpath.symm.trans hpath')
  exact h.finished hsame hsub hevent hfile hfull

/-- The callbacks of one round of the loop, all of them or the first ones. -/
theorem serves_step (h : m.Responds f asked) (hpaths : PathInv m) (hsame : m.Unchanged T f c)
    (hstep : step T (webApp N) m c = some (m', log)) {es : List (WebEnv × Callback)}
    (hes : es <+: log.map fun cb => (c.env, cb))
    (hasked : ∀ e ∈ es, ∀ q ∈ fileRequest e, q.filepath = f.filepath → asked q.acceptBytes q.responseCode)
    {w : WebServer N} {calls : List (List TcpCall)} (hrun : Runs.exec (webApp N).invoke m.app es = some (w, calls)) :
    WebServer.Serves f asked (w, calls.flatten) := by
  obtain ⟨sub, stepCalls, hsub, -, hreads⟩ := replays_step hstep
  have hlog : ∀ e ∈ es, ∃ cb ∈ log, e = (c.env, cb) := by
    intro e he
    obtain ⟨cb, hcb, rfl⟩ := List.mem_map.mp (hes.subset he)
    exact ⟨cb, hcb, rfl⟩
  have hsized : ∀ e ∈ es, f.Sized e := by
    intro e he
    obtain ⟨cb, hcb, rfl⟩ := hlog e he
    exact (hsame.2 _ hstep cb hcb).1
  by_cases hkind : ∀ e ∈ es, ∀ idx fd buff, e.2 ≠ .customRead idx fd buff
  · exact WebServer.serves_exec h.cache hkind hsized hasked hrun
  · -- the end of a custom read is the only callback of its round
    push Not at hkind
    obtain ⟨e, he, idx, fd, buff, hcb⟩ := hkind
    obtain ⟨cb, hmem, rfl⟩ := hlog e he
    obtain rfl : cb = .customRead idx fd buff := hcb
    split at hreads
    · rename_i hevent
      obtain ⟨others, -, ⟨hfull, rfl, -⟩ | ⟨rfl, -⟩⟩ := hreads
      · have hall : es = [(c.env, .customRead sub.req.clientIdx sub.req.customInfo (stored sub.req c.res c.data))] := by
          refine (hes.eq_of_length ?_).trans rfl
          have hle := hes.length_le
          have hpos := List.length_pos_of_mem he
          simp only [List.map_cons, List.map_nil, List.length_singleton] at hle ⊢
          omega
        rw [hall] at hrun
        obtain ⟨r, hr, heq⟩ : ∃ r, m.app.customReadCb c.env sub.req.clientIdx sub.req.customInfo
            (stored sub.req c.res c.data) = some r ∧ (w, calls) = (r.1, [r.2]) := by
          cases hr : (webApp N).invoke m.app
              (c.env, .customRead sub.req.clientIdx sub.req.customInfo (stored sub.req c.res c.data)) with
          | none => simp [Runs.exec, hr] at hrun
          | some r => exact ⟨r, hr, by simpa [Runs.exec, hr] using hrun.symm⟩
        obtain ⟨rfl, rfl⟩ := Prod.mk.inj heq
        have hserves := serves_finished h hpaths hsame hsub hevent hfull (hsame.2 _ hstep _ (by simp)).2 hr
        simpa using hserves
      · cases hmem
    · exact absurd hmem (hreads.2 idx fd buff)

/-- One round of the loop. -/
theorem responds_step (h : m.Responds f asked) (hpaths : PathInv m) (hsame : m.Unchanged T f c)
    (hstep : step T (webApp N) m c = some (m', log))
    (hasked : ∀ cb ∈ log, ∀ q ∈ fileRequest (c.env, cb), q.filepath = f.filepath →
      asked q.acceptBytes q.responseCode) : m'.Responds f asked := by
  obtain ⟨sub, calls, hsub, hcalls, hreads⟩ := replays_step hstep
  obtain ⟨hcache, hnew⟩ := serves_step h hpaths hsame hstep (List.prefix_refl _) (by simpa using hasked) hcalls
  refine ⟨hcache, fun x hx hfile => ?_⟩
  split at hreads
  · rename_i hevent
    obtain ⟨others, hperm, hafter⟩ := hreads
    have hothers : ∀ x ∈ others, x ∈ m.tcp.reads := fun x hx => hperm.mem_iff.mpr (List.mem_cons_of_mem _ hx)
    rcases hafter with ⟨-, -, hafter⟩ | ⟨-, hafter⟩
    · rw [hafter] at hx
      rcases List.mem_append.mp hx with hx | hx
      · exact h.reads x (hothers x hx) hfile
      · exact hnew x hx hfile
    · rw [hafter] at hx
      rcases List.mem_append.mp hx with hx | hx
      · exact h.reads x (hothers x hx) hfile
      · obtain rfl := List.mem_singleton.mp hx
        obtain ⟨accept, code, hthis, hfilling⟩ : ∃ accept code, asked accept code ∧ f.Filling accept code sub.req :=
          h.reads _ (hperm.mem_iff.mpr (List.mem_cons_self ..)) hfile
        obtain ⟨amount, hamount, hlt, hfilled⟩ := hfilling.deliver (hsame.1 sub hsub hevent hfile)
        have hsum : ((sub.req.readAmount + c.res) % 2 ^ 64).toNat = amount := by omega
        exact ⟨accept, code, hthis, by rw [hsum]; exact hfilled⟩
  · obtain ⟨hafter, -⟩ := hreads
    rw [hafter] at hx
    rcases List.mem_append.mp hx with hx | hx
    · exact h.reads x hx hfile
    · exact hnew x hx hfile

theorem responds_start (N : ℕ) (inotifyFd : ℤ) : (webStart N inotifyFd).Responds f asked := by
  refine ⟨Cache.holds_empty, fun x hx hfile => ?_⟩
  have hnone : x.2 = none := by
    simp [webStart, start, TcpServer.reads, TcpServer.customReads, TcpServer.addEventReq,
      TcpServer.customReadReq] at hx
    simp [hx]
  simp [hnone] at hfile

/-- The cache before and after each callback of a run. -/
theorem holds_run {cs : List (Completion WebEnv)} {logs : List (List Callback)} (h : m.Responds f asked)
    (hpaths : PathInv m)
    (hcs : Runs.Along (step T (webApp N)) (fun m c => m.KeepsReads T c ∧ m.Unchanged T f c) m cs)
    (hrun : Runs.exec (step T (webApp N)) m cs = some (m', logs)) {es : List (WebEnv × Callback)}
    (hes : es <+: invoked cs logs)
    (hasked : ∀ e ∈ es, ∀ q ∈ fileRequest e, q.filepath = f.filepath → asked q.acceptBytes q.responseCode)
    {w : WebServer N} {calls : List (List TcpCall)} (hw : Runs.exec (webApp N).invoke m.app es = some (w, calls)) :
    w.webCache.Holds f.filepath (f.Answers asked) := by
  induction cs generalizing m logs es calls with
  | nil =>
      obtain rfl : es = [] := by simpa [invoked] using hes
      obtain ⟨rfl, -⟩ : m.app = w ∧ [] = calls := by simpa [Runs.exec] using hw
      exact h.cache
  | cons c cs ih =>
      obtain ⟨⟨hquiet, hsame⟩, hlater⟩ := hcs
      obtain ⟨m₁, log, logs₁, hstep, hrest, rfl⟩ := Runs.exec_cons hrun
      rw [invoked_cons] at hes
      by_cases hshort : es.length ≤ (log.map fun cb => (c.env, cb)).length
      · exact (serves_step h hpaths hsame hstep
          (List.prefix_of_prefix_length_le hes (List.prefix_append ..) hshort) hasked hw).cache
      · obtain ⟨es', rfl⟩ := List.prefix_of_prefix_length_le (List.prefix_append ..) hes (by omega)
        obtain ⟨-, stepCalls, -, hinvoked, -⟩ := replays_step hstep
        obtain ⟨w₁, calls₁, calls₂, hfirst, hsecond, -⟩ := Runs.exec_append.mp hw
        obtain ⟨rfl, -⟩ : m₁.app = w₁ ∧ stepCalls = calls₁ := by simpa [hinvoked] using hfirst
        refine ih (responds_step h hpaths hsame hstep fun cb hcb => ?_) (pathInv_step hpaths hquiet hstep)
          (hlater _ _ hstep) hrest ?_ (fun e he => hasked e (List.mem_append_right _ he)) hsecond
        · exact hasked (c.env, cb) (List.mem_append_left _ (List.mem_map_of_mem hcb))
        · exact (List.prefix_append_right_inj _).mp hes

end Machine

/-! ### What is sent -/

namespace WebServer

variable {f : RegularFile} {asked : Bool → ℕ → Prop} {w w' : WebServer N} {env : WebEnv} {i n code : ℕ}
  {accept : Bool} {hit miss : Bytes}

/-- What a pointer into the cache leads to. -/
def pointee (w : WebServer N) : Ptr → Bytes
  | .cached slot => if h : slot < N then (w.webCache.cacheBuffer ⟨slot, h⟩).buffer else []
  | _ => []

/-- What is sent for a call: its buffer, what its pointer leads to, or for a file read what is in the buffer
before the contents of the file, and these. -/
def sent (w : WebServer N) (contents : Bytes) : TcpCall → Bytes
  | .writeConnection _ buff => buff
  | .writeConnectionPtr _ buff length => (w.pointee buff).take length
  | .customReadReq _ _ _ buff readAmount _ => buff.take readAmount ++ contents
  | _ => []

/-- The bytes that `send_file_request` sends for the file, if it could be opened. -/
def sentBytes (env : WebEnv) (n : ℕ) (w : WebServer N) (i : ℕ) (f : RegularFile) (acceptBytes : Bool)
    (responseCode : ℕ) : Option Bytes :=
  match w.sendFileRequest env n i f.filepath acceptBytes responseCode with
  | some (w, calls, true) => some (calls.flatMap (w.sent f.contents))
  | _ => none

/-- The same server with an empty cache. -/
def uncached (w : WebServer N) : WebServer N := { w with webCache := {} }

theorem sentBytes_eq_some (h : w.sentBytes env n i f accept code = some hit) :
    ∃ w' calls, w.sendFileRequest env n i f.filepath accept code = some (w', calls, true) ∧
      calls.flatMap (w'.sent f.contents) = hit := by
  unfold sentBytes at h
  split at h
  · rename_i w' calls hsend
    exact ⟨w', calls, hsend, Option.some.inj h⟩
  · cases h

/-- The buffer of a slot is sent by the pointer that a fetch of it returns. -/
theorem sent_foundItem (contents : Bytes) (slot : Fin N) :
    w.sent contents (.writeConnectionPtr i (w.webCache.foundItem slot).ptr (w.webCache.foundItem slot).size) =
      (w.webCache.data slot).buffer := by
  by_cases hempty : (w.webCache.cacheBuffer slot).buffer = []
  · simp [sent, CacheFetchItem.ptr, Cache.foundItem, pointee, Cache.data, CacheItem.data, hempty]
  · simp [sent, CacheFetchItem.ptr, Cache.foundItem, pointee, Cache.data, CacheItem.data, hempty]

/-- A request that the cache serves is answered with the item. -/
theorem sentBytes_hit (h : w.webCache.Holds f.filepath (f.Answers asked))
    (hserved : w.webCache.serves f.filepath = true) (hsent : w.sentBytes env n i f accept code = some hit) :
    f.Answers asked hit := by
  obtain ⟨w', calls, hsend, rfl⟩ := sentBytes_eq_some hsent
  obtain ⟨client, client', item, hfetch, hcs⟩ := sendFileRequest_opened hsend
  have hfound := (Cache.fetchItem_found hfetch).1
  rw [hserved] at hfound
  obtain ⟨slot, rfl, hanswer⟩ := h.hit hfetch hfound
  rcases hcs with ⟨-, rfl⟩ | ⟨hnone, -, -⟩
  · rw [List.flatMap_singleton, sent_foundItem]
    exact hanswer
  · simp [Cache.foundItem] at hnone

/-- A request that the cache does not serve is answered with its own response. -/
theorem sentBytes_miss (hsize : (env.files n).2 = f.contents.length) (hmissed : w.webCache.serves f.filepath = false)
    (hsent : w.sentBytes env n i f accept code = some miss) : miss = f.response accept code := by
  obtain ⟨w', calls, hsend, rfl⟩ := sentBytes_eq_some hsent
  obtain ⟨client, client', item, hfetch, hcs⟩ := sendFileRequest_opened hsend
  have hfound := (Cache.fetchItem_found hfetch).1
  rw [hmissed] at hfound
  rcases hcs with ⟨hsome, -⟩ | ⟨-, -, rfl⟩
  · simp [hfound] at hsome
  · simp [sent, RegularFile.response, hsize]

/-- The end of a file read sends what was read, from the cache or not. -/
theorem customReadCb_sent {good : Bytes → Prop} (h : w.webCache.Holds f.filepath good) {idx : Option ℕ} {fd : ℤ}
    {buff : Bytes} {r : WebServer N × List TcpCall} (hfd : fd ≠ w.inotifyFd)
    (hr : w.customReadCb env idx fd buff = some r) : r.2.flatMap (r.1.sent f.contents) = buff := by
  unfold customReadCb at hr
  rw [if_neg hfd] at hr
  split at hr
  · cases hr
  · rename_i i
    split at hr
    · cases hr
    · dsimp only at hr
      split at hr
      · cases hr
      · rename_i cache hinsert
        obtain ⟨⟨cache', client', item⟩, hfetch, rfl⟩ := Option.map_eq_some_iff.mp hr
        obtain ⟨slot, hslot, hout, hbuff⟩ := h.tracked.inserted hinsert
        rcases Cache.fetchItem_cases hfetch with ⟨hnone, -⟩ | ⟨j, hj, -, -, ⟨-, rfl, -, hdata⟩ | ⟨hold, -⟩⟩
        · simp [hslot] at hnone
        · obtain rfl : slot = j := Option.some.inj (hslot.symm.trans hj)
          rw [List.flatMap_singleton]
          refine (sent_foundItem f.contents slot).trans ?_
          show (cache'.data slot).buffer = buff
          rw [hdata, Function.update_self]
          exact hbuff
        · obtain rfl : slot = j := Option.some.inj (hslot.symm.trans hj)
          simp [hout] at hold
      · obtain rfl := Option.some.inj hr
        simp [sent]

end WebServer

/-- A read of the file that is finished sends the response to a request that was asked for. -/
theorem Machine.Responds.read_sent {T : ServerType} {f : RegularFile} {asked : Bool → ℕ → Prop}
    {m : Machine (WebServer N)} {c : Completion WebEnv} (h : m.Responds f asked) (hsame : m.Unchanged T f c)
    {sub : Submission} (hsub : m.tcp.inflight[c.index]? = some sub) (hevent : sub.req.event = .customRead)
    (hfile : sub.file = some f.filepath) (hfd : sub.req.customInfo ≠ m.app.inotifyFd)
    (hfull : ((stored sub.req c.res c.data).length : ℤ) = (c.res + sub.req.readAmount) % 2 ^ 64)
    {r : WebServer N × List TcpCall} (hcb : m.app.customReadCb c.env sub.req.clientIdx sub.req.customInfo
      (stored sub.req c.res c.data) = some r) : f.Answers asked (r.2.flatMap (r.1.sent f.contents)) := by
  rw [WebServer.customReadCb_sent h.cache hfd hcb]
  exact h.finished hsame hsub hevent hfile hfull

/-- **Hits and misses.** Before every callback of a run in which the file does not change and every file read
finds its path, the cache serves the file with the response to an earlier request of it. This is the response
that the present request would get without the cache exactly if the two agree on whether bytes are accepted, and
on whether the response code is 200. -/
theorem hit_sends_miss_iff (T : ServerType) (N : ℕ) (inotifyFd : ℤ) (f : RegularFile) (cs : List (Completion WebEnv))
    (hcs : Runs.Along (Machine.step T (webApp N)) (fun m c => m.KeepsReads T c ∧ m.Unchanged T f c)
      (webStart N inotifyFd) cs) :
    ∀ m logs, Runs.exec (Machine.step T (webApp N)) (webStart N inotifyFd) cs = some (m, logs) →
      ∀ es, es <+: invoked cs logs → ∀ w calls,
        Runs.exec (webApp N).invoke { inotifyFd } es = some (w, calls) →
        ∀ env n i acceptBytes responseCode hit, (env.files n).2 = f.contents.length →
          w.webCache.serves f.filepath = true → w.sentBytes env n i f acceptBytes responseCode = some hit →
          ∃ e ∈ es, ∃ req, fileRequest e = some req ∧ req.filepath = f.filepath ∧
            hit = f.response req.acceptBytes req.responseCode ∧
            ∀ (w₀ : WebServer N) miss, w₀.webCache.serves f.filepath = false →
              w₀.sentBytes env n i f acceptBytes responseCode = some miss →
              (hit = miss ↔ acceptBytes = req.acceptBytes ∧ (responseCode = 200 ↔ req.responseCode = 200)) := by
  intro m logs hrun es hes w calls hw env n i accept code hit hsize hserved hhit
  -- the requests that have been made so far
  let asked : Bool → ℕ → Prop := fun accept code => ∃ e ∈ es, ∃ req, fileRequest e = some req ∧
    req.filepath = f.filepath ∧ req.acceptBytes = accept ∧ req.responseCode = code
  have hholds : w.webCache.Holds f.filepath (f.Answers asked) :=
    Machine.holds_run (Machine.responds_start N inotifyFd) (Machine.pathInv_start N inotifyFd) hcs hrun hes
      (fun e he req hreq hpath => ⟨e, he, req, hreq, hpath, rfl, rfl⟩) hw
  obtain ⟨-, -, ⟨e, he, req, hreq, hpath, rfl, rfl⟩, rfl⟩ := WebServer.sentBytes_hit hholds hserved hhit
  refine ⟨e, he, req, hreq, hpath, rfl, fun w₀ miss hmissed hmiss => ?_⟩
  rw [WebServer.sentBytes_miss hsize hmissed hmiss, f.response_inj]
  constructor
  · rintro ⟨haccept, hcode⟩
    exact ⟨haccept.symm, hcode.symm⟩
  · rintro ⟨haccept, hcode⟩
    exact ⟨haccept.symm, hcode.symm⟩

/-- A file of three bytes. -/
def threeBytes (filepath : Bytes) : RegularFile := ⟨filepath, [1, 2, 3], by decide⟩

/-- A request for a file, which is read. -/
def readEvents (request : Bytes) : List (Completion WebEnv) :=
  [{ index := 4, res := 10, env := {} },
    { index := 5, res := request.length, data := request, env := { files := fun _ => (20, 3) } },
    { index := 5, res := 3, data := [1, 2, 3], env := {} }]

theorem hit_sends_miss_same :
    Runs.Along (Machine.step .nonTls (webApp 2))
        (fun m c => m.KeepsReads .nonTls c ∧ m.Unchanged .nonTls (threeBytes (ascii "public/a")) c) (webStart 2 7)
        (readEvents (ascii "GET /a HTTP/1.0\r\n")) ∧
      ∃ m logs hit miss, Runs.exec (Machine.step .nonTls (webApp 2)) (webStart 2 7)
          (readEvents (ascii "GET /a HTTP/1.0\r\n")) = some (m, logs) ∧
        m.app.webCache.serves (ascii "public/a") = true ∧
        m.app.sentBytes { files := fun _ => (21, 3) } 0 0 (threeBytes (ascii "public/a")) false 200 = some hit ∧
        m.app.uncached.sentBytes { files := fun _ => (21, 3) } 0 0 (threeBytes (ascii "public/a")) false 200 =
          some miss ∧ hit = miss := by
  have hcs : Runs.Along (Machine.step .nonTls (webApp 2))
      (fun m c => m.KeepsReads .nonTls c ∧ m.Unchanged .nonTls (threeBytes (ascii "public/a")) c) (webStart 2 7)
      (readEvents (ascii "GET /a HTTP/1.0\r\n")) := by decide +kernel
  have hsome : (Runs.exec (Machine.step .nonTls (webApp 2)) (webStart 2 7)
      (readEvents (ascii "GET /a HTTP/1.0\r\n"))).any (fun r =>
        r.1.app.webCache.serves (ascii "public/a") ∧
        r.1.app.sentBytes { files := fun _ => (21, 3) } 0 0 (threeBytes (ascii "public/a")) false 200 =
          some ((threeBytes (ascii "public/a")).response false 200) ∧
        (r.1.app.uncached.sentBytes { files := fun _ => (21, 3) } 0 0 (threeBytes (ascii "public/a")) false
          200).isSome) = true := by decide +kernel
  simp only [Option.any_eq_true, decide_eq_true_eq, Option.isSome_iff_exists] at hsome
  obtain ⟨⟨m, logs⟩, hrun, hserved, hhit, miss, hmiss⟩ := hsome
  obtain ⟨calls, hcalls⟩ := Machine.replays_run hrun
  obtain ⟨e, -, req, -, -, hreq, hiff⟩ := hit_sends_miss_iff .nonTls 2 7 _ _ hcs m logs hrun _ (List.prefix_refl _)
    m.app calls hcalls _ 0 0 false 200 _ rfl hserved hhit
  exact ⟨hcs, m, logs, _, miss, hrun, hserved, hhit, hmiss,
    (hiff _ miss rfl hmiss).mpr (((threeBytes (ascii "public/a")).response_inj ..).mp hreq)⟩

/-- A client asks for the page for missing files by its name. The next request is one for a file that is missing:
it gets the page from the cache, with the status line of a file that was found. -/
theorem hit_sends_other_status :
    Runs.Along (Machine.step .nonTls (webApp 2))
        (fun m c => m.KeepsReads .nonTls c ∧ m.Unchanged .nonTls (threeBytes (ascii "public/404.html")) c)
        (webStart 2 7) (readEvents (ascii "GET /404.html HTTP/1.0\r\n")) ∧
      ∃ m logs hit miss, Runs.exec (Machine.step .nonTls (webApp 2)) (webStart 2 7)
          (readEvents (ascii "GET /404.html HTTP/1.0\r\n")) = some (m, logs) ∧
        m.app.webCache.serves (ascii "public/404.html") = true ∧
        m.app.sentBytes { files := fun _ => (21, 3) } 0 0 (threeBytes (ascii "public/404.html")) false 400 =
          some hit ∧
        m.app.uncached.sentBytes { files := fun _ => (21, 3) } 0 0 (threeBytes (ascii "public/404.html")) false
          400 = some miss ∧
        hit ≠ miss ∧ ascii "HTTP/1.0 200 OK\r\n" <+: hit ∧ ascii "HTTP/1.0 404 Not Found\r\n" <+: miss := by
  have hcs : Runs.Along (Machine.step .nonTls (webApp 2))
      (fun m c => m.KeepsReads .nonTls c ∧ m.Unchanged .nonTls (threeBytes (ascii "public/404.html")) c)
      (webStart 2 7) (readEvents (ascii "GET /404.html HTTP/1.0\r\n")) := by decide +kernel
  have hsome : (Runs.exec (Machine.step .nonTls (webApp 2)) (webStart 2 7)
      (readEvents (ascii "GET /404.html HTTP/1.0\r\n"))).any (fun r =>
        r.1.app.webCache.serves (ascii "public/404.html") ∧
        (r.1.app.sentBytes { files := fun _ => (21, 3) } 0 0 (threeBytes (ascii "public/404.html")) false 400).any
          fun hit => (r.1.app.uncached.sentBytes { files := fun _ => (21, 3) } 0 0
            (threeBytes (ascii "public/404.html")) false 400).any fun miss =>
              hit ≠ miss ∧ ascii "HTTP/1.0 200 OK\r\n" <+: hit ∧ ascii "HTTP/1.0 404 Not Found\r\n" <+: miss) =
      true := by decide +kernel
  simp only [Option.any_eq_true, decide_eq_true_eq] at hsome
  obtain ⟨⟨m, logs⟩, hrun, hserved, hit, hhit, miss, hmiss, hne, hstatus, hstatus'⟩ := hsome
  exact ⟨hcs, m, logs, hit, miss, hrun, hserved, hhit, hmiss, hne, hstatus, hstatus'⟩

end LiburingServer
