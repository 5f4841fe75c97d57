import LiburingServer.TcpCallbacks
import LiburingServer.WebFiles

/-! The paths under which files are stored in the cache. The path is not part of the read request: it is
looked up, when the read finishes, in the slot that the read was for. It is the right one as long as no
accept on this slot and no further request of it that reads a file come between. -/

namespace LiburingServer

variable {N : ℕ}

/-- The call starts a custom read. -/
def TcpCall.StartsRead : TcpCall → Prop
  | .customReadReq .. => True
  | _ => False

theorem TcpCall.Mild.not_startsRead {c : TcpCall} (h : c.Mild) : ¬c.StartsRead := by
  cases c <;> simp_all [Mild, StartsRead]

namespace TcpServer

variable {T : ServerType} {s s' : TcpServer}

theorem call_reads {c : TcpCall} (h : s.call T c = some s') (hc : ¬c.StartsRead) :
    s'.customReads = s.customReads ∧ s'.finishedReads = s.finishedReads := by
  unfold call at h
  split at h
  · obtain rfl := Option.some.inj h
    cases c with
    | writeConnection i buff =>
        have := alters_writeConnection (s := s) (i := i) T buff
        exact ⟨this.customReads, this.finishedReads⟩
    | writeConnectionPtr i buff length =>
        have := alters_enqueue (s := s) (i := i) T { ptrBuff := buff, totalLength := length } length
        exact ⟨this.customReads, this.finishedReads⟩
    | broadcastMessage clientIdxs buff length customInfo => exact broadcastMessage_reads T _ _ _ _
    | closeConnection i => exact closeConnection_reads T
    | readConnection i =>
        have := (touches_addReadReq (s := s) (i := i) (Or.inl rfl : EventType.read = .read ∨ _)).alters
        exact ⟨this.customReads, this.finishedReads⟩
    | customReadReq fd toRead clientIdx buff readAmount file => exact absurd trivial hc
  · cases h

theorem calls_reads {cs : List TcpCall} (h : s.calls T cs = some s') (hcs : ∀ c ∈ cs, ¬c.StartsRead) :
    s'.customReads = s.customReads ∧ s'.finishedReads = s.finishedReads := by
  refine Runs.foldlM_keeps
    (R := fun x => x.customReads = s.customReads ∧ x.finishedReads = s.finishedReads) ?_ ⟨rfl, rfl⟩ h
  rintro b c b' hmem ⟨hreads, hfinished⟩ hcall
  obtain ⟨hreads', hfinished'⟩ := call_reads hcall (hcs c hmem)
  exact ⟨hreads'.trans hreads, hfinished'.trans hfinished⟩

theorem customReads_submit {sub : Submission} (h : sub.req.event = .customRead) :
    (s.submit sub).customReads = s.customReads ++ [sub] := by
  simp [customReads, h]

/-- Calls of which the first one starts a custom read. -/
theorem calls_customReadReq {fd : ℤ} {toRead amount : ℕ} {idx : Option ℕ} {buff : Bytes} {file : Option Bytes}
    {cs : List TcpCall} (h : s.calls T (.customReadReq fd toRead idx buff amount file :: cs) = some s')
    (hcs : ∀ c ∈ cs, ¬c.StartsRead) :
    ∃ sub, s'.customReads = s.customReads ++ [sub] ∧ s'.finishedReads = s.finishedReads ∧
      sub.req.clientIdx = idx ∧ sub.req.customInfo = fd ∧ sub.file = file := by
  rw [calls, List.foldlM_cons] at h
  obtain ⟨s₁, hs₁, hrest⟩ := Option.bind_eq_some_iff.mp h
  obtain ⟨hreads, hfinished⟩ := calls_reads hrest hcs
  unfold call at hs₁
  split at hs₁
  · obtain rfl := Option.some.inj hs₁
    rw [TcpServer.run, customReadReq, customReads_submit rfl] at hreads
    exact ⟨_, hreads, hfinished, rfl, rfl, rfl⟩
  · cases hs₁

end TcpServer

/-! ### The callbacks -/

namespace WebServer

/-- A callback that changes no path, stores nothing and starts no read. -/
structure KeepsPaths (w : WebServer N) (r : WebServer N × List TcpCall) : Prop where
  paths : r.1.paths = w.paths
  inotifyFd : r.1.inotifyFd = w.inotifyFd
  stored : r.1.stored = w.stored
  calls : ∀ call ∈ r.2, ¬call.StartsRead

variable {w w' : WebServer N} {i : ℕ} {env : WebEnv} {cs : List TcpCall}

theorem Steady.keepsPaths (h : w.Steady w') (hcs : ∀ call ∈ cs, ¬call.StartsRead) :
    w.KeepsPaths (w', cs) := ⟨h.paths, h.inotifyFd, h.stored, hcs⟩

theorem Keeps.keepsPaths {r : WebServer N × List TcpCall} (h : w.Keeps r) : w.KeepsPaths r :=
  h.steady.keepsPaths fun call hcall => (h.calls call hcall).not_startsRead

/-- After an entry was used, the rest of a write or close callback. -/
theorem broadcastUsed_keepsPaths {info : ℤ} {w₁ : WebServer N} (h : w.broadcastUsed info = some w₁)
    (hrest : w₁.KeepsPaths (w', cs)) : w.KeepsPaths (w', cs) := by
  obtain ⟨hclients, hfd, hstored, -, -⟩ := broadcastUsed_rest h
  exact ⟨hrest.paths.trans (by rw [paths, paths, hclients]), hrest.inotifyFd.trans hfd,
    hrest.stored.trans hstored, hrest.calls⟩

theorem closeCb_keepsPaths {info : ℤ} (h : w.closeCb i info = some w') : w.KeepsPaths (w', []) := by
  obtain ⟨w₁, hused, hsteady⟩ := closeCb_cases h
  exact broadcastUsed_keepsPaths hused (hsteady.keepsPaths (by simp))

theorem writeCb_keepsPaths {info : ℤ} {r : WebServer N × List TcpCall} (h : w.writeCb i info = some r) :
    w.KeepsPaths r := by
  obtain ⟨w₁, hused, hsteady, hcalls⟩ := writeCb_cases h
  refine broadcastUsed_keepsPaths hused (hsteady.keepsPaths ?_)
  rcases hcalls with hcalls | ⟨-, j, hcalls⟩ | ⟨-, hcalls⟩
  all_goals simp [hcalls, TcpCall.StartsRead]

theorem eventCb_keepsPaths : w.KeepsPaths (w.eventCb env) := by
  unfold eventCb
  dsimp only
  split
  · exact ⟨rfl, rfl, rfl, by simp [TcpCall.StartsRead]⟩
  · exact ⟨rfl, rfl, rfl, by simp⟩

theorem newTcpClient_path {j : ℕ} {p : Bytes} (hj : j ≠ i) (h : w.paths[j]? = some p) :
    (w.newTcpClient i).paths[j]? = some p := by
  have hlt : j < w.tcpClients.length := by
    simpa [paths] using (List.getElem?_eq_some_iff.mp h).1
  rw [newTcpClient, paths, List.map_set, List.getElem?_set_ne (Ne.symm hj), List.map_append,
    List.getElem?_append_left (by simpa using hlt)]
  exact h

end WebServer

/-- A custom read in flight is of inotify events, or of the file that its slot has asked for last. -/
def WebServer.Expects (w : WebServer N) (sub : Submission) : Prop :=
  sub.req.customInfo = w.inotifyFd ∨
    ∃ i p, sub.req.clientIdx = some i ∧ sub.file = some p ∧ w.paths[i]? = some p

/-- Every file read in flight will find its path, and what was stored is what was read. -/
structure PathInv (m : Machine (WebServer N)) : Prop where
  pending : ∀ sub ∈ m.tcp.customReads, m.app.Expects sub
  stored : ∀ e ∈ m.app.stored, (some e.1, e.2) ∈ m.tcp.finishedReads

namespace Machine

open TcpServer

variable {T : ServerType} {m m' : Machine (WebServer N)} {i : ℕ} {env : WebEnv} {buffer : Bytes}

/-- The callback does not come between a file read in flight and its end: an accept is on a slot
without one, and what is received on a slot with one does not make the server read another file. -/
def Undisturbed (m : Machine (WebServer N)) (env : WebEnv) : Callback → Prop
  | .accept i => ∀ sub ∈ m.tcp.customReads, sub.req.clientIdx ≠ some i
  | .read i buffer => ∀ p ∈ m.app.diskRead env buffer, ∀ sub ∈ m.tcp.customReads,
      sub.req.clientIdx = some i → sub.file = some p
  | _ => True

instance (m : Machine (WebServer N)) (env : WebEnv) : DecidablePred (m.Undisturbed env)
  | .accept i => inferInstanceAs (Decidable (∀ sub ∈ m.tcp.customReads, sub.req.clientIdx ≠ some i))
  | .read i buffer => inferInstanceAs (Decidable (∀ p ∈ m.app.diskRead env buffer,
      ∀ sub ∈ m.tcp.customReads, sub.req.clientIdx = some i → sub.file = some p))
  | .close _ _ => isTrue trivial
  | .write _ _ => isTrue trivial
  | .event => isTrue trivial
  | .customRead _ _ _ => isTrue trivial

/-- No callback of the step comes between a file read in flight and its end. -/
def KeepsReads (T : ServerType) (m : Machine (WebServer N)) (c : Completion WebEnv) : Prop :=
  ∀ r ∈ step T (webApp N) m c, ∀ cb ∈ r.2, m.Undisturbed c.env cb

instance (m : Machine (WebServer N)) (c : Completion WebEnv) : Decidable (m.KeepsReads T c) :=
  inferInstanceAs (Decidable (∀ r ∈ step T (webApp N) m c, ∀ cb ∈ r.2, m.Undisturbed c.env cb))

theorem pathInv_onTcp {s : TcpServer} (h : PathInv m) (hreads : s.customReads = m.tcp.customReads)
    (hfinished : s.finishedReads = m.tcp.finishedReads) : PathInv (m.onTcp fun _ => s) :=
  ⟨by simpa [hreads] using h.pending, by simpa [hfinished] using h.stored⟩

theorem pathInv_alters {s : TcpServer} (h : PathInv m) (hs : Alters i m.tcp s) :
    PathInv (m.onTcp fun _ => s) := pathInv_onTcp h hs.customReads hs.finishedReads

theorem pathInv_keeps {a : WebServer N} {s : TcpServer} {cs : List TcpCall} {log : List Callback}
    (h : PathInv m) (ha : m.app.KeepsPaths (a, cs)) (hreads : s.customReads = m.tcp.customReads)
    (hfinished : s.finishedReads = m.tcp.finishedReads) : PathInv ⟨s, a, log⟩ := by
  refine ⟨fun sub hsub => ?_, ?_⟩
  · rw [hreads] at hsub
    have := h.pending sub hsub
    rwa [WebServer.Expects, ha.inotifyFd, ha.paths]
  · rw [hfinished, ha.stored]
    exact h.stored

theorem pathInv_callback {cb : Callback} {result : Option (WebServer N × List TcpCall)} (h : PathInv m)
    (hkeeps : ∀ r, result = some r → m.app.KeepsPaths r) (hcb : m.callback T cb result = some m') :
    PathInv m' := by
  obtain ⟨a, cs, hresult, hcalls, rfl, hlog⟩ := callback_eq_some hcb
  have ha := hkeeps _ hresult
  obtain ⟨hreads, hfinished⟩ := calls_reads hcalls ha.calls
  exact pathInv_keeps h ha hreads hfinished

/-- A request of a slot that makes the server read a file: the reads in flight for this slot are of the
same file. -/
theorem pathInv_readCb (h : PathInv m)
    (hquiet : ∀ p ∈ m.app.diskRead env buffer, ∀ sub ∈ m.tcp.customReads,
      sub.req.clientIdx = some i → sub.file = some p)
    (hcb : m.readCb T (webApp N) env i buffer = some m') : PathInv m' := by
  obtain ⟨a, cs, hresult, hcalls, rfl, hlog⟩ := callback_eq_some hcb
  have hquietCb : ∀ r : WebServer N × List TcpCall, r = (m'.app, cs) → m.app.KeepsPaths r → PathInv m' := by
    rintro r rfl hkeeps
    obtain ⟨hcustom, hfinished⟩ := calls_reads hcalls hkeeps.calls
    exact pathInv_keeps h hkeeps hcustom hfinished
  rcases WebServer.readCb_cases hresult with hkeeps | ⟨p, hdisk, hreads⟩ | ⟨hsteady, hclose, -⟩
  · exact hquietCb _ rfl hkeeps.keepsPaths
  · obtain ⟨fd, size, buff, amount, rest, hcs, hrest⟩ := hreads.calls
    simp only at hcs
    rw [hcs] at hcalls
    obtain ⟨new, hcustom, hfinished, hnewIdx, -, hnewFile⟩ := calls_customReadReq hcalls
      fun c hc => (hrest c hc).not_startsRead
    have hlt : i < m.app.paths.length := by simpa [WebServer.paths] using hreads.slot
    refine ⟨fun sub hsub => ?_, ?_⟩
    · rw [hcustom] at hsub
      rw [WebServer.Expects, hreads.inotifyFd, hreads.paths]
      rcases List.mem_append.mp hsub with hold | hnew
      · rcases h.pending sub hold with hinotify | ⟨j, q, hidx, hfile, hpath⟩
        · exact Or.inl hinotify
        · by_cases hj : j = i
          · subst hj
            have hsame := hquiet p hdisk sub hold hidx
            exact Or.inr ⟨j, p, hidx, hsame, by simp [hlt]⟩
          · exact Or.inr ⟨j, q, hidx, hfile, by rw [List.getElem?_set_ne (Ne.symm hj)]; exact hpath⟩
      · obtain rfl := List.mem_singleton.mp hnew
        exact Or.inr ⟨i, p, hnewIdx, hnewFile, by simp [hlt]⟩
    · rw [hreads.stored, hfinished]
      exact h.stored
  · refine hquietCb _ rfl (hsteady.keepsPaths ?_)
    simp only at hclose
    simp [hclose, TcpCall.StartsRead]

theorem pathInv_tlsAccept {res : ℤ} (h : PathInv m) : PathInv (m.tlsAccept res) := by
  obtain ⟨hreads, hfinished⟩ := setupClient_reads m.tcp res
  have hcall := (touches_wolfCall (s := ((m.tcp.setupClient res).1.addEventReq .accept).modifyClient
    (m.tcp.setupClient res).2 fun client => { client with ssl := true })).alters (i := (m.tcp.setupClient res).2)
  refine pathInv_onTcp h ?_ ?_
  · exact hcall.customReads.trans ((customReads_addEventReq (by simp)).trans hreads)
  · exact hcall.finishedReads.trans hfinished

/-- A slot without file reads in flight gets a new client. -/
theorem pathInv_acceptCb (h : PathInv m) (hquiet : ∀ sub ∈ m.tcp.customReads, sub.req.clientIdx ≠ some i)
    (hcb : m.acceptCb (webApp N) i = some m') : PathInv m' := by
  obtain ⟨a, ha, rfl⟩ := Option.map_eq_some_iff.mp hcb
  obtain rfl := Option.some.inj ha
  refine ⟨fun sub hsub => ?_, h.stored⟩
  rcases h.pending sub hsub with hinotify | ⟨j, p, hidx, hfile, hpath⟩
  · exact Or.inl hinotify
  · have hj : j ≠ i := fun hj => hquiet sub hsub (hj ▸ hidx)
    exact Or.inr ⟨j, p, hidx, hfile, WebServer.newTcpClient_path hj hpath⟩

/-- An accept callback that is undisturbed, after changes of its slot. -/
theorem pathInv_accept {s : TcpServer} (h : PathInv m) (hs : Alters i m.tcp s)
    (hquiet : m.Undisturbed env (.accept i))
    (hcb : (m.onTcp fun _ => s).acceptCb (webApp N) i = some m') : PathInv m' := by
  refine pathInv_acceptCb (pathInv_alters h hs) ?_ hcb
  rw [onTcp_tcp, hs.customReads]
  exact hquiet

/-- A read callback that is undisturbed, after changes of its slot. -/
theorem pathInv_read {s : TcpServer} (h : PathInv m) (hs : Alters i m.tcp s)
    (hquiet : ∀ cb ∈ m'.log, m.Undisturbed env cb)
    (hcb : (m.onTcp fun _ => s).readCb T (webApp N) env i buffer = some m') : PathInv m' := by
  obtain ⟨-, -, -, -, -, hlog⟩ := callback_eq_some hcb
  refine pathInv_readCb (pathInv_alters h hs) ?_ hcb
  rw [onTcp_tcp, hs.customReads]
  exact hquiet (.read i buffer) (by simp [hlog])

theorem pathInv_drainAndClose (h : PathInv m) (hclose : m.drainAndClose T (webApp N) i = some m') :
    PathInv m' := by
  obtain ⟨m₁, hm₁, rfl⟩ := Option.map_eq_some_iff.mp hclose
  have hdrained : PathInv m₁ := by
    refine Runs.foldlM_keeps (R := PathInv) (fun b info b' _ hb hcb => ?_) h hm₁
    obtain ⟨a, ha, rfl⟩ := Option.map_eq_some_iff.mp hcb
    exact pathInv_keeps hb (WebServer.closeCb_keepsPaths ha) rfl rfl
  obtain ⟨hreads, hfinished⟩ := closeConnection_reads (s := m₁.tcp.setQueue i []) (i := i) T
  exact pathInv_onTcp hdrained hreads hfinished

/-- A custom read goes on, or it is finished: then the next read of inotify events starts, or the file
is stored under its path. -/
theorem pathInv_customRead {sub : Submission} {res : ℤ} {data : Bytes} (h : PathInv m)
    (hevent : sub.req.event = .customRead) (hsub : m.app.Expects sub)
    (hhandled : m.customRead T (webApp N) env sub res data = some m') : PathInv m' := by
  refine customRead_rule hhandled (R := PathInv) (fun _ hread => ?_) (fun _ _ => ⟨fun sub' hsub' => ?_, h.stored⟩)
  · obtain ⟨a, cs, hresult, hcalls, rfl, hlog⟩ := callback_eq_some hread
    rcases WebServer.customReadCb_cases hresult with ⟨-, hsteady, hcs⟩ |
      ⟨hfd, i, p, hidx, hpath, hsteady, hstored, hcs⟩
    · simp only at hcs
      rw [hcs] at hcalls
      obtain ⟨new, hcustom, hfinished, -, hnewFd, -⟩ := calls_customReadReq hcalls (by simp)
      refine ⟨fun sub' hsub' => ?_, fun e he => ?_⟩
      · rw [hcustom] at hsub'
        rw [WebServer.Expects, hsteady.inotifyFd, hsteady.paths]
        rcases List.mem_append.mp hsub' with hold | hnew
        · exact h.pending sub' hold
        · obtain rfl := List.mem_singleton.mp hnew
          exact Or.inl hnewFd
      · rw [hsteady.stored] at he
        rw [hfinished]
        exact List.mem_append_left _ (h.stored e he)
    · have hnoRead : ∀ call ∈ cs, ¬call.StartsRead := by
        simp only at hcs
        rcases hcs with ⟨ptr, size, hcs, -⟩ | hcs
        all_goals simp [hcs, TcpCall.StartsRead]
      obtain ⟨hcustom, hfinished⟩ := calls_reads hcalls hnoRead
      refine ⟨fun sub' hsub' => ?_, fun e he => ?_⟩
      · rw [hcustom] at hsub'
        have hfd' : m'.app.inotifyFd = m.app.inotifyFd := hsteady.inotifyFd
        have hpaths : m'.app.paths = m.app.paths := hsteady.paths
        rw [WebServer.Expects, hfd', hpaths]
        exact h.pending sub' hsub'
      · rw [hfinished]
        rcases hstored with hstored | hstored
        · exact List.mem_append_left _ (h.stored e (hstored ▸ he))
        · rcases List.mem_append.mp (hstored ▸ he) with he | he
          · exact List.mem_append_left _ (h.stored e he)
          · -- the path found is the one the read was started for
            obtain rfl := List.mem_singleton.mp he
            obtain ⟨j, q, hidx', hfile, hpath'⟩ := hsub.resolve_left hfd
            obtain rfl : i = j := by simpa [hidx] using hidx'
            obtain rfl : p = q := Option.some.inj (hpath.symm.trans hpath')
            rw [onTcp_tcp, hfile]
            exact List.mem_append_right _ (List.mem_singleton_self _)
  · rw [onTcp_tcp, customReads_submit (by exact hevent)] at hsub'
    rcases List.mem_append.mp hsub' with hsub' | hsub'
    · exact h.pending sub' hsub'
    · obtain rfl := List.mem_singleton.mp hsub'
      exact hsub

theorem pathInv_writeCb {info : ℤ} (h : PathInv m) (hcb : m.writeCb T (webApp N) env i info = some m') :
    PathInv m' :=
  pathInv_callback h (fun _ hr => WebServer.writeCb_keepsPaths hr) hcb

theorem pathInv_plainHandler {sub : Submission} {c : Completion WebEnv} (h : PathInv m)
    (hquiet : ∀ cb ∈ m'.log, m.Undisturbed c.env cb)
    (hhandled : m.plainHandler (webApp N) sub i c = some m') : PathInv m' := by
  refine plainHandler_rule hhandled
    (R := fun x => (∀ cb ∈ x.log, m.Undisturbed c.env cb) → PathInv x)
    (fun _ s hs hm' hlog => ?_) (fun hevent front rest _ _ => ?_) (fun _ front rest _ _ _ hm' _ => ?_)
    (fun _ _ _ hm' _ => ?_) (fun _ => h) hquiet
  · exact pathInv_read h hs.alters hlog hm'
  · exact pathInv_onTcp h (customReads_of_append rfl (by simp [hevent])) rfl
  · exact pathInv_writeCb (pathInv_alters h (alters_endWrite.trans (alters_writeNext rest))) hm'
  · exact pathInv_writeCb (pathInv_alters h alters_endWrite) hm'

theorem pathInv_tlsHandler {sub : Submission} {c : Completion WebEnv} (h : PathInv m)
    (hquiet : ∀ cb ∈ m'.log, m.Undisturbed c.env cb)
    (hhandled : m.tlsHandler (webApp N) sub i c = some m') : PathInv m' := by
  refine tlsHandler_rule hhandled
    (R := fun x => (∀ cb ∈ x.log, m.Undisturbed c.env cb) → PathInv x)
    (fun s hs _ => ?_) (fun _ _ s buffer hs hm' hlog => ?_) (fun _ s m₁ s₁ hs hm₁ hs₁ hlog => ?_)
    (fun _ _ s m₁ s₁ buffer hs hm₁ hs₁ hm' hlog => ?_) (fun _ _ s front rest m₁ s₁ hs _ hm₁ hs₁ _ => ?_) hquiet
  · rcases hs with hs | hs
    · exact pathInv_alters h hs.alters
    · exact pathInv_alters h (alters_endWrite.trans hs.alters)
  · exact pathInv_read h hs.alters hlog hm'
  · obtain ⟨a, ha, rfl⟩ := Option.map_eq_some_iff.mp hm₁
    have haccepted := pathInv_accept h hs.alters (hlog (.accept i) (by simp)) hm₁
    exact pathInv_onTcp haccepted hs₁.alters.customReads hs₁.alters.finishedReads
  · obtain ⟨-, -, -, -, -, hm'log⟩ := callback_eq_some hm'
    have haccepted := pathInv_accept h hs.alters (hlog (.accept i) ?_) hm₁
    · obtain ⟨a, ha, rfl⟩ := Option.map_eq_some_iff.mp hm₁
      obtain rfl := Option.some.inj ha
      have hread := hlog (.read i buffer) (by simp [hm'log])
      have hreads : s₁.customReads = m.tcp.customReads := hs₁.alters.customReads.trans hs.alters.customReads
      refine pathInv_readCb (pathInv_onTcp haccepted hs₁.alters.customReads hs₁.alters.finishedReads) ?_ hm'
      exact fun p hp sub' hsub' => hread p hp sub' (hreads ▸ hsub')
    · obtain ⟨a, -, rfl⟩ := Option.map_eq_some_iff.mp hm₁
      simp [hm'log]
  · have hpopped := (alters_endWrite.trans hs.alters).trans (alters_setQueue rest)
    exact pathInv_alters (pathInv_writeCb (pathInv_alters h hpopped) hm₁) hs₁.alters

theorem pathInv_clientEvent {sub : Submission} {c : Completion WebEnv} (h : PathInv m)
    (hquiet : ∀ cb ∈ m'.log, m.Undisturbed c.env cb)
    (hhandled : m.clientEvent T (webApp N) sub i c = some m') : PathInv m' := by
  have hkept : ∀ s, s = m.tcp ∨ s = m.tcp.endWrite i → PathInv (m.onTcp fun _ => s) :=
    fun s hs => pathInv_alters h (Alters.endedOrNot hs)
  refine clientEvent_rule hhandled (R := fun x => (∀ cb ∈ x.log, m.Undisturbed c.env cb) → PathInv x)
    (fun s hs _ _ _ hclose _ => pathInv_drainAndClose (hkept s hs) hclose) (fun s hs _ => hkept s hs)
    (fun _ _ _ _ hm' hlog => pathInv_plainHandler h hlog hm')
    (fun _ _ _ _ hm' hlog => pathInv_tlsHandler h hlog hm') hquiet

theorem pathInv_plainAccept {c : Completion WebEnv} {res : ℤ} (h : PathInv m)
    (hquiet : ∀ cb ∈ m'.log, m.Undisturbed c.env cb)
    (hhandled : m.plainAccept (webApp N) res = some m') : PathInv m' := by
  unfold plainAccept at hhandled
  dsimp only at hhandled
  obtain ⟨m₁, hm₁, rfl⟩ := Option.map_eq_some_iff.mp hhandled
  have hlog : .accept ((m.tcp.addEventReq .accept).setupClient res).2 ∈ m₁.log := by
    obtain ⟨a, -, rfl⟩ := Option.map_eq_some_iff.mp hm₁
    simp
  obtain ⟨hreads, hfinished⟩ := setupClient_reads (s := m.tcp.addEventReq .accept) res
  have hcustom := hreads.trans (customReads_addEventReq (by simp))
  have haccepted : PathInv m₁ := by
    refine pathInv_acceptCb (pathInv_onTcp h ?_ ?_) ?_ hm₁
    · exact hcustom
    · exact hfinished
    · have := hquiet _ hlog
      exact fun sub hsub => this sub (hcustom ▸ hsub)
  exact pathInv_alters haccepted (touches_addReadReq (Or.inl rfl)).alters

/-- One round of the loop. -/
theorem pathInv_step {c : Completion WebEnv} {log : List Callback} (h : PathInv m)
    (hquiet : m.KeepsReads T c) (hstep : step T (webApp N) m c = some (m', log)) : PathInv m' := by
  obtain ⟨sub, hsub, hhandled, rfl⟩ := step_eq_some hstep
  have hlog : ∀ cb ∈ m'.log, m.Undisturbed c.env cb := hquiet _ hstep
  have hreads : sub.req.event ≠ .customRead → (m.take c).tcp.customReads = m.tcp.customReads := fun hevent =>
    InFlight.filter_eraseIdx_of_not hsub (by simpa using hevent)
  have htake : PathInv (m.take c) := by
    refine ⟨fun sub' hsub' => h.pending sub' ?_, h.stored⟩
    exact List.Sublist.subset ((List.eraseIdx_sublist ..).filter _) hsub'
  have hlog' : sub.req.event ≠ .customRead → ∀ cb ∈ m'.log, (m.take c).Undisturbed c.env cb := by
    intro hevent cb hcb
    have := hlog cb hcb
    cases cb with
    | accept i => exact fun sub' hsub' => this sub' (hreads hevent ▸ hsub')
    | read i buffer => exact fun p hp sub' hsub' => this p hp sub' (hreads hevent ▸ hsub')
    | _ => trivial
  refine dispatch_rule hhandled (R := fun x => (sub.req.event ≠ .customRead →
      ∀ cb ∈ x.log, (m.take c).Undisturbed c.env cb) → PathInv x) (fun _ _ => ?_) (fun _ hm' _ => ?_)
    (fun hevent hm' _ => ?_) (fun _ m₁ hm₁ _ => ?_) (fun hevent _ hm' hlog => ?_) (fun _ _ _ => ?_)
    (fun i _ hevent hm' hlog => ?_) hlog'
  · exact pathInv_onTcp htake rfl rfl
  · refine pathInv_callback (m := (m.take c).onTcp fun s => s.addEventReq .notification) ?_ ?_ hm'
    · exact pathInv_onTcp htake (customReads_addEventReq (by simp)) rfl
    · intro r hr
      obtain rfl := Option.some.inj hr
      exact WebServer.eventCb_keepsPaths
  · refine pathInv_customRead htake hevent (h.pending sub ?_) hm'
    exact List.mem_filter.mpr ⟨List.mem_of_getElem? hsub, by simpa using hevent⟩
  · have hswept : PathInv m₁ :=
      sweep_rule hm₁ htake fun _ _ _ _ _ hx hclose => pathInv_drainAndClose hx hclose
    exact pathInv_onTcp hswept (customReads_addEventReq (by simp)) rfl
  · exact pathInv_plainAccept htake (hlog (by simp [hevent])) hm'
  · exact pathInv_tlsAccept htake
  · refine pathInv_clientEvent htake (hlog ?_) hm'
    rintro heq
    simp [EventType.OfClient, heq] at hevent

theorem pathInv_start (N : ℕ) (inotifyFd : ℤ) : PathInv (webStart N inotifyFd) := by
  refine ⟨fun sub hsub => Or.inl ?_, by simp [webStart, start]⟩
  simp [webStart, start, customReads, addEventReq, customReadReq] at hsub
  simp [hsub, webStart, start]

end Machine

end LiburingServer
