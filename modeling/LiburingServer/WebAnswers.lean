import LiburingServer.TcpServing
import LiburingServer.WebClosing
import LiburingServer.WebIsolation
import LiburingServer.WebReading

/-! The answers of the plain server. A connection that is no websocket gets a single one: whatever its request makes the
server do, either one buffer is queued for it or one file is read for it, and of a file that was read one buffer is
queued. -/

namespace LiburingServer

variable {σ ε : Type*}

/-- The callback is for the end of a read of a file for slot `i`. -/
def Callback.FileReadOf (i : ℕ) : Callback → Bool
  | .customRead (some j) _ _ => j = i
  | _ => false

/-- How many reads of files the calls ask for slot `i`. -/
def filesAsked (i : ℕ) (cs : List TcpCall) : ℕ :=
  (cs.filterMap TcpCall.read).countP fun r => r.1.clientIdx = some i

theorem filesAsked_append (i : ℕ) (cs cs' : List TcpCall) :
    filesAsked i (cs ++ cs') = filesAsked i cs + filesAsked i cs' := by
  rw [filesAsked, List.filterMap_append, List.countP_append]
  rfl

/-- Since a slot was accepted, every read of a file for it that was asked for is in flight or was handed on. -/
def FilesCounted (s : TcpServer) (past : List ((ε × Callback) × List TcpCall)) : Prop :=
  ∀ i, ((sinceAccept i past).countP fun e => e.1.2.FileReadOf i) + s.fileReads i =
    filesAsked i ((sinceAccept i past).flatMap Prod.snd)

/-- A round that accepts no connection. -/
theorem FilesCounted.append {s s' : TcpServer} {past es : List ((ε × Callback) × List TcpCall)}
    (h : FilesCounted s past) (haccept : ∀ e ∈ es, ∀ i, e.1.2 ≠ .accept i)
    (hround : ∀ i, (es.countP fun e => e.1.2.FileReadOf i) + s'.fileReads i =
      s.fileReads i + filesAsked i (es.flatMap Prod.snd)) : FilesCounted s' (past ++ es) := by
  intro i
  rw [sinceAccept_append fun e he => haccept e he i, List.countP_append, List.flatMap_append, filesAsked_append, ← h i]
  have hi := hround i
  omega

/-- What there was since a slot was accepted. -/
theorem FilesCounted.since {s : TcpServer} {before after : List ((ε × Callback) × List TcpCall)} {env : ε}
    {cs : List TcpCall} {i : ℕ} (h : FilesCounted s (before ++ ((env, .accept i), cs) :: after))
    (hafter : ∀ e ∈ after, e.1.2 ≠ .accept i) :
    (after.countP fun e => e.1.2.FileReadOf i) + s.fileReads i = filesAsked i (after.flatMap Prod.snd) := by
  have hi := h i
  rwa [sinceAccept_cons hafter] at hi

namespace Machine

variable {app : App σ ε} {m m' : Machine σ} {c : Completion ε} {past : List ((ε × Callback) × List TcpCall)}

/-- No slot is accepted that a file is read for. -/
def AcceptsUnread (m : Machine σ) (c : Completion ε) : Prop :=
  ∀ sub ∈ m.tcp.inflight[c.index]?, sub.req.event = .accept → m.tcp.fileReads (m.tcp.setupClient c.res).2 = 0

instance (m : Machine σ) (c : Completion ε) : Decidable (m.AcceptsUnread c) :=
  inferInstanceAs (Decidable (∀ sub ∈ m.tcp.inflight[c.index]?, sub.req.event = .accept →
    m.tcp.fileReads (m.tcp.setupClient c.res).2 = 0))

/-- What a round of the loop does about the reads of files. -/
theorem fileReads_step {log : List Callback} {calls : List (List TcpCall)} {T : ServerType}
    (hstep : step T app m c = some (m', log))
    (hcalls : Runs.exec app.invoke m.app (log.map fun cb => (c.env, cb)) = some (m'.app, calls)) (i : ℕ) :
    log.countP (Callback.FileReadOf i) + m'.tcp.fileReads i = m.tcp.fileReads i + filesAsked i calls.flatten := by
  obtain ⟨sub, calls', -, hcalls', hreads⟩ := replays_step hstep
  obtain rfl : calls = calls' := (Prod.mk.inj (Option.some.inj (hcalls.symm.trans hcalls'))).2
  split_ifs at hreads with hevent
  · obtain ⟨others, hperm, hround⟩ := hreads
    have hbefore : m.tcp.fileReads i = others.countP (fun r => r.1.clientIdx = some i) +
        if sub.req.clientIdx = some i then 1 else 0 := by
      rw [TcpServer.fileReads, hperm.countP_eq, List.countP_cons]
      simp
    rcases hround with ⟨-, rfl, hafter⟩ | ⟨rfl, hafter⟩
    · have hof : [Callback.customRead sub.req.clientIdx sub.req.customInfo (stored sub.req c.res c.data)].countP
          (Callback.FileReadOf i) = if sub.req.clientIdx = some i then 1 else 0 := by
        cases hidx : sub.req.clientIdx <;> simp [Callback.FileReadOf, List.countP_singleton]
      rw [hof, hbefore, TcpServer.fileReads, hafter, List.countP_append, filesAsked]
      omega
    · obtain ⟨-, rfl⟩ : m.app = m'.app ∧ calls = [] := by simpa [Runs.exec] using hcalls
      rw [hbefore, TcpServer.fileReads, hafter, List.countP_append, List.countP_singleton]
      simp [filesAsked]
  · obtain ⟨hafter, hnone⟩ := hreads
    have hof : log.countP (Callback.FileReadOf i) = 0 := by
      refine List.countP_eq_zero.mpr fun cb hcb => ?_
      cases cb with
      | customRead j fd buffer => exact absurd hcb (hnone j fd buffer)
      | _ => simp [Callback.FileReadOf]
    rw [hof, Nat.zero_add, TcpServer.fileReads, hafter, List.countP_append]
    rfl

/-- One round of the loop. -/
theorem filesCounted_step {log : List Callback} {calls : List (List TcpCall)} (h : FilesCounted m.tcp past)
    (hc : m.AcceptsUnread c) (hstep : step .nonTls app m c = some (m', log))
    (hcalls : Runs.exec app.invoke m.app (log.map fun cb => (c.env, cb)) = some (m'.app, calls)) :
    FilesCounted m'.tcp (past ++ (log.map fun cb => (c.env, cb)).zip calls) := by
  have hquiet : (∀ cb ∈ log, ∀ i, cb ≠ .accept i) →
      FilesCounted m'.tcp (past ++ (log.map fun cb => (c.env, cb)).zip calls) := by
    intro hnone
    refine h.append (fun e he => ?_) fun i => ?_
    · obtain ⟨cb, hcb, heq⟩ := List.mem_map.mp (List.of_mem_zip he).1
      exact heq ▸ hnone cb hcb
    · rw [countP_zip (Runs.length_exec hcalls) (Callback.FileReadOf i), flatMap_snd_zip (Runs.length_exec hcalls),
        List.countP_map]
      exact fileReads_step hstep hcalls i
  have hfiles := fileReads_step hstep hcalls
  obtain ⟨sub, hsub, rfl, hround⟩ := readRound_step hstep
  cases hround with
  | accept j hj hlog hevent hcb htcp =>
      rw [hlog] at hcalls hfiles ⊢
      obtain rfl := callback_calls hcb hcalls
      have hkept : ∀ i, m'.tcp.fileReads i = m.tcp.fileReads i := fun i => by
        simpa [Callback.FileReadOf, filesAsked] using hfiles i
      intro i
      rw [hkept i]
      by_cases hij : j = i
      · have hslot : j = (m.tcp.setupClient c.res).2 := by
          rw [hj]
          exact TcpServer.setupClient_slot rfl rfl
        have hnone := hc sub hsub hevent
        rw [← hslot, hij] at hnone
        simp [hij, sinceAccept_accept, hnone, filesAsked]
      · have hother : ∀ e ∈ [((c.env, Callback.accept j), ([] : List TcpCall))], e.1.2 ≠ .accept i := by simpa using hij
        simpa [sinceAccept_append hother, Callback.FileReadOf] using h i
  | read i buffer cs hevent hidx hres hpresent hlog hcb hcalled =>
      refine hquiet ?_
      rw [hlog]
      simp
  | quiet hround =>
      refine hquiet ?_
      rcases hround with hround | ⟨cb, s, cs, hlog, haccept, -⟩
      · exact fun cb hcb => (hround.log cb hcb).1
      · rw [hlog]
        simpa using haccept

theorem fileReads_start (a : σ) (reads : List (ℤ × ℕ)) (i : ℕ) : (start a reads).tcp.fileReads i = 0 := by
  have hasked : ∀ {s : TcpServer} {event : EventType}, event ≠ .customRead → s.fileReads i = 0 →
      (s.addEventReq event).fileReads i = 0 := by
    intro s event hne hs
    rw [TcpServer.fileReads, TcpServer.reads_congr (TcpServer.customReads_addEventReq hne)]
    exact hs
  have hreads : ∀ s : TcpServer, s.fileReads i = 0 →
      (reads.foldl (fun s r => s.customReadReq r.1 r.2 none [] 0 none) s).fileReads i = 0 := by
    induction reads with
    | nil => exact fun s hs => hs
    | cons r reads ih =>
        intro s hs
        refine ih _ ?_
        have hsubmitted : (s.customReadReq r.1 r.2 none [] 0 none).reads =
            s.reads ++ [(.customRead r.1 r.2 none [] 0, none)] := TcpServer.reads_submit rfl
        rw [TcpServer.fileReads, hsubmitted, List.countP_append]
        exact hs
  have hnone : ({} : TcpServer).fileReads i = 0 := rfl
  exact hasked (by simp) (hreads _ (hasked (by simp) (hasked (by simp) (hasked (by simp) hnone))))

/-- A whole run. -/
theorem filesCounted_run {a : σ} {reads : List (ℤ × ℕ)} {cs : List (Completion ε)} {logs : List (List Callback)}
    {calls : List (List TcpCall)} (hunread : Runs.Along (step .nonTls app) AcceptsUnread (start a reads) cs)
    (hrun : Runs.exec (step .nonTls app) (start a reads) cs = some (m, logs))
    (hcalls : Runs.exec app.invoke a (invoked cs logs) = some (m.app, calls)) :
    FilesCounted m.tcp ((invoked cs logs).zip calls) := by
  have hstart : FilesCounted (start a reads).tcp ([] : List ((ε × Callback) × List TcpCall)) := fun i => by
    simp [sinceAccept, fileReads_start, filesAsked]
  have hkept := history_run (P := fun m past => FilesCounted m.tcp past)
    (fun _ _ _ _ _ _ h hc hstep hcalls => filesCounted_step h hc hstep hcalls) hstart hunread hrun hcalls
  rwa [List.nil_append] at hkept

end Machine

variable {N : ℕ}

/-- How many buffers the calls queue for slot `i`, and reads of files they ask for it. -/
def answers (i : ℕ) (cs : List TcpCall) : ℕ := (cs.flatMap (TcpCall.entries i)).length + filesAsked i cs

@[simp] theorem answers_nil (i : ℕ) : answers i [] = 0 := rfl

theorem answers_append (i : ℕ) (cs cs' : List TcpCall) : answers i (cs ++ cs') = answers i cs + answers i cs' := by
  simp only [answers, List.flatMap_append, List.length_append, filesAsked_append]
  omega

theorem answers_singleton (i : ℕ) (c : TcpCall) :
    answers i [c] = (c.entries i).length + c.read.toList.countP fun r => r.1.clientIdx = some i := by
  cases hread : c.read <;> simp [answers, filesAsked, hread]

@[simp] theorem answers_readConnection (i j : ℕ) : answers i [.readConnection j] = 0 := rfl

@[simp] theorem answers_closeConnection (i j : ℕ) : answers i [.closeConnection j] = 0 := rfl

theorem answers_writeConnection (i j : ℕ) (buff : Bytes) :
    answers i [.writeConnection j buff] = if j = i then 1 else 0 := by
  rw [answers_singleton]
  by_cases h : j = i <;> simp [TcpCall.entries, TcpCall.read, h]

theorem answers_writeConnectionPtr (i j : ℕ) (ptr : Ptr) (length : ℕ) :
    answers i [.writeConnectionPtr j ptr length] = if j = i then 1 else 0 := by
  rw [answers_singleton]
  by_cases h : j = i <;> simp [TcpCall.entries, TcpCall.read, h]

theorem answers_customReadReq (i : ℕ) (fd : ℤ) (toRead : ℕ) (clientIdx : Option ℕ) (buff : Bytes) (readAmount : ℕ)
    (file : Option Bytes) : answers i [.customReadReq fd toRead clientIdx buff readAmount file] =
      if clientIdx = some i then 1 else 0 := by
  rw [answers_singleton]
  by_cases h : clientIdx = some i <;> simp [TcpCall.entries, TcpCall.read, Request.customRead, h]

theorem answers_broadcastMessage (i : ℕ) {clientIdxs : List ℕ} (h : i ∉ clientIdxs) (buff : Ptr) (length : ℕ)
    (customInfo : ℤ) : answers i [.broadcastMessage clientIdxs buff length customInfo] = 0 := by
  have hnone : clientIdxs.filter (fun j => decide (j = i)) = [] := by
    refine List.filter_eq_nil_iff.mpr fun j hj => ?_
    rw [decide_eq_true_iff]
    rintro rfl
    exact h hj
  rw [answers_singleton]
  simp [TcpCall.entries, TcpCall.read, hnone]

/-- Calls for another client. -/
theorem answers_of_isFor {i k : ℕ} (hki : k ≠ i) {cs : List TcpCall} (h : ∀ c ∈ cs, c.IsFor k) : answers i cs = 0 := by
  induction cs with
  | nil => rfl
  | cons c cs ih =>
      have hc : i ∉ c.slots := fun hi => hki (h c (by simp) i hi).symm
      rw [← List.singleton_append, answers_append, ih fun c' hc' => h c' (List.mem_cons_of_mem _ hc'), Nat.add_zero]
      cases c with
      | writeConnection j buff =>
          rw [answers_writeConnection, if_neg]
          rintro rfl
          exact hc (List.mem_singleton.mpr rfl)
      | writeConnectionPtr j ptr length =>
          rw [answers_writeConnectionPtr, if_neg]
          rintro rfl
          exact hc (List.mem_singleton.mpr rfl)
      | broadcastMessage clientIdxs buff length customInfo => exact answers_broadcastMessage i hc buff length customInfo
      | closeConnection j => rfl
      | readConnection j => rfl
      | customReadReq fd toRead clientIdx buff readAmount file =>
          rw [answers_customReadReq, if_neg]
          rintro rfl
          exact hc (by simp [TcpCall.slots])

namespace WebServer

variable {w w' : WebServer N} {env : WebEnv} {i : ℕ} {cs : List TcpCall} {r : WebServer N × List TcpCall}

theorem answers_sendFileRequest {n code : ℕ} {p : Bytes} {accept opened : Bool}
    (h : w.sendFileRequest env n i p accept code = some (w', cs, opened)) : answers i cs ≤ 1 := by
  unfold sendFileRequest at h
  dsimp only at h
  split at h
  · obtain ⟨-, rfl, -⟩ := by simpa using h
    exact Nat.zero_le _
  · split at h
    · cases h
    · split at h
      · cases h
      · split_ifs at h
        · obtain ⟨-, rfl, -⟩ := by simpa using h
          simp [answers_writeConnectionPtr]
        · obtain ⟨-, rfl, -⟩ := by simpa using h
          simp [answers_customReadReq]

theorem answers_respond {req : HttpRequest} (h : w.respond env i req = some r) : answers i r.2 ≤ 1 := by
  have hmissing : ∀ n, (w.sendFileRequest env n i (ascii "public/404.html") false 400).map (fun r => (r.1, r.2.1)) =
      some r → answers i r.2 ≤ 1 := by
    intro n hn
    obtain ⟨⟨w₁, cs₁, opened⟩, hsent, rfl⟩ := Option.map_eq_some_iff.mp hn
    exact answers_sendFileRequest hsent
  have hfinish : ∀ {w₁ : WebServer N} {cs₁ : List TcpCall}, answers i cs₁ ≤ 1 →
      answers i (cs₁ ++ if i ∈ w₁.activeWebsocketConnectionsClientIdxs then [.readConnection i] else []) ≤ 1 := by
    intro w₁ cs₁ hcs₁
    rw [answers_append]
    split
    · simpa using hcs₁
    · simpa using hcs₁
  unfold respond at h
  dsimp only at h
  split at h
  · split at h
    · obtain ⟨⟨w₁, cs₁⟩, haccept, rfl⟩ := Option.map_eq_some_iff.mp h
      obtain rfl := websocketAcceptReadCb_answers haccept
      exact hfinish (by simp [answers_writeConnection])
    · split at h
      · cases h
      · rename_i w₁ cs₁ hsent
        obtain rfl := Option.some.inj h
        exact hfinish (answers_sendFileRequest hsent)
      · exact hmissing 1 h
  · exact hmissing 0 h

theorem answers_readCb {buffer : Bytes} (hi : i ∉ w.activeWebsocketConnectionsClientIdxs)
    (h : w.readCb env i buffer = some r) : answers i r.2 ≤ 1 := by
  unfold readCb at h
  rw [if_neg hi] at h
  split at h
  · split at h
    · cases h
    · exact answers_respond h
  · obtain ⟨-, hcalls⟩ := closeConnection_steady h
    simp [hcalls]

/-- What a callback does for a connection that is no websocket: the read callback and the end of a read of a file answer
it at most once, and the other callbacks do not. -/
theorem answers_invoke {cb : Callback} (hclosing : w.NoneClosing) (hlinked : w.pool.Linked)
    (hi : i ∉ w.activeWebsocketConnectionsClientIdxs) (h : (webApp N).invoke w (env, cb) = some r) :
    answers i r.2 ≤ (if cb.ReadOf i then 1 else 0) + if cb.FileReadOf i then 1 else 0 := by
  have hother : ∀ k, cb.client = some k → k ≠ i → answers i r.2 = 0 := by
    intro k hk hki
    have hisolated : Isolated k (fun _ => False) w w := ⟨fun _ _ _ hclient => hclient, fun _ _ => Iff.rfl, nofun, nofun,
      nofun, fun _ _ => id, own_of_linked hlinked, hclosing⟩
    exact answers_of_isFor hki (servesOnly k _ w w env cb r.1 r.2 hisolated hk h).2
  cases cb with
  | accept j =>
      obtain rfl : (w.newTcpClient j, []) = r := by simpa [App.invoke, webApp] using h
      simp
  | close j info =>
      obtain ⟨a, -, rfl⟩ := Option.map_eq_some_iff.mp (show (w.closeCb j info).map (fun w => (w, [])) = some r from h)
      simp
  | read j buffer =>
      by_cases hj : j = i
      · subst hj
        simpa [Callback.ReadOf, Callback.FileReadOf] using answers_readCb hi h
      · simp [hother j rfl hj]
  | write j info =>
      obtain ⟨w₁, -, -, hcalls | ⟨-, k, hcalls⟩ | ⟨-, hcalls⟩⟩ := writeCb_cases h
      · simp [hcalls]
      · simp [hcalls]
      · simp [hcalls]
  | event =>
      obtain rfl : w.eventCb env = r := Option.some.inj h
      unfold eventCb
      dsimp only
      split
      · rw [answers_broadcastMessage i (mt mem_visitOrder.mp hi)]
        exact Nat.zero_le _
      · simp
  | customRead idx fd buffer =>
      rcases customReadCb_cases h with ⟨-, -, hcalls⟩ | ⟨-, j, p, hidx, -, -, -, hcalls⟩
      · simp [hcalls, answers_customReadReq]
      · subst hidx
        by_cases hj : j = i
        · subst hj
          rcases hcalls with ⟨ptr, size, hcalls, -⟩ | hcalls
          · simp [hcalls, answers_writeConnectionPtr, Callback.FileReadOf, Callback.ReadOf]
          · simp [hcalls, answers_writeConnection, Callback.FileReadOf, Callback.ReadOf]
        · simp [hother j rfl hj]

/-- Callbacks between which slot `i` is not an active websocket. -/
theorem answers_of_inactive {es : List (WebEnv × Callback)} {calls : List (List TcpCall)} (hclosing : w.NoneClosing)
    (hlinked : w.pool.Linked) (hlinks : Runs.Along (webApp N).invoke KeepsLinks w es)
    (h : Runs.exec (webApp N).invoke w es = some (w', calls))
    (hinactive : ∀ es', es' <+: es → ∀ w₁ calls₁, Runs.exec (webApp N).invoke w es' = some (w₁, calls₁) →
      i ∉ w₁.activeWebsocketConnectionsClientIdxs) :
    answers i calls.flatten ≤ (es.countP fun e => e.2.ReadOf i) + es.countP fun e => e.2.FileReadOf i := by
  induction es generalizing w calls with
  | nil =>
      obtain ⟨-, rfl⟩ : w = w' ∧ [] = calls := by simpa [Runs.exec] using h
      simp
  | cons e es ih =>
      obtain ⟨w₁, cs, calls', hcb, hrest, rfl⟩ := Runs.exec_cons h
      have hafter : ∀ es', es' <+: es → ∀ w₂ calls₂, Runs.exec (webApp N).invoke w₁ es' = some (w₂, calls₂) →
          i ∉ w₂.activeWebsocketConnectionsClientIdxs := by
        intro es' hes' w₂ calls₂ hw₂
        refine hinactive (e :: es') ((List.prefix_cons_inj e).mpr hes') w₂ (cs :: calls₂) ?_
        exact Runs.exec_append.mpr ⟨w₁, [cs], calls₂, Runs.exec_singleton hcb, hw₂, rfl⟩
      have hlater := ih (maintains_noneClosing.invoke hclosing hcb) (linked_invoke hclosing hlinked hlinks.1 hcb)
        (hlinks.2 w₁ cs hcb) hrest hafter
      have hfirst : answers i cs ≤ _ := answers_invoke hclosing hlinked (hinactive [] (List.nil_prefix ..) w [] rfl) hcb
      rw [List.flatten_cons, answers_append, List.countP_cons, List.countP_cons]
      omega

end WebServer

/-- **One answer.** In every run of the plain web server in which no completed read of an earlier connection is taken
for one of the connection that has its slot now, no slot is accepted that a file is still read for, and active
websockets refer back to their connections: since a connection was accepted, at most one buffer was queued for it, and
none while a file is read for it, unless the connection is an active websocket at some point since then. -/
theorem one_answer (N : ℕ) (inotifyFd : ℤ) (cs : List (Completion WebEnv))
    (hown : Runs.Along (Machine.step .nonTls (webApp N)) Machine.ReadsOwn (webStart N inotifyFd) cs)
    (hunread : Runs.Along (Machine.step .nonTls (webApp N)) Machine.AcceptsUnread (webStart N inotifyFd) cs)
    (m : Machine (WebServer N)) (logs : List (List Callback))
    (hrun : Runs.exec (Machine.step .nonTls (webApp N)) (webStart N inotifyFd) cs = some (m, logs))
    (hlinks : Runs.Along (webApp N).invoke WebServer.KeepsLinks { inotifyFd } (invoked cs logs))
    (before after : List (WebEnv × Callback)) (env : WebEnv) (i : ℕ)
    (hpast : invoked cs logs = before ++ (env, .accept i) :: after) (hlater : ∀ e ∈ after, e.2 ≠ .accept i) :
    ∃ w earlier later, Runs.exec (webApp N).invoke { inotifyFd } (before ++ [(env, .accept i)]) = some (w, earlier) ∧
      Runs.exec (webApp N).invoke w after = some (m.app, later) ∧
      ((later.flatten.flatMap (TcpCall.entries i)).length + m.tcp.fileReads i ≤ 1 ∨
        ∃ es w' calls, es <+: after ∧ Runs.exec (webApp N).invoke w es = some (w', calls) ∧
          i ∈ w'.activeWebsocketConnectionsClientIdxs) := by
  obtain ⟨calls, hcalls⟩ : ∃ calls, Runs.exec (webApp N).invoke { inotifyFd } (invoked cs logs) = some (m.app, calls) :=
    Machine.replays_run hrun
  have hcounted := Machine.filesCounted_run hunread hrun hcalls
  have hlinks' := hlinks
  rw [hpast] at hcalls hcounted hlinks'
  obtain ⟨w, earlier, later, hbefore, hafter, hpaired⟩ := WebServer.exec_accept hcalls
  refine ⟨w, earlier ++ [[]], later, hbefore, hafter, ?_⟩
  by_cases hactive : ∃ es w' calls, es <+: after ∧ Runs.exec (webApp N).invoke w es = some (w', calls) ∧
      i ∈ w'.activeWebsocketConnectionsClientIdxs
  · exact Or.inr hactive
  · have hinactive : ∀ es, es <+: after → ∀ w' calls, Runs.exec (webApp N).invoke w es = some (w', calls) →
        i ∉ w'.activeWebsocketConnectionsClientIdxs := fun es hes w' calls hw' hmem =>
      hactive ⟨es, w', calls, hes, hw', hmem⟩
    have honce : (after.countP fun e => e.2.ReadOf i) ≤ 1 := by
      refine WebServer.reads_of_inactive hown hrun hpast hlater fun es hes w' calls hw' => ?_
      rw [List.append_cons] at hw'
      obtain ⟨w₁, earlier₁, calls₁, hbefore₁, hes₁, rfl⟩ := Runs.exec_append.mp hw'
      obtain rfl : w = w₁ := (Prod.mk.inj (Option.some.inj (hbefore.symm.trans hbefore₁))).1
      exact hinactive es hes w' calls₁ hes₁
    rw [List.append_cons, Runs.along_append hbefore] at hlinks'
    obtain ⟨hclosing, hlinked⟩ : w.NoneClosing ∧ w.pool.Linked := by
      refine Runs.exec_invariant (Q := fun w : WebServer N => w.NoneClosing ∧ w.pool.Linked)
        (fun w e w' _ hw he hcb => ?_) ?_ hlinks'.1 hbefore
      · exact ⟨WebServer.maintains_noneClosing.invoke hw.1 hcb, WebServer.linked_invoke hw.1 hw.2 he hcb⟩
      · exact ⟨by simp [WebServer.NoneClosing], by simp [RecordPool.Linked, WebServer.pool]⟩
    have hanswers := WebServer.answers_of_inactive hclosing hlinked hlinks'.2 hafter hinactive
    rw [hpaired] at hcounted
    have hfiles := hcounted.since fun e he => hlater e.1 (List.of_mem_zip he).1
    rw [countP_zip (Runs.length_exec hafter) (Callback.FileReadOf i), flatMap_snd_zip (Runs.length_exec hafter)] at hfiles
    unfold answers at hanswers
    exact Or.inl (by omega)

/-- A client asks for a file, which is read, stored in the cache and sent from there. -/
theorem one_answer_file :
    let cs : List (Completion WebEnv) := [{ index := 4, res := 10, env := sampleEnv },
      { index := 5, res := 19, data := ascii "GET /a HTTP/1.1\r\n\r\n", env := sampleEnv },
      { index := 5, res := 3, data := [1, 2, 3], env := sampleEnv }]
    let after : List (WebEnv × Callback) := [(sampleEnv, .read 0 (ascii "GET /a HTTP/1.1\r\n\r\n")),
      (sampleEnv, .customRead (some 0) 9 (fileHeaders (ascii "public/a") 3 false false 200 ++ [1, 2, 3]))]
    ∃ m logs, Runs.exec (Machine.step .nonTls (webApp 2)) (webStart 2 7) cs = some (m, logs) ∧
      invoked cs logs = (sampleEnv, .accept 0) :: after ∧
      ∃ w earlier later,
        Runs.exec (webApp 2).invoke { inotifyFd := 7 } ([] ++ [(sampleEnv, .accept 0)]) = some (w, earlier) ∧
        Runs.exec (webApp 2).invoke w after = some (m.app, later) ∧
        ((later.flatten.flatMap (TcpCall.entries 0)).length + m.tcp.fileReads 0 ≤ 1 ∨
          ∃ es w' calls, es <+: after ∧ Runs.exec (webApp 2).invoke w es = some (w', calls) ∧
            0 ∈ w'.activeWebsocketConnectionsClientIdxs) := by
  intro cs after
  have hown : Runs.Along (Machine.step .nonTls (webApp 2)) Machine.ReadsOwn (webStart 2 7) cs := by decide +kernel
  have hunread : Runs.Along (Machine.step .nonTls (webApp 2)) Machine.AcceptsUnread (webStart 2 7) cs := by
    decide +kernel
  have hsome : (Runs.exec (Machine.step .nonTls (webApp 2)) (webStart 2 7) cs).any (fun r =>
      Runs.Along (webApp 2).invoke WebServer.KeepsLinks { inotifyFd := 7 } (invoked cs r.2) ∧
        r.2 = [[.accept 0], [.read 0 (ascii "GET /a HTTP/1.1\r\n\r\n")],
          [.customRead (some 0) 9 (fileHeaders (ascii "public/a") 3 false false 200 ++ [1, 2, 3])]]) = true := by
    decide +kernel
  simp only [Option.any_eq_true, decide_eq_true_eq] at hsome
  obtain ⟨⟨m, logs⟩, hrun, hlinks, hlogs⟩ := hsome
  have hpast : invoked cs logs = [] ++ (sampleEnv, .accept 0) :: after := by
    simp only at hlogs
    rw [hlogs]
    rfl
  exact ⟨m, logs, hrun, hpast, one_answer 2 7 cs hown hunread m logs hrun hlinks [] after sampleEnv 0 hpast (by simp [after])⟩

end LiburingServer
