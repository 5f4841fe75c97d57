import LiburingServer.TcpServing
import LiburingServer.WebRequests
import LiburingServer.WebStanding

/-! No connection is forgotten. As long as each request can be answered, a connection that is no websocket is read from,
written to or has a file read for it until it is closed. -/

namespace LiburingServer

variable {N : ℕ}

/-- If a request was received, it can be answered. -/
def Answered : WebEnv × Callback → Prop
  | (env, .read _ buffer) =>
      isValidHttpReq buffer → ∀ req ∈ parseRequest (buffer ++ env.beyond), req.Answerable env
  | _ => True

instance : DecidablePred Answered
  | (_, .accept _) => isTrue trivial
  | (_, .close _ _) => isTrue trivial
  | (env, .read _ buffer) => inferInstanceAs (Decidable (isValidHttpReq buffer → ∀ req ∈ parseRequest (buffer ++ env.beyond),
      req.Answerable env))
  | (_, .write _ _) => isTrue trivial
  | (_, .event) => isTrue trivial
  | (_, .customRead _ _ _) => isTrue trivial

namespace WebServer

variable {w w' : WebServer N} {env : WebEnv} {i : ℕ} {r : WebServer N × List TcpCall}

/-- The connection is an active websocket, or its index is that of a websocket in use. -/
def Websocket (w : WebServer N) (i : ℕ) : Prop := i ∈ w.activeWebsocketConnectionsClientIdxs ∨ ¬w.NoWebsocket i

instance (w : WebServer N) : DecidablePred w.Websocket := fun i =>
  inferInstanceAs (Decidable (i ∈ w.activeWebsocketConnectionsClientIdxs ∨ ¬w.NoWebsocket i))

theorem first_respond {req : HttpRequest} (hreq : req.Answerable env) (h : w.respond env i req = some r) :
    ∃ call rest, r.2 = call :: rest ∧ call.Answers i := by
  rcases respond_eq_some h with ⟨⟨w₁, cs₁⟩, again, -, haccept, rfl, -⟩ |
    ⟨hother, ⟨q, w₁, cs₁, again, -, hsent, rfl, -⟩ | ⟨hnone, -⟩⟩
  · obtain ⟨resp, rfl⟩ := websocketAcceptReadCb_calls haccept
    exact ⟨_, again, rfl, List.mem_singleton_self i⟩
  · obtain ⟨client, client', item, -, ⟨-, rfl⟩ | ⟨-, -, rfl⟩⟩ := sendFileRequest_opened hsent
    · exact ⟨_, again, rfl, List.mem_singleton_self i⟩
    · exact ⟨_, again, rfl, List.mem_singleton_self i⟩
  · rcases HttpRequest.answerable_iff.mp hreq with hupgrade | ⟨q, hq⟩
    · exact absurd hupgrade hother
    · rw [hnone] at hq
      cases hq

theorem first_readCb {buffer : Bytes} (hi : i ∉ w.activeWebsocketConnectionsClientIdxs)
    (hanswered : Answered (env, .read i buffer)) (h : w.readCb env i buffer = some r) :
    ∃ call rest, r.2 = call :: rest ∧ call.Answers i := by
  unfold readCb at h
  rw [if_neg hi] at h
  split at h
  · rename_i hvalid
    split at h
    · cases h
    · rename_i req hreq
      exact first_respond (hanswered hvalid req hreq) h
  · obtain ⟨-, hcalls⟩ := closeConnection_steady h
    exact ⟨_, [], hcalls, List.mem_singleton_self i⟩

/-- What was written to a connection that is no websocket is the last thing it gets. -/
theorem first_writeCb {info : ℤ} (hi : w.NoWebsocket i) (h : w.writeCb i info = some r) :
    ∃ call rest, r.2 = call :: rest ∧ call.Answers i := by
  unfold writeCb at h
  split at h
  · cases h
  · rename_i w₁ hused
    obtain ⟨hclients, -, -, -, hall⟩ := broadcastUsed_rest hused
    split at h
    · cases h
    · rename_i client hclient
      rw [hclients] at hclient
      rw [hall, if_neg (hi client hclient)] at h
      obtain ⟨-, hcalls⟩ := closeConnection_steady h
      exact ⟨_, [], hcalls, List.mem_singleton_self i⟩

theorem first_customReadCb {fd : ℤ} {buff : Bytes} (hfd : fd ≠ w.inotifyFd)
    (h : w.customReadCb env (some i) fd buff = some r) : ∃ call rest, r.2 = call :: rest ∧ call.Answers i := by
  rcases customReadCb_cases h with ⟨heq, -⟩ | ⟨-, j, p, hj, -, -, -, ⟨ptr, size, hcalls, -⟩ | hcalls⟩
  · exact absurd heq hfd
  · obtain rfl := Option.some.inj hj
    exact ⟨_, [], hcalls, List.mem_singleton_self i⟩
  · obtain rfl := Option.some.inj hj
    exact ⟨_, [], hcalls, List.mem_singleton_self i⟩

end WebServer

/-- The connection was a websocket when some of the callbacks had been called, and its slot was not accepted since. -/
def WasWebsocket (N : ℕ) (inotifyFd : ℤ) (i : ℕ) (past : List (WebEnv × Callback)) : Prop :=
  ∃ es es' w calls, past = es ++ es' ∧ (∀ e ∈ es', e.2 ≠ .accept i) ∧
    Runs.exec (webApp N).invoke { inotifyFd } es = some (w, calls) ∧ w.Websocket i

/-- Every active connection that is and was no websocket is served. -/
structure KeepsServing (inotifyFd : ℤ) (m : Machine (WebServer N)) (past : List (WebEnv × Callback)) : Prop where
  writes : WriteInv m.tcp
  occupants : ∃ n, OccupantInv n m.tcp
  watches : ∃ req, m.Watches req
  fd : m.app.inotifyFd = inotifyFd
  replay : ∃ calls, Runs.exec (webApp N).invoke { inotifyFd } past = some (m.app, calls)
  served : ∀ i ∈ m.tcp.activeConnections, WasWebsocket N inotifyFd i past ∨ m.tcp.Served i

namespace Machine

variable {m m' : Machine (WebServer N)} {c : Completion WebEnv} {log : List Callback} {inotifyFd : ℤ} {i : ℕ}
  {past : List (WebEnv × Callback)}

/-- A read of a file that is done is not one of the inotify descriptor. -/
theorem customRead_fd {T : ServerType} {req : Request} {fd : ℤ} {buffer : Bytes} (h : m.Watches req)
    (hstep : step T (webApp N) m c = some (m', log)) (hmem : .customRead (some i) fd buffer ∈ log) :
    fd ≠ m.app.inotifyFd := by
  rintro rfl
  obtain ⟨hone, hidx, -⟩ := h
  obtain ⟨sub, calls, -, -, hround⟩ := replays_step hstep
  split_ifs at hround with hevent
  · obtain ⟨others, hperm, ⟨-, rfl, -⟩ | ⟨rfl, -⟩⟩ := hround
    · obtain ⟨hi, hfd, -⟩ : some i = sub.req.clientIdx ∧ m.app.inotifyFd = sub.req.customInfo ∧ _ := by simpa using hmem
      have hread : (sub.req, sub.file) ∈ watchReads m.app.inotifyFd m.tcp.reads :=
        List.mem_filter.mpr ⟨hperm.mem_iff.mpr (List.mem_cons_self ..), by simp [hfd]⟩
      rw [hone, List.mem_singleton] at hread
      rw [(Prod.mk.inj hread).1, hidx] at hi
      cases hi
    · cases hmem
  · exact hround.2 _ _ _ hmem

/-- What completes for a connection that is no websocket is answered. -/
theorem answers_completes {cb : Callback} {cs : List TcpCall} (h : KeepsServing inotifyFd m past)
    (hplain : ¬m.app.Websocket i) (hanswered : Answered (c.env, cb)) (hcb : cb.Completes i)
    (hstep : step .nonTls (webApp N) m c = some (m', [cb]))
    (hinvoke : (webApp N).invoke m.app (c.env, cb) = some (m'.app, cs)) : ∃ call rest, cs = call :: rest ∧ call.Answers i := by
  obtain ⟨hinactive, hnone⟩ := not_or.mp hplain
  cases cb with
  | read j buffer =>
      obtain rfl : j = i := hcb
      exact WebServer.first_readCb hinactive hanswered hinvoke
  | write j info =>
      obtain rfl : j = i := hcb
      exact WebServer.first_writeCb (not_not.mp hnone) hinvoke
  | customRead j fd buffer =>
      obtain rfl : j = some i := hcb
      obtain ⟨req, hwatches⟩ := h.watches
      exact WebServer.first_customReadCb (customRead_fd hwatches hstep (List.mem_singleton_self _)) hinvoke
  | _ => exact hcb.elim

/-- One round of the loop. -/
theorem keepsServing_step (h : KeepsServing inotifyFd m past) (hopen : ∀ n, (c.env.files n).1 ≠ inotifyFd) (hc : m.KeepsWrites c)
    (hanswered : ∀ cb ∈ log, Answered (c.env, cb)) (hstep : step .nonTls (webApp N) m c = some (m', log)) :
    KeepsServing inotifyFd m' (past ++ log.map fun cb => (c.env, cb)) := by
  obtain ⟨n, hoccupants⟩ := h.occupants
  obtain ⟨req, hwatches⟩ := h.watches
  obtain ⟨calls, hcalls⟩ := h.replay
  obtain ⟨hfd, hwatches'⟩ := watches_step (fun n => h.fd ▸ hopen n) hwatches hstep
  obtain ⟨-, calls', -, hcalls', -⟩ := replays_step hstep
  refine ⟨writeInv_step h.writes hc hstep, occupantInv_step hoccupants hstep, hwatches', hfd.trans h.fd,
    ⟨calls ++ calls', Runs.exec_append.mpr ⟨m.app, calls, calls', hcalls, hcalls', rfl⟩⟩, fun i hi => ?_⟩
  by_cases hwas : WasWebsocket N inotifyFd i (past ++ log.map fun cb => (c.env, cb))
  · exact Or.inl hwas
  obtain ⟨hround, rfl⟩ := servesRound_step h.writes hoccupants hc hstep i
  have hnone : .accept i ∉ m'.log → ∀ e ∈ m'.log.map fun cb => (c.env, cb), e.2 ≠ .accept i := by
    intro haccept e he heq
    obtain ⟨cb, hcb, rfl⟩ := List.mem_map.mp he
    exact haccept (heq ▸ hcb)
  refine Or.inr (hround hi (fun haccept hactive => ?_) fun cb cs hlog hcompletes hinvoke => ?_)
  · refine (h.served i hactive).resolve_left ?_
    rintro ⟨es, es', w, calls, rfl, hlater, hes, hw⟩
    refine hwas ⟨es, es' ++ _, w, calls, List.append_assoc .., fun e he => ?_, hes, hw⟩
    exact (List.mem_append.mp he).elim (hlater e) (hnone haccept e)
  · rw [hlog] at hstep hanswered
    have haccept : .accept i ∉ m'.log := by
      rw [hlog, List.mem_singleton]
      rintro rfl
      exact hcompletes
    refine answers_completes h (fun hws => hwas ?_) (hanswered cb (List.mem_singleton_self cb)) hcompletes hstep hinvoke
    exact ⟨past, _, m.app, calls, rfl, hnone haccept, hcalls, hws⟩

/-- A whole run. -/
theorem keepsServing_run {cs : List (Completion WebEnv)} {logs : List (List Callback)} (h : KeepsServing inotifyFd m past)
    (hopen : ∀ c ∈ cs, ∀ n, (c.env.files n).1 ≠ inotifyFd)
    (hwrites : Runs.Along (step .nonTls (webApp N)) KeepsWrites m cs) (hanswered : ∀ e ∈ invoked cs logs, Answered e)
    (hrun : Runs.exec (step .nonTls (webApp N)) m cs = some (m', logs)) :
    KeepsServing inotifyFd m' (past ++ invoked cs logs) := by
  induction cs generalizing m past logs with
  | nil =>
      obtain ⟨rfl, rfl⟩ : m = m' ∧ [] = logs := by simpa [Runs.exec] using hrun
      simpa [invoked] using h
  | cons c cs ih =>
      obtain ⟨m₁, log, logs₁, hstep, hrest, rfl⟩ := Runs.exec_cons hrun
      rw [invoked_cons] at hanswered ⊢
      have hfirst := keepsServing_step h (hopen c (by simp)) hwrites.1
        (fun cb hcb => hanswered _ (List.mem_append_left _ (List.mem_map_of_mem hcb))) hstep
      rw [← List.append_assoc]
      exact ih hfirst (fun c hc => hopen c (List.mem_cons_of_mem _ hc)) (hwrites.2 m₁ log hstep)
        (fun e he => hanswered e (List.mem_append_right _ he)) hrest

end Machine

/-- **No connection is forgotten.** In every run of the plain web server in which each request that is received can be
answered, `open` never returns the descriptor of the inotify instance, the sweep finds no half-closed connection that is
writing, and no slot with a write in flight is accepted: a read or a write of every active connection is in flight, or a
file is read for it, unless it was a websocket since its slot was accepted. -/
theorem no_connection_forgotten (N : ℕ) (inotifyFd : ℤ) (cs : List (Completion WebEnv))
    (hopen : ∀ c ∈ cs, ∀ n, (c.env.files n).1 ≠ inotifyFd)
    (hwrites : Runs.Along (Machine.step .nonTls (webApp N)) Machine.KeepsWrites (webStart N inotifyFd) cs)
    (m : Machine (WebServer N)) (logs : List (List Callback))
    (hrun : Runs.exec (Machine.step .nonTls (webApp N)) (webStart N inotifyFd) cs = some (m, logs))
    (hanswered : ∀ e ∈ invoked cs logs, Answered e) (i : ℕ) (hi : i ∈ m.tcp.activeConnections) :
    0 < m.tcp.reading i ∨ (m.tcp.writes i).length = 1 ∨ 0 < m.tcp.fileReads i ∨
      ∃ es es' w calls, invoked cs logs = es ++ es' ∧ (∀ e ∈ es', e.2 ≠ .accept i) ∧
        Runs.exec (webApp N).invoke { inotifyFd } es = some (w, calls) ∧
        (i ∈ w.activeWebsocketConnectionsClientIdxs ∨ ¬w.NoWebsocket i) := by
  have hstart : KeepsServing inotifyFd (webStart N inotifyFd) [] := by
    refine ⟨Machine.writeInv_start _ _, ⟨0, Machine.occupantInv_start _ _⟩, ⟨_, Machine.watches_start N inotifyFd⟩, rfl,
      ⟨[], rfl⟩, fun i hi => ?_⟩
    rw [webStart, (Machine.sameSlots_start _ _).activeConnections] at hi
    exact absurd hi (Finset.notMem_empty i)
  have hserves := Machine.keepsServing_run hstart hopen hwrites hanswered hrun
  rw [List.nil_append] at hserves
  rcases hserves.served i hi with hwas | hread | hqueued | hfile
  · exact Or.inr (Or.inr (Or.inr hwas))
  · exact Or.inl hread
  · refine Or.inr (Or.inl ?_)
    rw [hserves.writes.writesFit.length i hi, if_neg]
    rintro hempty
    exact hqueued (by simp [TcpServer.entries, hempty])
  · exact Or.inr (Or.inr (Or.inl hfile))

/-- A client asks for a file, which is being read. -/
theorem no_connection_forgotten_file :
    let env : WebEnv := { files := fun _ => (9, 3) }
    let cs : List (Completion WebEnv) := [{ index := 4, res := 10, env },
      { index := 5, res := 19, data := ascii "GET /a HTTP/1.1\r\n\r\n", env }]
    ∃ m logs, Runs.exec (Machine.step .nonTls (webApp 2)) (webStart 2 7) cs = some (m, logs) ∧
      0 ∈ m.tcp.activeConnections ∧
      (0 < m.tcp.reading 0 ∨ (m.tcp.writes 0).length = 1 ∨ 0 < m.tcp.fileReads 0 ∨
        ∃ es es' w calls, invoked cs logs = es ++ es' ∧ (∀ e ∈ es', e.2 ≠ .accept 0) ∧
          Runs.exec (webApp 2).invoke { inotifyFd := 7 } es = some (w, calls) ∧
          (0 ∈ w.activeWebsocketConnectionsClientIdxs ∨ ¬w.NoWebsocket 0)) := by
  intro env cs
  have hopen : ∀ c ∈ cs, ∀ n, (c.env.files n).1 ≠ 7 := by simp [cs, env]
  have hwrites : Runs.Along (Machine.step .nonTls (webApp 2)) Machine.KeepsWrites (webStart 2 7) cs := by decide +kernel
  have hsome : (Runs.exec (Machine.step .nonTls (webApp 2)) (webStart 2 7) cs).any (fun r =>
      0 ∈ r.1.tcp.activeConnections ∧ ∀ e ∈ invoked cs r.2, Answered e) = true := by decide +kernel
  simp only [Option.any_eq_true, decide_eq_true_eq] at hsome
  obtain ⟨⟨m, logs⟩, hrun, hactive, hanswered⟩ := hsome
  exact ⟨m, logs, hrun, hactive, no_connection_forgotten 2 7 cs hopen hwrites m logs hrun hanswered 0 hactive⟩

end LiburingServer
