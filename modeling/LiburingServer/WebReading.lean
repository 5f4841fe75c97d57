import LiburingServer.TcpReading
import LiburingServer.WebOutputs

/-! The requests of a plain connection. The web server asks for further bytes of a connection only when that is a
websocket, so a connection that is none is read from once: it gets one request, and no second one. -/

namespace LiburingServer

variable {N : ℕ}

namespace WebServer

variable {w w' : WebServer N} {env : WebEnv} {i : ℕ} {cs : List TcpCall} {r : WebServer N × List TcpCall}

/-- Only active websockets are read from: those that were active before and those that have become it. -/
def AsksActive (w : WebServer N) (r : WebServer N × List TcpCall) : Prop :=
  ∀ i, .readConnection i ∈ r.2 →
    i ∈ w.activeWebsocketConnectionsClientIdxs ∨ i ∈ r.1.activeWebsocketConnectionsClientIdxs

theorem asksActive_of_none (h : ∀ i, .readConnection i ∉ r.2) : w.AsksActive r := fun i hi => absurd hi (h i)

theorem sendFileRequest_asks {n code : ℕ} {p : Bytes} {accept opened : Bool}
    (h : w.sendFileRequest env n i p accept code = some (w', cs, opened)) : ∀ j, .readConnection j ∉ cs := by
  unfold sendFileRequest at h
  dsimp only at h
  split at h
  · obtain ⟨-, rfl, -⟩ := by simpa using h
    simp
  · split at h
    · cases h
    · split at h
      · cases h
      · split_ifs at h
        · obtain ⟨-, rfl, -⟩ := by simpa using h
          simp
        · obtain ⟨-, rfl, -⟩ := by simpa using h
          simp

/-- The read that follows a request. -/
theorem asksActive_andRead (h : ∀ j, .readConnection j ∉ cs) :
    w.AsksActive (w', cs ++ if i ∈ w'.activeWebsocketConnectionsClientIdxs then [.readConnection i] else []) := by
  intro j hj
  rcases List.mem_append.mp hj with hj | hj
  · exact absurd hj (h j)
  · split at hj
    · obtain rfl : j = i := by simpa using hj
      exact Or.inr ‹_›
    · cases hj

theorem asksActive_respond {req : HttpRequest} (h : w.respond env i req = some r) : w.AsksActive r := by
  have hmissing : ∀ n, (w.sendFileRequest env n i (ascii "public/404.html") false 400).map (fun r => (r.1, r.2.1)) =
      some r → w.AsksActive r := by
    intro n hn
    obtain ⟨⟨w₁, cs₁, opened⟩, hsent, rfl⟩ := Option.map_eq_some_iff.mp hn
    exact asksActive_of_none (sendFileRequest_asks hsent)
  unfold respond at h
  dsimp only at h
  split at h
  · split at h
    · obtain ⟨⟨w₁, cs₁⟩, haccept, rfl⟩ := Option.map_eq_some_iff.mp h
      obtain rfl := websocketAcceptReadCb_answers haccept
      exact asksActive_andRead (by simp)
    · split at h
      · cases h
      · rename_i w₁ cs₁ hsent
        obtain rfl := Option.some.inj h
        exact asksActive_andRead (sendFileRequest_asks hsent)
      · exact hmissing 1 h
  · exact hmissing 0 h

theorem asksActive_readCb {buffer : Bytes} (h : w.readCb env i buffer = some r) : w.AsksActive r := by
  unfold readCb at h
  split at h
  · split at h
    · cases h
    · exact asksActive_respond h
  · split at h
    · rename_i hactive
      obtain ⟨r₁, hprocessed, rfl⟩ := Option.map_eq_some_iff.mp h
      intro j hj
      obtain rfl : j = i := by
        rcases List.mem_append.mp hj with hj | hj
        · rcases replies_websocketProcessReadCb hprocessed _ hj with hread | ⟨k, payload, opcode, hwrite, -⟩
          · simpa using hread
          · cases hwrite
        · simpa using hj
      exact Or.inl hactive
    · obtain ⟨-, hcalls⟩ := closeConnection_steady h
      exact asksActive_of_none (by simp [hcalls])

theorem asksActive_invoke {e : WebEnv × Callback} (h : (webApp N).invoke w e = some r) : w.AsksActive r := by
  obtain ⟨env, cb⟩ := e
  cases cb with
  | accept i =>
      obtain rfl : (w.newTcpClient i, []) = r := by simpa [App.invoke, webApp] using h
      exact asksActive_of_none (by simp)
  | close i info =>
      obtain ⟨a, -, rfl⟩ := Option.map_eq_some_iff.mp (show (w.closeCb i info).map (fun w => (w, [])) = some r from h)
      exact asksActive_of_none (by simp)
  | read i buffer => exact asksActive_readCb h
  | write i info =>
      obtain ⟨w₁, -, -, hcalls | ⟨-, j, hcalls⟩ | ⟨-, hcalls⟩⟩ := writeCb_cases h
      · exact asksActive_of_none (by simp [hcalls])
      · exact asksActive_of_none (by simp [hcalls])
      · exact asksActive_of_none (by simp [hcalls])
  | event =>
      obtain rfl : w.eventCb env = r := Option.some.inj h
      refine asksActive_of_none fun i => ?_
      unfold eventCb
      dsimp only
      split <;> simp
  | customRead i fd buffer =>
      rcases customReadCb_cases h with ⟨-, -, hcalls⟩ | ⟨-, i, p, -, -, -, -, ⟨ptr, size, hcalls, -⟩ | hcalls⟩
      · exact asksActive_of_none (by simp [hcalls])
      · exact asksActive_of_none (by simp [hcalls])
      · exact asksActive_of_none (by simp [hcalls])

/-- Callbacks between which slot `i` is not an active websocket ask for no read of it. -/
theorem asked_of_inactive {es : List (WebEnv × Callback)} {calls : List (List TcpCall)}
    (h : Runs.exec (webApp N).invoke w es = some (w', calls))
    (hinactive : ∀ es', es' <+: es → ∀ w₁ calls₁, Runs.exec (webApp N).invoke w es' = some (w₁, calls₁) →
      i ∉ w₁.activeWebsocketConnectionsClientIdxs) :
    calls.flatten.count (.readConnection i) = 0 := by
  induction es generalizing w calls with
  | nil =>
      obtain ⟨-, rfl⟩ : w = w' ∧ [] = calls := by simpa [Runs.exec] using h
      rfl
  | cons e es ih =>
      obtain ⟨w₁, cs, calls', hcb, hrest, rfl⟩ := Runs.exec_cons h
      have hafter : ∀ es', es' <+: es → ∀ w₂ calls₂, Runs.exec (webApp N).invoke w₁ es' = some (w₂, calls₂) →
          i ∉ w₂.activeWebsocketConnectionsClientIdxs := by
        intro es' hes' w₂ calls₂ hw₂
        refine hinactive (e :: es') ((List.prefix_cons_inj e).mpr hes') w₂ (cs :: calls₂) ?_
        exact Runs.exec_append.mpr ⟨w₁, [cs], calls₂, Runs.exec_singleton hcb, hw₂, rfl⟩
      have hnone : .readConnection i ∉ cs := by
        intro hmem
        rcases asksActive_invoke hcb i hmem with hactive | hactive
        · exact hinactive [] (List.nil_prefix ..) w [] rfl hactive
        · exact hafter [] (List.nil_prefix ..) w₁ [] rfl hactive
      rw [List.flatten_cons, List.count_append, ih hrest hafter, List.count_eq_zero.mpr hnone]

/-- What was called before a slot was accepted, and what was called since. -/
theorem exec_accept {w₀ : WebServer N} {before after : List (WebEnv × Callback)} {calls : List (List TcpCall)}
    (h : Runs.exec (webApp N).invoke w₀ (before ++ (env, .accept i) :: after) = some (w', calls)) :
    ∃ w earlier later, Runs.exec (webApp N).invoke w₀ (before ++ [(env, .accept i)]) = some (w, earlier ++ [[]]) ∧
      Runs.exec (webApp N).invoke w after = some (w', later) ∧
      (before ++ (env, .accept i) :: after).zip calls =
        before.zip earlier ++ ((env, .accept i), []) :: after.zip later := by
  obtain ⟨w, earlier, rest, hbefore, hrest, rfl⟩ := Runs.exec_append.mp h
  obtain ⟨w₁, cs₁, later, hcb, hafter, rfl⟩ := Runs.exec_cons hrest
  obtain ⟨rfl, rfl⟩ : w.newTcpClient i = w₁ ∧ [] = cs₁ := by simpa [App.invoke, webApp] using hcb
  refine ⟨_, earlier, later, ?_, hafter, ?_⟩
  · exact Runs.exec_append.mpr ⟨w, earlier, [[]], hbefore, Runs.exec_singleton hcb, rfl⟩
  · rw [List.zip_append (Runs.length_exec hbefore).symm, List.zip_cons_cons]

/-- A connection that is no active websocket since it was accepted is read from once. -/
theorem reads_of_inactive {inotifyFd : ℤ} {cs : List (Completion WebEnv)} {m : Machine (WebServer N)}
    {logs : List (List Callback)} {before after : List (WebEnv × Callback)}
    (hown : Runs.Along (Machine.step .nonTls (webApp N)) Machine.ReadsOwn (webStart N inotifyFd) cs)
    (hrun : Runs.exec (Machine.step .nonTls (webApp N)) (webStart N inotifyFd) cs = some (m, logs))
    (hpast : invoked cs logs = before ++ (env, .accept i) :: after) (hlater : ∀ e ∈ after, e.2 ≠ .accept i)
    (hinactive : ∀ es, es <+: after → ∀ w calls,
      Runs.exec (webApp N).invoke { inotifyFd } (before ++ (env, .accept i) :: es) = some (w, calls) →
      i ∉ w.activeWebsocketConnectionsClientIdxs) : (after.countP fun e => e.2.ReadOf i) ≤ 1 := by
  obtain ⟨calls, hcalls⟩ := Machine.replays_run hrun
  have hasked := Machine.readsAsked_run hown hrun hcalls
  rw [hpast] at hcalls hasked
  obtain ⟨w, earlier, later, hbefore, hafter, hpaired⟩ := exec_accept hcalls
  rw [hpaired] at hasked
  have hle := hasked.since fun e he => hlater e.1 (List.of_mem_zip he).1
  have hnone : ((after.zip later).flatMap Prod.snd).count (.readConnection i) = 0 := by
    rw [flatMap_snd_zip (Runs.length_exec hafter)]
    refine asked_of_inactive hafter fun es hes w₂ calls₂ hw₂ => hinactive es hes w₂ (earlier ++ [[]] ++ calls₂) ?_
    rw [List.append_cons]
    exact Runs.exec_append.mpr ⟨w, earlier ++ [[]], calls₂, hbefore, hw₂, rfl⟩
  rw [hnone, countP_zip (Runs.length_exec hafter) (Callback.ReadOf i)] at hle
  exact Nat.le_of_add_right_le hle

end WebServer

/-- **One request.** In every run of the plain web server in which no completed read of an earlier connection is taken
for one of the connection that has its slot now, the read callback of a connection is called at most once, unless the
connection is an active websocket at some point after it was accepted: what a client sends after its first bytes, be it
the rest of its request or another one, is not read. -/
theorem one_request (N : ℕ) (inotifyFd : ℤ) (cs : List (Completion WebEnv))
    (hown : Runs.Along (Machine.step .nonTls (webApp N)) Machine.ReadsOwn (webStart N inotifyFd) cs)
    (m : Machine (WebServer N)) (logs : List (List Callback))
    (hrun : Runs.exec (Machine.step .nonTls (webApp N)) (webStart N inotifyFd) cs = some (m, logs))
    (before after : List (WebEnv × Callback)) (env : WebEnv) (i : ℕ)
    (hpast : invoked cs logs = before ++ (env, .accept i) :: after) (hlater : ∀ e ∈ after, e.2 ≠ .accept i) :
    (after.countP fun e => e.2.ReadOf i) ≤ 1 ∨
      ∃ es w calls, es <+: after ∧
        Runs.exec (webApp N).invoke { inotifyFd } (before ++ (env, .accept i) :: es) = some (w, calls) ∧
        i ∈ w.activeWebsocketConnectionsClientIdxs := by
  by_cases hactive : ∃ es w calls, es <+: after ∧
      Runs.exec (webApp N).invoke { inotifyFd } (before ++ (env, .accept i) :: es) = some (w, calls) ∧
      i ∈ w.activeWebsocketConnectionsClientIdxs
  · exact Or.inr hactive
  · refine Or.inl (WebServer.reads_of_inactive hown hrun hpast hlater fun es hes w calls hw hmem => ?_)
    exact hactive ⟨es, w, calls, hes, hw, hmem⟩

/-- A client asks for a file and gets it. It is not read from again. -/
theorem one_request_file :
    ∃ m logs, Runs.exec (Machine.step .nonTls (webApp 2)) (webStart 2 7)
        [{ index := 4, res := 10, env := sampleEnv },
          { index := 5, res := 19, data := ascii "GET /a HTTP/1.1\r\n\r\n", env := sampleEnv }] = some (m, logs) ∧
      logs = [[.accept 0], [.read 0 (ascii "GET /a HTTP/1.1\r\n\r\n")]] ∧
      ((([(sampleEnv, .read 0 (ascii "GET /a HTTP/1.1\r\n\r\n"))] : List (WebEnv × Callback)).countP
          fun e => e.2.ReadOf 0) ≤ 1 ∨
        ∃ es w calls, es <+: [(sampleEnv, Callback.read 0 (ascii "GET /a HTTP/1.1\r\n\r\n"))] ∧
          Runs.exec (webApp 2).invoke { inotifyFd := 7 } ([] ++ (sampleEnv, .accept 0) :: es) = some (w, calls) ∧
          0 ∈ w.activeWebsocketConnectionsClientIdxs) := by
  set cs : List (Completion WebEnv) := [{ index := 4, res := 10, env := sampleEnv },
    { index := 5, res := 19, data := ascii "GET /a HTTP/1.1\r\n\r\n", env := sampleEnv }] with hcs
  have hown : Runs.Along (Machine.step .nonTls (webApp 2)) Machine.ReadsOwn (webStart 2 7) cs := by decide +kernel
  have hsome : (Runs.exec (Machine.step .nonTls (webApp 2)) (webStart 2 7) cs).any
      (fun r => r.2 = [[.accept 0], [.read 0 (ascii "GET /a HTTP/1.1\r\n\r\n")]]) = true := by
    decide +kernel
  simp only [Option.any_eq_true, decide_eq_true_eq] at hsome
  obtain ⟨⟨m, logs⟩, hrun, hlogs⟩ := hsome
  refine ⟨m, logs, hrun, hlogs, one_request 2 7 cs hown m logs hrun [] _ sampleEnv 0 ?_ (by simp)⟩
  simp only at hlogs
  rw [hlogs]
  rfl

end LiburingServer
