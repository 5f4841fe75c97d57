import LiburingServer.WebFrame
import LiburingServer.TcpAccepts

/-! The entries of `tcp_clients` that the callbacks of the web server use: there is one for each slot that a
callback is called for, and the accept callback has reset it for the present occupant of the slot. -/

namespace LiburingServer

variable {N : ℕ}

/-- `webApp`, in which a read, write or close callback for a slot outside `tcp_clients` only notes the slot. -/
def watchedApp (N : ℕ) : App (WebServer N × List ℕ) WebEnv where
  acceptCb a i := ((webApp N).acceptCb a.1 i).map fun w => (w, a.2)
  closeCb a i info :=
    if i < a.1.tcpClients.length then ((webApp N).closeCb a.1 i info).map fun w => (w, a.2)
    else some (a.1, a.2 ++ [i])
  readCb env a i buffer :=
    if i < a.1.tcpClients.length then ((webApp N).readCb env a.1 i buffer).map fun r => ((r.1, a.2), r.2)
    else some ((a.1, a.2 ++ [i]), [])
  writeCb env a i info :=
    if i < a.1.tcpClients.length then ((webApp N).writeCb env a.1 i info).map fun r => ((r.1, a.2), r.2)
    else some ((a.1, a.2 ++ [i]), [])
  eventCb env a := ((webApp N).eventCb env a.1).map fun r => ((r.1, a.2), r.2)
  customReadCb env a i fd buffer :=
    ((webApp N).customReadCb env a.1 i fd buffer).map fun r => ((r.1, a.2), r.2)

def watchedStart (N : ℕ) (inotifyFd : ℤ) : Machine (WebServer N × List ℕ) :=
  Machine.start ({ inotifyFd }, []) [(inotifyFd, inotifyEventSize)]

/-- Nothing was noted, and there is an entry for each of the slots `A`. -/
def Covered (a : WebServer N × List ℕ) (A : Set ℕ) : Prop :=
  a.1.NoneClosing ∧ a.2 = [] ∧ ∀ i ∈ A, i < a.1.tcpClients.length

namespace WebServer

variable {w w' : WebServer N} {i : ℕ}

theorem Steady.length_tcpClients (h : w.Steady w') : w'.tcpClients.length = w.tcpClients.length := by
  have hpaths := congrArg List.length h.paths
  simpa [WebServer.paths] using hpaths

theorem ReadsFile.length_tcpClients {p : Bytes} {r : WebServer N × List TcpCall} (h : w.ReadsFile i p r) :
    r.1.tcpClients.length = w.tcpClients.length := by
  have hpaths := congrArg List.length h.paths
  simpa [WebServer.paths] using hpaths

theorem length_newTcpClient (w : WebServer N) (i : ℕ) :
    (w.newTcpClient i).tcpClients.length = max w.tcpClients.length (i + 1) := by
  simp only [newTcpClient, List.length_set, List.length_append, List.length_replicate]
  omega

/-- No callback takes entries away. -/
theorem maintains_length (n : ℕ) : (webApp N).Maintains fun w => n ≤ w.tcpClients.length := by
  refine ⟨fun a i a' h ha => ?_, fun a i info a' h ha => ?_, fun env a i buffer r h hr => ?_,
    fun env a i info r h hr => ?_, fun env a r h hr => ?_, fun env a i fd buffer r h hr => ?_⟩
  · obtain rfl := Option.some.inj ha
    rw [length_newTcpClient]
    omega
  · obtain ⟨w₁, hused, hsteady⟩ := closeCb_cases ha
    rwa [hsteady.length_tcpClients, (broadcastUsed_rest hused).1]
  · rcases readCb_cases hr with hkeeps | ⟨p, -, hreads⟩ | ⟨hsteady, -⟩
    · rwa [hkeeps.steady.length_tcpClients]
    · rwa [hreads.length_tcpClients]
    · rwa [hsteady.length_tcpClients]
  · obtain ⟨w₁, hused, hsteady, -⟩ := writeCb_cases hr
    rwa [hsteady.length_tcpClients, (broadcastUsed_rest hused).1]
  · obtain rfl := Option.some.inj hr
    simp only [eventCb]
    split
    · exact h
    · exact h
  · rcases customReadCb_cases hr with ⟨-, hsteady, -⟩ | ⟨-, j, p, -, -, hsteady, -⟩
    · rwa [hsteady.length_tcpClients]
    · have hlength := hsteady.length_tcpClients
      simp only at hlength
      rwa [hlength]

end WebServer

/-- The callbacks of the web server keep the entries there are, and close no connection but their own. -/
theorem attends_watchedApp : (watchedApp N).Attends Covered := by
  have hlength := fun n => WebServer.maintains_length (N := N) n
  have hnone := WebServer.maintains_noneClosing (N := N)
  refine ⟨fun a A i a' h ha => ?_, fun a A i info a' h hi ha => ?_, fun env a A i buffer r h hi hr => ?_,
    fun env a A i info r h hi hr => ?_, fun env a A r h hr => ?_, fun env a A i fd buffer r h hr => ?_⟩
  all_goals obtain ⟨hclosing, hnotes, hcovers⟩ := h
  · simp only [watchedApp] at ha
    obtain ⟨w, hw, rfl⟩ := Option.map_eq_some_iff.mp ha
    refine ⟨hnone.accept _ _ _ hclosing hw, hnotes, fun j hj => ?_⟩
    rcases Set.mem_insert_iff.mp hj with rfl | hj
    · obtain rfl := Option.some.inj hw
      simp only [WebServer.length_newTcpClient]
      omega
    · exact (hlength _).accept _ _ _ (hcovers j hj) hw
  · simp only [watchedApp, if_pos (hcovers i hi)] at ha
    obtain ⟨w, hw, rfl⟩ := Option.map_eq_some_iff.mp ha
    exact ⟨hnone.close _ _ _ _ hclosing hw, hnotes, fun j hj => (hlength _).close _ _ _ _ (hcovers j hj) hw⟩
  · simp only [watchedApp, if_pos (hcovers i hi)] at hr
    obtain ⟨r', hr', rfl⟩ := Option.map_eq_some_iff.mp hr
    refine ⟨⟨hnone.read _ _ _ _ _ hclosing hr', hnotes,
      fun j hj => (hlength _).read _ _ _ _ _ (hcovers j hj) hr'⟩, fun c hc j hclose => ?_⟩
    rcases WebServer.readCb_closes hr' with hother | ⟨hcs, -⟩
    · exact absurd hclose (hother c hc j)
    · simp only [hcs, List.mem_singleton, hclose, TcpCall.closeConnection.injEq] at hc
      exact hc
  · simp only [watchedApp, if_pos (hcovers i hi)] at hr
    obtain ⟨r', hr', rfl⟩ := Option.map_eq_some_iff.mp hr
    refine ⟨⟨hnone.write _ _ _ _ _ hclosing hr', hnotes,
      fun j hj => (hlength _).write _ _ _ _ _ (hcovers j hj) hr'⟩, fun c hc j hclose => ?_⟩
    rcases WebServer.writeCb_closes hclosing hr' with hother | ⟨hcs, -⟩
    · exact absurd hclose (hother c hc j)
    · simp only [hcs, List.mem_singleton, hclose, TcpCall.closeConnection.injEq] at hc
      exact hc
  · simp only [watchedApp] at hr
    obtain ⟨r', hr', rfl⟩ := Option.map_eq_some_iff.mp hr
    refine ⟨⟨hnone.event _ _ _ hclosing hr', hnotes, fun j hj => (hlength _).event _ _ _ (hcovers j hj) hr'⟩, ?_⟩
    obtain rfl := Option.some.inj hr'
    simp only [WebServer.eventCb]
    split
    · simp
    · simp
  · simp only [watchedApp] at hr
    obtain ⟨r', hr', rfl⟩ := Option.map_eq_some_iff.mp hr
    exact ⟨⟨hnone.customRead _ _ _ _ _ _ hclosing hr', hnotes,
      fun j hj => (hlength _).customRead _ _ _ _ _ _ (hcovers j hj) hr'⟩, WebServer.customReadCb_closes hr'⟩

theorem acceptInv_watchedStart (T : ServerType) (inotifyFd : ℤ) :
    Machine.AcceptInv T Covered [] (watchedStart N inotifyFd) := by
  refine ⟨announced_nil, ⟨by simp [watchedStart, Machine.start, WebServer.NoneClosing], rfl, ?_⟩, ?_⟩
  · intro i hi
    exact absurd hi (by simp [Machine.acceptedSlots, Machine.history, watchedStart, Machine.start, lastAccepted])
  · have hempty : SessionInv T (fun _ => none) {} := ⟨fun _ _ => rfl, by simp, by simp, by simp⟩
    exact hempty.congr ⟨rfl, rfl, rfl, rfl, rfl, fun _ => rfl⟩

/-- **The accept callback comes first.** In every run of the web server, over TLS or not, in which no
completed request is served for a TLS client that is still in its handshake: the last accept callback
before each read, write and close callback of a slot is for the same occupant, and there is an entry of
`tcp_clients` for each slot that such a callback is called for. -/
theorem accepted_before_served (T : ServerType) (inotifyFd : ℤ) (cs : List (Completion WebEnv))
    (hcs : Runs.Along (Machine.dated T (watchedApp N)) (Machine.AcceptsFirst T) (watchedStart N inotifyFd) cs)
    (m : Machine (WebServer N × List ℕ)) (logs : List (List (Callback × ℕ)))
    (hrun : Runs.exec (Machine.dated T (watchedApp N)) (watchedStart N inotifyFd) cs = some (m, logs)) :
    Announced logs.flatten ∧ m.app.2 = [] := by
  have hinv := announced_exec attends_watchedApp (acceptInv_watchedStart T inotifyFd) hcs hrun
  refine ⟨?_, hinv.app.2.1⟩
  have hannounced := hinv.announced
  rwa [Machine.history, List.map_nil, List.append_nil] at hannounced

/-- A TLS client completes its handshake and closes. -/
theorem accepted_before_served_handshake :
    ∃ m logs, Runs.exec (Machine.dated .tls (watchedApp 1)) (watchedStart 1 7)
        [{ index := 4, res := 10, wolf := [{ io := [.recv 5] }], env := {} },
          { index := 5, res := 5, wolf := [{ io := [.recv 5], ret := 1 }, { io := [.recv 5] }], env := {} },
          { index := 5, res := 0, env := {} }] = some (m, logs) ∧
      logs.flatten = [(.accept 0, 0), (.close 0 (-1), 0)] ∧ Announced logs.flatten ∧ m.app.2 = [] := by
  have hcs : Runs.Along (Machine.dated .tls (watchedApp 1)) (Machine.AcceptsFirst .tls) (watchedStart 1 7)
      [{ index := 4, res := 10, wolf := [{ io := [.recv 5] }], env := {} },
        { index := 5, res := 5, wolf := [{ io := [.recv 5], ret := 1 }, { io := [.recv 5] }], env := {} },
        { index := 5, res := 0, env := {} }] := by decide +kernel
  have hsome : (Runs.exec (Machine.dated .tls (watchedApp 1)) (watchedStart 1 7)
      [{ index := 4, res := 10, wolf := [{ io := [.recv 5] }], env := {} },
        { index := 5, res := 5, wolf := [{ io := [.recv 5], ret := 1 }, { io := [.recv 5] }], env := {} },
        { index := 5, res := 0, env := {} }]).any
      (fun r => r.2.flatten = [(.accept 0, 0), (.close 0 (-1), 0)]) = true := by decide +kernel
  simp only [Option.any_eq_true, decide_eq_true_eq] at hsome
  obtain ⟨⟨m, logs⟩, hrun, hlogs⟩ := hsome
  exact ⟨m, logs, hrun, hlogs, accepted_before_served .tls 7 _ hcs m logs hrun⟩

/-- A TLS client connects and leaves before the handshake is done: the close callback is called for a client
that was never accepted, whose slot has no entry in `tcp_clients`. -/
theorem served_without_accept :
    ∃ m logs, Runs.exec (Machine.dated .tls (watchedApp 1)) (watchedStart 1 7)
        [{ index := 4, res := 10, wolf := [{ io := [.recv 5] }], env := {} },
          { index := 5, res := 0, env := {} }] = some (m, logs) ∧ ¬Announced logs.flatten ∧ m.app.2 = [0] := by
  have hsome : (Runs.exec (Machine.dated .tls (watchedApp 1)) (watchedStart 1 7)
      [{ index := 4, res := 10, wolf := [{ io := [.recv 5] }], env := {} },
        { index := 5, res := 0, env := {} }]).any
      (fun r => r.2.flatten = [(.close 0 (-1), 0)] ∧ r.1.app.2 = [0]) = true := by decide +kernel
  simp only [Option.any_eq_true, decide_eq_true_eq] at hsome
  obtain ⟨⟨m, logs⟩, hrun, hlogs, hnotes⟩ := hsome
  refine ⟨m, logs, hrun, fun hannounced => ?_, hnotes⟩
  have hnone := hannounced [] (.close 0 (-1)) 0 [] hlogs 0 ⟨rfl, by simp⟩
  simp [lastAccepted] at hnone

end LiburingServer
