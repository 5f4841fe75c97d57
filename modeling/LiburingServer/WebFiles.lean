import LiburingServer.WebFrame
import LiburingServer.TcpFrame
import LiburingServer.TcpWrites

/-! The files that the web server sends. A file that is not in the cache is read by a custom read; when
it completes, the response is queued on the slot that the read was for, and stored in the cache under
the path that this slot has asked for last. -/

namespace LiburingServer

variable {N : ℕ}

/-- Nothing was written on slot `j`: its queue and the write requests in flight for it are the same. -/
def Unwritten (s s' : TcpServer) (j : ℕ) : Prop :=
  (s'.clients j).queue = (s.clients j).queue ∧ s'.writes j = s.writes j

/-- The connection that a request was submitted for still occupies slot `i`: the slot was neither freed
nor handed out again. -/
def StillOccupied (s : TcpServer) (sub : Submission) (i : ℕ) : Prop :=
  sub.occupant = s.occupants i ∧ i ∉ s.freedIndexes

theorem TcpServer.Alters.unwritten {i j : ℕ} {s s' : TcpServer} (h : s.Alters i s') (hj : j ≠ i) :
    Unwritten s s' j := by
  obtain ⟨new, hnew, hof⟩ := h.inflight
  have hother : new.filter (fun sub => sub.IsWrite j) = [] := by
    simp only [List.filter_eq_nil_iff, decide_eq_true_eq]
    rintro sub hsub ⟨-, hidx⟩
    exact hj (by simpa [(hof sub hsub).2] using hidx.symm)
  exact ⟨by rw [h.others j hj], by simp [TcpServer.writes, hnew, hother]⟩

namespace Machine

open TcpServer

variable {T : ServerType} {m m' : Machine (WebServer N)} {sub : Submission} {c : Completion WebEnv}
  {i : ℕ} {env : WebEnv} {res : ℤ} {data : Bytes}

/-- What the end of a file read does to the server: the response goes to the end of the queue of the
slot, and no other slot is touched. -/
theorem customRead_file (hidx : sub.req.clientIdx = some i) (hfd : sub.req.customInfo ≠ m.app.inotifyFd)
    (hhandled : m.customRead T (webApp N) env sub res data = some m') (hdone : m'.log ≠ m.log) :
    ∃ s entry, Alters i { m.tcp with finishedReads := s } m'.tcp ∧
      (m'.tcp.clients i).queue = (m.tcp.clients i).queue ++ [entry] := by
  simp only [customRead] at hhandled
  split at hhandled
  · cases hhandled
  · split at hhandled
    · obtain ⟨a, cs, hcb, hcalls, -, -⟩ := callback_eq_some hhandled
      obtain ⟨-, j, p, hj, -, -, -, hcs⟩ := (WebServer.customReadCb_cases hcb).resolve_left
        fun hinotify => hfd hinotify.1
      obtain rfl : i = j := by simpa [hidx] using hj
      simp only at hcs
      rcases hcs with ⟨ptr, size, rfl, -⟩ | rfl
      · obtain ⟨-, hm'⟩ : _ ∧ _ = m'.tcp := by
          simpa [calls, call, TcpServer.run, TcpCall.slots] using hcalls
        rw [← hm']
        exact ⟨_, _, alters_enqueue T _ _, enqueue_queue T _ _⟩
      · obtain ⟨-, hm'⟩ : _ ∧ _ = m'.tcp := by
          simpa [calls, call, TcpServer.run, TcpCall.slots] using hcalls
        rw [← hm']
        exact ⟨_, _, alters_writeConnection T _, enqueue_queue T _ _⟩
    · obtain rfl := Option.some.inj hhandled
      exact absurd rfl hdone

end Machine

/-- **Responses to closed connections.** When a file read finishes, its response is queued on the
connection that has asked for the file, and on no other, exactly if this connection still occupies its
slot: if it was closed, the response is written on the slot all the same. -/
theorem file_response_on_requester_iff (T : ServerType) (m m' : Machine (WebServer N))
    (c : Completion WebEnv) (log : List Callback) (sub : Submission) (i : ℕ)
    (hsub : m.tcp.inflight[c.index]? = some sub) (hevent : sub.req.event = .customRead)
    (hidx : sub.req.clientIdx = some i) (hfd : sub.req.customInfo ≠ m.app.inotifyFd)
    (hstep : Machine.step T (webApp N) m c = some (m', log)) (hdone : log ≠ []) :
    (∀ j, j ≠ i → Unwritten m.tcp m'.tcp j) ∧
        (¬StillOccupied m.tcp sub i → Unwritten m.tcp m'.tcp i) ↔
      StillOccupied m.tcp sub i := by
  obtain ⟨sub', hsub', hhandled, rfl⟩ := Machine.step_eq_some hstep
  obtain rfl : sub = sub' := by simpa [hsub] using hsub'
  simp only [Machine.dispatch, hevent] at hhandled
  obtain ⟨s, entry, halters, hqueue⟩ := Machine.customRead_file (m := m.take c) hidx hfd hhandled
    (by simpa using hdone)
  have hwrites : ∀ j, (m.take c).tcp.writes j = m.tcp.writes j := fun j =>
    InFlight.filter_eraseIdx_of_not hsub (by simp [Submission.IsWrite, hevent])
  refine ⟨fun hunwritten => ?_, fun hstill => ⟨fun j hj => ?_, fun hgone => absurd hstill hgone⟩⟩
  · -- the queue of the slot has grown
    by_contra hclosed
    have hsame := (hunwritten.2 hclosed).1
    rw [hqueue] at hsame
    simpa using congrArg List.length hsame
  · obtain ⟨hclient, hother⟩ := halters.unwritten hj
    exact ⟨hclient, hother.trans (hwrites j)⟩

/-- A client connects and asks for a file, which the server begins to read. -/
def fileEvents : List (Completion WebEnv) :=
  [{ index := 4, res := 10, env := {} },
    { index := 5, res := 17, data := ascii "GET /a HTTP/1.0\r\n", env := { files := fun _ => (20, 3) } }]

theorem file_response_on_requester_connected :
    ∃ m logs sub m' log, Runs.exec (Machine.step .nonTls (webApp 2)) (webStart 2 7) fileEvents =
        some (m, logs) ∧ m.tcp.inflight[5]? = some sub ∧
      Machine.step .nonTls (webApp 2) m { index := 5, res := 3, data := [1, 2, 3], env := {} } =
        some (m', log) ∧ StillOccupied m.tcp sub 0 ∧ ∀ j, j ≠ 0 → Unwritten m.tcp m'.tcp j := by
  have hsome : (Runs.exec (Machine.step .nonTls (webApp 2)) (webStart 2 7) fileEvents).any (fun r =>
      r.1.tcp.inflight[5]?.any (fun sub => sub.req.event = .customRead ∧ sub.req.clientIdx = some 0 ∧
        sub.req.customInfo ≠ r.1.app.inotifyFd ∧ sub.occupant = r.1.tcp.occupants 0) ∧
      0 ∉ r.1.tcp.freedIndexes ∧ (Machine.step .nonTls (webApp 2) r.1
        { index := 5, res := 3, data := [1, 2, 3], env := {} }).any fun r => r.2.length = 1) = true := by
    decide +kernel
  simp only [Option.any_eq_true, decide_eq_true_eq] at hsome
  obtain ⟨⟨m, logs⟩, hrun, ⟨sub, hsub, hevent, hidx, hinfo, hoccupant⟩, hfreed, ⟨m', log⟩, hstep, hlog⟩ := hsome
  have hstill : StillOccupied m.tcp sub 0 := ⟨hoccupant, hfreed⟩
  have hdone : log ≠ [] := by
    rintro rfl
    simp at hlog
  refine ⟨m, logs, sub, m', log, hrun, hsub, hstep, hstill, ?_⟩
  exact ((file_response_on_requester_iff .nonTls m m' _ log sub 0 hsub hevent hidx hinfo hstep
    hdone).mpr hstill).1

/-- The client closes while its file is read, and the sweep closes its connection. When the read
finishes, the response is written on the free slot. -/
theorem file_response_on_closed :
    ∃ m logs sub m' log, Runs.exec (Machine.step .nonTls (webApp 2)) (webStart 2 7)
        (fileEvents ++ [{ index := 2, res := 8, halfClosed := [0], env := {} }]) = some (m, logs) ∧
      m.tcp.inflight[4]? = some sub ∧ sub.req.event = .customRead ∧ sub.req.clientIdx = some 0 ∧
      0 ∈ m.tcp.freedIndexes ∧
      Machine.step .nonTls (webApp 2) m { index := 4, res := 3, data := [1, 2, 3], env := {} } =
        some (m', log) ∧
      (m.tcp.writes 0).length = 0 ∧ (m'.tcp.writes 0).length = 1 := by
  have hsome : (Runs.exec (Machine.step .nonTls (webApp 2)) (webStart 2 7)
      (fileEvents ++ [{ index := 2, res := 8, halfClosed := [0], env := {} }])).map
      (fun r => (r.1.tcp.inflight[4]?.map fun sub => (sub.req.event, sub.req.clientIdx),
        decide (0 ∈ r.1.tcp.freedIndexes), (Machine.step .nonTls (webApp 2) r.1
          { index := 4, res := 3, data := [1, 2, 3], env := {} }).map fun r => (r.1.tcp.writes 0).length,
        (r.1.tcp.writes 0).length)) =
      some (some (.customRead, some 0), true, some 1, 0) := by decide +kernel
  obtain ⟨⟨m, logs⟩, hrun, hm⟩ := Option.map_eq_some_iff.mp hsome
  simp only [Prod.mk.injEq, Option.map_eq_some_iff, decide_eq_true_eq] at hm
  obtain ⟨⟨sub, hsub, hevent, hidx⟩, hfreed, ⟨⟨m', log⟩, hstep, hwrites'⟩, hwrites⟩ := hm
  exact ⟨m, logs, sub, m', log, hrun, hsub, hevent, hidx, hfreed, hstep, hwrites, hwrites'⟩

end LiburingServer
