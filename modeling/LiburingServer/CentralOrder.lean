import LiburingServer.CentralBroadcasts

/-! The order of broadcasts. The messages that the central thread posts to a server thread are taken in
their order, and each of them is queued for the clients that are active websockets then. So while a client
is an active websocket it gets consecutive messages, none left out, none twice. -/

namespace LiburingServer

open TcpServer

variable {N n : ℕ}

/-- The queue entry that the broadcast of a message makes. -/
def MessagePostData.entry (msg : MessagePostData) : WriteData where
  ptrBuff := msg.buffPtr
  totalLength := msg.length
  broadcast := true
  customInfo := msg.itemIdx

/-- The messages that were enqueued for server thread `w`. -/
def postedTo (w : Fin n) (outs : List (SystemOut n)) : List MessagePostData :=
  outs.filterMap fun
    | .posted v msg => if v = w then some msg else none
    | _ => none

/-- The broadcast entries that were added to the queue of client `i` of server thread `w`. -/
def appendedTo (w : Fin n) (i : ℕ) (outs : List (SystemOut n)) : List WriteData :=
  outs.flatMap fun
    | .handled v appended => if v = w then appended i else []
    | _ => []

namespace Worker

variable {T : ServerType} {valid : ℕ → Ptr → Prop} {w w' : Worker N} {c : Completion WebEnv}

/-- A notification takes the first message and queues it for each active websocket. -/
theorem notification_entries {m : Machine (WebServer N)} {log : List Callback} {msg : MessagePostData}
    {rest : List MessagePostData} (hqueue : w.machine.app.toServerQueue = msg :: rest)
    (hnotification : w.IsNotification c) (hstep : w.machine.step T (webApp N) c = some (m, log)) (i : ℕ) :
    m.tcp.broadcastEntries i = w.machine.tcp.broadcastEntries i ++
      if i ∈ w.machine.app.activeWebsocketConnectionsClientIdxs then [msg.entry] else [] := by
  obtain ⟨sub, hsub, hevent⟩ := hnotification
  obtain ⟨sub', hsub', hhandled, -⟩ := Machine.step_eq_some hstep
  obtain rfl : sub = sub' := by simpa [hsub] using hsub'
  simp only [Machine.dispatch, hevent] at hhandled
  obtain ⟨a, cs, hresult, hcalls, -, -⟩ := Machine.callback_eq_some hhandled
  have hcs : (w.machine.app.eventCb c.env).2 = cs := congrArg Prod.snd (Option.some.inj hresult)
  by_cases hsome : w.machine.app.activeWebsocketConnectionsClientIdxs.Nonempty
  · obtain rfl : [.broadcastMessage (visitOrder w.machine.app.activeWebsocketConnectionsClientIdxs c.env.order)
        msg.buffPtr msg.length msg.itemIdx] = cs := by
      simpa [WebServer.eventCb, hqueue, hsome] using hcs
    obtain ⟨-, htcp⟩ := calls_singleton hcalls
    have hmem : i ∈ visitOrder w.machine.app.activeWebsocketConnectionsClientIdxs c.env.order ↔
        i ∈ w.machine.app.activeWebsocketConnectionsClientIdxs := mem_visitOrder
    simp only [broadcastEntries, htcp, TcpServer.run, broadcastMessage_queue (nodup_visitOrder _ _), hmem,
      List.filter_append]
    congr 1
    split <;> rfl
  · have hnone : i ∉ w.machine.app.activeWebsocketConnectionsClientIdxs := fun hi => hsome ⟨i, hi⟩
    obtain rfl : [] = cs := by simpa [WebServer.eventCb, hqueue, hsome] using hcs
    have htcp : (w.machine.tcp.takeCompleted c.index c.wolf).addEventReq .notification = m.tcp := by
      simpa [calls] using hcalls
    rw [if_neg hnone, List.append_nil, ← htcp]
    rfl

/-- Handling a completion takes the first message and queues it for each active websocket, or takes none
and queues none. -/
theorem handle_entries (h : w.Inv False valid T)
    (hqueue : w.IsNotification c → w.machine.app.toServerQueue ≠ []) (hhandle : w.handle T c = some w') :
    (∃ msg, w.machine.app.toServerQueue = msg :: w'.machine.app.toServerQueue ∧
      ∀ i, w'.machine.tcp.broadcastEntries i = w.machine.tcp.broadcastEntries i ++
        if i ∈ w.machine.app.activeWebsocketConnectionsClientIdxs then [msg.entry] else []) ∨
    w.machine.app.toServerQueue = w'.machine.app.toServerQueue ∧
      ∀ i, w'.machine.tcp.broadcastEntries i <:+ w.machine.tcp.broadcastEntries i := by
  have hhandled := (h.handle False.elim hqueue hhandle).2.queue
  obtain ⟨-, -, m, log, hstep, rfl⟩ := handle_eq_some hhandle
  by_cases hnotification : w.IsNotification c
  · obtain ⟨msg, rest, hcons⟩ := List.exists_cons_of_ne_nil (hqueue hnotification)
    rw [if_pos hnotification, hcons, List.tail_cons] at hhandled
    exact Or.inl ⟨msg, by rw [hcons, hhandled], notification_entries hcons hnotification hstep⟩
  · rw [if_neg hnotification] at hhandled
    obtain ⟨slots, hslots⟩ := h.slots
    have hother : ∀ sub, w.machine.tcp.inflight[c.index]? = some sub → sub.req.event ≠ .notification :=
      fun sub hsub hevent => hnotification ⟨sub, hsub, hevent⟩
    have hstep' := Machine.broadcastInv_step h.broadcasts hslots False.elim hother hstep
    exact Or.inr ⟨hhandled.symm, hstep'.queues.older⟩

/-- What handling a completion adds to the broadcast entries of a client stands behind those that are
left. -/
theorem appendedSince_spec (h : w.Inv False valid T)
    (hqueue : w.IsNotification c → w.machine.app.toServerQueue ≠ []) (hhandle : w.handle T c = some w') (i : ℕ) :
    ∃ kept, kept <:+ w.machine.tcp.broadcastEntries i ∧
      w'.machine.tcp.broadcastEntries i = kept ++ w.appendedSince w' i := by
  rcases handle_entries h hqueue hhandle with ⟨msg, -, hentries⟩ | ⟨-, hless⟩
  · refine ⟨_, List.suffix_rfl, ?_⟩
    rw [appendedSince, hentries, List.drop_left]
  · refine ⟨_, hless i, ?_⟩
    rw [appendedSince, List.drop_of_length_le (hless i).length_le, List.append_nil]

/-- The messages that handling a completion takes are those that it queues for an active websocket. -/
theorem appendedSince_eq (h : w.Inv False valid T)
    (hqueue : w.IsNotification c → w.machine.app.toServerQueue ≠ []) (hhandle : w.handle T c = some w') :
    ∃ taken, w.machine.app.toServerQueue = taken ++ w'.machine.app.toServerQueue ∧
      ∀ i ∈ w.machine.app.activeWebsocketConnectionsClientIdxs,
        w.appendedSince w' i = taken.map MessagePostData.entry := by
  rcases handle_entries h hqueue hhandle with ⟨msg, hcons, hentries⟩ | ⟨hsame, hless⟩
  · refine ⟨[msg], hcons, fun i hi => ?_⟩
    rw [appendedSince, hentries, if_pos hi, List.drop_left]
    rfl
  · refine ⟨[], hsame, fun i _ => ?_⟩
    rw [appendedSince, List.drop_of_length_le (hless i).length_le]
    rfl

end Worker

namespace System

variable {T : ServerType} {s s' : System N n} {w : Fin n} {i : ℕ}

/-- Client `i` of server thread `w` is an active websocket. -/
def ActiveWebsocket (w : Fin n) (i : ℕ) (s : System N n) : Prop :=
  i ∈ (s.workers w).machine.app.activeWebsocketConnectionsClientIdxs

instance : Decidable (s.ActiveWebsocket w i) :=
  inferInstanceAs (Decidable (i ∈ (s.workers w).machine.app.activeWebsocketConnectionsClientIdxs))

/-- The messages that a step takes, and what it does to the queue of an active websocket. -/
structure Delivers (w : Fin n) (i : ℕ) (s s' : System N n) (outs : List (SystemOut n))
    (taken : List MessagePostData) : Prop where
  queue : (s.workers w).machine.app.toServerQueue ++ postedTo w outs =
    taken ++ (s'.workers w).machine.app.toServerQueue
  appended : s.ActiveWebsocket w i → appendedTo w i outs = taken.map MessagePostData.entry

theorem delivers_step {e : SystemEvent n} {out : SystemOut n} (h : SystemInv False False T s) (hlags : s.Lags)
    (hstep : s.step T e = some (s', out)) : ∃ taken, Delivers w i s s' [out] taken := by
  -- a step that neither posts to the server thread nor takes a message of it
  have hidle : ∀ (s' : System N n) (out : SystemOut n), postedTo w [out] = [] → appendedTo w i [out] = [] →
      (s'.workers w).machine.app.toServerQueue = (s.workers w).machine.app.toServerQueue →
      ∃ taken, Delivers w i s s' [out] taken := by
    intro s' out hposted happended hsame
    refine ⟨[], ?_, fun _ => happended⟩
    rw [hposted, hsame]
    exact List.append_nil _
  have hset : ∀ (v : Fin n) (worker : Worker N), (v = w →
      worker.machine.app.toServerQueue = (s.workers v).machine.app.toServerQueue) →
      ((s.setWorker v worker).workers w).machine.app.toServerQueue =
        (s.workers w).machine.app.toServerQueue := by
    intro v worker hworker
    by_cases hv : v = w
    · subst hv
      rw [setWorker_self, hworker rfl]
    · rw [setWorker_of_ne (Ne.symm hv)]
  refine step_rule hstep (R := fun s' out => ∃ taken, Delivers w i s s' [out] taken) (fun v => ?_)
    (fun _ _ => hidle _ _ rfl rfl rfl) (fun msg v remaining _ _ => ?_) (fun _ _ _ _ _ _ => hidle _ _ rfl rfl rfl)
    (fun _ _ => hidle _ _ rfl rfl rfl) (fun _ v _ _ => ?_) (fun v _ _ => ?_) (fun v c worker he hhandle => ?_)
    (fun v _ _ => ?_) (fun v d recycled _ _ _ => ?_)
  · exact hidle _ _ rfl rfl (hset v _ fun _ => rfl)
  · by_cases hv : v = w
    · subst hv
      refine ⟨[], ?_, fun _ => rfl⟩
      have hposted : postedTo v [.posted v msg] = [msg] := by simp [postedTo]
      have hqueue : ((s.setWorker v ((s.workers v).enqueue msg)).workers v).machine.app.toServerQueue =
          (s.workers v).machine.app.toServerQueue ++ [msg] := by
        rw [setWorker_self]
        rfl
      rw [hposted]
      exact hqueue.symm
    · exact hidle _ _ (by simp [postedTo, hv]) rfl (hset v _ fun hw => absurd hw hv)
  · exact hidle _ _ rfl rfl (hset v _ fun _ => rfl)
  · exact hidle _ _ rfl rfl (hset v _ fun _ => rfl)
  · by_cases hv : v = w
    · subst hv
      obtain ⟨taken, hqueue, happended⟩ := Worker.appendedSince_eq (h.worker v)
        (fun hnotification => hlags.toServerQueue ((Worker.handle_eq_some hhandle).2.1 hnotification)) hhandle
      refine ⟨taken, ?_, fun hi => ?_⟩
      · rw [setWorker_self]
        exact (List.append_nil _).trans hqueue
      · simpa [appendedTo] using happended i hi
    · exact hidle _ _ rfl (by simp [appendedTo, hv]) (hset v _ fun hw => absurd hw hv)
  · exact hidle _ _ rfl rfl (hset v _ fun _ => rfl)
  · refine hidle _ _ ?_ ?_ (hset v _ fun _ => rfl)
    · cases recycled <;> rfl
    · cases recycled <;> rfl

/-- What the steps of a run take, the run takes. -/
theorem delivers_exec {es : List (SystemEvent n)} {outs : List (SystemOut n)}
    (h : SystemInv False False T s ∧ s.Lags) (hrun : Runs.exec (step T) s es = some (s', outs)) :
    ∃ taken, (s.workers w).machine.app.toServerQueue ++ postedTo w outs =
        taken ++ (s'.workers w).machine.app.toServerQueue ∧
      (Runs.Along (step T) (fun s _ => s.ActiveWebsocket w i) s es →
        appendedTo w i outs = taken.map MessagePostData.entry) := by
  induction es generalizing s outs with
  | nil =>
      obtain ⟨rfl, rfl⟩ : s = s' ∧ [] = outs := by simpa [Runs.exec] using hrun
      exact ⟨[], List.append_nil _, fun _ => rfl⟩
  | cons e es ih =>
      obtain ⟨s₁, out, outs₁, he, hrest, rfl⟩ := Runs.exec_cons hrun
      obtain ⟨taken, hqueue, happended⟩ := delivers_step (w := w) (i := i) h.1 h.2 he
      obtain ⟨taken', hqueue', happended'⟩ := ih (inv_step h ⟨False.elim, False.elim⟩ he) hrest
      refine ⟨taken ++ taken', ?_, fun hactive => ?_⟩
      · calc (s.workers w).machine.app.toServerQueue ++ postedTo w (out :: outs₁)
            = ((s.workers w).machine.app.toServerQueue ++ postedTo w [out]) ++ postedTo w outs₁ := by
              rw [← List.singleton_append, postedTo, List.filterMap_append, List.append_assoc]
              rfl
          _ = taken ++ ((s₁.workers w).machine.app.toServerQueue ++ postedTo w outs₁) := by
              rw [hqueue, List.append_assoc]
          _ = taken ++ taken' ++ (s'.workers w).machine.app.toServerQueue := by
              rw [hqueue', List.append_assoc]
      · have hfirst : appendedTo w i (out :: outs₁) = appendedTo w i [out] ++ appendedTo w i outs₁ := by
          rw [← List.singleton_append, appendedTo, List.flatMap_append]
          rfl
        rw [hfirst, happended hactive.1, happended' (hactive.2 _ _ he), List.map_append]

end System

/-- **The order of broadcasts.** In every run of the central thread and its server threads, plain or TLS,
and every part of it during which client `i` of server thread `w` is an active websocket before each step:
the broadcast entries that are added to the queue of the client in that part are the entries of
consecutive messages among those that the central thread has enqueued for the server thread. -/
theorem broadcasts_contiguous (T : ServerType) (inotifyFd : Fin n → ℤ) (before period : List (SystemEvent n))
    (s s' : System N n) (outs outs' : List (SystemOut n))
    (hbefore : Runs.exec (System.step T) (System.start N n inotifyFd) before = some (s, outs))
    (hperiod : Runs.exec (System.step T) s period = some (s', outs')) (w : Fin n) (i : ℕ)
    (hactive : Runs.Along (System.step T) (fun s _ => s.ActiveWebsocket w i) s period) :
    ∃ messages, messages <:+: postedTo w (outs ++ outs') ∧
      appendedTo w i outs' = messages.map MessagePostData.entry := by
  have hstart : SystemInv False False T (System.start N n inotifyFd) ∧ (System.start N n inotifyFd).Lags :=
    ⟨System.systemInv_start inotifyFd, System.lags_start inotifyFd⟩
  have hinv : SystemInv False False T s ∧ s.Lags :=
    System.systemInv_exec False False (Runs.along_of_forall fun _ _ => ⟨False.elim, False.elim⟩) hbefore
  obtain ⟨skipped, hskipped, -⟩ := System.delivers_exec (w := w) (i := i) hstart hbefore
  obtain ⟨messages, hmessages, happended⟩ := System.delivers_exec (w := w) (i := i) hinv hperiod
  refine ⟨messages, ⟨skipped, (s'.workers w).machine.app.toServerQueue, ?_⟩, happended hactive⟩
  have hposted : postedTo w outs = skipped ++ (s.workers w).machine.app.toServerQueue := hskipped
  calc skipped ++ messages ++ (s'.workers w).machine.app.toServerQueue
      = skipped ++ ((s.workers w).machine.app.toServerQueue ++ postedTo w outs') := by
        rw [hmessages, List.append_assoc]
    _ = postedTo w (outs ++ outs') := by
        rw [← List.append_assoc, ← hposted, postedTo, postedTo, postedTo, List.filterMap_append]

/-- The timer broadcasts a frame to one server thread, which handles the notification; the read of its
notification eventfd is the request at 1. -/
def broadcastEvents : List (SystemEvent 1) :=
  [.timer 0, .post, .notify, .post, .notification 0, .handle 0 { index := 1, res := 8, env := {} }]

/-- A client upgrades its connection, and then two frames are broadcast. -/
theorem broadcasts_contiguous_upgraded :
    ∃ s outs s' outs',
      Runs.exec (System.step .nonTls) (System.start 1 1 fun _ => 7)
        [.setTcpServer 0, .handle 0 { index := 4, res := 10, env := {} },
          .handle 0 { index := 5, res := upgradeRequest.length, data := upgradeRequest, env := {} },
          .handle 0 { index := 5, res := 1000, env := {} }] = some (s, outs) ∧
      Runs.exec (System.step .nonTls) s
        (broadcastEvents ++ [.timer 1, .post, .notify, .post, .notification 0,
          .handle 0 { index := 5, res := 8, env := {} }]) = some (s', outs') ∧
      ∃ messages, messages <:+: postedTo 0 (outs ++ outs') ∧
        appendedTo 0 0 outs' = messages.map MessagePostData.entry ∧ messages.length = 2 := by
  have hbefore : (Runs.exec (System.step .nonTls) (System.start 1 1 fun _ => 7)
      [.setTcpServer 0, .handle 0 { index := 4, res := 10, env := {} },
        .handle 0 { index := 5, res := upgradeRequest.length, data := upgradeRequest, env := {} },
        .handle 0 { index := 5, res := 1000, env := {} }]).any (fun r =>
      decide (Runs.Along (System.step .nonTls) (fun s _ => s.ActiveWebsocket 0 0) r.1
        (broadcastEvents ++ [.timer 1, .post, .notify, .post, .notification 0,
          .handle 0 { index := 5, res := 8, env := {} }])) &&
      (Runs.exec (System.step .nonTls) r.1
        (broadcastEvents ++ [.timer 1, .post, .notify, .post, .notification 0,
          .handle 0 { index := 5, res := 8, env := {} }])).any fun r' =>
        (appendedTo 0 0 r'.2).length = 2) = true := by decide +kernel
  simp only [Option.any_eq_true, Bool.and_eq_true, decide_eq_true_eq] at hbefore
  obtain ⟨⟨s, outs⟩, hrun, hactive, ⟨s', outs'⟩, hperiod, hlength⟩ := hbefore
  obtain ⟨messages, hinfix, happended⟩ :=
    broadcasts_contiguous .nonTls _ _ _ s s' outs outs' hrun hperiod 0 0 hactive
  refine ⟨s, outs, s', outs', hrun, hperiod, messages, hinfix, happended, ?_⟩
  rw [happended, List.length_map] at hlength
  exact hlength

end LiburingServer
