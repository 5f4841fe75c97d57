import LiburingServer.CentralOrder

/-! The life of a broadcast item: how a server thread counts the queue entries it has made for it, how
the store counts the server threads that it is out with, and who still points to its buffer when it is
recycled. -/

namespace LiburingServer

open UseCount TcpServer

variable {N n : ℕ}

/-! ### The counter of a server thread -/

/-- **The uses of a broadcast item.** In every run of the central thread and its server threads, plain or
TLS, in which no broadcast entry is lost, in every state that is reached and for every item `k` that
server thread `v` has received and not reported: `uses` in its `broadcast_data` is the number of the
broadcast entries for `k` in the queues of its clients, and is not zero. An item that it has not received,
or has reported as often as it has received it, has no entry; and it is never reported more often than it
was received, nor received again before it was reported. -/
theorem broadcast_uses_counted (T : ServerType) (inotifyFd : Fin n → ℤ) (es : List (SystemEvent n))
    (hes : Runs.Along (System.step T) (System.KeepsBroadcasts T) (System.start N n inotifyFd) es)
    (s : System N n) (outs : List (SystemOut n))
    (hrun : Runs.exec (System.step T) (System.start N n inotifyFd) es = some (s, outs)) (v : Fin n) (k : ℕ) :
    let w := (s.workers v).machine
    (w.app.finished.count k < w.app.received.count k →
      ∃ item, w.app.broadcastData[k]? = some item ∧ item.uses = w.tcp.broadcasts k ∧ 0 < item.uses) ∧
    (w.app.finished.count k = w.app.received.count k → w.tcp.broadcasts k = 0) ∧
    w.app.finished.count k ≤ w.app.received.count k ∧ w.app.received.count k ≤ w.app.finished.count k + 1 := by
  intro w
  obtain ⟨h, -⟩ := System.systemInv_exec True False
    (hes.imp fun s e hkeeps => ⟨fun _ => hkeeps, False.elim⟩) hrun
  have hledger := (h.worker v).broadcasts.ledger
  have hbalanced := hledger.balanced k
  have hordered : w.app.finished.count k ≤ w.app.received.count k := hbalanced.ordered
  refine ⟨fun hlt => ?_, fun heq => hbalanced.idle heq.symm, hordered, ?_⟩
  · have hcounted : usesOf w.app.broadcastData k = w.tcp.broadcasts k := hbalanced.counted trivial hlt
    have hpos : 0 < usesOf w.app.broadcastData k := hbalanced.working hlt
    have hlisted : k < w.app.broadcastData.length := by
      apply hledger.listed k
      show w.tcp.broadcasts k ≠ 0
      omega
    refine ⟨_, List.getElem?_eq_getElem hlisted, ?_⟩
    rw [← usesOf_eq (List.getElem?_eq_getElem hlisted)]
    exact ⟨hcounted, hpos⟩
  · have honce : w.app.toServerQueue.countP (fun msg => msg.itemIdx = k) +
        (w.app.received.count k - w.app.finished.count k) +
        w.app.toProgramQueue.countP (fun msg => msg.itemIdx = k) ≤ 1 := hbalanced.once
    omega

/-- A client of a TLS server thread upgrades its connection; the response is being written when a frame
is broadcast. -/
def tlsBroadcast : List (SystemEvent 1) :=
  [.setTcpServer 0, .handle 0 { index := 4, res := 10, wolf := [{ io := [.recv 5] }], env := {} },
    .handle 0 { index := 5, res := 10, wolf := [{ io := [.recv 10], ret := 1 }, { io := [.recv 5] }], env := {} },
    .handle 0
      { index := 5, res := 90, env := {}
        wolf := [{ io := [.recv 90], ret := upgradeRequest.length, data := upgradeRequest },
          { io := [.send 120 0] }] }] ++ broadcastEvents

theorem broadcast_uses_counted_tls :
    Runs.Along (System.step .tls) (System.KeepsBroadcasts .tls) (System.start 1 1 fun _ => 7) tlsBroadcast ∧
      ∃ s outs, Runs.exec (System.step .tls) (System.start 1 1 fun _ => 7) tlsBroadcast = some (s, outs) ∧
        ∃ item, (s.workers 0).machine.app.broadcastData[0]? = some item ∧
          item.uses = (s.workers 0).machine.tcp.broadcasts 0 ∧ 0 < item.uses := by
  have hes : Runs.Along (System.step .tls) (System.KeepsBroadcasts .tls) (System.start 1 1 fun _ => 7)
      tlsBroadcast := by decide +kernel
  have hsome : (Runs.exec (System.step .tls) (System.start 1 1 fun _ => 7) tlsBroadcast).any (fun r =>
      (r.1.workers 0).machine.app.finished.count 0 < (r.1.workers 0).machine.app.received.count 0) = true := by
    decide +kernel
  simp only [Option.any_eq_true, decide_eq_true_eq] at hsome
  obtain ⟨⟨s, outs⟩, hrun, hlt⟩ := hsome
  exact ⟨hes, s, outs, hrun, (broadcast_uses_counted .tls _ tlsBroadcast hes s outs hrun 0 0).1 hlt⟩

/-- The client then closes its websocket and sends something else, so that its connection is to be
closed, which the write in flight prevents; when that has completed, the connection is closed and the
broadcast entry behind it is dropped. The item is never reported: one use of it is left and no entry. -/
theorem broadcast_use_lost :
    ∃ s outs, Runs.exec (System.step .tls) (System.start 1 1 fun _ => 7) (tlsBroadcast ++
        [.handle 0
          { index := 5, res := 30, env := {}
            wolf := [{ io := [.recv 30], ret := 6, data := [0x88, 0x80, 0, 0, 0, 0] }] },
        .handle 0
          { index := 6, res := 30, env := {}
            wolf := [{ io := [.recv 30], ret := 6, data := [0x88, 0x80, 0, 0, 0, 0] }] },
        .handle 0 { index := 4, res := 120, wolf := [{ io := [.send 120 0], ret := 100 }], env := {} }]) =
          some (s, outs) ∧
      (s.workers 0).machine.app.finished.count 0 < (s.workers 0).machine.app.received.count 0 ∧
      ∃ item, (s.workers 0).machine.app.broadcastData[0]? = some item ∧ item.uses = 1 ∧
        (s.workers 0).machine.tcp.broadcasts 0 = 0 := by
  have hsome : (Runs.exec (System.step .tls) (System.start 1 1 fun _ => 7) (tlsBroadcast ++
        [.handle 0
          { index := 5, res := 30, env := {}
            wolf := [{ io := [.recv 30], ret := 6, data := [0x88, 0x80, 0, 0, 0, 0] }] },
        .handle 0
          { index := 6, res := 30, env := {}
            wolf := [{ io := [.recv 30], ret := 6, data := [0x88, 0x80, 0, 0, 0, 0] }] },
        .handle 0 { index := 4, res := 120, wolf := [{ io := [.send 120 0], ret := 100 }], env := {} }])).any
      (fun r =>
        decide ((r.1.workers 0).machine.app.finished.count 0 < (r.1.workers 0).machine.app.received.count 0) &&
        (r.1.workers 0).machine.app.broadcastData[0]?.any fun item =>
          item.uses = 1 ∧ (r.1.workers 0).machine.tcp.broadcasts 0 = 0) = true := by
    decide +kernel
  simp only [Option.any_eq_true, Bool.and_eq_true, decide_eq_true_eq] at hsome
  obtain ⟨⟨s, outs⟩, hrun, hlt, item, hitem, huses, hnone⟩ := hsome
  exact ⟨s, outs, hrun, hlt, item, hitem, huses, hnone⟩

/-! ### The counter of the store -/

/-- The server thread has still to report item `k`: a message for it is in its queue, it is using it, or
its report is not yet collected. -/
def Worker.Owes (w : Worker N) (k : ℕ) : Prop :=
  (∃ msg ∈ w.machine.app.toServerQueue, msg.itemIdx = k) ∨
    (w.machine.app.finished.count k < w.machine.app.received.count k ∧ 0 < usesOf w.machine.app.broadcastData k) ∨
    ∃ msg ∈ w.machine.app.toProgramQueue, msg.itemIdx = k

instance (w : Worker N) (k : ℕ) : Decidable (w.Owes k) :=
  inferInstanceAs (Decidable ((∃ msg ∈ w.machine.app.toServerQueue, msg.itemIdx = k) ∨
    (w.machine.app.finished.count k < w.machine.app.received.count k ∧ 0 < usesOf w.machine.app.broadcastData k) ∨
    ∃ msg ∈ w.machine.app.toProgramQueue, msg.itemIdx = k))

/-- An item is out with a server thread once if the server thread owes a report for it. -/
theorem Worker.Inv.owed_eq {exact : Prop} {valid : ℕ → Ptr → Prop} {T : ServerType} {w : Worker N}
    (h : w.Inv exact valid T) (k : ℕ) : (w.account k).owed = if w.Owes k then 1 else 0 := by
  have hbalanced := h.broadcasts.ledger.balanced k
  have honce : (w.account k).owed ≤ 1 := hbalanced.once
  have hin : 0 < (w.account k).inbox ↔ ∃ msg ∈ w.machine.app.toServerQueue, msg.itemIdx = k := by
    simp [account, Ledger.account, WebServer.ledger, List.countP_pos_iff]
  have hout : 0 < (w.account k).outbox ↔ ∃ msg ∈ w.machine.app.toProgramQueue, msg.itemIdx = k := by
    simp [account, Ledger.account, WebServer.ledger, List.countP_pos_iff]
  have hworking : (w.account k).finished < (w.account k).received ↔
      w.machine.app.finished.count k < w.machine.app.received.count k ∧
        0 < usesOf w.machine.app.broadcastData k :=
    ⟨fun hlt => ⟨hlt, hbalanced.working hlt⟩, fun hlt => hlt.1⟩
  have howes : w.Owes k ↔ (w.account k).owed ≠ 0 := by
    unfold Owes
    rw [← hin, ← hout, ← hworking]
    unfold Account.owed
    omega
  split
  · have := howes.mp ‹_›
    omega
  · by_contra hne
    exact ‹¬w.Owes k› (howes.mpr hne)

/-- A server thread without clients gets a frame. -/
def idleBroadcast : List (SystemEvent 1) := .setTcpServer 0 :: broadcastEvents

namespace System

/-- The writes of a plain server thread stay with their queues. -/
def KeepsWrites (T : ServerType) (s : System N n) : SystemEvent n → Prop
  | .handle w c => T = .nonTls → (s.workers w).machine.KeepsWrites c
  | _ => True

instance (T : ServerType) (s : System N n) : DecidablePred (s.KeepsWrites T)
  | .setTcpServer _ => isTrue trivial
  | .timer _ => isTrue trivial
  | .post => isTrue trivial
  | .notify => isTrue trivial
  | .notification _ => isTrue trivial
  | .handle w c => inferInstanceAs (Decidable (T = .nonTls → (s.workers w).machine.KeepsWrites c))
  | .communication _ => isTrue trivial
  | .collect _ => isTrue trivial

/-- Only the handling of a completion changes the TCP server of a server thread. -/
theorem tcp_step {T : ServerType} {s s' : System N n} {e : SystemEvent n} {out : SystemOut n}
    {P : TcpServer → Prop} (h : ∀ v, P (s.workers v).machine.tcp) (hstep : s.step T e = some (s', out))
    (hhandle : ∀ w c m log, e = .handle w c → (s.workers w).machine.step T (webApp N) c = some (m, log) →
      P m.tcp) : ∀ v, P (s'.workers v).machine.tcp := by
  exact machine_step (P := fun m => P m.tcp) h hstep (fun _ _ _ _ hm => hm) hhandle

end System

/-- **Recycled items.** In every run in which the writes of plain server threads stay with their queues:
when the central thread collects a report and recycles an item, no queue of any client of any server
thread has an entry with the buffer of the item, and no write request that reads from it is in flight. -/
theorem recycled_unused (T : ServerType) (inotifyFd : Fin n → ℤ) (es : List (SystemEvent n))
    (hes : Runs.Along (System.step T) (System.KeepsWrites T) (System.start N n inotifyFd) es)
    (s : System N n) (outs : List (SystemOut n))
    (hrun : Runs.exec (System.step T) (System.start N n inotifyFd) es = some (s, outs)) (w : Fin n)
    (s' : System N n) (serial : ℕ) (hcollect : s.step T (.collect w) = some (s', .recycled serial)) (v : Fin n) :
    (∀ i < (s'.workers v).machine.tcp.numClients, ∀ e ∈ ((s'.workers v).machine.tcp.clients i).sendData,
      e.ptrBuff ≠ .item serial) ∧
    ∀ sub ∈ (s'.workers v).machine.tcp.inflight, sub.addr ≠ .item serial := by
  obtain ⟨h, hlags⟩ := System.systemInv_exec False False
    (Runs.along_of_forall fun s e => ⟨False.elim, False.elim⟩) hrun
  have hwrites : T = .nonTls → ∀ v, WriteInv (s.workers v).machine.tcp := by
    rintro rfl
    refine Runs.exec_invariant (Q := fun s : System N n => ∀ v, WriteInv (s.workers v).machine.tcp) ?_
      (fun v => Machine.writeInv_start _ _) hes hrun
    intro s e s' out hs hkeeps hstep
    refine System.tcp_step hs hstep fun w c m log he hm => ?_
    subst he
    exact Machine.writeInv_step (hs w) (hkeeps rfl) hm
  simp only [System.step] at hcollect
  split at hcollect
  · rename_i hcond
    obtain ⟨⟨d, recycled⟩, hfreed, heq⟩ := Option.map_eq_some_iff.mp hcollect
    obtain ⟨rfl, hserial⟩ := Prod.mk.inj (Option.some.inj (congrArg some heq))
    obtain ⟨msg, rest, hqueue⟩ := List.exists_cons_of_ne_nil (hlags.toProgramQueue hcond.2)
    have hmsg : (s.workers w).getFromToProgramQueue.2 = msg := by simp [Worker.getFromToProgramQueue, hqueue]
    rw [hmsg] at hfreed
    have hrecycled : recycled = some serial := by
      cases recycled with
      | none => cases hserial
      | some z => exact congrArg some (SystemOut.recycled.inj hserial)
    obtain ⟨hinv, hzero⟩ := System.systemInv_collect h (by simpa using hcond.1) hqueue hfreed
    obtain ⟨k, item, hitem, hitemSerial, hnone⟩ := hzero serial hrecycled
    have htcp : ∀ v, ((s.setWorker w (s.workers w).getFromToProgramQueue.1).workers v).machine.tcp =
        (s.workers v).machine.tcp := by
      intro v
      by_cases hv : v = w
      · rw [hv, System.setWorker_self]
        rfl
      · rw [System.setWorker_of_ne hv]
    have hentries : ∀ i < (s.workers v).machine.tcp.numClients,
        ∀ e ∈ ((s.workers v).machine.tcp.clients i).sendData, e.ptrBuff ≠ .item serial := by
      intro i hi e he hptr
      have hmem : e.unwritten ∈ ((s.workers v).machine.tcp.clients i).queue := List.mem_map_of_mem he
      obtain ⟨hnamed, hown⟩ := (h.worker v).broadcasts.queues.entry i hi _ hmem
      cases hbroadcast : e.broadcast with
      | false => exact hown hbroadcast serial hptr
      | true =>
          obtain ⟨k', hinfo, item', hitem', hptr'⟩ := hnamed hbroadcast
          have hsame : item.serial = item'.serial := hitemSerial.trans (Ptr.item.inj (hptr.symm.trans hptr'))
          obtain rfl : k = k' := h.store.distinct k k' item item' hitem hitem' hsame
          refine (hinv.worker v).owed_of_entry (i := i) ?_ (e := e.unwritten) ?_ hbroadcast hinfo (hnone v)
          · exact htcp v ▸ hi
          · exact (htcp v).symm ▸ hmem
    rw [htcp v]
    refine ⟨hentries, fun sub hsub haddr => ?_⟩
    -- a write request in flight writes the front entry of a queue
    obtain ⟨hT, i, hwrite⟩ := (h.worker v).broadcasts.queues.placed sub hsub serial haddr
    have hmem : sub ∈ (s.workers v).machine.tcp.writes i := List.mem_filter.mpr ⟨hsub, by simpa using hwrite⟩
    rcases (hwrites hT v).slot i with ⟨hidle, -⟩ | ⟨hi, sub', front, rest, hone, -, hqueue', -, hfront, -⟩
    · rw [hidle] at hmem
      exact absurd hmem List.not_mem_nil
    · obtain rfl : sub = sub' := by simpa [hone] using hmem
      apply hentries i hi front (by simp [hqueue'])
      have hptr : front.ptr = .item serial := hfront.symm.trans haddr
      unfold WriteData.ptr at hptr
      split at hptr
      · exact hptr
      · split at hptr <;> cases hptr
  · cases hcollect

/-- A client of a plain server thread upgrades its connection, and a frame is broadcast to it. -/
def plainBroadcast : List (SystemEvent 1) :=
  [.setTcpServer 0, .handle 0 { index := 4, res := 10, env := {} },
    .handle 0 { index := 5, res := upgradeRequest.length, data := upgradeRequest, env := {} },
    .handle 0 { index := 5, res := 1000, env := {} }] ++ broadcastEvents

/-- The frame is written, and the server thread reports it. -/
theorem recycled_unused_written :
    Runs.Along (System.step .nonTls) (System.KeepsWrites .nonTls) (System.start 1 1 fun _ => 7)
        (plainBroadcast ++ [.handle 0 { index := 6, res := 1000, env := {} }, .communication 0]) ∧
      ∃ s outs s', Runs.exec (System.step .nonTls) (System.start 1 1 fun _ => 7)
          (plainBroadcast ++ [.handle 0 { index := 6, res := 1000, env := {} }, .communication 0]) =
            some (s, outs) ∧
        s.step .nonTls (.collect 0) = some (s', .recycled 0) ∧
        ∀ sub ∈ (s'.workers 0).machine.tcp.inflight, sub.addr ≠ .item 0 := by
  have hes : Runs.Along (System.step .nonTls) (System.KeepsWrites .nonTls) (System.start 1 1 fun _ => 7)
      (plainBroadcast ++ [.handle 0 { index := 6, res := 1000, env := {} }, .communication 0]) := by
    decide +kernel
  have hsome : (Runs.exec (System.step .nonTls) (System.start 1 1 fun _ => 7)
      (plainBroadcast ++ [.handle 0 { index := 6, res := 1000, env := {} }, .communication 0])).any (fun r =>
        (r.1.step .nonTls (.collect 0)).any fun r => match r.2 with
          | .recycled z => z = 0
          | _ => false) = true := by
    decide +kernel
  simp only [Option.any_eq_true] at hsome
  obtain ⟨⟨s, outs⟩, hrun, ⟨s', out⟩, hcollect, hout⟩ := hsome
  cases out with
  | recycled z =>
      obtain rfl : z = 0 := of_decide_eq_true hout
      exact ⟨hes, s, outs, s', hrun, hcollect, (recycled_unused .nonTls _ _ hes s outs hrun 0 s' 0 hcollect 0).2⟩
  | none => cases hout
  | posted w msg => cases hout
  | handled w appended => cases hout

/-- The client half-closes while the frame is being written, and the sweep finds it: the queue entry is
counted down and the item reported, and the central thread recycles it with its write still in flight. -/
theorem recycled_in_flight :
    ∃ s outs s', Runs.exec (System.step .nonTls) (System.start 1 1 fun _ => 7)
        (plainBroadcast ++
          [.handle 0 { index := 1, res := 8, halfClosed := [0], env := {} }, .communication 0]) = some (s, outs) ∧
      s.step .nonTls (.collect 0) = some (s', .recycled 0) ∧
      ∃ sub ∈ (s'.workers 0).machine.tcp.inflight, sub.req.event = .write ∧ sub.addr = .item 0 := by
  have hsome : (Runs.exec (System.step .nonTls) (System.start 1 1 fun _ => 7)
      (plainBroadcast ++
        [.handle 0 { index := 1, res := 8, halfClosed := [0], env := {} }, .communication 0])).any (fun r =>
        (r.1.step .nonTls (.collect 0)).any fun r => (match r.2 with
          | .recycled z => decide (z = 0)
          | _ => false) && (r.1.workers 0).machine.tcp.inflight.any fun sub =>
            sub.req.event = .write ∧ sub.addr = .item 0) = true := by
    decide +kernel
  simp only [Option.any_eq_true, Bool.and_eq_true, List.any_eq_true, decide_eq_true_eq] at hsome
  obtain ⟨⟨s, outs⟩, hrun, ⟨s', out⟩, hcollect, hout, sub, hsub, hwrite⟩ := hsome
  cases out with
  | recycled z =>
      obtain rfl : z = 0 := of_decide_eq_true hout
      exact ⟨s, outs, s', hrun, hcollect, sub, hsub, hwrite⟩
  | none => cases hout
  | posted w msg => cases hout
  | handled w appended => cases hout

end LiburingServer
