import LiburingServer.TcpOccupants
import LiburingServer.Lib.InFlight

/-! The calls of wolfSSL that the TLS server makes while it handles a completion, each with the state in which it is
made. `tls_send` looks at the front of the queue of an active connection: there is one whenever something is to be
written, but not when wolfSSL sends on its own, as it does in a shutdown. -/

namespace LiburingServer

open TcpServer

inductive TlsOp where
  | accept
  | read
  | write
  | shutdown
  deriving DecidableEq

/-- A call of wolfSSL on the session of slot `i`, and the server when it is made. -/
structure TlsCall where
  op : TlsOp
  tcp : TcpServer
  i : ℕ

/-! ### The calls of a round

Each definition lists the calls that the operation of the same name makes, in their order. -/

namespace TcpServer

def enqueueSsl (s : TcpServer) (i : ℕ) (data : WriteData) : List TlsCall :=
  if ((s.pushEntry i data).clients i).sendData.length = 1 then [⟨.write, s.pushEntry i data, i⟩] else []

def broadcastSsl (s : TcpServer) (clientIdxs : List ℕ) (buff : Ptr) (length : ℕ) (customInfo : ℤ) : List TlsCall :=
  Runs.foldTrace (fun s i => some (broadcastOne .tls buff length customInfo s i))
    (fun s i => s.enqueueSsl i { ptrBuff := buff, totalLength := length, broadcast := true, customInfo }) s clientIdxs

def closeSsl (s : TcpServer) (i : ℕ) : List TlsCall :=
  if (s.clients i).numWriteReqs = 0 then [⟨.shutdown, s, i⟩] else []

def runSsl (s : TcpServer) : TcpCall → List TlsCall
  | .writeConnection i buff => { s with nextAddr := s.nextAddr + 1 }.enqueueSsl i { buff, addr := s.nextAddr }
  | .writeConnectionPtr i buff length => s.enqueueSsl i { ptrBuff := buff, totalLength := length }
  | .broadcastMessage clientIdxs buff length customInfo => s.broadcastSsl clientIdxs buff length customInfo
  | .closeConnection i => s.closeSsl i
  | .readConnection _ => []
  | .customReadReq _ _ _ _ _ _ => []

def callsSsl (s : TcpServer) (cs : List TcpCall) : List TlsCall := Runs.foldTrace (call .tls) runSsl s cs

end TcpServer

namespace Machine

variable {σ ε : Type*}

def callbackSsl (m : Machine σ) (result : Option (σ × List TcpCall)) : List TlsCall :=
  match result with
  | none => []
  | some (_, cs) => m.tcp.callsSsl cs

def drainSsl (m : Machine σ) (i : ℕ) : List TlsCall := (m.tcp.setQueue i []).closeSsl i

def idleSsl (m : Machine σ) (i : ℕ) : List TlsCall :=
  if (m.tcp.clients i).numWriteReqs = 0 then m.drainSsl i else []

def failedSsl (m : Machine σ) (i : ℕ) (event : EventType) : List TlsCall :=
  if event = .write ∨ event = .acceptWrite then (m.onTcp fun s => s.endWrite i).idleSsl i else m.idleSsl i

def sweepSsl (app : App σ ε) (m : Machine σ) (order halfClosed : List ℕ) : List TlsCall :=
  Runs.foldTrace (fun m i => if i ∈ halfClosed then m.drainAndClose .tls app i else some m)
    (fun m i => if i ∈ halfClosed then m.drainSsl i else []) m (visitOrder m.tcp.activeConnections order)

def customReadSsl (app : App σ ε) (env : ε) (m : Machine σ) (sub : Submission) (res : ℤ) (data : Bytes) :
    List TlsCall :=
  let req := sub.req
  let stored := data.take res.toNat
  let readData := req.readData.take req.readAmount ++ stored ++ req.readData.drop (req.readAmount + stored.length)
  if (readData.length : ℤ) = (res + req.readAmount) % 2 ^ 64 then
    (m.onTcp fun s => { s with finishedReads := s.finishedReads ++ [(sub.file, readData)] }).callbackSsl
      (app.customReadCb env m.app req.clientIdx req.customInfo readData)
  else []

def acceptReadSsl (app : App σ ε) (m : Machine σ) (sub : Submission) (i : ℕ) (c : Completion ε) : List TlsCall :=
  let s := tlsReceive m.tcp i sub c
  let r := s.wolfCall i
  ⟨.accept, s, i⟩ ::
    if r.2.ret = 1 then
      match (m.onTcp fun _ => r.1).acceptCb app i with
      | none => []
      | some m =>
          let s := { m.tcp with activeConnections := insert i m.tcp.activeConnections }
          let r := s.wolfCall i
          ⟨.read, s, i⟩ ::
            if -1 < r.2.ret then
              (m.onTcp fun _ => (r.1.modifyClient i fun client => { client with recvData := [] }).modifyClient i
                fun client => { client with readReqActive := false }).callbackSsl
                (app.readCb c.env m.app i (received (List.replicate readSize 0) r.2.data r.2.ret))
            else []
    else []

def acceptWriteSsl (m : Machine σ) (i : ℕ) (res : ℤ) : List TlsCall :=
  [⟨.accept, (m.tcp.endWrite i).modifyClient i fun client => { client with acceptLastWritten := res }, i⟩]

def writtenSsl (app : App σ ε) (env : ε) (m : Machine σ) (i : ℕ) : List TlsCall :=
  match (m.tcp.clients i).sendData with
  | [] => []
  | front :: rest =>
      let m := m.onTcp fun s => s.setQueue i rest
      m.callbackSsl (app.writeCb env m.app i front.broadcastInfo) ++
        match m.writeCb .tls app env i front.broadcastInfo with
        | none => []
        | some m => if (m.tcp.clients i).sendData = [] then [] else [⟨.write, m.tcp, i⟩]

def writeSsl (app : App σ ε) (env : ε) (m : Machine σ) (i : ℕ) (res : ℤ) : List TlsCall :=
  let s := m.tcp.endWrite i
  match (s.clients i).sendData with
  | [] => []
  | front :: rest =>
      let s := s.setQueue i ({ front with lastWritten := res } :: rest)
      let r := s.wolfCall i
      ⟨.write, s, i⟩ :: if -1 < r.2.ret then (m.onTcp fun _ => r.1).writtenSsl app env i else []

def readLoopSsl (i : ℕ) : ℕ → TcpServer → List TlsCall
  | 0, _ => []
  | fuel + 1, s =>
      if (s.clients i).recvData = [] then []
      else
        let r := s.wolfCall i
        ⟨.read, s, i⟩ :: if r.2.ret ≤ 0 then [] else readLoopSsl i fuel r.1

def readSsl (app : App σ ε) (m : Machine σ) (sub : Submission) (i : ℕ) (c : Completion ε) : List TlsCall :=
  let s := tlsReceive m.tcp i sub c
  let r := tlsReadLoop i (s.wolf.length + 1) s []
  readLoopSsl i (s.wolf.length + 1) s ++
    if r.2 = [] then [] else (m.onTcp fun _ => r.1).callbackSsl (app.readCb c.env m.app i r.2)

def handlerSsl (app : App σ ε) (m : Machine σ) (sub : Submission) (i : ℕ) (c : Completion ε) : List TlsCall :=
  match sub.req.event with
  | .acceptRead => m.acceptReadSsl app sub i c
  | .acceptWrite => m.acceptWriteSsl i c.res
  | .write => m.writeSsl app c.env i c.res
  | .read => m.readSsl app sub i c
  | _ => []

def clientEventSsl (app : App σ ε) (m : Machine σ) (sub : Submission) (i : ℕ) (c : Completion ε) : List TlsCall :=
  if c.res ≤ 0 ∨ 0 < i ∧ (m.tcp.clients i).id ≠ sub.req.ID then
    if c.res ≤ 0 ∧ (m.tcp.clients i).id = sub.req.ID then m.failedSsl i sub.req.event else []
  else m.handlerSsl app sub i c

def acceptSsl (m : Machine σ) (res : ℤ) : List TlsCall :=
  let r := m.tcp.setupClient res
  [⟨.accept, (r.1.addEventReq .accept).modifyClient r.2 fun client => { client with ssl := true }, r.2⟩]

def dispatchSsl (app : App σ ε) (m : Machine σ) (sub : Submission) (c : Completion ε) : List TlsCall :=
  match sub.req.event with
  | .kill => []
  | .notification => (m.onTcp fun s => s.addEventReq .notification).callbackSsl (app.eventCb c.env m.app)
  | .customRead => m.customReadSsl app c.env sub c.res c.data
  | .timerfd => m.sweepSsl app c.order c.halfClosed
  | .accept => m.acceptSsl c.res
  | .acceptRead | .acceptWrite | .read | .write =>
      match sub.req.clientIdx with
      | none => []
      | some i => m.clientEventSsl app sub i c

/-- The calls of wolfSSL in one round of the loop. -/
def sslCalls (app : App σ ε) (m : Machine σ) (c : Completion ε) : List TlsCall :=
  match m.tcp.inflight[c.index]? with
  | none => []
  | some sub => dispatchSsl app (m.take c) sub c

end Machine

/-! ### What the calls need -/

def WolfIo.isSend : WolfIo → Bool
  | .send _ _ => true
  | .recv _ => false

/-- Whether a call that makes the given callbacks submits a write request, when `last` is what `tls_send` finds
as what was written before. -/
def startsWrite : ℤ → List WolfIo → Bool
  | _, [] => false
  | last, .send _ _ :: ios => last = -1 || startsWrite (-1) ios
  | last, .recv _ :: ios => startsWrite last ios

/-- A write request of slot `i` for its occupant `k`. -/
def Submission.WritesFor (sub : Submission) (i k : ℕ) : Prop :=
  (sub.req.event = .write ∨ sub.req.event = .acceptWrite) ∧ sub.req.clientIdx = some i ∧ sub.occupant = k

instance (sub : Submission) (i k : ℕ) : Decidable (sub.WritesFor i k) := by
  unfold Submission.WritesFor
  infer_instance

namespace TcpServer

/-- The servers that the runs of `tls_send` find in the course of a call. -/
def sendStates (i : ℕ) : TcpServer → List WolfIo → List TcpServer
  | _, [] => []
  | s, .send size stale :: ios => s :: sendStates i (s.tlsSend i size stale) ios
  | s, .recv size :: ios => sendStates i (s.tlsRecv i size) ios

/-- The same for the next call of wolfSSL on the session of slot `i`. -/
def sends (s : TcpServer) (i : ℕ) : List TcpServer :=
  if (s.clients i).ssl then sendStates i { s with wolf := s.wolf.tail } (s.wolf.headD {}).io else []

/-- The write requests in flight for the present occupant of slot `i`. -/
def uncompleted (s : TcpServer) (i : ℕ) : List Submission :=
  s.inflight.filter fun sub => sub.WritesFor i (s.occupants i)

end TcpServer

namespace TlsCall

variable (call : TlsCall)

/-- Whenever `tls_send` runs for an active connection there is a front entry, and a slot that is freed after a
shutdown has no write request in flight. -/
def Defined : Prop :=
  (∀ s ∈ call.tcp.sends call.i, call.i ∈ s.activeConnections → (s.clients call.i).sendData ≠ []) ∧
    (call.op = .shutdown → (call.tcp.closeConnection .tls call.i).uncompleted call.i = [])

/-- What is assumed of wolfSSL: the shutdown of an established session sends once. -/
def Notifies : Prop :=
  call.op = .shutdown → call.i ∈ call.tcp.activeConnections → (call.tcp.clients call.i).ssl = true →
    (call.tcp.wolf.headD {}).io.countP WolfIo.isSend = 1

/-- A call other than a write sends nothing on an active connection whose queue is empty; a session that is shut
down is not established, unless the front entry waits for wolfSSL to be told what was written of it, and submits no
write. -/
def Quiet : Prop :=
  (call.tcp.clients call.i).ssl = true →
    match call.op with
    | .write => True
    | .accept | .read => call.i ∈ call.tcp.activeConnections → (call.tcp.clients call.i).sendData = [] →
        (call.tcp.wolf.headD {}).io.countP WolfIo.isSend = 0
    | .shutdown =>
        if call.i ∈ call.tcp.activeConnections then
          (call.tcp.clients call.i).sendData.head?.any (fun front => front.lastWritten ≠ -1) = true
        else startsWrite (call.tcp.clients call.i).acceptLastWritten (call.tcp.wolf.headD {}).io = false

instance : Decidable call.Defined := by
  unfold Defined
  infer_instance

instance : Decidable call.Notifies := by
  unfold Notifies
  infer_instance

instance : Decidable call.Quiet := by
  unfold Quiet
  cases call.op <;> infer_instance

/-- A write is made for a front entry, and a session is shut down only if no write request is counted. -/
structure Proper : Prop where
  write : call.op = .write → (call.tcp.clients call.i).sendData ≠ []
  shutdown : call.op = .shutdown → (call.tcp.clients call.i).numWriteReqs = 0

end TlsCall

/-! ### Counting -/

namespace TcpServer

variable {s s' s'' : TcpServer} {i j : ℕ} {calls calls' : List TlsCall}

/-- How far `num_write_reqs` is from the number of write requests in flight. -/
def surplus (s : TcpServer) (i : ℕ) : ℤ := (s.clients i).numWriteReqs - (s.uncompleted i).length

/-- `num_write_reqs` counts the write requests in flight. -/
def Counted (s : TcpServer) : Prop := ∀ i, s.surplus i = 0

/-- The step from `s` to `s'` makes the given calls, and the count of the write requests is as right as it was, when
they are made and in the end. -/
structure Traced (s : TcpServer) (calls : List TlsCall) (s' : TcpServer) : Prop where
  surplus : ∀ j, s'.surplus j = s.surplus j
  occupants : s'.occupants = s.occupants
  wolf : s'.wolf = s.wolf.drop calls.length
  call : ∀ call ∈ calls, (∀ j, call.tcp.surplus j = s.surplus j) ∧ call.Proper

theorem Traced.refl (s : TcpServer) : Traced s [] s := ⟨fun _ => rfl, rfl, rfl, by simp⟩

theorem Traced.trans (h : Traced s calls s') (h' : Traced s' calls' s'') : Traced s (calls ++ calls') s'' := by
  refine ⟨fun j => (h'.surplus j).trans (h.surplus j), h'.occupants.trans h.occupants, ?_, fun call hcall => ?_⟩
  · rw [h'.wolf, h.wolf, List.drop_drop, List.length_append]
  · rcases List.mem_append.mp hcall with hcall | hcall
    · exact h.call call hcall
    · obtain ⟨hsurplus, hproper⟩ := h'.call call hcall
      exact ⟨fun j => (hsurplus j).trans (h.surplus j), hproper⟩

/-- A step without calls before others. -/
theorem Traced.after (h : Traced s [] s') (h' : Traced s' calls s'') : Traced s calls s'' := by
  simpa using h.trans h'

/-- A step without calls after others. -/
theorem Traced.before (h : Traced s calls s') (h' : Traced s' [] s'') : Traced s calls s'' := by
  simpa using h.trans h'

theorem Traced.counted (h : Traced s calls s') (hs : s.Counted) :
    s'.Counted ∧ ∀ call ∈ calls, call.tcp.Counted ∧ call.Proper := by
  refine ⟨fun j => (h.surplus j).trans (hs j), fun call hcall => ?_⟩
  obtain ⟨hsurplus, hproper⟩ := h.call call hcall
  exact ⟨fun j => (hsurplus j).trans (hs j), hproper⟩

theorem surplus_modifyClient {f : Client → Client}
    (hnum : (f (s.clients i)).numWriteReqs = (s.clients i).numWriteReqs) :
    (s.modifyClient i f).surplus j = s.surplus j := by
  unfold surplus uncompleted
  by_cases hj : j = i
  · rw [hj, modifyClient_self, hnum]
    rfl
  · rw [modifyClient_of_ne _ _ _ _ hj]
    rfl

theorem traced_modifyClient {f : Client → Client}
    (hnum : (f (s.clients i)).numWriteReqs = (s.clients i).numWriteReqs) : Traced s [] (s.modifyClient i f) :=
  ⟨fun _ => surplus_modifyClient hnum, rfl, rfl, by simp⟩

theorem traced_setQueue (sendData : List WriteData) : Traced s [] (s.setQueue i sendData) := traced_modifyClient rfl

theorem submit_uncompleted (sub : Submission) : (s.submit sub).uncompleted j =
    s.uncompleted j ++ if sub.WritesFor j (s.occupants j) then [sub] else [] := by
  show List.filter _ (s.inflight ++ [sub]) = _
  rw [List.filter_append]
  by_cases h : sub.WritesFor j (s.occupants j)
  · rw [if_pos h]
    exact congrArg _ (List.filter_cons_of_pos (decide_eq_true h))
  · rw [if_neg h]
    exact congrArg _ (List.filter_cons_of_neg (decide_eq_false h ▸ Bool.false_ne_true))

theorem traced_submit {sub : Submission} (hsub : sub.req.event ≠ .write) (hsub' : sub.req.event ≠ .acceptWrite) :
    Traced s [] (s.submit sub) := by
  refine ⟨fun j => ?_, rfl, rfl, by simp⟩
  have hother : ¬sub.WritesFor j (s.occupants j) := fun h => h.1.elim hsub hsub'
  have hsame : (s.submit sub).uncompleted j = s.uncompleted j := by simp [submit_uncompleted, hother]
  unfold surplus
  rw [hsame]
  rfl

/-- A write request is submitted and counted. -/
theorem traced_addWriteReq {event : EventType} (hevent : event = .write ∨ event = .acceptWrite) (buffer : Ptr)
    (length : ℕ) : Traced s [] (s.addWriteReq i event buffer length) := by
  refine ⟨fun j => ?_, rfl, rfl, by simp⟩
  unfold addWriteReq
  set counted := s.modifyClient i fun client => { client with numWriteReqs := client.numWriteReqs + 1 } with hcounted
  have hwrites : (counted.submit (s.writeSubmission i event buffer length)).uncompleted j = s.uncompleted j ++
      if j = i then [s.writeSubmission i event buffer length] else [] := by
    rw [submit_uncompleted]
    refine congrArg _ (if_congr ?_ rfl rfl)
    constructor
    · exact fun h => by simpa [writeSubmission] using h.2.1.symm
    · rintro rfl
      exact ⟨hevent, rfl, rfl⟩
  unfold surplus
  rw [hwrites]
  by_cases hj : j = i
  · subst hj
    simp only [hcounted, submit_clients, modifyClient_self, if_pos, List.length_append, List.length_singleton]
    omega
  · simp [hcounted, hj, modifyClient_of_ne _ _ _ _ hj]

theorem traced_addReadReq {event : EventType} (hevent : event = .read ∨ event = .acceptRead) :
    Traced s [] (s.addReadReq i event) := by
  unfold addReadReq
  split
  · exact Traced.refl s
  · have hsubmit : Traced s [] (s.submit (s.readSubmission i event)) := by
      refine traced_submit ?_ ?_
      · rcases hevent with rfl | rfl <;> simp [readSubmission]
      · rcases hevent with rfl | rfl <;> simp [readSubmission]
    exact hsubmit.trans (traced_modifyClient rfl)

/-! ### wolfSSL -/

theorem traced_tlsSend (size : ℕ) (stale : ℤ) : Traced s [] (s.tlsSend i size stale) := by
  unfold tlsSend
  split
  · split
    · split
      · exact traced_addWriteReq (Or.inl rfl) _ _
      · exact Traced.refl s
    · split
      · exact traced_addWriteReq (Or.inl rfl) _ _
      · exact traced_setQueue _
  · split
    · exact traced_addWriteReq (Or.inr rfl) _ _
    · exact traced_modifyClient rfl

theorem traced_tlsRecvHelper (size : ℕ) (accept : Bool) : Traced s [] (s.tlsRecvHelper i size accept) := by
  unfold tlsRecvHelper
  split
  · exact traced_modifyClient rfl
  · split
    · split
      · exact traced_addReadReq (Or.inr rfl)
      · exact Traced.refl s
    · exact traced_modifyClient rfl

theorem traced_tlsRecv (size : ℕ) : Traced s [] (s.tlsRecv i size) := by
  unfold tlsRecv
  split
  · split
    · exact traced_tlsRecvHelper size false
    · exact traced_addReadReq (Or.inl rfl)
  · split
    · exact traced_tlsRecvHelper size true
    · exact traced_addReadReq (Or.inr rfl)

theorem traced_wolfIos (ios : List WolfIo) : Traced s [] (ios.foldl (wolfIo i) s) := by
  induction ios generalizing s with
  | nil => exact Traced.refl s
  | cons io ios ih =>
      cases io with
      | send size stale => exact (traced_tlsSend size stale).after ih
      | recv size => exact (traced_tlsRecv size).after ih

theorem traced_wolfCall {op : TlsOp} (hproper : TlsCall.Proper ⟨op, s, i⟩) :
    Traced s [⟨op, s, i⟩] (s.wolfCall i).1 := by
  have hnext : Traced s [⟨op, s, i⟩] { s with wolf := s.wolf.tail } :=
    ⟨fun _ => rfl, rfl, by simp, by simpa using hproper⟩
  simp only [wolfCall]
  split
  · exact hnext.before (traced_wolfIos _)
  · exact hnext

/-! ### The operations of the server -/

theorem traced_enqueue (data : WriteData) (length : ℕ) :
    Traced s (s.enqueueSsl i data) (s.enqueue .tls i data length) := by
  have hpush : Traced s [] (s.pushEntry i data) := traced_setQueue _
  unfold enqueue enqueueSsl
  split
  · refine hpush.after (traced_wolfCall ⟨fun _ => ?_, fun h => by cases h⟩)
    simp [pushEntry]
  · exact hpush

theorem traced_broadcastMessage (clientIdxs : List ℕ) (buff : Ptr) (length : ℕ) (customInfo : ℤ) :
    Traced s (s.broadcastSsl clientIdxs buff length customInfo)
      (s.broadcastMessage .tls clientIdxs buff length customInfo) := by
  refine Runs.foldTrace_relates Traced.refl (fun _ _ _ _ _ h h' => h.trans h') (fun b i b' _ hb' => ?_) ?_
  · obtain rfl := Option.some.inj hb'
    exact traced_enqueue _ _
  · exact List.foldlM_pure

/-- Closing a connection shuts its session down. -/
theorem traced_closeConnection : Traced s (s.closeSsl i) (s.closeConnection .tls i) := by
  unfold closeConnection closeSsl
  split
  · rename_i hzero
    have hcalled : Traced s [⟨.shutdown, s, i⟩] (s.wolfCall i).1 :=
      traced_wolfCall ⟨fun h => (TlsOp.noConfusion h), fun _ => hzero⟩
    have hended := hcalled.before (traced_modifyClient (i := i) (f := fun client => { client with ssl := false }) rfl)
    have hqueue := hended.before (traced_setQueue (i := i) [])
    exact ⟨hqueue.surplus, hqueue.occupants, hqueue.wolf, hqueue.call⟩
  · exact Traced.refl s

theorem traced_call {c : TcpCall} (h : s.call .tls c = some s') : Traced s (s.runSsl c) s' := by
  unfold TcpServer.call at h
  split at h
  · obtain rfl := Option.some.inj h
    cases c with
    | writeConnection i buff =>
        have hfresh : Traced s [] { s with nextAddr := s.nextAddr + 1 } := ⟨fun _ => rfl, rfl, rfl, by simp⟩
        exact hfresh.after (traced_enqueue _ buff.length)
    | writeConnectionPtr i buff length => exact traced_enqueue _ length
    | broadcastMessage clientIdxs buff length customInfo => exact traced_broadcastMessage _ _ _ _
    | closeConnection i => exact traced_closeConnection
    | readConnection i => exact traced_addReadReq (Or.inl rfl)
    | customReadReq fd toRead clientIdx buff readAmount file => exact traced_submit (by simp) (by simp)
  · cases h

theorem traced_calls {cs : List TcpCall} (h : s.calls .tls cs = some s') : Traced s (s.callsSsl cs) s' :=
  Runs.foldTrace_relates Traced.refl (fun _ _ _ _ _ h h' => h.trans h') (fun _ _ _ _ hb' => traced_call hb') h

end TcpServer

/-! ### The event loop -/

namespace Machine

variable {σ ε : Type*} {app : App σ ε} {env : ε} {m m' : Machine σ} {n i : ℕ}

theorem traced_callback {cb : Callback} {result : Option (σ × List TcpCall)}
    (h : m.callback .tls cb result = some m') : Traced m.tcp (m.callbackSsl result) m'.tcp := by
  obtain ⟨a, cs, rfl, hcalls, -, -⟩ := callback_eq_some h
  exact traced_calls hcalls

theorem traced_drainAndClose (h : m.drainAndClose .tls app i = some m') : Traced m.tcp (m.drainSsl i) m'.tcp := by
  rw [drainAndClose_tcp h]
  have hdrained : Traced m.tcp [] (m.tcp.setQueue i []) := traced_setQueue []
  exact hdrained.after traced_closeConnection

theorem traced_closeIfIdle (h : m.closeIfIdle .tls app i = some m') : Traced m.tcp (m.idleSsl i) m'.tcp := by
  unfold closeIfIdle at h
  unfold idleSsl
  split at h
  · rw [if_pos ‹_›]
    exact traced_drainAndClose h
  · rw [if_neg ‹_›]
    obtain rfl := Option.some.inj h
    exact Traced.refl _

theorem traced_sweep {order halfClosed : List ℕ} (h : m.sweep .tls app order halfClosed = some m') :
    Traced m.tcp (m.sweepSsl app order halfClosed) m'.tcp := by
  refine Runs.foldTrace_relates (R := fun (m : Machine σ) calls (m' : Machine σ) => Traced m.tcp calls m'.tcp)
    (fun m => Traced.refl m.tcp) (fun _ _ _ _ _ h h' => h.trans h') (fun b i b' _ hround => ?_) h
  split at hround
  · rw [if_pos ‹_›]
    exact traced_drainAndClose hround
  · rw [if_neg ‹_›]
    obtain rfl := Option.some.inj hround
    exact Traced.refl _

theorem traced_customRead {sub : Submission} {res : ℤ} {data : Bytes} (hevent : sub.req.event = .customRead)
    (h : m.customRead .tls app env sub res data = some m') :
    Traced m.tcp (m.customReadSsl app env sub res data) m'.tcp := by
  unfold customRead at h
  unfold customReadSsl
  dsimp only at h ⊢
  split_ifs at h with hbound hwhole
  · rw [if_pos hwhole]
    refine Traced.after ?_ (traced_callback h)
    exact ⟨fun _ => rfl, rfl, rfl, by simp⟩
  · rw [if_neg hwhole]
    obtain rfl := Option.some.inj h
    exact traced_submit (by simp [hevent]) (by simp [hevent])

theorem traced_tlsReceive (sub : Submission) (c : Completion ε) : Traced m.tcp [] (tlsReceive m.tcp i sub c) := by
  unfold tlsReceive
  exact traced_modifyClient rfl

theorem traced_tlsAcceptRead {sub : Submission} {c : Completion ε} (h : m.tlsAcceptRead app sub i c = some m') :
    Traced m.tcp (m.acceptReadSsl app sub i c) m'.tcp := by
  have haccepted : Traced m.tcp [⟨.accept, tlsReceive m.tcp i sub c, i⟩] ((tlsReceive m.tcp i sub c).wolfCall i).1 :=
    (traced_tlsReceive sub c).after (traced_wolfCall ⟨fun h => TlsOp.noConfusion h, fun h => TlsOp.noConfusion h⟩)
  unfold tlsAcceptRead at h
  unfold acceptReadSsl
  dsimp only at h ⊢
  split_ifs at h with hret
  · rw [if_pos hret]
    obtain ⟨m₁, hm₁, h⟩ := Option.bind_eq_some_iff.mp h
    have htcp : m₁.tcp = ((tlsReceive m.tcp i sub c).wolfCall i).1 := by
      obtain ⟨a, -, rfl⟩ := Option.map_eq_some_iff.mp hm₁
      rfl
    simp only [hm₁]
    rw [← htcp] at haccepted
    have hactive : Traced m₁.tcp [] { m₁.tcp with activeConnections := insert i m₁.tcp.activeConnections } :=
      ⟨fun _ => rfl, rfl, rfl, by simp⟩
    have hproper : TlsCall.Proper ⟨.read, { m₁.tcp with activeConnections := insert i m₁.tcp.activeConnections }, i⟩ :=
      ⟨fun h => TlsOp.noConfusion h, fun h => TlsOp.noConfusion h⟩
    have hread := (hactive.after (traced_wolfCall hproper)).before
      (traced_modifyClient (i := i) (f := fun client => { client with recvData := [] }) rfl)
    split_ifs at h with hread'
    · rw [if_pos hread']
      have hready := hread.before
        (traced_modifyClient (i := i) (f := fun client => { client with readReqActive := false }) rfl)
      exact haccepted.trans (hready.trans (traced_callback h))
    · rw [if_neg hread']
      obtain rfl := Option.some.inj h
      exact haccepted.trans hread
  · rw [if_neg hret]
    obtain rfl := Option.some.inj h
    exact haccepted

theorem traced_tlsAcceptWrite (res : ℤ) :
    Traced (m.tcp.endWrite i) (m.acceptWriteSsl i res) (m.tlsAcceptWrite i res).tcp := by
  refine Traced.after (traced_modifyClient rfl) (traced_wolfCall ?_)
  exact ⟨fun h => TlsOp.noConfusion h, fun h => TlsOp.noConfusion h⟩

theorem traced_tlsWritten (h : m.tlsWritten app env i = some m') :
    Traced m.tcp (m.writtenSsl app env i) m'.tcp := by
  unfold tlsWritten at h
  unfold writtenSsl
  split at h
  · cases h
  · rename_i front rest hqueue
    obtain ⟨m₁, hm₁, rfl⟩ := Option.map_eq_some_iff.mp h
    simp only [hqueue, hm₁]
    have hpopped : Traced m.tcp [] (m.tcp.setQueue i rest) := traced_setQueue rest
    have hwritten := hpopped.after (traced_callback hm₁)
    apply hwritten.trans
    split_ifs with hnil
    · exact Traced.refl _
    · exact traced_wolfCall ⟨fun _ => hnil, fun h => TlsOp.noConfusion h⟩

theorem traced_tlsWrite {res : ℤ} (h : m.tlsWrite app env i res = some m') :
    Traced (m.tcp.endWrite i) (m.writeSsl app env i res) m'.tcp := by
  unfold tlsWrite at h
  unfold writeSsl
  dsimp only at h ⊢
  rw [onTcp_tcp] at h
  cases hqueue : ((m.tcp.endWrite i).clients i).sendData with
  | nil =>
      simp only [hqueue] at h ⊢
      obtain rfl := Option.some.inj h
      exact Traced.refl _
  | cons front rest =>
      simp only [hqueue] at h ⊢
      have hlast : Traced (m.tcp.endWrite i) []
          ((m.tcp.endWrite i).setQueue i ({ front with lastWritten := res } :: rest)) := traced_setQueue _
      have hproper : TlsCall.Proper
          ⟨.write, (m.tcp.endWrite i).setQueue i ({ front with lastWritten := res } :: rest), i⟩ :=
        ⟨fun _ => by simp, fun h => TlsOp.noConfusion h⟩
      have hcalled := hlast.after (traced_wolfCall hproper)
      split_ifs at h with hret
      · rw [if_pos hret]
        exact hcalled.trans (traced_tlsWritten h)
      · rw [if_neg hret]
        obtain rfl := Option.some.inj h
        exact hcalled

theorem traced_tlsReadLoop {s : TcpServer} (fuel : ℕ) (buffer : Bytes) :
    Traced s (readLoopSsl i fuel s) (tlsReadLoop i fuel s buffer).1 := by
  induction fuel generalizing s buffer with
  | zero => exact Traced.refl s
  | succ fuel ih =>
      have hcalled : Traced s [⟨.read, s, i⟩] (s.wolfCall i).1 :=
        traced_wolfCall ⟨fun h => TlsOp.noConfusion h, fun h => TlsOp.noConfusion h⟩
      simp only [tlsReadLoop, readLoopSsl]
      split_ifs
      · exact Traced.refl s
      · exact hcalled
      · exact hcalled.trans (ih _)

theorem traced_tlsRead {sub : Submission} {c : Completion ε} (h : m.tlsRead app sub i c = some m') :
    Traced m.tcp (m.readSsl app sub i c) m'.tcp := by
  have hread := (traced_tlsReceive (m := m) (i := i) sub c).after
    (traced_tlsReadLoop (i := i) ((tlsReceive m.tcp i sub c).wolf.length + 1) [])
  unfold tlsRead at h
  unfold readSsl
  dsimp only at h ⊢
  apply hread.trans
  split_ifs at h with hnil
  · rw [if_pos hnil]
    obtain rfl := Option.some.inj h
    exact traced_addReadReq (Or.inl rfl)
  · rw [if_neg hnil]
    exact traced_callback h

/-- A completed write request of the present occupant of its slot is the one that is no longer counted. -/
def ServesOwn (m : Machine σ) (c : Completion ε) : Prop :=
  ∀ sub ∈ m.tcp.inflight[c.index]?, sub.req.event = .write ∨ sub.req.event = .acceptWrite →
    ∀ i ∈ sub.req.clientIdx, sub.occupant = m.tcp.occupants i ∨
      (m.tcp.clients i).id ≠ sub.req.ID ∧ (c.res ≤ 0 ∨ 0 < i)

instance (c : Completion ε) : Decidable (m.ServesOwn c) :=
  inferInstanceAs (Decidable (∀ sub ∈ m.tcp.inflight[c.index]?, _ → ∀ i ∈ sub.req.clientIdx, _))

/-- What the completion of a request does to the count. -/
theorem surplus_take {sub : Submission} {c : Completion ε} (hsub : m.tcp.inflight[c.index]? = some sub) (j : ℕ) :
    (m.take c).tcp.surplus j = m.tcp.surplus j + if sub.WritesFor j (m.tcp.occupants j) then 1 else 0 := by
  have hleft : ((m.take c).tcp.uncompleted j).length +
      (if sub.WritesFor j (m.tcp.occupants j) then 1 else 0) = (m.tcp.uncompleted j).length := by
    refine Eq.trans ?_ (InFlight.length_filter_eraseIdx (fun sub => sub.WritesFor j (m.tcp.occupants j)) hsub)
    simp only [decide_eq_true_eq]
    rfl
  unfold surplus
  rw [← hleft]
  split_ifs
  · simp only [take_tcp, takeCompleted_clients]
    omega
  · simp

theorem counted_take {sub : Submission} {c : Completion ε} (hcounted : m.tcp.Counted)
    (hsub : m.tcp.inflight[c.index]? = some sub) (hother : ∀ j, ¬sub.WritesFor j (m.tcp.occupants j)) :
    (m.take c).tcp.Counted := by
  intro j
  rw [surplus_take hsub, if_neg (hother j), hcounted j]
  rfl

theorem surplus_endWrite {s : TcpServer} (j : ℕ) :
    (s.endWrite i).surplus j = s.surplus j - if j = i then 1 else 0 := by
  have hsame : (s.endWrite i).uncompleted j = s.uncompleted j := rfl
  unfold surplus
  rw [hsame]
  by_cases hj : j = i
  · subst hj
    simp only [endWrite, modifyClient_self, if_pos]
    omega
  · simp [endWrite, modifyClient_of_ne _ _ _ _ hj, hj]

/-- A write of the present occupant is completed and no longer counted. -/
theorem counted_endWrite {sub : Submission} {c : Completion ε} (hcounted : m.tcp.Counted)
    (hsub : m.tcp.inflight[c.index]? = some sub) (hown : sub.WritesFor i (m.tcp.occupants i)) :
    ((m.take c).tcp.endWrite i).Counted := by
  intro j
  rw [surplus_endWrite, surplus_take hsub, hcounted j]
  by_cases hj : j = i
  · subst hj
    rw [if_pos hown, if_pos rfl]
    rfl
  · have hother : ¬sub.WritesFor j (m.tcp.occupants j) := fun h =>
      hj (Option.some.inj (h.2.1.symm.trans hown.2.1))
    rw [if_neg hother, if_neg hj]
    rfl

/-- The occupant of a slot that is handed out has no write request in flight. -/
theorem counted_setupClient {s : TcpServer} (hinv : OccupantInv n s) (hcounted : s.Counted) (sockfd : ℤ) :
    (s.setupClient sockfd).1.Counted := by
  intro j
  unfold setupClient
  split
  · rename_i hne
    by_cases hj : j = s.freedIndexes.min' hne
    · have hnone : ∀ sub ∈ s.inflight, ¬sub.WritesFor j (s.occupants j + 1) := by
        rintro sub hsub ⟨-, hidx, hoccupant⟩
        have hle := ((hinv.request sub hsub).slot j hidx).2
        omega
      simpa [surplus, uncompleted, ← hj] using hnone
    · simpa [surplus, uncompleted, hj] using hcounted j
  · by_cases hj : j = s.numClients
    · have hnone : ∀ sub ∈ s.inflight, ¬sub.WritesFor j 0 := by
        rintro sub hsub ⟨-, hidx, -⟩
        have hlt := ((hinv.request sub hsub).slot j hidx).1
        rw [hj, hinv.num] at hlt
        exact absurd hlt (lt_irrefl n)
      simpa [surplus, uncompleted, hj] using hj ▸ hnone
    · simpa [surplus, uncompleted, hj] using hcounted j

theorem traced_failed {event : EventType} (hevent : event ≠ .write) (hevent' : event ≠ .acceptWrite)
    (h : m.failed .tls app i event = some m') : Traced m.tcp (m.failedSsl i event) m'.tcp := by
  unfold failed at h
  unfold failedSsl
  rw [if_neg (not_or_intro hevent hevent')] at h ⊢
  exact traced_closeIfIdle h

theorem traced_failed_write {event : EventType} (hevent : event = .write ∨ event = .acceptWrite)
    (h : m.failed .tls app i event = some m') : Traced (m.tcp.endWrite i) (m.failedSsl i event) m'.tcp := by
  unfold failed at h
  unfold failedSsl
  rw [if_pos hevent] at h ⊢
  exact traced_closeIfIdle (m := m.onTcp fun s => s.endWrite i) h

/-- A completed request of a client that is not a write. -/
theorem traced_clientEvent {sub : Submission} {c : Completion ε} (hevent : sub.req.event ≠ .write)
    (hevent' : sub.req.event ≠ .acceptWrite) (h : m.clientEvent .tls app sub i c = some m') :
    Traced m.tcp (m.clientEventSsl app sub i c) m'.tcp := by
  unfold clientEvent at h
  unfold clientEventSsl
  split at h
  · split_ifs at h ⊢
    · exact traced_failed hevent hevent' h
    · obtain rfl := Option.some.inj h
      exact Traced.refl _
    · cases hcase : sub.req.event with
      | acceptRead =>
          simp only [tlsHandler, hcase] at h
          simp only [handlerSsl, hcase]
          exact traced_tlsAcceptRead h
      | read =>
          simp only [tlsHandler, hcase] at h
          simp only [handlerSsl, hcase]
          exact traced_tlsRead h
      | write => exact absurd hcase hevent
      | acceptWrite => exact absurd hcase hevent'
      | _ =>
          simp only [tlsHandler, hcase] at h
          simp only [handlerSsl, hcase]
          obtain rfl := Option.some.inj h
          exact Traced.refl _
  · cases h

/-- A completed write of a client that is not ignored. -/
theorem traced_clientEvent_write {sub : Submission} {c : Completion ε}
    (hevent : sub.req.event = .write ∨ sub.req.event = .acceptWrite)
    (hserved : ¬((m.tcp.clients i).id ≠ sub.req.ID ∧ (c.res ≤ 0 ∨ 0 < i)))
    (h : m.clientEvent .tls app sub i c = some m') :
    Traced (m.tcp.endWrite i) (m.clientEventSsl app sub i c) m'.tcp := by
  unfold clientEvent at h
  unfold clientEventSsl
  split at h
  · split_ifs at h ⊢ with hguard hfailed
    · exact traced_failed_write hevent h
    · refine absurd ⟨fun hid => ?_, hguard.imp_right And.left⟩ hserved
      rcases hguard with hres | ⟨-, hne⟩
      · exact hfailed ⟨hres, hid⟩
      · exact hne hid
    · rcases hevent with hevent | hevent
      · simp only [tlsHandler, hevent] at h
        simp only [handlerSsl, hevent]
        exact traced_tlsWrite h
      · simp only [tlsHandler, hevent, Option.some.injEq] at h
        simp only [handlerSsl, hevent]
        obtain rfl := h
        exact traced_tlsAcceptWrite c.res
  · cases h

/-- The calls of a round, from a server whose writes are counted. -/
theorem traced_dispatch {sub : Submission} {c : Completion ε} (hinv : OccupantInv n m.tcp) (hcounted : m.tcp.Counted)
    (hown : m.ServesOwn c) (hsub : m.tcp.inflight[c.index]? = some sub)
    (hhandled : dispatch .tls app (m.take c) sub c = some m') :
    ∃ s, s.Counted ∧ s.wolf = c.wolf ∧ Traced s (dispatchSsl app (m.take c) sub c) m'.tcp := by
  have htaken : OccupantInv n (m.take c).tcp :=
    hinv.congr (fun _ => rfl) rfl (Finset.Subset.refl _) rfl rfl List.eraseIdx_subset
  -- a request that is not a write
  have hquiet : sub.req.event ≠ .write → sub.req.event ≠ .acceptWrite → (m.take c).tcp.Counted :=
    fun hevent hevent' => counted_take hcounted hsub fun j h => h.1.elim hevent hevent'
  cases hcase : sub.req.event with
  | kill =>
      simp only [dispatch, hcase, Option.some.injEq] at hhandled
      simp only [dispatchSsl, hcase]
      obtain rfl := hhandled
      exact ⟨(m.take c).tcp, hquiet (by simp [hcase]) (by simp [hcase]), rfl, fun _ => rfl, rfl, rfl, by simp⟩
  | notification =>
      simp only [dispatch, hcase] at hhandled
      simp only [dispatchSsl, hcase]
      have hasked : Traced (m.take c).tcp [] ((m.take c).tcp.addEventReq .notification) :=
        traced_submit (by simp) (by simp)
      exact ⟨(m.take c).tcp, hquiet (by simp [hcase]) (by simp [hcase]), rfl, hasked.after (traced_callback hhandled)⟩
  | customRead =>
      simp only [dispatch, hcase] at hhandled
      simp only [dispatchSsl, hcase]
      exact ⟨(m.take c).tcp, hquiet (by simp [hcase]) (by simp [hcase]), rfl, traced_customRead hcase hhandled⟩
  | timerfd =>
      simp only [dispatch, hcase] at hhandled
      simp only [dispatchSsl, hcase]
      obtain ⟨m₁, hm₁, rfl⟩ := Option.map_eq_some_iff.mp hhandled
      have hasked : Traced m₁.tcp [] (m₁.tcp.addEventReq .timerfd) := traced_submit (by simp) (by simp)
      exact ⟨(m.take c).tcp, hquiet (by simp [hcase]) (by simp [hcase]), rfl, (traced_sweep hm₁).before hasked⟩
  | accept =>
      simp only [dispatch, hcase, Option.some.injEq] at hhandled
      simp only [dispatchSsl, hcase]
      obtain rfl := hhandled
      have hwolf : ((m.take c).tcp.setupClient c.res).1.wolf = c.wolf := by
        unfold setupClient
        split <;> rfl
      have hasked : Traced ((m.take c).tcp.setupClient c.res).1 []
          (((m.take c).tcp.setupClient c.res).1.addEventReq .accept) := traced_submit (by simp) (by simp)
      refine ⟨_, counted_setupClient htaken (hquiet (by simp [hcase]) (by simp [hcase])) c.res, hwolf,
        (hasked.trans (traced_modifyClient rfl)).after (traced_wolfCall ?_)⟩
      exact ⟨fun h => TlsOp.noConfusion h, fun h => TlsOp.noConfusion h⟩
  | acceptRead | read =>
      simp only [dispatch, hcase] at hhandled
      simp only [dispatchSsl, hcase]
      refine ⟨(m.take c).tcp, hquiet (by simp [hcase]) (by simp [hcase]), rfl, ?_⟩
      cases hidx : sub.req.clientIdx with
      | none => simp [hidx] at hhandled
      | some i =>
          simp only [hidx] at hhandled ⊢
          exact traced_clientEvent (by simp [hcase]) (by simp [hcase]) hhandled
  | acceptWrite | write =>
      have hevent : sub.req.event = .write ∨ sub.req.event = .acceptWrite := by simp [hcase]
      simp only [dispatch, hcase] at hhandled
      simp only [dispatchSsl, hcase]
      cases hidx : sub.req.clientIdx with
      | none => simp [hidx] at hhandled
      | some i =>
          simp only [hidx] at hhandled ⊢
          by_cases hserved : ((m.take c).tcp.clients i).id ≠ sub.req.ID ∧ (c.res ≤ 0 ∨ 0 < i)
          · -- the write of an earlier occupant is ignored
            have hother : ∀ j, ¬sub.WritesFor j (m.tcp.occupants j) := by
              rintro j ⟨-, hj, hoccupant⟩
              obtain rfl : i = j := Option.some.inj (hidx.symm.trans hj)
              have hid := (hinv.request sub (List.mem_of_getElem? hsub)).id (by simp [EventType.OfClient, hcase])
              refine hserved.1 ?_
              rw [hid.2, hoccupant]
              exact hinv.id i
            have hguard : c.res ≤ 0 ∨ 0 < i ∧ ((m.take c).tcp.clients i).id ≠ sub.req.ID :=
              hserved.2.imp_right fun hi => ⟨hi, hserved.1⟩
            have hfailed : ¬(c.res ≤ 0 ∧ ((m.take c).tcp.clients i).id = sub.req.ID) := fun h => hserved.1 h.2
            refine ⟨(m.take c).tcp, counted_take hcounted hsub hother, rfl, ?_⟩
            unfold clientEvent at hhandled
            unfold clientEventSsl
            rw [if_pos hguard, if_neg hfailed] at hhandled ⊢
            split at hhandled
            · obtain rfl := Option.some.inj hhandled
              exact Traced.refl _
            · cases hhandled
          · have hoccupant : sub.occupant = m.tcp.occupants i :=
              (hown sub hsub hevent i hidx).resolve_right hserved
            exact ⟨(m.take c).tcp.endWrite i, counted_endWrite hcounted hsub ⟨hevent, hidx, hoccupant⟩, rfl,
              traced_clientEvent_write hevent hserved hhandled⟩

/-- **One round of the loop.** The writes stay counted, they are counted at each call of wolfSSL, and these calls are
all that the round makes. -/
theorem counted_step {c : Completion ε} {log : List Callback} (hinv : OccupantInv n m.tcp) (hcounted : m.tcp.Counted)
    (hown : m.ServesOwn c) (hstep : step .tls app m c = some (m', log)) :
    m'.tcp.Counted ∧ (∀ call ∈ m.sslCalls app c, call.tcp.Counted ∧ call.Proper) ∧
      m'.tcp.wolf = c.wolf.drop (m.sslCalls app c).length := by
  obtain ⟨sub, hsub, hhandled, -⟩ := step_eq_some hstep
  obtain ⟨s, hs, hwolf, htraced⟩ := traced_dispatch hinv hcounted hown hsub hhandled
  obtain ⟨hlater, hcalls⟩ := htraced.counted hs
  simp only [sslCalls, hsub]
  exact ⟨hlater, hcalls, hwolf ▸ htraced.wolf⟩

end Machine

/-! ### When the calls are defined -/

namespace TcpServer

variable {s s' : TcpServer} {i : ℕ}

/-- What `tls_send` finds next as what was written before: of the front entry, or in the handshake. -/
def lastWritten (s : TcpServer) (i : ℕ) : ℤ :=
  if i ∈ s.activeConnections then ((s.clients i).sendData.head?.map WriteData.lastWritten).getD (-1)
  else (s.clients i).acceptLastWritten

theorem Touches.sendData_eq_nil_iff (h : Touches i s s') :
    (s'.clients i).sendData = [] ↔ (s.clients i).sendData = [] := by
  have hqueue := h.queue
  unfold Client.queue at hqueue
  rw [← List.map_eq_nil_iff (f := WriteData.unwritten), hqueue, List.map_eq_nil_iff]

theorem tlsRecv_client (s : TcpServer) (i size : ℕ) : ∃ recvData delivered readReqActive,
    (s.tlsRecv i size).clients i = { s.clients i with recvData, delivered, readReqActive } := by
  unfold tlsRecv tlsRecvHelper addReadReq
  split_ifs
  all_goals simp only [modifyClient_self, submit_clients]
  all_goals exact ⟨_, _, _, rfl⟩

theorem numWriteReqs_tlsRecv (size : ℕ) :
    ((s.tlsRecv i size).clients i).numWriteReqs = (s.clients i).numWriteReqs := by
  obtain ⟨_, _, _, hclient⟩ := tlsRecv_client s i size
  rw [hclient]

theorem lastWritten_tlsRecv (size : ℕ) : (s.tlsRecv i size).lastWritten i = s.lastWritten i := by
  obtain ⟨_, _, _, hclient⟩ := tlsRecv_client s i size
  have hactive : (s.tlsRecv i size).activeConnections = s.activeConnections := (touches_tlsRecv size).activeConnections
  rw [lastWritten, lastWritten, hactive, hclient]

/-- With nothing written before, `tls_send` submits a write request. -/
theorem numWriteReqs_tlsSend_of_eq (hfront : i ∈ s.activeConnections → (s.clients i).sendData ≠ [])
    (hlast : s.lastWritten i = -1) (size : ℕ) (stale : ℤ) :
    ((s.tlsSend i size stale).clients i).numWriteReqs = (s.clients i).numWriteReqs + 1 := by
  unfold lastWritten at hlast
  unfold tlsSend
  by_cases hactive : i ∈ s.activeConnections
  · rw [if_pos hactive] at hlast ⊢
    cases hqueue : (s.clients i).sendData with
    | nil => exact absurd hqueue (hfront hactive)
    | cons front rest =>
        have hnone : front.lastWritten = -1 := by simpa [hqueue] using hlast
        simp [hnone, addWriteReq]
  · rw [if_neg hactive] at hlast ⊢
    simp [hlast, addWriteReq]

/-- What was written before is told wolfSSL once. -/
theorem tlsSend_of_ne (hfront : i ∈ s.activeConnections → (s.clients i).sendData ≠ [])
    (hlast : s.lastWritten i ≠ -1) (size : ℕ) (stale : ℤ) :
    ((s.tlsSend i size stale).clients i).numWriteReqs = (s.clients i).numWriteReqs ∧
      (s.tlsSend i size stale).lastWritten i = -1 := by
  unfold lastWritten at hlast
  unfold tlsSend
  by_cases hactive : i ∈ s.activeConnections
  · rw [if_pos hactive] at hlast ⊢
    cases hqueue : (s.clients i).sendData with
    | nil => exact absurd hqueue (hfront hactive)
    | cons front rest =>
        have hsome : front.lastWritten ≠ -1 := by simpa [hqueue] using hlast
        simp [hsome, lastWritten, hactive]
  · rw [if_neg hactive] at hlast ⊢
    simp [hlast, lastWritten, hactive, modifyClient]

/-- A call of wolfSSL leaves the number of writes exactly if it starts none. -/
theorem numWriteReqs_wolfIos (hfront : i ∈ s.activeConnections → (s.clients i).sendData ≠ []) (ios : List WolfIo) :
    ((ios.foldl (wolfIo i) s).clients i).numWriteReqs = (s.clients i).numWriteReqs ↔
      startsWrite (s.lastWritten i) ios = false := by
  induction ios generalizing s with
  | nil => simp [startsWrite]
  | cons io ios ih =>
      have htouches : Touches i s (wolfIo i s io) := touches_wolfIo io
      have hnext : i ∈ (wolfIo i s io).activeConnections → ((wolfIo i s io).clients i).sendData ≠ [] := by
        rw [htouches.activeConnections, ne_eq, htouches.sendData_eq_nil_iff]
        exact hfront
      rw [List.foldl_cons]
      cases io with
      | send size stale =>
          by_cases hlast : s.lastWritten i = -1
          · have hmore := numWriteReqs_tlsSend_of_eq hfront hlast size stale
            have hle := (touches_wolfIos (i := i) (s := wolfIo i s (.send size stale)) ios).num
            simp only [wolfIo] at hle ⊢
            simp only [startsWrite, hlast, decide_true, Bool.true_or, Bool.true_eq_false, iff_false]
            omega
          · obtain ⟨hnum, hlast'⟩ := tlsSend_of_ne hfront hlast size stale
            rw [← hnum, startsWrite, decide_eq_false hlast, Bool.false_or, ← hlast']
            exact ih hnext
      | recv size =>
          rw [← numWriteReqs_tlsRecv (s := s) (i := i) size, startsWrite, ← lastWritten_tlsRecv size]
          exact ih hnext

/-- Every run of `tls_send` in a call finds the queue as empty as it was. -/
theorem mem_sendStates {ios : List WolfIo} (h : s' ∈ sendStates i s ios) :
    s'.activeConnections = s.activeConnections ∧ ((s'.clients i).sendData = [] ↔ (s.clients i).sendData = []) := by
  induction ios generalizing s with
  | nil => cases h
  | cons io ios ih =>
      have htouches : Touches i s (wolfIo i s io) := touches_wolfIo io
      have hlater : s' ∈ sendStates i (wolfIo i s io) ios →
          s'.activeConnections = s.activeConnections ∧
            ((s'.clients i).sendData = [] ↔ (s.clients i).sendData = []) := by
        intro hmem
        obtain ⟨hactive, hnil⟩ := ih hmem
        exact ⟨hactive.trans htouches.activeConnections, hnil.trans htouches.sendData_eq_nil_iff⟩
      cases io with
      | send size stale =>
          rcases List.mem_cons.mp h with rfl | hmem
          · exact ⟨rfl, Iff.rfl⟩
          · exact hlater hmem
      | recv size => exact hlater h

theorem length_sendStates (ios : List WolfIo) : (sendStates i s ios).length = ios.countP WolfIo.isSend := by
  induction ios generalizing s with
  | nil => rfl
  | cons io ios ih =>
      cases io with
      | send size stale => rw [sendStates, List.length_cons, ih, List.countP_cons_of_pos rfl]
      | recv size => rw [sendStates, ih, List.countP_cons_of_neg Bool.false_ne_true]

/-- On an active connection whose queue is empty nothing may be sent. -/
theorem sends_defined_iff : (∀ s' ∈ s.sends i, i ∈ s'.activeConnections → (s'.clients i).sendData ≠ []) ↔
    ((s.clients i).ssl = true → i ∈ s.activeConnections → (s.clients i).sendData = [] →
      (s.wolf.headD {}).io.countP WolfIo.isSend = 0) := by
  unfold sends
  split_ifs with hssl
  · rw [← length_sendStates (i := i) (s := { s with wolf := s.wolf.tail }), List.length_eq_zero_iff]
    constructor
    · intro h _ hactive hnil
      refine List.eq_nil_iff_forall_not_mem.mpr fun s' hs' => ?_
      obtain ⟨hsame, hempty⟩ := mem_sendStates hs'
      exact h s' hs' (hsame ▸ hactive) (hempty.mpr hnil)
    · intro h s' hs' hactive hnil
      obtain ⟨hsame, hempty⟩ := mem_sendStates hs'
      rw [h hssl (hsame ▸ hactive) (hempty.mp hnil)] at hs'
      cases hs'
  · simp [hssl]

/-- A call that sends once starts a write exactly if nothing was written before. -/
theorem startsWrite_of_once {ios : List WolfIo} (h : ios.countP WolfIo.isSend = 1) (last : ℤ) :
    startsWrite last ios = decide (last = -1) := by
  have hnone : ∀ {ios : List WolfIo} (last : ℤ), ios.countP WolfIo.isSend = 0 → startsWrite last ios = false := by
    intro ios last h
    induction ios with
    | nil => rfl
    | cons io ios ih =>
        cases io with
        | send size stale => simp [WolfIo.isSend] at h
        | recv size => exact ih (by simpa [WolfIo.isSend] using h)
  induction ios with
  | nil => cases h
  | cons io ios ih =>
      cases io with
      | send size stale =>
          have hrest : ios.countP WolfIo.isSend = 0 := by
            rw [List.countP_cons_of_pos rfl] at h
            omega
          rw [startsWrite, hnone (-1) hrest, Bool.or_false]
      | recv size => exact ih (by simpa [WolfIo.isSend] using h)

/-- A slot that is freed has no write request in flight exactly if the shutdown has submitted none. -/
theorem uncompleted_closeConnection (hcounted : s.Counted) (hzero : (s.clients i).numWriteReqs = 0) :
    (s.closeConnection .tls i).uncompleted i = [] ↔ ((s.wolfCall i).1.clients i).numWriteReqs = 0 := by
  have hcalled : Traced s [⟨.shutdown, s, i⟩] (s.wolfCall i).1 :=
    traced_wolfCall ⟨fun h => TlsOp.noConfusion h, fun _ => hzero⟩
  have hsurplus : (s.wolfCall i).1.surplus i = 0 := (hcalled.surplus i).trans (hcounted i)
  have hfreed : (s.closeConnection .tls i).uncompleted i = (s.wolfCall i).1.uncompleted i := by
    rw [closeConnection, if_pos hzero]
    rfl
  unfold surplus at hsurplus
  rw [hfreed, ← List.length_eq_zero_iff]
  omega

/-- A shutdown is defined exactly if the session it notifies has something to tell, and starts no write. -/
theorem numWriteReqs_wolfCall (hssl : (s.clients i).ssl = true)
    (hfront : i ∈ s.activeConnections → (s.clients i).sendData ≠ []) :
    ((s.wolfCall i).1.clients i).numWriteReqs = (s.clients i).numWriteReqs ↔
      startsWrite (s.lastWritten i) (s.wolf.headD {}).io = false := by
  have hios := numWriteReqs_wolfIos (s := { s with wolf := s.wolf.tail }) hfront (s.wolf.headD {}).io
  rw [wolfCall, if_pos (show (({ s with wolf := s.wolf.tail } : TcpServer).clients i).ssl = true from hssl)]
  exact hios

end TcpServer

open TcpServer

/-- Where the writes are counted and wolfSSL behaves as assumed, a call is defined exactly if it is quiet. -/
theorem TlsCall.defined_iff (call : TlsCall) (hcounted : call.tcp.Counted) (hproper : call.Proper)
    (hnotifies : call.Notifies) : call.Defined ↔ call.Quiet := by
  obtain ⟨op, s, i⟩ := call
  simp only at hcounted
  unfold Defined Quiet
  simp only [sends_defined_iff]
  cases op with
  | write =>
      have hne : (s.clients i).sendData ≠ [] := hproper.write rfl
      exact iff_of_true ⟨fun _ _ hnil => absurd hnil hne, fun h => TlsOp.noConfusion h⟩ fun _ => trivial
  | accept | read => exact and_iff_left fun h => TlsOp.noConfusion h
  | shutdown =>
      have hzero : (s.clients i).numWriteReqs = 0 := hproper.shutdown rfl
      simp only [forall_const, uncompleted_closeConnection hcounted hzero]
      by_cases hssl : (s.clients i).ssl = true
      · have hwrites := numWriteReqs_wolfCall (s := s) (i := i) hssl
        rw [hzero] at hwrites
        simp only [hssl, forall_const]
        by_cases hactive : i ∈ s.activeConnections
        · have honce : (s.wolf.headD {}).io.countP WolfIo.isSend = 1 := hnotifies rfl hactive hssl
          simp only [hactive, forall_const, honce, if_true] at hwrites ⊢
          cases hqueue : (s.clients i).sendData with
          | nil => simp
          | cons front rest =>
              have hlast : s.lastWritten i = front.lastWritten := by simp [lastWritten, hactive, hqueue]
              rw [hwrites (by simp [hqueue]), startsWrite_of_once honce, hlast]
              simp
        · have hlast : s.lastWritten i = (s.clients i).acceptLastWritten := if_neg hactive
          simp only [hactive, false_implies, true_and, if_false]
          rw [hwrites fun h => absurd h hactive, hlast]
      · have hnone : ((s.wolfCall i).1.clients i).numWriteReqs = 0 := by
          rw [wolfCall, if_neg (show ¬(({ s with wolf := s.wolf.tail } : TcpServer).clients i).ssl = true from hssl)]
          exact hzero
        simp [hssl, hnone]

namespace Machine

variable {σ ε : Type*} {app : App σ ε} {m : Machine σ}

/-- The calls of a round are as they should be. -/
def ForCalls (app : App σ ε) (P : TlsCall → Prop) (m : Machine σ) (c : Completion ε) : Prop :=
  ∀ call ∈ m.sslCalls app c, P call

instance {P : TlsCall → Prop} [DecidablePred P] (c : Completion ε) : Decidable (m.ForCalls app P c) :=
  inferInstanceAs (Decidable (∀ call ∈ m.sslCalls app c, P call))

theorem counted_start (a : σ) (reads : List (ℤ × ℕ)) : (start a reads).tcp.Counted := by
  have hempty : TcpServer.Counted {} := fun i => rfl
  have hreads : ∀ s : TcpServer, s.Counted →
      (reads.foldl (fun s r => s.customReadReq r.1 r.2 none [] 0 none) s).Counted := by
    induction reads with
    | nil => exact fun s hs => hs
    | cons r reads ih =>
        intro s hs
        refine ih _ ((traced_submit (by simp) (by simp)).counted hs).1
  refine ((traced_submit (by simp) (by simp)).counted (hreads _ ?_)).1
  have hasked : ∀ {s : TcpServer} {event : EventType}, s.Counted → event ≠ .write → event ≠ .acceptWrite →
      (s.addEventReq event).Counted := fun hs h h' => ((traced_submit h h').counted hs).1
  exact hasked (hasked (hasked hempty (by decide) (by decide)) (by decide) (by decide)) (by decide) (by decide)

end Machine

/-- **The calls of wolfSSL.** In every run of the TLS server in which completed writes are those of the present
occupants, and in which the shutdown of an established session sends once, `tls_send` finds a front entry whenever
it runs for an active connection, and no slot is freed with a write request in flight, exactly if every call is
quiet. -/
theorem tls_calls_defined_iff {σ ε : Type*} (app : App σ ε) (a : σ) (reads : List (ℤ × ℕ))
    (cs : List (Completion ε)) (m : Machine σ) (logs : List (List Callback))
    (hrun : Runs.exec (Machine.step .tls app) (Machine.start a reads) cs = some (m, logs))
    (hkeeps : Runs.Along (Machine.step .tls app)
      (fun m c => m.ServesOwn c ∧ m.ForCalls app TlsCall.Notifies c) (Machine.start a reads) cs) :
    Runs.Along (Machine.step .tls app) (Machine.ForCalls app TlsCall.Defined) (Machine.start a reads) cs ↔
      Runs.Along (Machine.step .tls app) (Machine.ForCalls app TlsCall.Quiet) (Machine.start a reads) cs := by
  refine Runs.along_iff_of_exec (I := fun m : Machine σ => (∃ n, OccupantInv n m.tcp) ∧ m.tcp.Counted) ?_
    ⟨⟨0, Machine.occupantInv_start a reads⟩, Machine.counted_start a reads⟩ hkeeps hrun
  rintro m c m' log ⟨⟨n, hinv⟩, hcounted⟩ ⟨hown, hnotifies⟩ hstep
  obtain ⟨hcounted', hcalls, -⟩ := Machine.counted_step hinv hcounted hown hstep
  refine ⟨⟨Machine.occupantInv_step hinv hstep, hcounted'⟩, forall₂_congr fun call hcall => ?_⟩
  exact call.defined_iff (hcalls call hcall).1 (hcalls call hcall).2 (hnotifies call hcall)

/-- A handshake, and a record that is answered; the answer is being written. -/
def answerEvents : List (Completion Unit) :=
  [{ index := 3, res := 10, wolf := [{ io := [.recv 5] }], env := () },
    { index := 4, res := 5, data := [1, 2, 3, 4, 5], wolf := [{ io := [.recv 5], ret := 1 }, { io := [.recv 5] }],
      env := () },
    { index := 4, res := 3, data := [6, 7, 8],
      wolf := [{ io := [.recv 3], ret := 1, data := [9] }, { io := [.send 24 0] }], env := () }]

/-- The first piece of the answer is written, and wolfSSL sends the second one. -/
def secondPiece : Completion Unit := { index := 4, res := 24, wolf := [{ io := [.send 24 0, .send 8 0] }], env := () }

theorem tls_calls_defined_pieces :
    Runs.Along (Machine.step .tls replyApp) (Machine.ForCalls replyApp TlsCall.Defined) (Machine.start () [])
      (answerEvents ++ [secondPiece]) := by
  have hkeeps : Runs.Along (Machine.step .tls replyApp)
      (fun m c => m.ServesOwn c ∧ m.ForCalls replyApp TlsCall.Notifies c) (Machine.start () [])
      (answerEvents ++ [secondPiece]) := by decide +kernel
  have hquiet : Runs.Along (Machine.step .tls replyApp) (Machine.ForCalls replyApp TlsCall.Quiet) (Machine.start () [])
      (answerEvents ++ [secondPiece]) := by decide +kernel
  have hsome : (Runs.exec (Machine.step .tls replyApp) (Machine.start () []) (answerEvents ++ [secondPiece])).isSome =
      true := by decide +kernel
  obtain ⟨⟨m, logs⟩, hrun⟩ := Option.isSome_iff_exists.mp hsome
  exact (tls_calls_defined_iff replyApp () [] _ m logs hrun hkeeps).mpr hquiet

/-- The answer is written, and the application closes the connection: wolfSSL notifies the client. -/
def closeNotify : Completion Unit :=
  { index := 4, res := 24, wolf := [{ io := [.send 24 0], ret := 1 }, { io := [.send 24 (-1)] }], env := () }

/-- The notification is sent with an empty queue, and the slot is freed while it is being written. -/
theorem tls_send_without_entry :
    Runs.Along (Machine.step .tls replyApp)
        (fun m c => m.ServesOwn c ∧ m.ForCalls replyApp TlsCall.Notifies c) (Machine.start () [])
        (answerEvents ++ [closeNotify]) ∧
      ∃ m logs m' log call s,
        Runs.exec (Machine.step .tls replyApp) (Machine.start () []) answerEvents = some (m, logs) ∧
        Machine.step .tls replyApp m closeNotify = some (m', log) ∧ call ∈ m.sslCalls replyApp closeNotify ∧
        call.op = .shutdown ∧ s ∈ call.tcp.sends call.i ∧ call.i ∈ s.activeConnections ∧
        (s.clients call.i).sendData = [] ∧ call.i ∈ m'.tcp.freedIndexes ∧ m'.tcp.uncompleted call.i ≠ [] := by
  refine ⟨by decide +kernel, ?_⟩
  have hsome : (Runs.exec (Machine.step .tls replyApp) (Machine.start () []) answerEvents).any (fun r =>
      (Machine.step .tls replyApp r.1 closeNotify).any fun r' => (r.1.sslCalls replyApp closeNotify).any fun call =>
        call.op = .shutdown ∧ call.i ∈ r'.1.tcp.freedIndexes ∧ r'.1.tcp.uncompleted call.i ≠ [] ∧
          (call.tcp.sends call.i).any fun s => call.i ∈ s.activeConnections ∧ (s.clients call.i).sendData = []) =
      true := by decide +kernel
  simp only [Option.any_eq_true, List.any_eq_true, decide_eq_true_eq] at hsome
  obtain ⟨⟨m, logs⟩, hrun, ⟨m', log⟩, hstep, call, hcall, hop, hfreed, hleft, s, hs, hactive, hnil⟩ := hsome
  exact ⟨m, logs, m', log, call, s, hrun, hstep, hcall, hop, hs, hactive, hnil, hfreed, hleft⟩

end LiburingServer
