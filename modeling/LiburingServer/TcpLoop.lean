import LiburingServer.Tcp
import LiburingServer.Lib.Runs

/-! The event loop of `server_base::start` and the handlers of both server types. The application is a
parameter: its callbacks change its own state and make calls of the TCP server. Neither the accept nor
the close callback of the repository makes any, and no call of the TCP server invokes a callback, so a
callback is a function of the state of the application alone. -/

namespace LiburingServer

/-- The callbacks of an application with state `σ`; `ε` is what its environment contributes. A callback
without result is undefined. -/
structure App (σ ε : Type*) where
  acceptCb : σ → ℕ → Option σ
  closeCb : σ → ℕ → ℤ → Option σ
  readCb : ε → σ → ℕ → Bytes → Option (σ × List TcpCall)
  writeCb : ε → σ → ℕ → ℤ → Option (σ × List TcpCall)
  eventCb : ε → σ → Option (σ × List TcpCall)
  customReadCb : ε → σ → Option ℕ → ℤ → Bytes → Option (σ × List TcpCall)

/-- A callback that was invoked. -/
inductive Callback where
  | accept (i : ℕ)
  | close (i : ℕ) (info : ℤ)
  | read (i : ℕ) (buffer : Bytes)
  | write (i : ℕ) (info : ℤ)
  | event
  | customRead (i : Option ℕ) (fd : ℤ) (buffer : Bytes)
  deriving DecidableEq

/-- The server, its application, and the callbacks invoked for the event being handled. -/
structure Machine (σ : Type*) where
  tcp : TcpServer
  app : σ
  log : List Callback := []

/-- The completion of the request at `index` of those in flight, with the kernel's result and the bytes
it has read. `halfClosed` says which sockets a peek finds closed by the peer, `order` in which order
the sweep visits the clients, and `wolf` what wolfSSL does. -/
structure Completion (ε : Type*) where
  index : ℕ
  res : ℤ
  data : Bytes := []
  halfClosed : List ℕ := []
  order : List ℕ := []
  wolf : List WolfCall := []
  env : ε

variable {σ ε : Type*}

namespace Machine

def onTcp (m : Machine σ) (f : TcpServer → TcpServer) : Machine σ := { m with tcp := f m.tcp }

@[simp] theorem onTcp_tcp (m : Machine σ) (f : TcpServer → TcpServer) : (m.onTcp f).tcp = f m.tcp := rfl

@[simp] theorem onTcp_app (m : Machine σ) (f : TcpServer → TcpServer) : (m.onTcp f).app = m.app := rfl

@[simp] theorem onTcp_log (m : Machine σ) (f : TcpServer → TcpServer) : (m.onTcp f).log = m.log := rfl

def acceptCb (app : App σ ε) (m : Machine σ) (i : ℕ) : Option (Machine σ) :=
  (app.acceptCb m.app i).map fun a => { m with app := a, log := m.log ++ [.accept i] }

def closeCb (app : App σ ε) (i : ℕ) (m : Machine σ) (info : ℤ) : Option (Machine σ) :=
  (app.closeCb m.app i info).map fun a => { m with app := a, log := m.log ++ [.close i info] }

/-- A callback that makes calls: they are carried out when it returns. -/
def callback (T : ServerType) (m : Machine σ) (cb : Callback) (result : Option (σ × List TcpCall)) :
    Option (Machine σ) :=
  match result with
  | none => none
  | some (a, cs) => (m.tcp.calls T cs).map fun tcp => ⟨tcp, a, m.log ++ [cb]⟩

def readCb (T : ServerType) (app : App σ ε) (env : ε) (m : Machine σ) (i : ℕ) (buffer : Bytes) :
    Option (Machine σ) :=
  m.callback T (.read i buffer) (app.readCb env m.app i buffer)

def writeCb (T : ServerType) (app : App σ ε) (env : ε) (m : Machine σ) (i : ℕ) (info : ℤ) :
    Option (Machine σ) :=
  m.callback T (.write i info) (app.writeCb env m.app i info)

/-- The loop that empties a queue before its connection is closed: the close callback for each entry,
once more without an entry, and then `close_connection`. -/
def drainAndClose (T : ServerType) (app : App σ ε) (m : Machine σ) (i : ℕ) : Option (Machine σ) :=
  let infos := (m.tcp.clients i).sendData.map WriteData.broadcastInfo
  ((infos ++ [-1]).foldlM (closeCb app i) m).map fun (m : Machine σ) =>
    m.onTcp fun s => (s.setQueue i []).closeConnection T i

section

variable {T : ServerType} {app : App σ ε} {m m' : Machine σ} {i : ℕ}

theorem callback_eq_some {cb : Callback} {result : Option (σ × List TcpCall)}
    (h : m.callback T cb result = some m') :
    ∃ a cs, result = some (a, cs) ∧ m.tcp.calls T cs = some m'.tcp ∧ m'.app = a ∧
      m'.log = m.log ++ [cb] := by
  unfold callback at h
  split at h
  · cases h
  · rename_i a cs
    obtain ⟨tcp, htcp, rfl⟩ := Option.map_eq_some_iff.mp h
    exact ⟨a, cs, rfl, htcp, rfl, rfl⟩

theorem closeCb_tcp {info : ℤ} (h : closeCb app i m info = some m') : m'.tcp = m.tcp := by
  obtain ⟨a, -, rfl⟩ := Option.map_eq_some_iff.mp h
  rfl

/-- What closing does to the server; the close callbacks do not touch it. -/
theorem drainAndClose_tcp (h : m.drainAndClose T app i = some m') :
    m'.tcp = (m.tcp.setQueue i []).closeConnection T i := by
  obtain ⟨m₁, hm₁, rfl⟩ := Option.map_eq_some_iff.mp h
  have htcp : m₁.tcp = m.tcp := Runs.foldlM_keeps (R := fun x => x.tcp = m.tcp)
    (fun _ _ _ _ hb hf => (closeCb_tcp hf).trans hb) rfl hm₁
  simp only [onTcp, htcp]

end

def closeIfIdle (T : ServerType) (app : App σ ε) (m : Machine σ) (i : ℕ) : Option (Machine σ) :=
  if (m.tcp.clients i).numWriteReqs = 0 then m.drainAndClose T app i else some m

/-- A failed request of the present occupant of its slot. -/
def failed (T : ServerType) (app : App σ ε) (m : Machine σ) (i : ℕ) (event : EventType) :
    Option (Machine σ) :=
  if event = .write ∨ event = .acceptWrite then (m.onTcp fun s => s.endWrite i).closeIfIdle T app i
  else m.closeIfIdle T app i

/-- The sweep: every active connection whose peer has closed is closed. -/
def sweep (T : ServerType) (app : App σ ε) (m : Machine σ) (order halfClosed : List ℕ) :
    Option (Machine σ) :=
  (visitOrder m.tcp.activeConnections order).foldlM
    (fun m i => if i ∈ halfClosed then m.drainAndClose T app i else some m) m

/-- The bytes a completed read of a client has received. -/
def received (readData data : Bytes) (res : ℤ) : Bytes := (data ++ readData).take res.toNat

/-- A completed custom read: the whole of what was asked for, or a further read at the right offset. The
kernel stores behind the `read_amount` bytes that are there. -/
def customRead (T : ServerType) (app : App σ ε) (env : ε) (m : Machine σ) (sub : Submission) (res : ℤ)
    (data : Bytes) : Option (Machine σ) :=
  let req := sub.req
  let stored := data.take res.toNat
  if stored ≠ [] ∧ req.readData.length < req.readAmount + stored.length then none
  else
    let readData := req.readData.take req.readAmount ++ stored ++
      req.readData.drop (req.readAmount + stored.length)
    if (readData.length : ℤ) = (res + req.readAmount) % 2 ^ 64 then
      let m := m.onTcp fun s => { s with finishedReads := s.finishedReads ++ [(sub.file, readData)] }
      m.callback T (.customRead req.clientIdx req.customInfo readData)
        (app.customReadCb env m.app req.clientIdx req.customInfo readData)
    else
      let readAmount := ((req.readAmount + res) % 2 ^ 64).toNat
      some (m.onTcp fun s => s.submit { sub with req := { req with readData, readAmount } })

/-! ### The plain server -/

/-- `WRITE`: the rest of the data is written, or the front entry is done and the next one is written. -/
def plainWrite (app : App σ ε) (env : ε) (m : Machine σ) (sub : Submission) (i : ℕ) (res : ℤ) :
    Option (Machine σ) :=
  let req := sub.req
  if res + req.written < req.totalLength ∧ 0 < res then
    match (m.tcp.clients i).sendData with
    | [] => none
    | front :: _ =>
        let written := req.written + res.toNat
        some (m.onTcp fun s => s.submit { sub with addr := front.ptr, req := { req with written } })
  else
    let m := m.onTcp fun s => s.endWrite i
    if i ∈ m.tcp.activeConnections ∧ (m.tcp.clients i).id = req.ID then
      match (m.tcp.clients i).sendData with
      | [] => none
      | front :: rest =>
          (m.onTcp fun s => s.writeNext i rest).writeCb .nonTls app env i front.broadcastInfo
    else m.writeCb .nonTls app env i (-1)

def plainHandler (app : App σ ε) (m : Machine σ) (sub : Submission) (i : ℕ) (c : Completion ε) :
    Option (Machine σ) :=
  match sub.req.event with
  | .read =>
      (m.onTcp fun s => s.modifyClient i fun client => { client with readReqActive := false }).readCb
        .nonTls app c.env i (received sub.req.readData c.data c.res)
  | .write => m.plainWrite app c.env sub i c.res
  | _ => some m

def plainAccept (app : App σ ε) (m : Machine σ) (res : ℤ) : Option (Machine σ) :=
  let r := (m.tcp.addEventReq .accept).setupClient res
  let m := m.onTcp fun _ => { r.1 with activeConnections := insert r.2 r.1.activeConnections }
  (m.acceptCb app r.2).map fun m => m.onTcp fun s => s.addReadReq r.2 .read

/-! ### The TLS server -/

/-- The bytes a read adds to `recv_data`. -/
def tlsReceive (s : TcpServer) (i : ℕ) (sub : Submission) (c : Completion ε) : TcpServer :=
  let bytes := Machine.received sub.req.readData c.data c.res
  s.modifyClient i fun client =>
    { client with
      readReqActive := false
      recvData := client.recvData ++ bytes
      received := if sub.occupant = s.occupants i then client.received ++ bytes else client.received }

def tlsAcceptRead (app : App σ ε) (m : Machine σ) (sub : Submission) (i : ℕ) (c : Completion ε) :
    Option (Machine σ) :=
  let r := (tlsReceive m.tcp i sub c).wolfCall i
  let m := m.onTcp fun _ => r.1
  if r.2.ret = 1 then
    (m.acceptCb app i).bind fun m =>
      let r := ({ m.tcp with activeConnections := insert i m.tcp.activeConnections }).wolfCall i
      let m := m.onTcp fun _ => r.1.modifyClient i fun client => { client with recvData := [] }
      if -1 < r.2.ret then
        (m.onTcp fun s => s.modifyClient i fun client => { client with readReqActive := false }).readCb
          .tls app c.env i (received (List.replicate readSize 0) r.2.data r.2.ret)
      else some m
  else some m

def tlsAcceptWrite (m : Machine σ) (i : ℕ) (res : ℤ) : Machine σ :=
  m.onTcp fun s => (((s.endWrite i).modifyClient i fun client =>
    { client with acceptLastWritten := res }).wolfCall i).1

/-- The front entry has been written: it is taken off the queue, the write callback is called, and what
is in front then is written next. -/
def tlsWritten (app : App σ ε) (env : ε) (m : Machine σ) (i : ℕ) : Option (Machine σ) :=
  match (m.tcp.clients i).sendData with
  | [] => none
  | front :: rest =>
      let m := m.onTcp fun s => s.setQueue i rest
      (m.writeCb .tls app env i front.broadcastInfo).map fun m =>
        if (m.tcp.clients i).sendData = [] then m else m.onTcp fun s => (s.wolfCall i).1

/-- `WRITE`: wolfSSL is told how much was written and either asks for more or is done with the front
entry. -/
def tlsWrite (app : App σ ε) (env : ε) (m : Machine σ) (i : ℕ) (res : ℤ) : Option (Machine σ) :=
  let m := m.onTcp fun s => s.endWrite i
  match (m.tcp.clients i).sendData with
  | [] => some m
  | front :: rest =>
      let r := (m.tcp.setQueue i ({ front with lastWritten := res } :: rest)).wolfCall i
      let m := m.onTcp fun _ => r.1
      if -1 < r.2.ret then m.tlsWritten app env i else some m

/-- The loop that calls `wolfSSL_read` until `recv_data` is used up; each round is one call of wolfSSL. -/
def tlsReadLoop (i : ℕ) : ℕ → TcpServer → Bytes → TcpServer × Bytes
  | 0, s, buffer => (s, buffer)
  | fuel + 1, s, buffer =>
      if (s.clients i).recvData = [] then (s, buffer)
      else
        let r := s.wolfCall i
        if r.2.ret ≤ 0 then (r.1, buffer)
        else tlsReadLoop i fuel r.1 (buffer ++ received (List.replicate r.2.ret.toNat 0) r.2.data r.2.ret)

def tlsRead (app : App σ ε) (m : Machine σ) (sub : Submission) (i : ℕ) (c : Completion ε) :
    Option (Machine σ) :=
  let s := tlsReceive m.tcp i sub c
  let r := tlsReadLoop i (s.wolf.length + 1) s []
  let m := m.onTcp fun _ => r.1
  if r.2 = [] then some (m.onTcp fun s => s.addReadReq i .read)
  else m.readCb .tls app c.env i r.2

def tlsHandler (app : App σ ε) (m : Machine σ) (sub : Submission) (i : ℕ) (c : Completion ε) :
    Option (Machine σ) :=
  match sub.req.event with
  | .acceptRead => m.tlsAcceptRead app sub i c
  | .acceptWrite => some (m.tlsAcceptWrite i c.res)
  | .write => m.tlsWrite app c.env i c.res
  | .read => m.tlsRead app sub i c
  | _ => some m

def tlsAccept (m : Machine σ) (res : ℤ) : Machine σ :=
  let r := m.tcp.setupClient res
  m.onTcp fun _ => (((r.1.addEventReq .accept).modifyClient r.2 fun client =>
    { client with ssl := true }).wolfCall r.2).1

/-! ### The loop -/

/-- A request of a client: the guard against failed requests and requests of an earlier occupant. -/
def clientEvent (T : ServerType) (app : App σ ε) (m : Machine σ) (sub : Submission) (i : ℕ)
    (c : Completion ε) : Option (Machine σ) :=
  if i < m.tcp.numClients then
    if c.res ≤ 0 ∨ 0 < i ∧ (m.tcp.clients i).id ≠ sub.req.ID then
      if c.res ≤ 0 ∧ (m.tcp.clients i).id = sub.req.ID then m.failed T app i sub.req.event else some m
    else
      match T with
      | .nonTls => m.plainHandler app sub i c
      | .tls => m.tlsHandler app sub i c
  else none

/-- The handling of a completion, the request having been taken from those in flight. -/
def dispatch (T : ServerType) (app : App σ ε) (m : Machine σ) (sub : Submission) (c : Completion ε) :
    Option (Machine σ) :=
  match sub.req.event with
  | .kill => some (m.onTcp fun s => { s with isActive := false })
  | .notification =>
      (m.onTcp fun s => s.addEventReq .notification).callback T .event (app.eventCb c.env m.app)
  | .customRead => m.customRead T app c.env sub c.res c.data
  | .timerfd => (m.sweep T app c.order c.halfClosed).map fun m => m.onTcp fun s => s.addEventReq .timerfd
  | .accept =>
      match T with
      | .nonTls => m.plainAccept app c.res
      | .tls => some (m.tlsAccept c.res)
  | .acceptRead | .acceptWrite | .read | .write =>
      match sub.req.clientIdx with
      | none => none
      | some i => m.clientEvent T app sub i c

/-- The server with one of its requests completed and no callback called for it yet. -/
def take (m : Machine σ) (c : Completion ε) : Machine σ :=
  ⟨m.tcp.takeCompleted c.index c.wolf, m.app, []⟩

@[simp] theorem take_tcp (m : Machine σ) (c : Completion ε) :
    (m.take c).tcp = m.tcp.takeCompleted c.index c.wolf := rfl

@[simp] theorem take_app (m : Machine σ) (c : Completion ε) : (m.take c).app = m.app := rfl

@[simp] theorem take_log (m : Machine σ) (c : Completion ε) : (m.take c).log = [] := rfl

/-- One round of the loop. There is none once the server was killed. -/
def step (T : ServerType) (app : App σ ε) (m : Machine σ) (c : Completion ε) :
    Option (Machine σ × List Callback) :=
  match m.tcp.inflight[c.index]? with
  | none => none
  | some sub =>
      if m.tcp.isActive then (dispatch T app (m.take c) sub c).map fun m => (m, m.log) else none

theorem step_eq_some {T : ServerType} {app : App σ ε} {m m' : Machine σ} {c : Completion ε}
    {log : List Callback} (h : step T app m c = some (m', log)) :
    ∃ sub, m.tcp.inflight[c.index]? = some sub ∧ dispatch T app (m.take c) sub c = some m' ∧
      log = m'.log := by
  unfold step at h
  split at h
  · cases h
  · rename_i sub hsub
    split at h
    · obtain ⟨m₁, hm₁, heq⟩ := Option.map_eq_some_iff.mp h
      obtain ⟨rfl, rfl⟩ : m₁ = m' ∧ m₁.log = log := by simpa using heq
      exact ⟨sub, hsub, hm₁, rfl⟩
    · cases h

/-- The events that are checked against the present occupant of their slot. -/
theorem dispatch_ofClient {T : ServerType} {app : App σ ε} {m : Machine σ} {sub : Submission}
    {c : Completion ε} (h : sub.req.event.OfClient) :
    dispatch T app m sub c = sub.req.clientIdx.bind fun i => m.clientEvent T app sub i c := by
  simp only [EventType.OfClient, List.mem_cons, List.not_mem_nil, or_false] at h
  rcases h with h | h | h | h <;> simp only [dispatch, h] <;> cases sub.req.clientIdx <;> rfl

/-- What handling a completion can do, by the kind of the request. -/
theorem dispatch_rule {T : ServerType} {app : App σ ε} {m m' : Machine σ} {sub : Submission}
    {c : Completion ε} {R : Machine σ → Prop} (h : dispatch T app m sub c = some m')
    (hkill : sub.req.event = .kill → R (m.onTcp fun s => { s with isActive := false }))
    (hnotification : sub.req.event = .notification →
      (m.onTcp fun s => s.addEventReq .notification).callback T .event (app.eventCb c.env m.app) = some m' →
      R m')
    (hcustomRead : sub.req.event = .customRead → m.customRead T app c.env sub c.res c.data = some m' → R m')
    (htimerfd : sub.req.event = .timerfd → ∀ m₁, m.sweep T app c.order c.halfClosed = some m₁ →
      R (m₁.onTcp fun s => s.addEventReq .timerfd))
    (hplainAccept : sub.req.event = .accept → T = .nonTls → m.plainAccept app c.res = some m' → R m')
    (htlsAccept : sub.req.event = .accept → T = .tls → R (m.tlsAccept c.res))
    (hclient : ∀ i, sub.req.clientIdx = some i → sub.req.event.OfClient →
      m.clientEvent T app sub i c = some m' → R m') : R m' := by
  by_cases hevent : sub.req.event.OfClient
  · rw [dispatch_ofClient hevent] at h
    obtain ⟨i, hi, hm'⟩ := Option.bind_eq_some_iff.mp h
    exact hclient i hi hevent hm'
  unfold dispatch at h
  split at h
  · obtain rfl := Option.some.inj h
    exact hkill ‹_›
  · exact hnotification ‹_› h
  · exact hcustomRead ‹_› h
  · obtain ⟨m₁, hm₁, rfl⟩ := Option.map_eq_some_iff.mp h
    exact htimerfd ‹_› m₁ hm₁
  · split at h
    · exact hplainAccept ‹_› rfl h
    · obtain rfl := Option.some.inj h
      exact htlsAccept ‹_› rfl
  all_goals exact absurd (by simp [EventType.OfClient, *]) hevent

/-- The server when its loop starts, with the custom reads (descriptor and size) that its application
has asked for before. -/
def start (app : σ) (reads : List (ℤ × ℕ)) : Machine σ where
  tcp :=
    let s : TcpServer := ((({} : TcpServer).addEventReq .kill).addEventReq .notification).addEventReq .timerfd
    (reads.foldl (fun s r => s.customReadReq r.1 r.2 none [] 0 none) s).addEventReq .accept
  app := app

end Machine

/-- An application that answers what it reads and closes the connection when the answer is written. -/
def replyApp : App Unit Unit where
  acceptCb _ _ := some ()
  closeCb _ _ _ := some ()
  readCb _ _ i buffer := some ((), [.writeConnection i buffer])
  writeCb _ _ i _ := some ((), [.closeConnection i])
  eventCb _ _ := some ((), [])
  customReadCb _ _ _ _ _ := some ((), [])

end LiburingServer
