import LiburingServer.Common
import Mathlib.Data.Finset.Lattice.Fold
import Mathlib.Data.Finset.Max
import Mathlib.Data.Fintype.Basic
import Mathlib.Order.Lattice.Nat

/-! The state of `tcp_tls_server::server` and the operations on it: requests to io_uring, the write
queues, opening and closing connections. A request is in flight from its submission until its
completion is handled. wolfSSL is not part of the repository: a call of it is described by the I/O
callbacks it invokes and the value it returns, which come from the environment. -/

namespace LiburingServer

/-- What a `char*` handed to a queue or to the kernel points to: the storage of a vector owned by a
queue entry, a buffer of the file cache, a broadcast item, or the output buffer of wolfSSL. -/
inductive Ptr where
  | null
  | vector (addr : ℕ)
  | cached (slot : ℕ)
  | item (serial : ℕ)
  | wolfssl
  deriving DecidableEq, Repr

structure Request where
  event : EventType
  clientIdx : Option ℕ := none
  ID : ℤ := -1
  written : ℕ := 0
  totalLength : ℕ := 0
  buffer : Ptr := .null
  readData : Bytes := []
  readAmount : ℕ := 0
  customInfo : ℤ := 0
  deriving DecidableEq

/-- The request of `custom_read_req`, whose buffer gets a size that is computed in 64 bits. -/
def Request.customRead (fd : ℤ) (toRead : ℕ) (clientIdx : Option ℕ) (buff : Bytes) (readAmount : ℕ) : Request :=
  let size := (toRead + readAmount) % 2 ^ 64
  { event := .customRead, clientIdx, totalLength := toRead, readAmount, customInfo := fd,
    readData := (buff ++ List.replicate size 0).take size }

namespace Request

section

variable (fd : ℤ) (toRead : ℕ) (clientIdx : Option ℕ) (buff : Bytes) (readAmount : ℕ)

@[simp] theorem customRead_event : (customRead fd toRead clientIdx buff readAmount).event = .customRead := rfl

@[simp] theorem customRead_clientIdx : (customRead fd toRead clientIdx buff readAmount).clientIdx = clientIdx := rfl

@[simp] theorem customRead_customInfo : (customRead fd toRead clientIdx buff readAmount).customInfo = fd := rfl

@[simp] theorem customRead_totalLength :
    (customRead fd toRead clientIdx buff readAmount).totalLength = toRead := rfl

@[simp] theorem customRead_readAmount :
    (customRead fd toRead clientIdx buff readAmount).readAmount = readAmount := rfl

@[simp] theorem customRead_length :
    (customRead fd toRead clientIdx buff readAmount).readData.length = (toRead + readAmount) % 2 ^ 64 := by
  simp [customRead]

end

/-- A buffer that has the size already is left as it is. -/
theorem customRead_readData (fd : ℤ) (clientIdx : Option ℕ) {toRead readAmount : ℕ} {buff : Bytes}
    (hsize : buff.length = toRead + readAmount) (hlt : toRead + readAmount < 2 ^ 64) :
    (customRead fd toRead clientIdx buff readAmount).readData = buff := by
  have hmod : (toRead + readAmount) % 2 ^ 64 = buff.length := by rw [Nat.mod_eq_of_lt hlt, hsize]
  simp only [customRead, hmod, List.take_left]

end Request

/-- A request that the kernel has not completed. `addr` is where the kernel was told to write from.
`occupant` and `file` are bookkeeping that the source does not have: which connection of its slot the
request was submitted for, and the path whose file a custom read reads. -/
structure Submission where
  req : Request
  addr : Ptr := .null
  occupant : ℕ := 0
  file : Option Bytes := none
  deriving DecidableEq

/-- `write_data`. The storage of the vector `buff` is at `addr`. -/
structure WriteData where
  lastWritten : ℤ := -1
  customInfo : ℤ := 0
  buff : Bytes := []
  addr : ℕ := 0
  broadcast : Bool := false
  ptrBuff : Ptr := .null
  totalLength : ℕ := 0
  deriving DecidableEq

/-- `get_ptr_and_size`; an empty vector has no storage. -/
def WriteData.ptr (d : WriteData) : Ptr :=
  if d.ptrBuff ≠ .null then d.ptrBuff else if d.buff = [] then .null else .vector d.addr

def WriteData.size (d : WriteData) : ℕ :=
  if d.ptrBuff ≠ .null then d.totalLength else d.buff.length

/-- The item number of a broadcast, `-1` for anything else. -/
def WriteData.broadcastInfo (d : WriteData) : ℤ := if d.broadcast then d.customInfo else -1

/-- `client`, with the members of the TLS client. `ssl` says whether its pointer is not null. `received`
and `delivered` are bookkeeping that the source does not have: what was received for the present
occupant of the slot, and what wolfSSL has got of it. -/
structure Client where
  id : ℤ := -1
  sockfd : ℤ := -1
  sendData : List WriteData := []
  readReqActive : Bool := false
  numWriteReqs : ℤ := 0
  ssl : Bool := false
  acceptLastWritten : ℤ := -1
  recvData : Bytes := []
  received : Bytes := []
  delivered : Bytes := []
  deriving DecidableEq

/-- An I/O callback that wolfSSL invokes. `stale` is what `last_written` reads as when the callback looks
at the front of an empty queue. -/
inductive WolfIo where
  | send (size : ℕ) (stale : ℤ)
  | recv (size : ℕ)
  deriving DecidableEq

/-- One call of wolfSSL: its callbacks, the value it returns and the bytes a read decrypts. -/
structure WolfCall where
  io : List WolfIo := []
  ret : ℤ := -1
  data : Bytes := []
  deriving DecidableEq

/-- `clients` has `numClients` elements. `occupants` counts how often a slot was handed out again and
`nextAddr` is the address of the next vector a queue allocates; `finishedReads` lists the file reads
that completed, and `closed` the sockets that were closed, by slot and occupant. `wolf` holds the calls
of wolfSSL to come. -/
structure TcpServer where
  clients : ℕ → Client := fun _ => {}
  numClients : ℕ := 0
  activeConnections : Finset ℕ := ∅
  freedIndexes : Finset ℕ := ∅
  inflight : List Submission := []
  isActive : Bool := true
  occupants : ℕ → ℕ := fun _ => 0
  nextAddr : ℕ := 0
  finishedReads : List (Option Bytes × Bytes) := []
  closed : List (ℕ × ℕ) := []
  wolf : List WolfCall := []

/-- The order in which an unordered set is visited: the environment's choice `order` as far as it
names elements, and then the others. -/
def visitOrder (s : Finset ℕ) (order : List ℕ) : List ℕ :=
  order.dedup.filter (· ∈ s) ++ (List.range (s.sup id + 1)).filter fun i => i ∈ s ∧ i ∉ order

theorem mem_visitOrder {s : Finset ℕ} {order : List ℕ} {i : ℕ} : i ∈ visitOrder s order ↔ i ∈ s := by
  have hbound : i ∈ s → i < s.sup id + 1 := fun h => Nat.lt_succ_of_le (Finset.le_sup (f := id) h)
  simp only [visitOrder, List.mem_append, List.mem_filter, List.mem_dedup, decide_eq_true_eq,
    List.mem_range]
  tauto

theorem nodup_visitOrder (s : Finset ℕ) (order : List ℕ) : (visitOrder s order).Nodup := by
  refine List.nodup_append.mpr ⟨order.nodup_dedup.filter _, List.nodup_range.filter _, ?_⟩
  intro i hi j hj heq
  have horder : i ∈ order := List.mem_dedup.mp (List.mem_filter.mp hi).1
  have hother := (List.mem_filter.mp hj).2
  simp only [decide_eq_true_eq] at hother
  exact hother.2 (heq ▸ horder)

theorem length_visitOrder (s : Finset ℕ) (order : List ℕ) : (visitOrder s order).length = s.card := by
  rw [← List.toFinset_card_of_nodup (nodup_visitOrder s order)]
  congr 1
  ext i
  rw [List.mem_toFinset, mem_visitOrder]

namespace TcpServer

def modifyClient (s : TcpServer) (i : ℕ) (f : Client → Client) : TcpServer :=
  { s with clients := Function.update s.clients i (f (s.clients i)) }

/-- `io_uring_submit`. -/
def submit (s : TcpServer) (sub : Submission) : TcpServer := { s with inflight := s.inflight ++ [sub] }

section

variable (s : TcpServer) (i j : ℕ) (f : Client → Client) (sub : Submission)

@[simp] theorem submit_clients : (s.submit sub).clients = s.clients := rfl

@[simp] theorem submit_activeConnections : (s.submit sub).activeConnections = s.activeConnections := rfl

@[simp] theorem submit_numClients : (s.submit sub).numClients = s.numClients := rfl

@[simp] theorem submit_inflight : (s.submit sub).inflight = s.inflight ++ [sub] := rfl

@[simp] theorem modifyClient_inflight : (s.modifyClient i f).inflight = s.inflight := rfl

@[simp] theorem modifyClient_activeConnections :
    (s.modifyClient i f).activeConnections = s.activeConnections := rfl

@[simp] theorem modifyClient_numClients : (s.modifyClient i f).numClients = s.numClients := rfl

@[simp] theorem modifyClient_self : (s.modifyClient i f).clients i = f (s.clients i) := by
  simp [modifyClient]

theorem modifyClient_of_ne (h : j ≠ i) : (s.modifyClient i f).clients j = s.clients j := by
  simp [modifyClient, h]

end

/-- The request at `n` of those in flight has been completed; `wolf` is what wolfSSL will do. -/
def takeCompleted (s : TcpServer) (n : ℕ) (wolf : List WolfCall) : TcpServer :=
  { s with inflight := s.inflight.eraseIdx n, wolf := wolf }

section

variable (s : TcpServer) (n : ℕ) (wolf : List WolfCall)

@[simp] theorem takeCompleted_clients : (s.takeCompleted n wolf).clients = s.clients := rfl

@[simp] theorem takeCompleted_numClients : (s.takeCompleted n wolf).numClients = s.numClients := rfl

@[simp] theorem takeCompleted_activeConnections :
    (s.takeCompleted n wolf).activeConnections = s.activeConnections := rfl

@[simp] theorem takeCompleted_freedIndexes :
    (s.takeCompleted n wolf).freedIndexes = s.freedIndexes := rfl

@[simp] theorem takeCompleted_occupants : (s.takeCompleted n wolf).occupants = s.occupants := rfl

@[simp] theorem takeCompleted_inflight :
    (s.takeCompleted n wolf).inflight = s.inflight.eraseIdx n := rfl

end

/-- `event_read`, `add_timerfd_read_req` and `add_accept_req`: requests for no client. -/
def addEventReq (s : TcpServer) (event : EventType) : TcpServer := s.submit { req := { event } }

/-- The request of a read for the present occupant of slot `i`. -/
def readSubmission (s : TcpServer) (i : ℕ) (event : EventType) : Submission where
  req.event := event
  req.clientIdx := some i
  req.ID := (s.clients i).id
  req.totalLength := readSize
  req.readData := List.replicate readSize 0
  occupant := s.occupants i

def addReadReq (s : TcpServer) (i : ℕ) (event : EventType) : TcpServer :=
  if (s.clients i).readReqActive then s
  else
    (s.submit (s.readSubmission i event)).modifyClient i
      fun client => { client with readReqActive := true }

/-- The request of a write for the present occupant of slot `i`; `length` is an `unsigned int`. -/
def writeSubmission (s : TcpServer) (i : ℕ) (event : EventType) (buffer : Ptr) (length : ℕ) :
    Submission where
  req.event := event
  req.clientIdx := some i
  req.ID := (s.clients i).id
  req.totalLength := length % 2 ^ 32
  req.buffer := buffer
  addr := buffer
  occupant := s.occupants i

def addWriteReq (s : TcpServer) (i : ℕ) (event : EventType) (buffer : Ptr) (length : ℕ) : TcpServer :=
  (s.modifyClient i fun client => { client with numWriteReqs := client.numWriteReqs + 1 }).submit
    (s.writeSubmission i event buffer length)

def setQueue (s : TcpServer) (i : ℕ) (sendData : List WriteData) : TcpServer :=
  s.modifyClient i fun client => { client with sendData := sendData }

section

variable (s : TcpServer) (i j : ℕ) (sendData : List WriteData)

@[simp] theorem setQueue_sendData : ((s.setQueue i sendData).clients i).sendData = sendData := by
  simp [setQueue]

@[simp] theorem setQueue_numWriteReqs :
    ((s.setQueue i sendData).clients i).numWriteReqs = (s.clients i).numWriteReqs := by
  simp [setQueue]

@[simp] theorem setQueue_id : ((s.setQueue i sendData).clients j).id = (s.clients j).id := by
  by_cases h : j = i <;> simp [setQueue, modifyClient, h]

theorem setQueue_of_ne (h : j ≠ i) : (s.setQueue i sendData).clients j = s.clients j :=
  modifyClient_of_ne _ _ _ _ h

@[simp] theorem setQueue_inflight : (s.setQueue i sendData).inflight = s.inflight := rfl

@[simp] theorem setQueue_activeConnections :
    (s.setQueue i sendData).activeConnections = s.activeConnections := rfl

@[simp] theorem setQueue_numClients : (s.setQueue i sendData).numClients = s.numClients := rfl

end

/-- One write request less is in flight for slot `i`. -/
def endWrite (s : TcpServer) (i : ℕ) : TcpServer :=
  s.modifyClient i fun client => { client with numWriteReqs := client.numWriteReqs - 1 }

/-- The queue goes on with `rest`, and its front entry, if there is one, is written. -/
def writeNext (s : TcpServer) (i : ℕ) (rest : List WriteData) : TcpServer :=
  match rest with
  | [] => s.setQueue i []
  | next :: _ => (s.setQueue i rest).addWriteReq i .write next.ptr next.size

/-- `custom_read_req`; a read of the inotify descriptor is for no client. -/
def customReadReq (s : TcpServer) (fd : ℤ) (toRead : ℕ) (clientIdx : Option ℕ) (buff : Bytes)
    (readAmount : ℕ) (file : Option Bytes) : TcpServer :=
  s.submit
    { req := .customRead fd toRead clientIdx buff readAmount
      occupant := (clientIdx.map s.occupants).getD 0
      file }

/-! ### The I/O callbacks of wolfSSL -/

def tlsSend (s : TcpServer) (i : ℕ) (size : ℕ) (stale : ℤ) : TcpServer :=
  if i ∈ s.activeConnections then
    match (s.clients i).sendData with
    | [] => if stale = -1 then s.addWriteReq i .write .wolfssl size else s
    | current :: rest =>
        if current.lastWritten = -1 then s.addWriteReq i .write .wolfssl size
        else s.setQueue i ({ current with lastWritten := -1 } :: rest)
  else if (s.clients i).acceptLastWritten = -1 then s.addWriteReq i .acceptWrite .wolfssl size
  else s.modifyClient i fun client => { client with acceptLastWritten := -1 }

def tlsRecvHelper (s : TcpServer) (i : ℕ) (size : ℕ) (accept : Bool) : TcpServer :=
  if size < (s.clients i).recvData.length then
    s.modifyClient i fun client =>
      { client with
        recvData := client.recvData.drop size
        delivered := client.delivered ++ client.recvData.take size }
  else if (s.clients i).recvData.length < size then
    if accept then s.addReadReq i .acceptRead else s
  else
    s.modifyClient i fun client =>
      { client with recvData := [], delivered := client.delivered ++ client.recvData }

def tlsRecv (s : TcpServer) (i : ℕ) (size : ℕ) : TcpServer :=
  if i ∈ s.activeConnections then
    if (s.clients i).recvData ≠ [] then s.tlsRecvHelper i size false else s.addReadReq i .read
  else
    if (s.clients i).recvData ≠ [] then s.tlsRecvHelper i size true else s.addReadReq i .acceptRead

def wolfIo (i : ℕ) (s : TcpServer) : WolfIo → TcpServer
  | .send size stale => s.tlsSend i size stale
  | .recv size => s.tlsRecv i size

/-- The next call of wolfSSL, on the session of slot `i`. Without a session it fails with
`BAD_FUNC_ARG`. -/
def wolfCall (s : TcpServer) (i : ℕ) : TcpServer × WolfCall :=
  let call := s.wolf.headD {}
  let s := { s with wolf := s.wolf.tail }
  if (s.clients i).ssl then (call.io.foldl (wolfIo i) s, call) else (s, { ret := -173 })

/-! ### Writing and closing -/

def pushEntry (s : TcpServer) (i : ℕ) (data : WriteData) : TcpServer :=
  s.setQueue i ((s.clients i).sendData ++ [data])

/-- What both server types do with a new queue entry: only the first one of the queue is written. -/
def enqueue (T : ServerType) (s : TcpServer) (i : ℕ) (data : WriteData) (length : ℕ) : TcpServer :=
  if ((s.pushEntry i data).clients i).sendData.length = 1 then
    match T with
    | .nonTls => (s.pushEntry i data).addWriteReq i .write data.ptr length
    | .tls => ((s.pushEntry i data).wolfCall i).1
  else s.pushEntry i data

section

variable {s : TcpServer} {i : ℕ} (data : WriteData) (length : ℕ)

theorem enqueue_plain_of_nil (h : (s.clients i).sendData = []) :
    s.enqueue .nonTls i data length = (s.pushEntry i data).addWriteReq i .write data.ptr length := by
  simp [enqueue, pushEntry, h]

theorem enqueue_of_ne_nil (T : ServerType) (h : (s.clients i).sendData ≠ []) :
    s.enqueue T i data length = s.pushEntry i data := by
  have hlong : ((s.pushEntry i data).clients i).sendData.length ≠ 1 := by
    have := List.length_pos_of_ne_nil h
    simp only [pushEntry, setQueue_sendData, List.length_append, List.length_singleton]
    omega
  unfold enqueue
  rw [if_neg hlong]

end

/-- `write_connection` of a vector. -/
def writeConnection (T : ServerType) (s : TcpServer) (i : ℕ) (buff : Bytes) : TcpServer :=
  { s with nextAddr := s.nextAddr + 1 }.enqueue T i { buff, addr := s.nextAddr } buff.length

/-- `write_connection` of a pointer. -/
def writeConnectionPtr (T : ServerType) (s : TcpServer) (i : ℕ) (buff : Ptr) (length : ℕ) : TcpServer :=
  s.enqueue T i { ptrBuff := buff, totalLength := length } length

def broadcastOne (T : ServerType) (buff : Ptr) (length : ℕ) (customInfo : ℤ) (s : TcpServer) (i : ℕ) :
    TcpServer :=
  s.enqueue T i { ptrBuff := buff, totalLength := length, broadcast := true, customInfo } length

/-- `broadcast_message` of a pointer to the given clients. -/
def broadcastMessage (T : ServerType) (s : TcpServer) (clientIdxs : List ℕ) (buff : Ptr) (length : ℕ)
    (customInfo : ℤ) : TcpServer :=
  clientIdxs.foldl (broadcastOne T buff length customInfo) s

/-- The slot is no longer in use: its queue is dropped, its socket is closed and its index can be handed
out again. -/
def freeSlot (s : TcpServer) (i : ℕ) : TcpServer :=
  { s.setQueue i [] with
    activeConnections := s.activeConnections.erase i
    freedIndexes := insert i s.freedIndexes
    closed := s.closed ++ [(i, s.occupants i)] }

/-- Nothing happens while write requests of the client are in flight. The TLS server shuts the session
down before the connection stops being active. -/
def closeConnection (T : ServerType) (s : TcpServer) (i : ℕ) : TcpServer :=
  if (s.clients i).numWriteReqs = 0 then
    match T with
    | .nonTls => s.freeSlot i
    | .tls => ((s.wolfCall i).1.modifyClient i fun client => { client with ssl := false }).freeSlot i
  else s

/-- `setup_client`: the lowest free index, or a new one. -/
def setupClient (s : TcpServer) (sockfd : ℤ) : TcpServer × ℕ :=
  if h : s.freedIndexes.Nonempty then
    let index := s.freedIndexes.min' h
    let client : Client := { id := ((s.clients index).id + 1) % 100, sockfd }
    ({ s with
        clients := Function.update s.clients index client
        freedIndexes := s.freedIndexes.erase index
        occupants := Function.update s.occupants index (s.occupants index + 1) }, index)
  else
    let index := s.numClients
    let client : Client := { sockfd }
    ({ s with
        clients := Function.update s.clients index client
        numClients := s.numClients + 1
        occupants := Function.update s.occupants index 0 }, index)

end TcpServer

/-- The calls of the TCP server that the callbacks of the application make. `file` is bookkeeping. -/
inductive TcpCall where
  | writeConnection (i : ℕ) (buff : Bytes)
  | writeConnectionPtr (i : ℕ) (buff : Ptr) (length : ℕ)
  | broadcastMessage (clientIdxs : List ℕ) (buff : Ptr) (length : ℕ) (customInfo : ℤ)
  | closeConnection (i : ℕ)
  | readConnection (i : ℕ)
  | customReadReq (fd : ℤ) (toRead : ℕ) (clientIdx : Option ℕ) (buff : Bytes) (readAmount : ℕ)
      (file : Option Bytes)
  deriving DecidableEq

/-- The client slots a call names. -/
def TcpCall.slots : TcpCall → List ℕ
  | .writeConnection i _ => [i]
  | .writeConnectionPtr i _ _ => [i]
  | .broadcastMessage clientIdxs _ _ _ => clientIdxs
  | .closeConnection i => [i]
  | .readConnection i => [i]
  | .customReadReq _ _ clientIdx _ _ _ => clientIdx.toList

namespace TcpServer

def run (T : ServerType) (s : TcpServer) : TcpCall → TcpServer
  | .writeConnection i buff => s.writeConnection T i buff
  | .writeConnectionPtr i buff length => s.writeConnectionPtr T i buff length
  | .broadcastMessage clientIdxs buff length customInfo =>
      s.broadcastMessage T clientIdxs buff length customInfo
  | .closeConnection i => s.closeConnection T i
  | .readConnection i => s.addReadReq i .read
  | .customReadReq fd toRead clientIdx buff readAmount file =>
      s.customReadReq fd toRead clientIdx buff readAmount file

/-- A call that names a slot outside `clients` is undefined. -/
def call (T : ServerType) (s : TcpServer) (c : TcpCall) : Option TcpServer :=
  if ∀ i ∈ c.slots, i < s.numClients then some (s.run T c) else none

def calls (T : ServerType) (s : TcpServer) (cs : List TcpCall) : Option TcpServer :=
  cs.foldlM (call T) s

end TcpServer

end LiburingServer
