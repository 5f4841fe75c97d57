import LiburingServer.TcpWrites
import LiburingServer.TcpFrame
import LiburingServer.Lib.OutQueue

/-! The bytes that the plain server writes to each client. A write that ends early is continued behind what it
has written, and the buffers of a queue are written one after the other, so the stream of a client is what
was queued for it, in this order. -/

namespace LiburingServer

variable {σ ε : Type*}

/-- A pointer to memory that is not the storage of a queue entry. -/
def Ptr.External : Ptr → Prop
  | .null | .vector _ => False
  | _ => True

instance : DecidablePred Ptr.External
  | .null | .vector _ => inferInstanceAs (Decidable False)
  | .cached _ | .item _ | .wolfssl => inferInstanceAs (Decidable True)

/-- The contents of a queue entry, with what the memory outside the queues holds. -/
def WriteData.bytes (mem : Ptr → Bytes) (d : WriteData) : Bytes :=
  if d.ptrBuff ≠ .null then (mem d.ptrBuff).take d.totalLength else d.buff

/-- What a call queues for slot `i`. -/
def TcpCall.content (mem : Ptr → Bytes) (i : ℕ) : TcpCall → Bytes
  | .writeConnection j buff => if j = i then buff else []
  | .writeConnectionPtr j buff length => if j = i then (mem buff).take length else []
  | .broadcastMessage clientIdxs buff length _ =>
      (clientIdxs.filter (· = i)).flatMap fun _ => (mem buff).take length
  | _ => []

/-- A call that closes no connection, and whose buffer is neither empty nor too long. -/
def TcpCall.Fits (mem : Ptr → Bytes) : TcpCall → Prop
  | .writeConnection _ buff => buff ≠ [] ∧ buff.length < 2 ^ 32
  | .writeConnectionPtr _ buff length | .broadcastMessage _ buff length _ =>
      buff.External ∧ 0 < length ∧ length < 2 ^ 32 ∧ length ≤ (mem buff).length
  | .closeConnection _ => False
  | .readConnection _ | .customReadReq _ _ _ _ _ _ => True

instance (mem : Ptr → Bytes) : DecidablePred (TcpCall.Fits mem)
  | .writeConnection _ buff => inferInstanceAs (Decidable (buff ≠ [] ∧ buff.length < 2 ^ 32))
  | .writeConnectionPtr _ buff length | .broadcastMessage _ buff length _ =>
      inferInstanceAs (Decidable (buff.External ∧ 0 < length ∧ length < 2 ^ 32 ∧ length ≤ (mem buff).length))
  | .closeConnection _ => inferInstanceAs (Decidable False)
  | .readConnection _ | .customReadReq _ _ _ _ _ _ => inferInstanceAs (Decidable True)

/-- The calls that a callback makes. -/
def App.callsOf (app : App σ ε) (env : ε) (a : σ) : Callback → List TcpCall
  | .accept _ | .close _ _ => []
  | .read i buffer => ((app.readCb env a i buffer).map Prod.snd).getD []
  | .write i info => ((app.writeCb env a i info).map Prod.snd).getD []
  | .event => ((app.eventCb env a).map Prod.snd).getD []
  | .customRead i fd buffer => ((app.customReadCb env a i fd buffer).map Prod.snd).getD []

/-- What is at an address: the buffer of the queue entry that owns it, or memory outside the queues. -/
def TcpServer.storedAt (mem : Ptr → Bytes) (s : TcpServer) (i : ℕ) : Ptr → Bytes
  | .vector addr =>
      (((s.clients i).sendData.find? fun d => d.ptr = .vector addr).map WriteData.buff).getD []
  | p => mem p

/-- The bytes that a completed write request of slot `i` has written to its socket. -/
def TcpServer.reported (mem : Ptr → Bytes) (s : TcpServer) (c : Completion ε) (i : ℕ) : Bytes :=
  match s.inflight[c.index]? with
  | none => []
  | some sub =>
      if sub.IsWrite i then ((s.storedAt mem i sub.addr).drop sub.req.written).take c.res.toNat else []

/-- What was queued for each client, and what the kernel has reported as written. -/
structure Streams where
  queued : ℕ → Bytes := fun _ => []
  written : ℕ → Bytes := fun _ => []

/-- A round of the loop, with the streams of the clients. -/
def Machine.streamed (mem : Ptr → Bytes) (app : App σ ε) (x : Machine σ × Streams) (c : Completion ε) :
    Option ((Machine σ × Streams) × List Callback) :=
  (step .nonTls app x.1 c).map fun r =>
    ((r.1,
      { queued := fun i =>
          x.2.queued i ++ (r.2.flatMap (app.callsOf c.env x.1.app)).flatMap (TcpCall.content mem i)
        written := fun i => x.2.written i ++ x.1.tcp.reported mem c i }), r.2)

/-! ### Entries and queues -/

/-- An entry that can be written, whose buffer is where its pointer points to. -/
structure WriteData.Fits (mem : Ptr → Bytes) (d : WriteData) : Prop where
  nonempty : d.bytes mem ≠ []
  short : (d.bytes mem).length < 2 ^ 32
  size : d.size = (d.bytes mem).length
  external : d.ptrBuff ≠ .null → d.ptrBuff.External

/-- At most one write request of a slot is in flight: the one that goes on with the front entry of its queue.
What is `left` has not been reported as written. -/
def Pending (mem : Ptr → Bytes) (client : Client) (writes : List Submission) (left : Bytes) : Prop :=
  (writes = [] ∧ client.sendData = [] ∧ left = []) ∨
    ∃ sub front rest, writes = [sub] ∧ client.sendData = front :: rest ∧ sub.addr = front.ptr ∧
      sub.req.ID = client.id ∧ sub.req.totalLength = (front.bytes mem).length ∧
      sub.req.written < sub.req.totalLength ∧
      left = OutQueue.left (client.sendData.map (WriteData.bytes mem)) sub.req.written

/-- No connection was closed, and `left` is what is left to write to each client. -/
structure StreamInv (mem : Ptr → Bytes) (s : TcpServer) (left : ℕ → Bytes) : Prop where
  slot : ∀ i, Pending mem (s.clients i) (s.writes i) (left i)
  entries : ∀ i, ∀ d ∈ (s.clients i).sendData, d.Fits mem
  active : ∀ i < s.numClients, i ∈ s.activeConnections
  unused : ∀ i, s.numClients ≤ i → (s.clients i).sendData = []
  unfreed : s.freedIndexes = ∅

variable {mem : Ptr → Bytes}

/-- The entry of a vector. -/
theorem WriteData.fits_vector (mem : Ptr → Bytes) {buff : Bytes} (addr : ℕ) (hne : buff ≠ [])
    (hshort : buff.length < 2 ^ 32) :
    WriteData.Fits mem { buff, addr } ∧ ({ buff, addr } : WriteData).bytes mem = buff := by
  have hbytes : ({ buff, addr } : WriteData).bytes mem = buff := by simp [WriteData.bytes]
  exact ⟨⟨by rwa [hbytes], by rwa [hbytes], by simp [WriteData.size, hbytes], fun h => absurd rfl h⟩, hbytes⟩

/-- The entry of a pointer. -/
theorem WriteData.fits_pointer (mem : Ptr → Bytes) (data : WriteData) (hexternal : data.ptrBuff.External)
    (hpos : 0 < data.totalLength) (hshort : data.totalLength < 2 ^ 32)
    (hlength : data.totalLength ≤ (mem data.ptrBuff).length) :
    data.Fits mem ∧ data.size = data.totalLength ∧
      data.bytes mem = (mem data.ptrBuff).take data.totalLength := by
  have hne : data.ptrBuff ≠ .null := by
    intro hnull
    rw [hnull] at hexternal
    exact hexternal
  have hbytes : data.bytes mem = (mem data.ptrBuff).take data.totalLength := by simp [WriteData.bytes, hne]
  have htaken : ((mem data.ptrBuff).take data.totalLength).length = data.totalLength := by simp [hlength]
  have hsize : data.size = data.totalLength := by simp [WriteData.size, hne]
  refine ⟨⟨?_, by rwa [hbytes, htaken], by rw [hsize, hbytes, htaken], fun _ => hexternal⟩, hsize, hbytes⟩
  rw [hbytes]
  exact List.ne_nil_of_length_pos (by rwa [htaken])

namespace TcpServer

variable {s s' : TcpServer} {i : ℕ}

/-- The memory at the front entry, as far as the entry goes. -/
theorem storedAt_front {front : WriteData} {rest : List WriteData} (hqueue : (s.clients i).sendData = front :: rest)
    (hfits : front.Fits mem) {offset n : ℕ} (hn : offset + n ≤ (front.bytes mem).length) :
    ((s.storedAt mem i front.ptr).drop offset).take n = ((front.bytes mem).drop offset).take n := by
  by_cases hptr : front.ptrBuff = .null
  · have hbytes : front.bytes mem = front.buff := by simp [WriteData.bytes, hptr]
    have hne : front.buff ≠ [] := hbytes ▸ hfits.nonempty
    have haddr : front.ptr = .vector front.addr := by simp [WriteData.ptr, hptr, hne]
    have hfound : s.storedAt mem i (.vector front.addr) = front.buff := by
      simp [storedAt, hqueue, haddr]
    rw [haddr, hfound, hbytes]
  · have haddr : front.ptr = front.ptrBuff := by simp [WriteData.ptr, hptr]
    have hbytes : front.bytes mem = (mem front.ptrBuff).take front.totalLength := by
      simp [WriteData.bytes, hptr]
    have hexternal := hfits.external hptr
    have hstored : s.storedAt mem i front.ptrBuff = mem front.ptrBuff := by
      unfold storedAt
      split
      · rename_i addr heq
        rw [heq] at hexternal
        exact hexternal.elim
      · rfl
    rw [hbytes, List.length_take] at hn
    rw [haddr, hstored, hbytes, List.drop_take, List.take_take, Nat.min_eq_left (by omega)]

end TcpServer

open TcpServer

namespace StreamInv

variable {s s' : TcpServer} {left left' : ℕ → Bytes} {i : ℕ}

/-- Changes that touch no queue and no write request. -/
theorem congr (h : StreamInv mem s left)
    (hclients : ∀ j, (s'.clients j).sendData = (s.clients j).sendData ∧ (s'.clients j).id = (s.clients j).id)
    (hwrites : ∀ j, s'.writes j = s.writes j) (hactive : s'.activeConnections = s.activeConnections)
    (hnum : s'.numClients = s.numClients) (hfreed : s'.freedIndexes = s.freedIndexes) :
    StreamInv mem s' left := by
  refine ⟨fun j => ?_, fun j => ?_, ?_, fun j hj => ?_, hfreed.trans h.unfreed⟩
  · simp only [Pending, hwrites, (hclients j).1, (hclients j).2]
    exact h.slot j
  · rw [(hclients j).1]
    exact h.entries j
  · rw [hactive, hnum]
    exact h.active
  · rw [(hclients j).1, h.unused j (hnum ▸ hj)]

/-- One slot changes and the others do not. -/
theorem of_slot (h : StreamInv mem s left) (hi : i < s.numClients) (hclients : ∀ j, j ≠ i → s'.clients j = s.clients j)
    (hwrites : ∀ j, j ≠ i → s'.writes j = s.writes j) (hleft : ∀ j, j ≠ i → left' j = left j)
    (hactive : s'.activeConnections = s.activeConnections) (hnum : s'.numClients = s.numClients)
    (hfreed : s'.freedIndexes = s.freedIndexes)
    (hslot : Pending mem (s'.clients i) (s'.writes i) (left' i))
    (hentries : ∀ d ∈ (s'.clients i).sendData, d.Fits mem) : StreamInv mem s' left' := by
  refine ⟨fun j => ?_, fun j => ?_, ?_, fun j hj => ?_, hfreed.trans h.unfreed⟩
  · by_cases hj : j = i
    · rw [hj]
      exact hslot
    · rw [hclients j hj, hwrites j hj, hleft j hj]
      exact h.slot j
  · by_cases hj : j = i
    · rw [hj]
      exact hentries
    · rw [hclients j hj]
      exact h.entries j
  · rw [hactive, hnum]
    exact h.active
  · rw [hnum] at hj
    rw [hclients j (by omega), h.unused j hj]

/-- A request that is not a write. -/
theorem submit {sub : Submission} (h : StreamInv mem s left) (hsub : sub.req.event ≠ .write) :
    StreamInv mem (s.submit sub) left :=
  h.congr (fun _ => ⟨rfl, rfl⟩) (fun _ => submit_writes_of_not fun hw => hsub hw.1) rfl rfl rfl

theorem modifyClient {f : Client → Client} (h : StreamInv mem s left)
    (hf : (f (s.clients i)).sendData = (s.clients i).sendData ∧ (f (s.clients i)).id = (s.clients i).id) :
    StreamInv mem (s.modifyClient i f) left := by
  refine h.congr (fun j => ?_) (fun _ => rfl) rfl rfl rfl
  by_cases hj : j = i
  · subst hj
    rwa [modifyClient_self]
  · rw [modifyClient_of_ne _ _ _ _ hj]
    exact ⟨rfl, rfl⟩

theorem addReadReq (h : StreamInv mem s left) : StreamInv mem (s.addReadReq i .read) left := by
  unfold TcpServer.addReadReq
  split
  · exact h
  · have hsubmit : StreamInv mem (s.submit (s.readSubmission i .read)) left := h.submit (by simp [readSubmission])
    exact hsubmit.modifyClient ⟨rfl, rfl⟩

/-- The front entry of a queue is written from its start. -/
theorem pending_addWriteReq {front : WriteData} {rest : List WriteData} (hw : s.writes i = [])
    (hqueue : (s.clients i).sendData = front :: rest) (hfits : front.Fits mem) :
    Pending mem ((s.addWriteReq i .write front.ptr front.size).clients i)
      ((s.addWriteReq i .write front.ptr front.size).writes i)
      (OutQueue.left ((front :: rest).map (WriteData.bytes mem)) 0) := by
  have hsame : ((s.addWriteReq i .write front.ptr front.size).clients i).sendData = front :: rest := by
    simpa [TcpServer.addWriteReq] using hqueue
  have htotal : (s.writeSubmission i .write front.ptr front.size).req.totalLength = (front.bytes mem).length := by
    show front.size % 2 ^ 32 = _
    rw [hfits.size, Nat.mod_eq_of_lt hfits.short]
  refine Or.inr ⟨s.writeSubmission i .write front.ptr front.size, front, rest, ?_, hsame, rfl, ?_, htotal, ?_, ?_⟩
  · rw [TcpServer.addWriteReq, submit_writes, modifyClient_writes, hw, if_pos ⟨rfl, rfl⟩]
    rfl
  · simp [TcpServer.addWriteReq, writeSubmission]
  · rw [htotal]
    exact List.length_pos_of_ne_nil hfits.nonempty
  · rw [hsame]
    rfl

theorem addWriteReq_of_ne {j : ℕ} (hj : j ≠ i) (buffer : Ptr) (length : ℕ) :
    (s.addWriteReq i .write buffer length).clients j = s.clients j ∧
      (s.addWriteReq i .write buffer length).writes j = s.writes j := by
  refine ⟨by simp [TcpServer.addWriteReq, modifyClient_of_ne _ _ _ _ hj], ?_⟩
  rw [TcpServer.addWriteReq, submit_writes_of_not, modifyClient_writes]
  rintro ⟨-, hidx⟩
  exact hj (by simpa [writeSubmission] using hidx.symm)

/-- A new entry is written after all others. -/
theorem enqueue (h : StreamInv mem s left) (hi : i < s.numClients) {data : WriteData} {length : ℕ}
    (hfits : data.Fits mem)
    (hlength : length = data.size)
    (hqueued : ∀ j, left' j = left j ++ if i = j then data.bytes mem else []) :
    StreamInv mem (s.enqueue .nonTls i data length) left' := by
  subst hlength
  have hleft : ∀ j, j ≠ i → left' j = left j := by
    intro j hj
    rw [hqueued, if_neg (Ne.symm hj), List.append_nil]
  have hself : left' i = left i ++ data.bytes mem := by rw [hqueued, if_pos rfl]
  rcases h.slot i with ⟨hw, hqueue, hnothing⟩ | ⟨sub, front, rest, hw, hqueue, haddr, hid, htotal, hlt, hrest⟩
  · rw [enqueue_plain_of_nil _ _ hqueue]
    have hpushed : ((s.pushEntry i data).clients i).sendData = data :: [] := by simp [pushEntry, hqueue]
    refine h.of_slot hi (fun j hj => ?_) (fun j hj => ?_) hleft rfl rfl rfl ?_ ?_
    · rw [(addWriteReq_of_ne hj _ _).1]
      exact setQueue_of_ne _ _ _ _ hj
    · rw [(addWriteReq_of_ne hj _ _).2]
      rfl
    · have hpending := pending_addWriteReq (s := s.pushEntry i data) hw hpushed hfits
      have hall : OutQueue.left ([data].map (WriteData.bytes mem)) 0 = data.bytes mem := by simp [OutQueue.left]
      rw [hall] at hpending
      rwa [hself, hnothing, List.nil_append]
    · intro d hd
      have hmem : d ∈ ((s.pushEntry i data).clients i).sendData := by simpa [TcpServer.addWriteReq] using hd
      rw [hpushed, List.mem_singleton] at hmem
      exact hmem ▸ hfits
  · have hne : (s.clients i).sendData ≠ [] := by simp [hqueue]
    rw [enqueue_of_ne_nil _ _ _ hne]
    have hpushed : ((s.pushEntry i data).clients i).sendData = (s.clients i).sendData ++ [data] := by
      simp [pushEntry]
    refine h.of_slot hi (fun j hj => setQueue_of_ne _ _ _ _ hj) (fun _ _ => rfl) hleft rfl rfl rfl ?_ ?_
    · refine Or.inr ⟨sub, front, rest ++ [data], hw, by rw [hpushed, hqueue, List.cons_append], haddr,
        by simpa [pushEntry] using hid, htotal, hlt, ?_⟩
      have hinside : sub.req.written ≤ ((s.clients i).sendData.map (WriteData.bytes mem)).flatten.length := by
        rw [hqueue, List.map_cons, List.flatten_cons, List.length_append, ← htotal]
        omega
      rw [hself, hpushed, List.map_append, List.map_singleton,
        OutQueue.left_enqueue hinside, ← hrest]
    · intro d hd
      rw [hpushed] at hd
      rcases List.mem_append.mp hd with hd | hd
      · exact h.entries i d hd
      · rw [List.mem_singleton.mp hd]
        exact hfits

theorem broadcastMessage (h : StreamInv mem s left) {clientIdxs : List ℕ}
    (hidxs : ∀ i ∈ clientIdxs, i < s.numClients) {buff : Ptr} {length : ℕ}
    {customInfo : ℤ} (hfits : TcpCall.Fits mem (.broadcastMessage clientIdxs buff length customInfo)) :
    StreamInv mem (s.broadcastMessage .nonTls clientIdxs buff length customInfo)
      fun j => left j ++ TcpCall.content mem j (.broadcastMessage clientIdxs buff length customInfo) := by
  obtain ⟨hexternal, hpos, hshort, hlength⟩ := hfits
  obtain ⟨hentry, hsize, hbytes⟩ := WriteData.fits_pointer mem
    { ptrBuff := buff, totalLength := length, broadcast := true, customInfo } hexternal hpos hshort hlength
  unfold TcpServer.broadcastMessage
  induction clientIdxs generalizing s left with
  | nil => simpa [TcpCall.content] using h
  | cons i clientIdxs ih =>
      have hone : StreamInv mem (broadcastOne .nonTls buff length customInfo s i)
          fun j => left j ++ if i = j then (mem buff).take length else [] :=
        h.enqueue (hidxs i (by simp)) hentry hsize.symm fun j => by rw [hbytes]
      have hcontent : ∀ j, TcpCall.content mem j (.broadcastMessage (i :: clientIdxs) buff length customInfo) =
          (if i = j then (mem buff).take length else []) ++
            TcpCall.content mem j (.broadcastMessage clientIdxs buff length customInfo) := by
        intro j
        by_cases hj : i = j <;> simp [TcpCall.content, hj]
      have hrest := ih hone fun j hj => by
        rw [broadcastOne, WriteInv.enqueue_numClients]
        exact hidxs j (by simp [hj])
      simp only [List.append_assoc, ← hcontent] at hrest
      exact hrest

/-- A call queues its content. -/
theorem call (h : StreamInv mem s left) {c : TcpCall} (hfits : c.Fits mem) (hcall : s.call .nonTls c = some s') :
    StreamInv mem s' fun j => left j ++ c.content mem j := by
  unfold TcpServer.call at hcall
  split at hcall
  · rename_i hslots
    obtain rfl := Option.some.inj hcall
    cases c with
    | writeConnection i buff =>
        obtain ⟨hentry, hbytes⟩ := WriteData.fits_vector mem s.nextAddr hfits.1 hfits.2
        have hfresh : StreamInv mem { s with nextAddr := s.nextAddr + 1 } left :=
          h.congr (fun _ => ⟨rfl, rfl⟩) (fun _ => rfl) rfl rfl rfl
        refine hfresh.enqueue (hslots i (by simp [TcpCall.slots])) hentry (by simp [WriteData.size]) fun j => ?_
        rw [hbytes]
        rfl
    | writeConnectionPtr i buff length =>
        obtain ⟨hexternal, hpos, hshort, hlength⟩ := hfits
        obtain ⟨hentry, hsize, hbytes⟩ := WriteData.fits_pointer mem
          { ptrBuff := buff, totalLength := length } hexternal hpos hshort hlength
        refine h.enqueue (hslots i (by simp [TcpCall.slots])) hentry hsize.symm fun j => ?_
        rw [hbytes]
        rfl
    | broadcastMessage clientIdxs buff length customInfo => exact h.broadcastMessage hslots hfits
    | closeConnection i => exact hfits.elim
    | readConnection i =>
        simp only [TcpCall.content, List.append_nil]
        exact h.addReadReq
    | customReadReq fd toRead clientIdx buff readAmount file =>
        simp only [TcpCall.content, List.append_nil]
        exact h.submit (by simp)
  · cases hcall

theorem calls (h : StreamInv mem s left) {cs : List TcpCall} (hfits : ∀ c ∈ cs, c.Fits mem)
    (hcalls : s.calls .nonTls cs = some s') :
    StreamInv mem s' fun j => left j ++ cs.flatMap (TcpCall.content mem j) := by
  induction cs generalizing s left with
  | nil =>
      obtain rfl : s = s' := by simpa [TcpServer.calls] using hcalls
      simpa using h
  | cons c cs ih =>
      rw [TcpServer.calls, List.foldlM_cons] at hcalls
      obtain ⟨s₁, hcall, hrest⟩ := Option.bind_eq_some_iff.mp hcalls
      have hlater := ih (h.call (hfits c (by simp)) hcall) (fun c' hc' => hfits c' (by simp [hc'])) hrest
      simpa only [List.flatMap_cons, List.append_assoc] using hlater

end StreamInv

/-! ### The event loop -/

namespace Machine

variable {app : App σ ε} {m m' : Machine σ} {left : ℕ → Bytes} {i : ℕ}

/-- The completed request closes no connection, and a write has written at least one byte and no more than it
was asked for. -/
def Flows (m : Machine σ) (c : Completion ε) : Prop :=
  ∀ sub, m.tcp.inflight[c.index]? = some sub →
    (sub.req.event = .timerfd → ∀ i ∈ m.tcp.activeConnections, i ∉ c.halfClosed) ∧
    (sub.req.event = .write → 0 < c.res ∧ c.res + sub.req.written ≤ sub.req.totalLength) ∧
    (sub.req.event.OfClient → ∀ i, sub.req.clientIdx = some i → ¬m.EndsFailed sub i c)

/-- The calls of the callbacks for a completed request close no connection and queue proper buffers. -/
def CallsFit (mem : Ptr → Bytes) (app : App σ ε) (m : Machine σ) (c : Completion ε) : Prop :=
  ∀ r, step .nonTls app m c = some r → ∀ cb ∈ r.2, ∀ call ∈ app.callsOf c.env m.app cb, call.Fits mem

instance (c : Completion ε) : Decidable (m.Flows c) :=
  inferInstanceAs (Decidable (∀ sub ∈ m.tcp.inflight[c.index]?,
    (sub.req.event = .timerfd → ∀ i ∈ m.tcp.activeConnections, i ∉ c.halfClosed) ∧
    (sub.req.event = .write → 0 < c.res ∧ c.res + sub.req.written ≤ sub.req.totalLength) ∧
    (sub.req.event.OfClient → ∀ i ∈ sub.req.clientIdx, ¬m.EndsFailed sub i c)))

instance (c : Completion ε) : Decidable (CallsFit mem app m c) :=
  inferInstanceAs (Decidable (∀ r ∈ step .nonTls app m c,
    ∀ cb ∈ r.2, ∀ call ∈ app.callsOf c.env m.app cb, call.Fits mem))

/-- What the callbacks in the log of `m'` have queued is left, after what was left before. -/
def Queues (mem : Ptr → Bytes) (app : App σ ε) (env : ε) (a : σ) (left : ℕ → Bytes) (m' : Machine σ) : Prop :=
  (∀ cb ∈ m'.log, ∀ call ∈ app.callsOf env a cb, call.Fits mem) →
    StreamInv mem m'.tcp fun i =>
      left i ++ (m'.log.flatMap (app.callsOf env a)).flatMap (TcpCall.content mem i)

theorem queues_of_quiet {env : ε} {a : σ} (h : StreamInv mem m.tcp left)
    (hlog : m.log.flatMap (app.callsOf env a) = []) : Queues mem app env a left m := by
  intro _
  simpa [hlog] using h

theorem queues_of_nil {env : ε} {a : σ} (h : StreamInv mem m.tcp left) (hlog : m.log = []) :
    Queues mem app env a left m := queues_of_quiet h (by rw [hlog]; rfl)

theorem queues_callback {env : ε} {cb : Callback} {result : Option (σ × List TcpCall)} {a : σ}
    (h : StreamInv mem m.tcp left) (hlog : m.log = [])
    (hmade : app.callsOf env a cb = (result.map Prod.snd).getD [])
    (hcb : m.callback .nonTls cb result = some m') : Queues mem app env a left m' := by
  obtain ⟨a', cs, hresult, hcalls, -, hlog'⟩ := callback_eq_some hcb
  have hcs : app.callsOf env a cb = cs := by rw [hmade, hresult]; rfl
  rw [hlog, List.nil_append] at hlog'
  intro hfits
  have hdone := h.calls (fun c hc => hfits cb (by simp [hlog']) c (hcs ▸ hc)) hcalls
  simpa [hlog', hcs] using hdone

/-- The slot that an accept hands out was never used, and nothing is left to write to its client. -/
theorem streamInv_setupClient {s : TcpServer} (h : StreamInv mem s left) (sockfd : ℤ) :
    StreamInv mem { (s.setupClient sockfd).1 with
      activeConnections := insert (s.setupClient sockfd).2 (s.setupClient sockfd).1.activeConnections } left := by
  have hnone : ¬s.freedIndexes.Nonempty := by simp [h.unfreed]
  have hidle : s.writes s.numClients = [] ∧ left s.numClients = [] := by
    rcases h.slot s.numClients with ⟨hw, -, hnothing⟩ | ⟨sub, front, rest, -, hqueue, -⟩
    · exact ⟨hw, hnothing⟩
    · rw [h.unused _ le_rfl] at hqueue
      cases hqueue
  unfold TcpServer.setupClient
  rw [dif_neg hnone]
  refine ⟨fun j => ?_, fun j => ?_, fun j hj => ?_, fun j hj => ?_, h.unfreed⟩
  · by_cases hj : j = s.numClients
    · subst hj
      exact Or.inl ⟨hidle.1, by simp, hidle.2⟩
    · simp only [Function.update_of_ne hj]
      exact h.slot j
  · by_cases hj : j = s.numClients
    · simp [hj]
    · simp only [Function.update_of_ne hj]
      exact h.entries j
  · rcases Nat.lt_succ_iff_lt_or_eq.mp hj with hj | rfl
    · exact Finset.mem_insert_of_mem (h.active j hj)
    · exact Finset.mem_insert_self _ _
  · have hlt : s.numClients + 1 ≤ j := hj
    simp only [Function.update_of_ne (show j ≠ s.numClients by omega)]
    exact h.unused j (by omega)

/-- A completed request that is no write. -/
theorem streamInv_take {n : ℕ} {sub : Submission} {s : TcpServer} (h : StreamInv mem s left)
    (hsub : s.inflight[n]? = some sub) (hevent : sub.req.event ≠ .write) (wolf : List WolfCall) :
    StreamInv mem (s.takeCompleted n wolf) left :=
  h.congr (fun _ => ⟨rfl, rfl⟩)
    (fun _ => InFlight.filter_eraseIdx_of_not hsub (by simp [Submission.IsWrite, hevent])) rfl rfl rfl

/-- A completed request of a client that is no write. -/
theorem queues_clientEvent {sub : Submission} {c : Completion ε} (h : StreamInv mem m.tcp left) (hlog : m.log = [])
    (hevent : sub.req.event ≠ .write) (hopen : ¬m.EndsFailed sub i c)
    (hhandled : m.clientEvent .nonTls app sub i c = some m') : Queues mem app c.env m.app left m' := by
  have hkept : ∀ s, s = m.tcp ∨ s = m.tcp.endWrite i → StreamInv mem s left := by
    rintro s (rfl | rfl)
    · exact h
    · exact h.modifyClient ⟨rfl, rfl⟩
  refine clientEvent_rule hhandled (fun _ _ _ hends => absurd hends hopen)
    (fun s hs => queues_of_nil (m := m.onTcp fun _ => s) (hkept s hs) hlog) (fun _ _ _ _ hplain => ?_) (fun hT => ?_)
  · unfold plainHandler at hplain
    split at hplain
    · have hread : StreamInv mem (m.tcp.modifyClient i fun client => { client with readReqActive := false }) left :=
        h.modifyClient ⟨rfl, rfl⟩
      exact queues_callback (m := m.onTcp fun s => s.modifyClient i
        fun client => { client with readReqActive := false }) hread hlog rfl hplain
    · exact absurd ‹_› hevent
    · obtain rfl := Option.some.inj hplain
      exact queues_of_nil h hlog
  · cases hT

/-- A completed write of slot `i`: what it has written is no longer left, and the request goes on or the
front entry of the queue is done. -/
theorem queues_write {c : Completion ε} {sub : Submission} (h : StreamInv mem m.tcp left)
    (hsub : m.tcp.inflight[c.index]? = some sub) (hwrite : sub.IsWrite i) (hres : 0 < c.res)
    (hmost : c.res + sub.req.written ≤ sub.req.totalLength)
    (hhandled : (m.take c).clientEvent .nonTls app sub i c = some m') :
    ∃ left₁, (∀ j, left j = m.tcp.reported mem c j ++ left₁ j) ∧ Queues mem app c.env m.app left₁ m' := by
  have hmem : sub ∈ m.tcp.writes i := List.mem_filter.mpr ⟨List.mem_of_getElem? hsub, by simpa using hwrite⟩
  obtain ⟨hw, -⟩ | ⟨sub', front, rest, hw, hqueue, haddr, hid, htotal, hlt, hleft⟩ := h.slot i
  · simp [hw] at hmem
  obtain ⟨rfl, hnone⟩ := InFlight.filter_eraseIdx_of_single hsub (by simpa using hwrite) hw
  have hfits : front.Fits mem := h.entries i front (by simp [hqueue])
  have hi : i < m.tcp.numClients := by
    by_contra hge
    rw [h.unused i (not_lt.mp hge)] at hqueue
    cases hqueue
  set n := c.res.toNat with hn
  have hinside : sub.req.written + n ≤ (front.bytes mem).length := by omega
  have hreported : m.tcp.reported mem c i = ((front.bytes mem).drop sub.req.written).take n := by
    simp only [reported, hsub, if_pos hwrite]
    rw [haddr]
    exact storedAt_front hqueue hfits hinside
  have hothers : ∀ j, j ≠ i → m.tcp.reported mem c j = [] := by
    intro j hj
    have hnot : ¬sub.IsWrite j := fun hwrite' => hj (Option.some.inj (hwrite'.2.symm.trans hwrite.2))
    simp [reported, hsub, hnot]
  have htaken : ∀ j, j ≠ i → (m.take c).tcp.writes j = m.tcp.writes j := by
    intro j hj
    refine InFlight.filter_eraseIdx_of_not hsub (decide_eq_false fun hwrite' => hj ?_)
    exact Option.some.inj (hwrite'.2.symm.trans hwrite.2)
  refine ⟨Function.update left i
    (OutQueue.left ((m.tcp.clients i).sendData.map (WriteData.bytes mem)) (sub.req.written + n)), fun j => ?_, ?_⟩
  · by_cases hj : j = i
    · subst hj
      rw [Function.update_self, hleft, hreported, hqueue, List.map_cons, OutQueue.left_advance hinside]
    · rw [Function.update_of_ne hj, hothers j hj, List.nil_append]
  have hsame : ∀ j, j ≠ i → Function.update left i
      (OutQueue.left ((m.tcp.clients i).sendData.map (WriteData.bytes mem)) (sub.req.written + n)) j = left j :=
    fun j hj => Function.update_of_ne hj _ _
  have hplain : (m.take c).plainWrite app c.env sub i c.res = some m' := by
    have hguard : ¬(c.res ≤ 0 ∨ 0 < i ∧ ((m.take c).tcp.clients i).id ≠ sub.req.ID) := by
      rintro (hfailed | ⟨-, hother⟩)
      · omega
      · exact hother hid.symm
    have hlt' : i < (m.take c).tcp.numClients := hi
    rw [clientEvent, if_pos hlt', if_neg hguard] at hhandled
    simpa only [plainHandler, hwrite.1] using hhandled
  have hqueue' : ((m.take c).tcp.clients i).sendData = front :: rest := hqueue
  unfold plainWrite at hplain
  dsimp only at hplain
  split at hplain
  · -- the request goes on behind what it has written
    rename_i hmore
    rw [hqueue'] at hplain
    obtain rfl := Option.some.inj hplain
    refine queues_of_nil (h.of_slot hi (fun _ _ => rfl) (fun j hj => ?_) hsame rfl rfl rfl ?_ (h.entries i)) rfl
    · rw [onTcp_tcp, submit_writes_of_not]
      · exact htaken j hj
      · rintro ⟨-, hidx⟩
        exact hj (by simpa using hidx.symm.trans hwrite.2)
    · rw [Function.update_self]
      refine Or.inr ⟨{ sub with addr := front.ptr, req := { sub.req with written := sub.req.written + n } },
        front, rest, ?_, hqueue, rfl, hid, htotal, ?_, rfl⟩
      · have hgone : (m.take c).tcp.writes i = [] := hnone
        rw [onTcp_tcp, submit_writes, hgone, if_pos]
        · rfl
        · exact hwrite
      · show sub.req.written + n < sub.req.totalLength
        omega
  · -- the front entry is done
    rename_i hdone
    have hall : sub.req.written + n = (front.bytes mem).length := by omega
    have hactive : i ∈ m.tcp.activeConnections := h.active i hi
    have hclosed : i ∈ ((m.take c).onTcp fun s => s.endWrite i).tcp.activeConnections ∧
        (((m.take c).onTcp fun s => s.endWrite i).tcp.clients i).id = sub.req.ID := by
      simp [endWrite, hactive, hid]
    have hended : (((m.take c).onTcp fun s => s.endWrite i).tcp.clients i).sendData = front :: rest := by
      simp [endWrite, hqueue]
    rw [if_pos hclosed, hended] at hplain
    refine queues_callback (m := (m.take c).onTcp fun s => (s.endWrite i).writeNext i rest) ?_ rfl rfl hplain
    rw [hqueue, List.map_cons, hall, OutQueue.left_pop]
    have hsame : ∀ j, j ≠ i → Function.update left i (OutQueue.left (rest.map (WriteData.bytes mem)) 0) j = left j :=
      fun j hj => Function.update_of_ne hj _ _
    have hentries : ∀ d ∈ rest, d.Fits mem := fun d hd => h.entries i d (by simp [hqueue, hd])
    have hkept : ∀ j, j ≠ i → (((m.take c).tcp.endWrite i).setQueue i rest).clients j = m.tcp.clients j := by
      intro j hj
      rw [setQueue_of_ne _ _ _ _ hj, endWrite, modifyClient_of_ne _ _ _ _ hj]
      rfl
    rw [onTcp_tcp]
    cases rest with
    | nil =>
        refine h.of_slot hi hkept htaken hsame rfl rfl rfl (Or.inl ⟨hnone, ?_, ?_⟩) ?_
        · simp [writeNext]
        · rw [Function.update_self, List.map_nil, OutQueue.left_nil]
        · simp [writeNext]
    | cons next rest =>
        refine h.of_slot hi (fun j hj => ?_) (fun j hj => ?_) hsame rfl rfl rfl ?_ ?_
        · rw [writeNext, (StreamInv.addWriteReq_of_ne hj _ _).1]
          exact hkept j hj
        · rw [writeNext, (StreamInv.addWriteReq_of_ne hj _ _).2]
          exact htaken j hj
        · rw [Function.update_self]
          exact StreamInv.pending_addWriteReq (s := ((m.take c).tcp.endWrite i).setQueue i (next :: rest)) hnone
            (by simp) (hentries next (by simp))
        · intro d hd
          exact hentries d (by simpa [writeNext, addWriteReq] using hd)

theorem streamInv_sweep {order halfClosed : List ℕ} (hopen : ∀ i ∈ m.tcp.activeConnections, i ∉ halfClosed)
    (hsweep : m.sweep .nonTls app order halfClosed = some m') : m' = m := by
  exact sweep_rule hsweep (R := fun x => x = m) rfl fun _ i _ hi hclosed => absurd hclosed (hopen i hi)

/-- A completed request that is no write. -/
theorem queues_other {c : Completion ε} {sub : Submission} (h : StreamInv mem m.tcp left)
    (hsub : m.tcp.inflight[c.index]? = some sub) (hevent : sub.req.event ≠ .write) (hflows : m.Flows c)
    (hhandled : dispatch .nonTls app (m.take c) sub c = some m') : Queues mem app c.env m.app left m' := by
  have htake : StreamInv mem (m.take c).tcp left := streamInv_take h hsub hevent c.wolf
  refine dispatch_rule hhandled (fun _ => ?_) (fun _ hm' => ?_) (fun hcustom hm' => ?_) (fun htimer m₁ hm₁ => ?_)
    (fun _ _ hm' => ?_) (fun _ hT => (by cases hT)) (fun i hidx hclient hm' => ?_)
  · exact queues_of_nil (htake.congr (fun _ => ⟨rfl, rfl⟩) (fun _ => rfl) rfl rfl rfl) rfl
  · refine queues_callback ?_ rfl rfl hm'
    exact htake.submit (by simp)
  · refine customRead_rule hm' (fun _ hfinished => queues_callback ?_ rfl rfl hfinished)
      (fun _ _ => queues_of_nil ?_ rfl)
    · exact htake.congr (fun _ => ⟨rfl, rfl⟩) (fun _ => rfl) rfl rfl rfl
    · exact htake.submit (by simp [hcustom])
  · obtain rfl : m₁ = m.take c := streamInv_sweep ((hflows sub hsub).1 htimer) hm₁
    refine queues_of_nil ?_ rfl
    exact htake.submit (by simp)
  · simp only [plainAccept] at hm'
    obtain ⟨m₁, hm₁, rfl⟩ := Option.map_eq_some_iff.mp hm'
    obtain ⟨a, -, rfl⟩ := Option.map_eq_some_iff.mp hm₁
    have hasked : StreamInv mem ((m.take c).tcp.addEventReq .accept) left := htake.submit (by simp)
    refine queues_of_quiet ?_ rfl
    exact (streamInv_setupClient hasked c.res).addReadReq
  · exact queues_clientEvent (m := m.take c) htake rfl hevent ((hflows sub hsub).2.2 hclient i hidx) hm'

/-- One round of the loop. -/
theorem stream_step {c : Completion ε} {log : List Callback} (h : StreamInv mem m.tcp left) (hflows : m.Flows c)
    (hfits : CallsFit mem app m c) (hstep : step .nonTls app m c = some (m', log)) :
    ∃ left₁ : ℕ → Bytes, (∀ j, left j = m.tcp.reported mem c j ++ left₁ j) ∧
      StreamInv mem m'.tcp fun j =>
        left₁ j ++ (log.flatMap (app.callsOf c.env m.app)).flatMap (TcpCall.content mem j) := by
  have hcalls := hfits _ hstep
  obtain ⟨sub, hsub, hhandled, rfl⟩ := step_eq_some hstep
  by_cases hevent : sub.req.event = .write
  · have hclient : sub.req.event.OfClient := by simp [EventType.OfClient, hevent]
    rw [dispatch_ofClient hclient] at hhandled
    obtain ⟨i, hidx, hm'⟩ := Option.bind_eq_some_iff.mp hhandled
    obtain ⟨hres, hmost⟩ := (hflows sub hsub).2.1 hevent
    obtain ⟨left₁, hleft, hqueues⟩ := queues_write h hsub ⟨hevent, hidx⟩ hres hmost hm'
    exact ⟨left₁, hleft, hqueues hcalls⟩
  · refine ⟨left, fun j => ?_, queues_other h hsub hevent hflows hhandled hcalls⟩
    have hnot : ¬sub.IsWrite j := fun hwrite => hevent hwrite.1
    simp [reported, hsub, hnot]

theorem streamInv_start (a : σ) (reads : List (ℤ × ℕ)) : StreamInv mem (start a reads).tcp fun _ => [] := by
  have hempty : StreamInv mem {} fun _ => [] :=
    ⟨fun _ => Or.inl ⟨rfl, rfl, rfl⟩, fun _ _ hd => (by cases hd), fun _ hi => absurd hi (Nat.not_lt_zero _),
      fun _ _ => rfl, rfl⟩
  have hreads : ∀ s, StreamInv mem s (fun _ => []) → StreamInv mem
      (reads.foldl (fun s r => s.customReadReq r.1 r.2 none [] 0 none) s) fun _ => [] := by
    induction reads with
    | nil => exact fun s hs => hs
    | cons r reads ih => exact fun s hs => ih _ (hs.submit (by simp))
  refine StreamInv.submit (hreads _ ?_) (by simp)
  exact ((hempty.submit (by simp)).submit (by simp)).submit (by simp)

/-- Of the bytes queued for each client, those that were not reported as written are left. -/
def Flowing (mem : Ptr → Bytes) (x : Machine σ × Streams) : Prop :=
  ∃ left, StreamInv mem x.1.tcp left ∧ ∀ i, x.2.queued i = x.2.written i ++ left i

theorem flowing_streamed {x x' : Machine σ × Streams} {c : Completion ε} {log : List Callback}
    (h : Flowing mem x) (hflows : x.1.Flows c) (hfits : CallsFit mem app x.1 c)
    (hstep : streamed mem app x c = some (x', log)) : Flowing mem x' := by
  obtain ⟨left, hinv, hqueued⟩ := h
  obtain ⟨⟨m', log'⟩, hround, heq⟩ := Option.map_eq_some_iff.mp hstep
  simp only [Prod.mk.injEq] at heq
  obtain ⟨rfl, rfl⟩ := heq
  obtain ⟨left₁, hleft, hinv'⟩ := stream_step hinv hflows hfits hround
  refine ⟨_, hinv', fun i => ?_⟩
  simp only [hqueued i, hleft i, List.append_assoc]

end Machine

/-- An application that answers what it reads and adds three bytes of its own. -/
def echoApp : App Unit Unit where
  acceptCb _ _ := some ()
  closeCb _ _ _ := some ()
  readCb _ _ i buffer := some ((), [.writeConnection i buffer, .writeConnectionPtr i (.item 0) 3])
  writeCb _ _ _ _ := some ((), [])
  eventCb _ _ := some ((), [])
  customReadCb _ _ _ _ _ := some ((), [])

end LiburingServer
