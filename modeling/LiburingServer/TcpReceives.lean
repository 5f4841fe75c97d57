import LiburingServer.TcpOccupants

/-! The bytes that the TLS server receives for a client: those that wolfSSL got through `tls_recv`, and then
those in `recv_data`. wolfSSL is an arbitrary consumer, which asks for any number of bytes at a time. -/

namespace LiburingServer

/-- What wolfSSL got and what it did not get yet is what was received, in this order. -/
def Client.Balanced (client : Client) : Prop := client.delivered ++ client.recvData = client.received

def TcpServer.Balanced (s : TcpServer) : Prop := ∀ i, (s.clients i).Balanced

/-- What an I/O callback leaves of the bytes that were received. -/
def WolfIo.leaves (data : Bytes) : WolfIo → Bytes
  | .send _ _ => data
  | .recv size => if size ≤ data.length then data.drop size else data

/-- What calls of wolfSSL leave of the bytes that were received. -/
def leftover (calls : List WolfCall) (data : Bytes) : Bytes :=
  (calls.flatMap WolfCall.io).foldl WolfIo.leaves data

/-- The next call of wolfSSL and the one after it. -/
theorem leftover_take_two (wolf : List WolfCall) (data : Bytes) :
    leftover [wolf.tail.headD {}] (leftover [wolf.headD {}] data) = leftover (wolf.take 2) data := by
  match wolf with
  | [] => rfl
  | [_] => simp [leftover]
  | _ :: _ :: _ => simp [leftover]

namespace TcpServer

variable {s s' : TcpServer} {i : ℕ}

/-! ### The I/O callbacks -/

theorem Balanced.modifyClient {f : Client → Client} (h : s.Balanced) (hf : (f (s.clients i)).Balanced) :
    (s.modifyClient i f).Balanced := by
  intro j
  by_cases hj : j = i
  · subst hj
    rwa [modifyClient_self]
  · rw [modifyClient_of_ne _ _ _ _ hj]
    exact h j

theorem Balanced.setQueue (h : s.Balanced) (sendData : List WriteData) : (s.setQueue i sendData).Balanced :=
  Balanced.modifyClient h (h i)

theorem Balanced.endWrite (h : s.Balanced) : (s.endWrite i).Balanced := Balanced.modifyClient h (h i)

theorem Balanced.addWriteReq (h : s.Balanced) (event : EventType) (buffer : Ptr) (length : ℕ) :
    (s.addWriteReq i event buffer length).Balanced := by
  have hcounted : (s.modifyClient i fun client => { client with numWriteReqs := client.numWriteReqs + 1 }).Balanced :=
    h.modifyClient (h i)
  exact hcounted

theorem Balanced.addReadReq (h : s.Balanced) (event : EventType) : (s.addReadReq i event).Balanced := by
  unfold TcpServer.addReadReq
  split
  · exact h
  · have hsubmit : (s.submit (s.readSubmission i event)).Balanced := h
    exact hsubmit.modifyClient (hsubmit i)

theorem addReadReq_recvData (event : EventType) :
    ((s.addReadReq i event).clients i).recvData = (s.clients i).recvData := by
  unfold addReadReq
  split
  · rfl
  · simp

theorem addWriteReq_recvData (event : EventType) (buffer : Ptr) (length : ℕ) :
    ((s.addWriteReq i event buffer length).clients i).recvData = (s.clients i).recvData := by
  simp [addWriteReq]

theorem Balanced.tlsSend (h : s.Balanced) (size : ℕ) (stale : ℤ) :
    (s.tlsSend i size stale).Balanced ∧
      ((s.tlsSend i size stale).clients i).recvData = (s.clients i).recvData := by
  unfold TcpServer.tlsSend
  split
  · split
    · split
      · exact ⟨h.addWriteReq .write .wolfssl size, addWriteReq_recvData _ _ _⟩
      · exact ⟨h, rfl⟩
    · split
      · exact ⟨h.addWriteReq .write .wolfssl size, addWriteReq_recvData _ _ _⟩
      · exact ⟨h.setQueue _, by simp [TcpServer.setQueue]⟩
  · split
    · exact ⟨h.addWriteReq .acceptWrite .wolfssl size, addWriteReq_recvData _ _ _⟩
    · exact ⟨h.modifyClient (h i), by simp⟩

/-- wolfSSL gets the bytes in front of `recv_data`, or none. -/
theorem Balanced.tlsRecvHelper (h : s.Balanced) (size : ℕ) (accept : Bool) :
    (s.tlsRecvHelper i size accept).Balanced ∧
      ((s.tlsRecvHelper i size accept).clients i).recvData = WolfIo.leaves (s.clients i).recvData (.recv size) := by
  have hi : (s.clients i).delivered ++ (s.clients i).recvData = (s.clients i).received := h i
  unfold TcpServer.tlsRecvHelper
  split
  · rename_i hlt
    refine ⟨h.modifyClient ?_, ?_⟩
    · simp only [Client.Balanced, List.append_assoc, List.take_append_drop, hi]
    · simp [WolfIo.leaves, hlt.le]
  · split
    · rename_i hgt
      have hleaves : WolfIo.leaves (s.clients i).recvData (.recv size) = (s.clients i).recvData :=
        if_neg (not_le.mpr hgt)
      rw [hleaves]
      split
      · exact ⟨h.addReadReq .acceptRead, addReadReq_recvData .acceptRead⟩
      · exact ⟨h, rfl⟩
    · have hsize : size = (s.clients i).recvData.length := by omega
      refine ⟨h.modifyClient ?_, ?_⟩
      · simp only [Client.Balanced, List.append_nil, hi]
      · simp [WolfIo.leaves, hsize]

theorem Balanced.tlsRecv (h : s.Balanced) (size : ℕ) :
    (s.tlsRecv i size).Balanced ∧
      ((s.tlsRecv i size).clients i).recvData = WolfIo.leaves (s.clients i).recvData (.recv size) := by
  have hempty : ¬(s.clients i).recvData ≠ [] →
      WolfIo.leaves (s.clients i).recvData (.recv size) = (s.clients i).recvData := by
    intro hnil
    rw [not_not.mp hnil]
    simp [WolfIo.leaves]
  unfold TcpServer.tlsRecv
  split
  · split
    · exact h.tlsRecvHelper size false
    · rw [hempty ‹_›]
      exact ⟨h.addReadReq .read, addReadReq_recvData .read⟩
  · split
    · exact h.tlsRecvHelper size true
    · rw [hempty ‹_›]
      exact ⟨h.addReadReq .acceptRead, addReadReq_recvData .acceptRead⟩

theorem Balanced.wolfIo (h : s.Balanced) (io : WolfIo) :
    (TcpServer.wolfIo i s io).Balanced ∧
      ((TcpServer.wolfIo i s io).clients i).recvData = io.leaves (s.clients i).recvData := by
  cases io with
  | send size stale => exact h.tlsSend size stale
  | recv size => exact h.tlsRecv size

theorem Balanced.wolfIos (h : s.Balanced) (ios : List WolfIo) :
    (ios.foldl (TcpServer.wolfIo i) s).Balanced ∧
      ((ios.foldl (TcpServer.wolfIo i) s).clients i).recvData = ios.foldl WolfIo.leaves (s.clients i).recvData := by
  induction ios generalizing s with
  | nil => exact ⟨h, rfl⟩
  | cons io ios ih =>
      obtain ⟨hio, hrecv⟩ := h.wolfIo (i := i) io
      obtain ⟨hios, hrecvs⟩ := ih hio
      refine ⟨hios, ?_⟩
      rw [List.foldl_cons, List.foldl_cons, hrecvs, hrecv]

/-- A call of wolfSSL on a session. -/
theorem Balanced.wolfCall (h : s.Balanced) :
    (s.wolfCall i).1.Balanced ∧ ((s.clients i).ssl = true →
      ((s.wolfCall i).1.clients i).recvData = leftover [s.wolf.headD {}] (s.clients i).recvData) := by
  have htail : TcpServer.Balanced { s with wolf := s.wolf.tail } := h
  unfold TcpServer.wolfCall
  dsimp only
  split
  · obtain ⟨hios, hrecv⟩ := htail.wolfIos (i := i) (s.wolf.headD {}).io
    refine ⟨hios, fun _ => ?_⟩
    rw [hrecv, leftover, List.flatMap_singleton]
  · rename_i hssl
    exact ⟨htail, fun hsession => absurd hsession hssl⟩

theorem wolfIo_wolf (io : WolfIo) : (wolfIo i s io).wolf = s.wolf := by
  have hread : ∀ event, (s.addReadReq i event).wolf = s.wolf := by
    intro event
    unfold addReadReq
    split <;> rfl
  cases io with
  | send size stale =>
      simp only [wolfIo, tlsSend]
      split
      · split
        · split <;> rfl
        · split <;> rfl
      · split <;> rfl
  | recv size =>
      have hhelper : ∀ accept, (s.tlsRecvHelper i size accept).wolf = s.wolf := by
        intro accept
        unfold tlsRecvHelper
        split
        · rfl
        · split
          · split
            · exact hread .acceptRead
            · rfl
          · rfl
      simp only [wolfIo, tlsRecv]
      split
      · split
        · exact hhelper false
        · exact hread .read
      · split
        · exact hhelper true
        · exact hread .acceptRead

/-- Each call is used once. -/
theorem wolfCall_wolf : (s.wolfCall i).1.wolf = s.wolf.tail := by
  have hios : ∀ (ios : List WolfIo) (s : TcpServer), (ios.foldl (wolfIo i) s).wolf = s.wolf := by
    intro ios
    induction ios with
    | nil => exact fun _ => rfl
    | cons io ios ih => exact fun s => (ih _).trans (wolfIo_wolf io)
  unfold wolfCall
  dsimp only
  split
  · exact hios _ _
  · rfl

/-! ### Calls of the application -/

theorem Balanced.enqueue (h : s.Balanced) (data : WriteData) (length : ℕ) :
    (s.enqueue .tls i data length).Balanced := by
  have hpush : (s.pushEntry i data).Balanced := h.setQueue _
  unfold TcpServer.enqueue
  split
  · exact hpush.wolfCall.1
  · exact hpush

theorem Balanced.broadcastMessage (h : s.Balanced) (clientIdxs : List ℕ) (buff : Ptr) (length : ℕ)
    (customInfo : ℤ) : (s.broadcastMessage .tls clientIdxs buff length customInfo).Balanced := by
  unfold TcpServer.broadcastMessage
  induction clientIdxs generalizing s with
  | nil => exact h
  | cons i clientIdxs ih => exact ih (h.enqueue _ length)

theorem Balanced.closeConnection (h : s.Balanced) : (s.closeConnection .tls i).Balanced := by
  unfold TcpServer.closeConnection
  split
  · have hshut : (s.wolfCall i).1.Balanced := h.wolfCall.1
    have hended : ((s.wolfCall i).1.modifyClient i fun client => { client with ssl := false }).Balanced :=
      hshut.modifyClient (hshut i)
    have hdropped := hended.setQueue (i := i) []
    exact hdropped
  · exact h

theorem Balanced.calls {cs : List TcpCall} (h : s.Balanced) (hcalls : s.calls .tls cs = some s') :
    s'.Balanced := by
  refine Runs.foldlM_keeps (R := Balanced) (fun b c b' _ hb hcall => ?_) h hcalls
  unfold call at hcall
  split at hcall
  · obtain rfl := Option.some.inj hcall
    cases c with
    | writeConnection i buff =>
        have hfresh : TcpServer.Balanced { b with nextAddr := b.nextAddr + 1 } := hb
        exact hfresh.enqueue _ buff.length
    | writeConnectionPtr i buff length => exact hb.enqueue _ length
    | broadcastMessage clientIdxs buff length customInfo => exact hb.broadcastMessage _ _ _ _
    | closeConnection i => exact hb.closeConnection
    | readConnection i => exact hb.addReadReq .read
    | customReadReq fd toRead clientIdx buff readAmount file => exact hb
  · cases hcall

/-- Nothing was received yet for a new occupant. -/
theorem Balanced.setupClient (h : s.Balanced) (sockfd : ℤ) : (s.setupClient sockfd).1.Balanced := by
  have hnew : ∀ index (client : Client), client.Balanced →
      ∀ j, (Function.update s.clients index client j).Balanced := by
    intro index client hclient j
    by_cases hj : j = index
    · rw [hj, Function.update_self]
      exact hclient
    · rw [Function.update_of_ne hj]
      exact h j
  unfold TcpServer.setupClient
  split
  · exact hnew _ _ rfl
  · exact hnew _ _ rfl

end TcpServer

open TcpServer

namespace Machine

variable {σ ε : Type*} {app : App σ ε} {m m' : Machine σ} {i : ℕ} {env : ε}

theorem balanced_callback {cb : Callback} {result : Option (σ × List TcpCall)} (h : m.tcp.Balanced)
    (hcb : m.callback .tls cb result = some m') : m'.tcp.Balanced := by
  obtain ⟨a, cs, -, hcalls, -, -⟩ := callback_eq_some hcb
  exact h.calls hcalls

theorem balanced_drainAndClose (h : m.tcp.Balanced) (hclose : m.drainAndClose .tls app i = some m') :
    m'.tcp.Balanced := by
  rw [drainAndClose_tcp hclose]
  exact (h.setQueue []).closeConnection

theorem balanced_sweep {order halfClosed : List ℕ} (h : m.tcp.Balanced)
    (hsweep : m.sweep .tls app order halfClosed = some m') : m'.tcp.Balanced :=
  sweep_rule hsweep (R := fun x => x.tcp.Balanced) h fun _ _ _ _ _ hx hclose => balanced_drainAndClose hx hclose

/-- The bytes received for the present occupant are put behind those that wolfSSL did not get yet. -/
theorem balanced_tlsReceive {sub : Submission} {c : Completion ε} (h : m.tcp.Balanced)
    (hpresent : sub.occupant = m.tcp.occupants i) : (tlsReceive m.tcp i sub c).Balanced := by
  have hi : (m.tcp.clients i).delivered ++ (m.tcp.clients i).recvData = (m.tcp.clients i).received := h i
  unfold tlsReceive
  apply h.modifyClient
  simp only [Client.Balanced, if_pos hpresent, ← List.append_assoc, hi]

theorem balanced_tlsReadLoop (fuel : ℕ) {s : TcpServer} (buffer : Bytes) (h : s.Balanced) :
    (tlsReadLoop i fuel s buffer).1.Balanced := by
  induction fuel generalizing s buffer with
  | zero => exact h
  | succ fuel ih =>
      simp only [tlsReadLoop]
      split
      · exact h
      · split
        · exact h.wolfCall.1
        · exact ih _ h.wolfCall.1

theorem balanced_tlsRead {sub : Submission} {c : Completion ε} (h : m.tcp.Balanced)
    (hpresent : sub.occupant = m.tcp.occupants i) (hread : m.tlsRead app sub i c = some m') :
    m'.tcp.Balanced := by
  have hloop := balanced_tlsReadLoop (i := i) ((tlsReceive m.tcp i sub c).wolf.length + 1) []
    (balanced_tlsReceive (c := c) h hpresent)
  unfold tlsRead at hread
  dsimp only at hread
  split at hread
  · obtain rfl := Option.some.inj hread
    exact hloop.addReadReq .read
  · exact balanced_callback hloop hread

/-- The end of the handshake. What is left of the bytes received after wolfSSL has accepted and then read
once is dropped. -/
theorem balanced_tlsAcceptRead {sub : Submission} {c : Completion ε} (h : m.tcp.Balanced)
    (hpresent : sub.occupant = m.tcp.occupants i)
    (hused : (m.tcp.clients i).ssl = true → (m.tcp.wolf.headD {}).ret = 1 →
      leftover (m.tcp.wolf.take 2)
        ((m.tcp.clients i).recvData ++ received sub.req.readData c.data c.res) = [])
    (haccept : m.tlsAcceptRead app sub i c = some m') : m'.tcp.Balanced := by
  set s := tlsReceive m.tcp i sub c with hs
  have hreceived : s.Balanced := balanced_tlsReceive h hpresent
  obtain ⟨haccepting, hfirst⟩ := hreceived.wolfCall (i := i)
  unfold tlsAcceptRead at haccept
  dsimp only at haccept
  rw [← hs] at haccept
  split at haccept
  · rename_i hret
    obtain ⟨m₁, hm₁, hrest⟩ := Option.bind_eq_some_iff.mp haccept
    obtain ⟨a, -, rfl⟩ := Option.map_eq_some_iff.mp hm₁
    have hactive : TcpServer.Balanced { (s.wolfCall i).1 with
        activeConnections := insert i (s.wolfCall i).1.activeConnections } := haccepting
    obtain ⟨hreading, hsecond⟩ := hactive.wolfCall (i := i)
    -- wolfSSL accepts on a session, and reads on the same one
    have hyields : s.Yields i 0 := wolfCall_yields (by decide) (by omega)
    have hsession : ((s.wolfCall i).1.clients i).ssl = true := touches_wolfCall.ssl.trans hyields.1
    have hempty : (({ (s.wolfCall i).1 with
        activeConnections := insert i (s.wolfCall i).1.activeConnections }.wolfCall i).1.clients i).recvData = [] := by
      have hbuffered : (s.clients i).recvData =
          (m.tcp.clients i).recvData ++ received sub.req.readData c.data c.res := by simp [s, tlsReceive]
      have hwolf : s.wolf = m.tcp.wolf := rfl
      rw [hsecond hsession, hfirst hyields.1, wolfCall_wolf, leftover_take_two, hbuffered, hwolf]
      have hreturned : (m.tcp.wolf.headD {}).ret = 1 := by
        unfold wolfCall at hret
        dsimp only at hret
        rwa [if_pos hyields.1] at hret
      have hssl : (m.tcp.clients i).ssl = true := (touches_tlsReceive sub c).ssl.symm.trans hyields.1
      exact hused hssl hreturned
    have hdropped := hreading.modifyClient (i := i) (f := fun client => { client with recvData := [] }) ?_
    · dsimp only at hrest
      split at hrest
      · refine balanced_callback ?_ hrest
        simp only [onTcp_tcp]
        exact hdropped.modifyClient (hdropped i)
      · obtain rfl := Option.some.inj hrest
        exact hdropped
    · have hi := hreading i
      simp only [Client.Balanced, hempty] at hi ⊢
      exact hi
  · obtain rfl := Option.some.inj haccept
    exact haccepting

theorem balanced_tlsWrite {res : ℤ} (h : m.tcp.Balanced) (hwrite : m.tlsWrite app env i res = some m') :
    m'.tcp.Balanced := by
  have hended : (m.tcp.endWrite i).Balanced := h.endWrite
  unfold tlsWrite at hwrite
  dsimp only at hwrite
  split at hwrite
  · obtain rfl := Option.some.inj hwrite
    exact hended
  · rename_i front rest hqueue
    have hcalled := (hended.setQueue (i := i) ({ front with lastWritten := res } :: rest)).wolfCall (i := i)
    split at hwrite
    · unfold tlsWritten at hwrite
      split at hwrite
      · cases hwrite
      · obtain ⟨m₁, hm₁, rfl⟩ := Option.map_eq_some_iff.mp hwrite
        have hwritten : m₁.tcp.Balanced := by
          refine balanced_callback ?_ hm₁
          exact hcalled.1.setQueue _
        split
        · exact hwritten
        · exact hwritten.wolfCall.1
    · obtain rfl := Option.some.inj hwrite
      exact hcalled.1

/-- The bytes of a completed read are those of the present occupant of its slot, and if they complete the
handshake, wolfSSL takes them all. -/
def KeepsReceived (m : Machine σ) (sub : Submission) (i : ℕ) (c : Completion ε) : Prop :=
  sub.occupant = m.tcp.occupants i ∧
    (sub.req.event = .acceptRead → (m.tcp.clients i).ssl = true → (c.wolf.headD {}).ret = 1 →
      leftover (c.wolf.take 2) ((m.tcp.clients i).recvData ++ received sub.req.readData c.data c.res) = [])

/-- No completed read that passes the guard takes in bytes of an earlier occupant, or drops bytes at the end
of the handshake. -/
def Receives (m : Machine σ) (c : Completion ε) : Prop :=
  ∀ sub, m.tcp.inflight[c.index]? = some sub → sub.req.event = .read ∨ sub.req.event = .acceptRead →
    ∀ i, sub.req.clientIdx = some i → 0 < c.res → i = 0 ∨ (m.tcp.clients i).id = sub.req.ID →
      m.KeepsReceived sub i c

instance (sub : Submission) (c : Completion ε) : Decidable (m.KeepsReceived sub i c) := by
  unfold KeepsReceived
  infer_instance

instance (c : Completion ε) : Decidable (m.Receives c) :=
  inferInstanceAs (Decidable (∀ sub ∈ m.tcp.inflight[c.index]?, sub.req.event = .read ∨ sub.req.event = .acceptRead →
    ∀ i ∈ sub.req.clientIdx, 0 < c.res → i = 0 ∨ (m.tcp.clients i).id = sub.req.ID → m.KeepsReceived sub i c))

theorem balanced_tlsHandler {sub : Submission} {c : Completion ε} (h : m.tcp.Balanced)
    (hwolf : m.tcp.wolf = c.wolf)
    (hkeeps : sub.req.event = .read ∨ sub.req.event = .acceptRead → m.KeepsReceived sub i c)
    (hhandled : m.tlsHandler app sub i c = some m') : m'.tcp.Balanced := by
  unfold tlsHandler at hhandled
  split at hhandled
  · rename_i hevent
    obtain ⟨hpresent, hused⟩ := hkeeps (Or.inr hevent)
    rw [← hwolf] at hused
    exact balanced_tlsAcceptRead h hpresent (hused hevent) hhandled
  · obtain rfl := Option.some.inj hhandled
    have hended : (m.tcp.endWrite i).Balanced := h.endWrite
    have hwritten := hended.modifyClient (i := i)
      (f := fun client => { client with acceptLastWritten := c.res }) (hended i)
    exact hwritten.wolfCall.1
  · exact balanced_tlsWrite h hhandled
  · rename_i hevent
    exact balanced_tlsRead h (hkeeps (Or.inl hevent)).1 hhandled
  · obtain rfl := Option.some.inj hhandled
    exact h

theorem balanced_clientEvent {sub : Submission} {c : Completion ε} (h : m.tcp.Balanced)
    (hwolf : m.tcp.wolf = c.wolf)
    (hkeeps : sub.req.event = .read ∨ sub.req.event = .acceptRead → 0 < c.res →
      i = 0 ∨ (m.tcp.clients i).id = sub.req.ID → m.KeepsReceived sub i c)
    (hhandled : m.clientEvent .tls app sub i c = some m') : m'.tcp.Balanced := by
  have hkept : ∀ s, s = m.tcp ∨ s = m.tcp.endWrite i → s.Balanced := by
    rintro s (rfl | rfl)
    · exact h
    · exact h.endWrite
  exact clientEvent_rule hhandled (R := fun x => x.tcp.Balanced)
    (fun s hs _ _ _ hclose => balanced_drainAndClose (m := m.onTcp fun _ => s) (hkept s hs) hclose) hkept nofun
    (fun _ _ hres hid htls => balanced_tlsHandler h hwolf (fun hevent => hkeeps hevent hres hid) htls)

/-- One round of the loop. -/
theorem balanced_step {c : Completion ε} {log : List Callback} (h : m.tcp.Balanced) (hreceives : m.Receives c)
    (hstep : step .tls app m c = some (m', log)) : m'.tcp.Balanced := by
  obtain ⟨sub, hsub, hhandled, -⟩ := step_eq_some hstep
  have htake : (m.take c).tcp.Balanced := h
  refine dispatch_rule hhandled (R := fun x => x.tcp.Balanced) (fun _ => htake)
    (fun _ hm' => balanced_callback (m := (m.take c).onTcp fun s => s.addEventReq .notification) htake hm')
    (fun _ hm' => ?_) (fun _ m₁ hm₁ => ?_) (fun _ hT => (by cases hT)) (fun _ _ => ?_) (fun i hidx _ hm' => ?_)
  · refine customRead_rule hm' (R := fun x => x.tcp.Balanced) (fun _ hfinished => ?_) (fun _ _ => htake)
    refine balanced_callback ?_ hfinished
    exact htake
  · have hswept : m₁.tcp.Balanced := balanced_sweep htake hm₁
    exact hswept
  · have hsetup : ((m.take c).tcp.setupClient c.res).1.Balanced := htake.setupClient c.res
    have hasked : (((m.take c).tcp.setupClient c.res).1.addEventReq .accept).Balanced := hsetup
    exact (hasked.modifyClient (hasked _)).wolfCall.1
  · exact balanced_clientEvent htake rfl (fun hevent hres hid => hreceives sub hsub hevent i hidx hres hid) hm'

theorem balanced_start (a : σ) (reads : List (ℤ × ℕ)) : (start a reads).tcp.Balanced := by
  have hreads : ∀ (s : TcpServer), s.Balanced →
      (reads.foldl (fun s r => s.customReadReq r.1 r.2 none [] 0 none) s).Balanced := by
    induction reads with
    | nil => exact fun _ hs => hs
    | cons r reads ih => exact fun s hs => ih _ hs
  have hempty : TcpServer.Balanced {} := fun _ => rfl
  exact hreads _ hempty

end Machine

/-- **Received bytes.** Whatever the application of the TLS server does and wolfSSL asks for, in every run in
which no completed read takes in bytes of an earlier occupant or drops some at the end of the handshake, and
for every client: what wolfSSL got, followed by `recv_data`, is what was received on the socket. The guard
drops no read of a present client: its requests have its ID. -/
theorem received_bytes_kept {σ ε : Type*} (app : App σ ε) (a : σ) (reads : List (ℤ × ℕ))
    (cs : List (Completion ε))
    (hcs : Runs.Along (Machine.step .tls app) Machine.Receives (Machine.start a reads) cs)
    (m : Machine σ) (logs : List (List Callback))
    (hrun : Runs.exec (Machine.step .tls app) (Machine.start a reads) cs = some (m, logs)) (i : ℕ) :
    (m.tcp.clients i).delivered ++ (m.tcp.clients i).recvData = (m.tcp.clients i).received ∧
      ∀ sub ∈ m.tcp.inflight, sub.req.event.OfClient → sub.req.clientIdx = some i →
        sub.occupant = m.tcp.occupants i → (m.tcp.clients i).id = sub.req.ID := by
  have hbalanced : m.tcp.Balanced := by
    refine Runs.exec_invariant (Q := fun m : Machine σ => m.tcp.Balanced) ?_
      (Machine.balanced_start a reads) hcs hrun
    exact fun m c m' log h hreceives hstep => Machine.balanced_step h hreceives hstep
  obtain ⟨n, hinv⟩ := Machine.occupantInv_exec hrun
  refine ⟨hbalanced i, fun sub hsub hclient hidx hpresent => ?_⟩
  rw [hinv.id, ((hinv.request sub hsub).id hclient).2, hpresent]

/-- A handshake in one segment, and a record of which a byte is left over. -/
theorem received_bytes_kept_record :
    ∃ m logs, Runs.exec (Machine.step .tls replyApp) (Machine.start () [])
        [{ index := 3, res := 10, wolf := [{ io := [.recv 5] }], env := () },
          { index := 4, res := 5, data := [1, 2, 3, 4, 5],
            wolf := [{ io := [.recv 5], ret := 1 }, { io := [.recv 5] }], env := () },
          { index := 4, res := 3, data := [6, 7, 8],
            wolf := [{ io := [.recv 2], ret := 1, data := [9] }, { io := [.recv 5] }], env := () }] =
        some (m, logs) ∧
      (m.tcp.clients 0).recvData = [8] ∧
      (m.tcp.clients 0).delivered ++ (m.tcp.clients 0).recvData = (m.tcp.clients 0).received := by
  have hcs : Runs.Along (Machine.step .tls replyApp) Machine.Receives (Machine.start () [])
      [{ index := 3, res := 10, wolf := [{ io := [.recv 5] }], env := () },
        { index := 4, res := 5, data := [1, 2, 3, 4, 5],
          wolf := [{ io := [.recv 5], ret := 1 }, { io := [.recv 5] }], env := () },
        { index := 4, res := 3, data := [6, 7, 8],
          wolf := [{ io := [.recv 2], ret := 1, data := [9] }, { io := [.recv 5] }], env := () }] := by
    decide +kernel
  have hsome : (Runs.exec (Machine.step .tls replyApp) (Machine.start () [])
      [{ index := 3, res := 10, wolf := [{ io := [.recv 5] }], env := () },
        { index := 4, res := 5, data := [1, 2, 3, 4, 5],
          wolf := [{ io := [.recv 5], ret := 1 }, { io := [.recv 5] }], env := () },
        { index := 4, res := 3, data := [6, 7, 8],
          wolf := [{ io := [.recv 2], ret := 1, data := [9] }, { io := [.recv 5] }], env := () }]).any
      (fun r => (r.1.tcp.clients 0).recvData = [8]) = true := by decide +kernel
  simp only [Option.any_eq_true, decide_eq_true_eq] at hsome
  obtain ⟨⟨m, logs⟩, hrun, hrecv⟩ := hsome
  exact ⟨m, logs, hrun, hrecv, (received_bytes_kept replyApp () [] _ hcs m logs hrun 0).1⟩

/-- A segment carries the end of the handshake and the first byte of a record: wolfSSL accepts, does not get
enough for the record, and the byte is dropped. -/
theorem received_byte_dropped :
    ∃ m logs, Runs.exec (Machine.step .tls replyApp) (Machine.start () [])
        [{ index := 3, res := 10, wolf := [{ io := [.recv 5] }], env := () },
          { index := 4, res := 6, data := [1, 2, 3, 4, 5, 6],
            wolf := [{ io := [.recv 5], ret := 1 }, { io := [.recv 5] }], env := () }] = some (m, logs) ∧
      (m.tcp.clients 0).received = [1, 2, 3, 4, 5, 6] ∧ (m.tcp.clients 0).delivered = [1, 2, 3, 4, 5] ∧
      (m.tcp.clients 0).recvData = [] := by
  have hsome : (Runs.exec (Machine.step .tls replyApp) (Machine.start () [])
      [{ index := 3, res := 10, wolf := [{ io := [.recv 5] }], env := () },
        { index := 4, res := 6, data := [1, 2, 3, 4, 5, 6],
          wolf := [{ io := [.recv 5], ret := 1 }, { io := [.recv 5] }], env := () }]).any
      (fun r => (r.1.tcp.clients 0).received = [1, 2, 3, 4, 5, 6] ∧
        (r.1.tcp.clients 0).delivered = [1, 2, 3, 4, 5] ∧ (r.1.tcp.clients 0).recvData = []) = true := by
    decide +kernel
  simp only [Option.any_eq_true, decide_eq_true_eq] at hsome
  obtain ⟨⟨m, logs⟩, hrun, hclient⟩ := hsome
  exact ⟨m, logs, hrun, hclient⟩

end LiburingServer
