import LiburingServer.WebLeases
import LiburingServer.WebFiles
import LiburingServer.CentralBroadcasts

/-! The locks of the cache and the writes in flight. A write request that reads from the buffer of a cache
slot is covered by a lease, from the fetch that has queued the buffer on. In the plain server the lease
ends too early if the client is killed before the buffer is written. -/

namespace LiburingServer

open TcpServer

variable {N n : ℕ}

namespace Machine

variable {m m' : Machine (WebServer N)} {i : ℕ} {env : WebEnv} {sub : Submission} {c : Completion WebEnv}

/-- The locks of the cache cover what is still to be read from it. -/
def Covered (m : Machine (WebServer N)) : Prop := m.app.Covers m.tcp.Sends

/-- The completion of a request of client `i` keeps the locks: a client that is killed leaves nothing to be
read from the slot that it fetched last, and a request that finds its file outdated finds it unlocked. -/
structure HandlerKeepsLocks (m : Machine (WebServer N)) (sub : Submission) (i : ℕ) (c : Completion WebEnv) :
    Prop where
  failed : m.EndsFailed sub i c → m.app.MayKill i (m.tcp.writing i)
  request : 0 < c.res → (i = 0 ∨ (m.tcp.clients i).id = sub.req.ID) → sub.req.event = .read →
    ∀ p, m.app.diskRead c.env (received sub.req.readData c.data c.res) = some p →
      ∀ j, m.app.webCache.filepathToCacheIdx p = some j → (m.app.webCache.cacheBuffer j).lockNumber = 0
  closed : 0 < c.res → (i = 0 ∨ (m.tcp.clients i).id = sub.req.ID) → sub.req.event = .read →
    isValidHttpReq (received sub.req.readData c.data c.res) = false →
    i ∉ m.app.activeWebsocketConnectionsClientIdxs → m.app.MayKill i (m.tcp.left i)
  written : 0 < c.res → (i = 0 ∨ (m.tcp.clients i).id = sub.req.ID) → sub.req.event = .write →
    sub.req.totalLength ≤ c.res + sub.req.written → m.app.NoWebsocket i →
    m.app.MayKill i (if i ∈ m.tcp.activeConnections ∧ (m.tcp.clients i).id = sub.req.ID then
      (m.tcp.clients i).sendData.tail.map WriteData.ptr ++ m.tcp.writing i else (m.tcp.endWrite i).left i)

/-- No client is killed while the slot that it fetched last is still to be read for it or was freed, no
file that is outdated is asked for while it is locked, and no file is stored in a slot that another client
fetched last. -/
def KeepsLocks (m : Machine (WebServer N)) (c : Completion WebEnv) : Prop :=
  ∀ sub, m.tcp.inflight[c.index]? = some sub →
    (sub.req.event = .timerfd → ∀ i ∈ m.tcp.activeConnections, i ∈ c.halfClosed →
      m.app.MayKill i (m.tcp.writing i)) ∧
    (sub.req.event = .customRead → ∀ i, sub.req.clientIdx = some i →
      ∀ j, Cache.cbegin m.app.webCache.freeIdxs c.env.first = some j → ∀ k < m.app.tcpClients.length, k ≠ i →
        (m.app.clientAt k).usingFile = true → m.app.webCache.clientIdxToCacheIdx k ≠ some j) ∧
    (sub.req.event.OfClient → ∀ i, sub.req.clientIdx = some i → (m.take c).HandlerKeepsLocks sub i c)

section

variable (m : Machine (WebServer N)) (sub : Submission) (c : Completion WebEnv)

set_option synthInstance.maxSize 512 in
instance : Decidable (m.HandlerKeepsLocks sub i c) :=
  decidable_of_iff ((m.EndsFailed sub i c → m.app.MayKill i (m.tcp.writing i)) ∧
    (0 < c.res → (i = 0 ∨ (m.tcp.clients i).id = sub.req.ID) → sub.req.event = .read →
      ∀ p ∈ m.app.diskRead c.env (received sub.req.readData c.data c.res),
        ∀ j ∈ m.app.webCache.filepathToCacheIdx p, (m.app.webCache.cacheBuffer j).lockNumber = 0) ∧
    (0 < c.res → (i = 0 ∨ (m.tcp.clients i).id = sub.req.ID) → sub.req.event = .read →
      isValidHttpReq (received sub.req.readData c.data c.res) = false →
      i ∉ m.app.activeWebsocketConnectionsClientIdxs → m.app.MayKill i (m.tcp.left i)) ∧
    (0 < c.res → (i = 0 ∨ (m.tcp.clients i).id = sub.req.ID) → sub.req.event = .write →
      sub.req.totalLength ≤ c.res + sub.req.written → m.app.NoWebsocket i →
      m.app.MayKill i (if i ∈ m.tcp.activeConnections ∧ (m.tcp.clients i).id = sub.req.ID then
        (m.tcp.clients i).sendData.tail.map WriteData.ptr ++ m.tcp.writing i else (m.tcp.endWrite i).left i)))
    ⟨fun h => ⟨h.1, h.2.1, h.2.2.1, h.2.2.2⟩, fun h => ⟨h.failed, h.request, h.closed, h.written⟩⟩

set_option synthInstance.maxSize 512 in
instance : Decidable (m.KeepsLocks c) :=
  inferInstanceAs (Decidable (∀ sub ∈ m.tcp.inflight[c.index]?,
    (sub.req.event = .timerfd → ∀ i ∈ m.tcp.activeConnections, i ∈ c.halfClosed →
      m.app.MayKill i (m.tcp.writing i)) ∧
    (sub.req.event = .customRead → ∀ i ∈ sub.req.clientIdx,
      ∀ j ∈ Cache.cbegin m.app.webCache.freeIdxs c.env.first, ∀ k < m.app.tcpClients.length, k ≠ i →
        (m.app.clientAt k).usingFile = true → m.app.webCache.clientIdxToCacheIdx k ≠ some j) ∧
    (sub.req.event.OfClient → ∀ i ∈ sub.req.clientIdx, (m.take c).HandlerKeepsLocks sub i c)))

end

/-! ### The plain server -/

theorem covered_callback {cb : Callback} {r : WebServer N × List TcpCall}
    (h : r.1.Covers fun k i => m.tcp.Sends k i ∨ ∃ c ∈ r.2, c.Sends k i)
    (hcb : m.callback .nonTls cb (some r) = some m') : m'.Covered := by
  obtain ⟨a, cs, hresult, hcalls, rfl, -⟩ := callback_eq_some hcb
  obtain rfl := Option.some.inj hresult
  exact h.mono fun k i hsends => sends_calls hcalls hsends

/-- A callback that kills its client and closes its connection. -/
theorem covered_close {cb : Callback} {r : WebServer N × List TcpCall} {w : WebServer N} (h : w.Covers m.tcp.Sends)
    (hkill : w.killClient i = some r.1) (hcs : r.2 = [.closeConnection i]) (hmay : w.MayKill i (m.tcp.left i))
    (hcb : m.callback .nonTls cb (some r) = some m') : m'.Covered := by
  obtain ⟨a, cs, hresult, hcalls, rfl, -⟩ := callback_eq_some hcb
  obtain rfl := Option.some.inj hresult
  simp only at hcs
  rw [hcs] at hcalls
  obtain ⟨-, htcp⟩ := calls_singleton hcalls
  refine h.killClient hkill hmay fun k j hsends => ?_
  rw [htcp] at hsends
  exact sends_closeConnection hsends

theorem covered_drainAndClose (h : m.Covered) (hmay : m.app.MayKill i (m.tcp.writing i))
    (hclose : m.drainAndClose .nonTls (webApp N) i = some m') :
    m'.Covered ∧ ∀ k ptrs, m.app.MayKill k ptrs → m'.app.MayKill k ptrs := by
  have htcp := drainAndClose_tcp hclose
  obtain ⟨m₁, hm₁, rfl⟩ := Option.map_eq_some_iff.mp hclose
  -- what is left is owed throughout
  let owed : ℕ → Fin N → Prop := fun k j => m.tcp.Sends k j ∧ (k = i → .cached j ∈ m.tcp.writing i)
  have hdrained : m₁.app.Covers owed ∧ m₁.app.MayKill i (m.tcp.writing i) ∧
      ∀ k ptrs, m.app.MayKill k ptrs → m₁.app.MayKill k ptrs := by
    refine Runs.foldlM_keeps (R := fun x : Machine (WebServer N) => x.app.Covers owed ∧
      x.app.MayKill i (m.tcp.writing i) ∧ ∀ k ptrs, m.app.MayKill k ptrs → x.app.MayKill k ptrs) ?_
      ⟨h.mono fun _ _ hk => hk.1, hmay, fun _ _ hk => hk⟩ hm₁
    rintro b info b' - ⟨hb, hmayb, hothers⟩ hcb
    obtain ⟨a, ha, rfl⟩ := Option.map_eq_some_iff.mp hcb
    exact ⟨hb.closeCb (fun j hj => hj.2 rfl) hmayb ha, hmayb.closeCb ha,
      fun k ptrs hk => (hothers k ptrs hk).closeCb ha⟩
  refine ⟨hdrained.1.mono fun k j hsends => ?_, hdrained.2.2⟩
  rw [htcp] at hsends
  obtain ⟨hold, hmem⟩ := sends_setQueue_suffix (by simp) (sends_closeConnection hsends).1
  exact ⟨hold, fun hk => by simpa using hmem hk⟩

theorem drainAndClose_inflight (hclose : m.drainAndClose .nonTls (webApp N) i = some m') :
    m'.tcp.inflight = m.tcp.inflight := by
  rw [drainAndClose_tcp hclose]
  unfold closeConnection
  split <;> rfl

/-- Closing one connection does not matter to the others that are to be closed. -/
theorem covered_sweep {order halfClosed : List ℕ} (h : m.Covered)
    (hmay : ∀ i ∈ m.tcp.activeConnections, i ∈ halfClosed → m.app.MayKill i (m.tcp.writing i))
    (hsweep : m.sweep .nonTls (webApp N) order halfClosed = some m') : m'.Covered := by
  refine (sweep_rule hsweep (R := fun x => x.Covered ∧ x.tcp.inflight = m.tcp.inflight ∧
    ∀ k ptrs, m.app.MayKill k ptrs → x.app.MayKill k ptrs) ⟨h, rfl, fun _ _ hk => hk⟩
    fun b i b' hactive hclosed hb hclose => ?_).1
  obtain ⟨hcovered, hflight, hothers⟩ := hb
  have hwriting : b.tcp.writing i = m.tcp.writing i := by rw [writing, writes, hflight, writing, writes]
  have hkill : b.app.MayKill i (b.tcp.writing i) := by
    rw [hwriting]
    exact hothers i _ (hmay i hactive hclosed)
  obtain ⟨hcovered', hothers'⟩ := covered_drainAndClose hcovered hkill hclose
  exact ⟨hcovered', (drainAndClose_inflight hclose).trans hflight,
    fun k ptrs hk => hothers' k ptrs (hothers k ptrs hk)⟩

theorem covered_read {buffer : Bytes} (h : m.Covered)
    (hout : ∀ p, m.app.diskRead env buffer = some p → ∀ j, m.app.webCache.filepathToCacheIdx p = some j →
      (m.app.webCache.cacheBuffer j).lockNumber = 0)
    (hmay : isValidHttpReq buffer = false → i ∉ m.app.activeWebsocketConnectionsClientIdxs →
      m.app.MayKill i (m.tcp.left i))
    (hcb : m.readCb .nonTls (webApp N) env i buffer = some m') : m'.Covered := by
  obtain ⟨a, cs, hresult, -⟩ := callback_eq_some hcb
  rw [readCb, hresult] at hcb
  rcases h.readCb hout hresult with hcovers | ⟨hcs, hkill, hinvalid, hinactive⟩
  · exact covered_callback hcovers hcb
  · exact covered_close h hkill hcs (hmay hinvalid hinactive) hcb

theorem covered_write {info : ℤ} (h : m.Covered) (hclosing : m.app.NoneClosing)
    (hmay : m.app.NoWebsocket i → m.app.MayKill i (m.tcp.left i))
    (hcb : m.writeCb .nonTls (webApp N) env i info = some m') : m'.Covered := by
  obtain ⟨a, cs, hresult, -⟩ := callback_eq_some hcb
  rw [writeCb, hresult] at hcb
  rcases WebServer.Covers.writeCb h hclosing hresult with ⟨hcovers, hcs⟩ | ⟨hcs, hnone, w₁, hfiles, hkill⟩
  · refine covered_callback (hcovers.mono fun k j hk => hk.resolve_right ?_) hcb
    rintro ⟨c, hc, -⟩
    rw [hcs] at hc
    cases hc
  · exact covered_close (h.sameFiles hfiles) hkill hcs ((hmay hnone).sameFiles hfiles) hcb

theorem covered_plainHandler (h : m.Covered) (hclosing : m.app.NoneClosing) (hres : 0 < c.res)
    (hguard : i = 0 ∨ (m.tcp.clients i).id = sub.req.ID) (hidx : sub.req.clientIdx = some i)
    (hkeeps : m.HandlerKeepsLocks sub i c)
    (hhandled : m.plainHandler (webApp N) sub i c = some m') : m'.Covered := by
  by_cases hread : sub.req.event = .read
  · simp only [plainHandler, hread] at hhandled
    have hsame : Touches i m.tcp (m.tcp.modifyClient i fun client => { client with readReqActive := false }) :=
      touches_modifyClient rfl rfl le_rfl rfl
    refine covered_read (m := m.onTcp fun s => s.modifyClient i fun client => { client with readReqActive := false })
      (h.mono fun k j => hsame.sends) (hkeeps.request hres hguard hread) (fun hinvalid hinactive => ?_) hhandled
    have hleft : (m.tcp.modifyClient i fun client => { client with readReqActive := false }).left i =
        m.tcp.left i := by
      simp [left, queued, writing]
    rw [onTcp_tcp, hleft]
    exact hkeeps.closed hres hguard hread hinvalid hinactive
  · refine plainHandler_rule hhandled (R := Covered) (fun hevent => absurd hevent hread)
      (fun _ front rest hq => ?_) (fun hevent front rest hq hactive hdone hm' => ?_)
      (fun hevent hinactive hdone hm' => ?_) h
    · refine h.mono fun k j hsends => (sends_submit hsends).elim id ?_
      rintro ⟨⟨-, hk⟩, haddr⟩
      obtain rfl : i = k := by simpa [hidx] using hk
      exact Or.inl (List.mem_map.mpr ⟨front, by simp [hq], haddr⟩)
    · have hall := all_written hres hdone
      have hended : ((m.tcp.endWrite i).clients i).sendData = front :: rest := by simpa [endWrite] using hq
      refine covered_write (m := m.onTcp fun s => (s.endWrite i).writeNext i rest)
        (h.mono fun k j hsends => sends_endWrite (sends_writeNext hended hsends).1) hclosing (fun hnone => ?_) hm'
      have hmay := hkeeps.written hres hguard hevent hall hnone
      rw [if_pos hactive, hq] at hmay
      exact hmay.mono fun j hmem => (sends_writeNext hended (sends_of_left hmem)).2 rfl
    · have hall := all_written hres hdone
      refine covered_write (m := m.onTcp fun s => s.endWrite i) (h.mono fun k j => sends_endWrite) hclosing
        (fun hnone => ?_) hm'
      have hmay := hkeeps.written hres hguard hevent hall hnone
      rwa [if_neg hinactive] at hmay

theorem covered_clientEvent (h : m.Covered) (hclosing : m.app.NoneClosing) (hidx : sub.req.clientIdx = some i)
    (hkeeps : m.HandlerKeepsLocks sub i c)
    (hhandled : m.clientEvent .nonTls (webApp N) sub i c = some m') : m'.Covered := by
  have hended : (m.onTcp fun s => s.endWrite i).Covered := h.mono fun k j => sends_endWrite
  refine clientEvent_rule hhandled (R := Covered) (fun s hs _ hends _ hclose => ?_) (fun s hs => ?_)
    (fun _ _ hres hid hm' => covered_plainHandler h hclosing hres hid hidx hkeeps hm') (fun hT => ?_)
  · have hmay := hkeeps.failed hends
    obtain rfl | rfl := hs
    · exact (covered_drainAndClose h hmay hclose).1
    · exact (covered_drainAndClose hended hmay hclose).1
  · obtain rfl | rfl := hs
    · exact h
    · exact hended
  · cases hT

/-- The file that was read is stored in a slot that no other client fetched last. -/
theorem covered_customRead {res : ℤ} {data : Bytes} (h : m.Covered) (hevent : sub.req.event = .customRead)
    (hmarks : ∀ i, sub.req.clientIdx = some i → ∀ j, Cache.cbegin m.app.webCache.freeIdxs env.first = some j →
      ∀ k < m.app.tcpClients.length, k ≠ i → (m.app.clientAt k).usingFile = true →
        m.app.webCache.clientIdxToCacheIdx k ≠ some j)
    (hhandled : m.customRead .nonTls (webApp N) env sub res data = some m') : m'.Covered := by
  refine customRead_rule hhandled (R := Covered) (fun readData hfinished => ?_)
    (fun _ _ => h.mono fun k j => sends_submit_of_ne (by simp [hevent]))
  obtain ⟨a, cs, hresult, -⟩ := callback_eq_some hfinished
  rw [hresult] at hfinished
  refine covered_callback ?_ hfinished
  refine WebServer.Covers.customReadCb h (fun i hi j hj k hk husing => ?_) hresult
  by_cases hlt : k < m.app.tcpClients.length
  · exact hmarks i hi j hj k hlt hk husing
  · rw [WebServer.clientAt, List.getElem?_eq_none (not_lt.mp hlt)] at husing
    cases husing

/-- A slot that is handed out has nothing queued. -/
theorem covered_plainAccept {res : ℤ} (h : m.Covered) (hhandled : m.plainAccept (webApp N) res = some m') :
    m'.Covered := by
  simp only [plainAccept] at hhandled
  obtain ⟨m₁, hm₁, rfl⟩ := Option.map_eq_some_iff.mp hhandled
  obtain ⟨a, ha, rfl⟩ := Option.map_eq_some_iff.mp hm₁
  obtain rfl := Option.some.inj ha
  refine (WebServer.Covers.newTcpClient h _).mono fun k j hsends => ?_
  have hset := (touches_addReadReq (Or.inl rfl)).sends hsends
  have hsetup : ((m.tcp.addEventReq .accept).setupClient res).1.Sends k j := hset
  exact sends_submit_of_ne (by simp) (sends_setupClient hsetup)

/-- A message that is broadcast does not point to the cache. -/
theorem covered_notification (h : m.Covered)
    (hmessages : ∀ msg ∈ m.app.toServerQueue, ∀ i : Fin N, msg.buffPtr ≠ .cached i)
    (hcb : (m.onTcp fun s => s.addEventReq .notification).callback .nonTls .event (some (m.app.eventCb env)) =
      some m') : m'.Covered := by
  have hasked : m.app.Covers (m.tcp.addEventReq .notification).Sends :=
    h.mono fun k j => sends_submit_of_ne (by simp)
  have hptr : ∀ i : Fin N, (m.app.toServerQueue.headD {}).buffPtr ≠ .cached i := by
    intro i
    cases hqueue : m.app.toServerQueue with
    | nil => simp
    | cons msg rest => exact hmessages msg (by simp [hqueue]) i
  refine covered_callback (m := m.onTcp fun s => s.addEventReq .notification)
    ((hasked.sameFiles (WebServer.sameFiles_eventCb env m.app)).mono fun k j hk => hk.resolve_right ?_) hcb
  rintro ⟨c, hc, hsends⟩
  simp only [WebServer.eventCb] at hc
  split at hc
  · obtain rfl := List.mem_singleton.mp hc
    exact hptr j hsends.2
  · cases hc

/-- One round of the loop of a plain server thread. -/
theorem covered_step {log : List Callback} (h : m.Covered) (hclosing : m.app.NoneClosing)
    (hmessages : ∀ msg ∈ m.app.toServerQueue, ∀ i : Fin N, msg.buffPtr ≠ .cached i) (hkeeps : m.KeepsLocks c)
    (hstep : step .nonTls (webApp N) m c = some (m', log)) : m'.Covered := by
  obtain ⟨sub, hsub, hhandled, -⟩ := step_eq_some hstep
  obtain ⟨hsweep, hread, hclient⟩ := hkeeps sub hsub
  have htake : (m.take c).Covered := h.mono fun k j hsends => hsends.imp_right writing_takeCompleted
  refine dispatch_rule hhandled (R := Covered) (fun _ => htake) (fun _ hm' => covered_notification htake hmessages hm')
    (fun hevent hm' => covered_customRead htake hevent (hread hevent) hm') (fun hevent m₁ hm₁ => ?_)
    (fun _ _ hm' => covered_plainAccept htake hm') (fun _ hT => ?_)
    (fun i hidx hevent hm' => covered_clientEvent htake hclosing hidx (hclient hevent i hidx) hm')
  · have hmay : ∀ i ∈ (m.take c).tcp.activeConnections, i ∈ c.halfClosed →
        (m.take c).app.MayKill i ((m.take c).tcp.writing i) := fun i hi hclosed =>
      (hsweep hevent i hi hclosed).mono fun j => writing_takeCompleted
    exact (covered_sweep htake hmay hm₁).mono fun k j => sends_submit_of_ne (by simp)
  · cases hT

theorem covered_start (inotifyFd : ℤ) : (webStart N inotifyFd).Covered := by
  have hqueued : ∀ k, (webStart N inotifyFd).tcp.queued k = [] := fun k => rfl
  have hwriting : ∀ k, (webStart N inotifyFd).tcp.writing k = [] := fun k => rfl
  refine ⟨fun _ => ∅, Cache.leased_empty, fun k i hsends => ?_⟩
  rw [Sends, hqueued, hwriting] at hsends
  exact absurd hsends (by simp)

end Machine

/-! ### All threads -/

namespace System

/-- The locks of plain server threads are kept. -/
def KeepsLocks (T : ServerType) (s : System N n) : SystemEvent n → Prop
  | .handle w c => T = .nonTls → (s.workers w).machine.KeepsLocks c
  | _ => True

instance (T : ServerType) (s : System N n) : DecidablePred (s.KeepsLocks T)
  | .setTcpServer _ => isTrue trivial
  | .timer _ => isTrue trivial
  | .post => isTrue trivial
  | .notify => isTrue trivial
  | .notification _ => isTrue trivial
  | .handle w c => inferInstanceAs (Decidable (T = .nonTls → (s.workers w).machine.KeepsLocks c))
  | .communication _ => isTrue trivial
  | .collect _ => isTrue trivial

variable {T : ServerType} {s s' : System N n} {e : SystemEvent n} {out : SystemOut n}

/-- What is to be read from the cache is covered, and a TLS server reads nothing from it. -/
theorem covered_step (h : SystemInv False False T s ∧ s.Lags)
    (hcovered : ∀ v, T = .nonTls → (s.workers v).machine.Covered)
    (hwolf : ∀ v, T = .tls → (s.workers v).machine.tcp.OnlyWolfssl) (hkeeps : s.KeepsLocks T e)
    (hstep : s.step T e = some (s', out)) :
    (∀ v, T = .nonTls → (s'.workers v).machine.Covered) ∧
      ∀ v, T = .tls → (s'.workers v).machine.tcp.OnlyWolfssl := by
  refine ⟨?_, ?_⟩
  · refine machine_step (P := fun m => T = .nonTls → m.Covered) hcovered hstep
      (fun m toServer toProgram counter hm hT => (hm hT).sameFiles ⟨rfl, fun _ => rfl⟩) fun w c m log he hm hT => ?_
    subst he hT
    refine Machine.covered_step (hcovered w rfl) (h.1.worker w).broadcasts.ledger.noneClosing
      (fun msg hmsg i hptr => ?_) (hkeeps rfl) hm
    obtain ⟨item, -, hitem⟩ := (h.1.worker w).messages msg hmsg
    rw [hptr] at hitem
    cases hitem
  · refine machine_step (P := fun m => T = .tls → m.tcp.OnlyWolfssl) hwolf hstep (fun _ _ _ _ hm => hm)
      fun w c m log he hm hT => ?_
    subst hT
    exact Machine.onlyWolfssl_step (hwolf w rfl) hm

end System

/-- **Writes from the cache.** In every run of the central thread and its server threads in which the locks
of plain server threads are kept, in every state that is reached: a write request in flight that reads from
the buffer of a cache slot finds it locked, and no insertion touches the buffer. -/
theorem cached_writes_locked (T : ServerType) (inotifyFd : Fin n → ℤ) (es : List (SystemEvent n))
    (hes : Runs.Along (System.step T) (System.KeepsLocks T) (System.start N n inotifyFd) es)
    (s : System N n) (outs : List (SystemOut n))
    (hrun : Runs.exec (System.step T) (System.start N n inotifyFd) es = some (s, outs)) (v : Fin n)
    (sub : Submission) (hsub : sub ∈ (s.workers v).machine.tcp.inflight) (hevent : sub.req.event = .write)
    (i : Fin N) (haddr : sub.addr = .cached i) :
    0 < ((s.workers v).machine.app.webCache.cacheBuffer i).lockNumber ∧
      ∀ filepath buff first wd cache done,
        (s.workers v).machine.app.webCache.tryInsertItem filepath buff first wd = some (cache, done) →
          (cache.cacheBuffer i).buffer = ((s.workers v).machine.app.webCache.cacheBuffer i).buffer := by
  obtain ⟨hinv, hcovered, hwolf⟩ := Runs.exec_invariant
    (Q := fun s : System N n => (SystemInv False False T s ∧ s.Lags) ∧
      (∀ v, T = .nonTls → (s.workers v).machine.Covered) ∧ ∀ v, T = .tls → (s.workers v).machine.tcp.OnlyWolfssl)
    (fun s e s' out h hkeeps hstep => ⟨System.inv_step h.1 ⟨False.elim, False.elim⟩ hstep,
      System.covered_step h.1 h.2.1 h.2.2 hkeeps hstep⟩)
    ⟨⟨System.systemInv_start inotifyFd, System.lags_start inotifyFd⟩, fun v _ => Machine.covered_start _,
      fun v _ => Machine.onlyWolfssl_start _ _⟩ hes hrun
  cases T with
  | nonTls =>
      obtain ⟨_, hslots⟩ := (hinv.1.worker v).slots
      have hidx := ((hslots.request sub hsub).id (by simp [EventType.OfClient, hevent])).1
      obtain ⟨k, hk⟩ := Option.ne_none_iff_exists'.mp hidx
      have hwrite : sub ∈ (s.workers v).machine.tcp.writes k := by
        refine List.mem_filter.mpr ⟨hsub, ?_⟩
        exact decide_eq_true ⟨hevent, hk⟩
      have hsends : (s.workers v).machine.tcp.Sends k i := Or.inr (List.mem_map.mpr ⟨sub, hwrite, haddr⟩)
      obtain ⟨hlock, hfree⟩ := WebServer.Covers.locked (hcovered v rfl) hsends
      refine ⟨hlock, fun filepath buff first wd cache done hinsert => ?_⟩
      exact congrArg ItemData.buffer (Cache.tryInsertItem_locked (ne_of_gt hlock) hfree hinsert)
  | tls =>
      rcases hwolf v rfl sub hsub with hnull | hwolf
      · rw [hnull] at haddr
        cases haddr
      · rw [hwolf] at haddr
        cases haddr

/-- A client of a plain server thread asks for a file; the file is read, stored in the cache and sent from
there. -/
def cachedFile : List (SystemEvent 1) :=
  .setTcpServer 0 :: fileEvents.map (.handle 0) ++
    [.handle 0 { index := 5, res := 3, data := [1, 2, 3], env := {} }]

theorem cached_writes_locked_file :
    Runs.Along (System.step .nonTls) (System.KeepsLocks .nonTls) (System.start 2 1 fun _ => 7) cachedFile ∧
      ∃ s outs sub, Runs.exec (System.step .nonTls) (System.start 2 1 fun _ => 7) cachedFile = some (s, outs) ∧
        sub ∈ (s.workers 0).machine.tcp.inflight ∧ sub.req.event = .write ∧ sub.addr = .cached 0 ∧
        0 < ((s.workers 0).machine.app.webCache.cacheBuffer 0).lockNumber := by
  have hes : Runs.Along (System.step .nonTls) (System.KeepsLocks .nonTls) (System.start 2 1 fun _ => 7)
      cachedFile := by decide +kernel
  have hsome : (Runs.exec (System.step .nonTls) (System.start 2 1 fun _ => 7) cachedFile).any (fun r =>
      (r.1.workers 0).machine.tcp.inflight.any fun sub => sub.req.event = .write ∧ sub.addr = .cached 0) = true := by
    decide +kernel
  simp only [Option.any_eq_true, List.any_eq_true, decide_eq_true_eq] at hsome
  obtain ⟨⟨s, outs⟩, hrun, sub, hsub, hevent, haddr⟩ := hsome
  refine ⟨hes, s, outs, sub, hrun, hsub, hevent, haddr, ?_⟩
  exact (cached_writes_locked .nonTls _ cachedFile hes s outs hrun 0 sub hsub hevent 0 haddr).1

/-- The client half-closes while the file is being sent, and the sweep finds it: the client is killed and
gives up its lock, but its write stays in flight. -/
theorem cached_write_unlocked :
    ∃ s outs sub, Runs.exec (System.step .nonTls) (System.start 2 1 fun _ => 7)
        (cachedFile ++ [.handle 0 { index := 2, res := 8, halfClosed := [0], env := {} }]) = some (s, outs) ∧
      sub ∈ (s.workers 0).machine.tcp.inflight ∧ sub.req.event = .write ∧ sub.addr = .cached 0 ∧
      ((s.workers 0).machine.app.webCache.cacheBuffer 0).lockNumber = 0 := by
  have hsome : (Runs.exec (System.step .nonTls) (System.start 2 1 fun _ => 7)
      (cachedFile ++ [.handle 0 { index := 2, res := 8, halfClosed := [0], env := {} }])).any (fun r =>
        ((r.1.workers 0).machine.tcp.inflight.any fun sub => sub.req.event = .write ∧ sub.addr = .cached 0) ∧
          ((r.1.workers 0).machine.app.webCache.cacheBuffer 0).lockNumber = 0) = true := by
    decide +kernel
  simp only [Option.any_eq_true, List.any_eq_true, decide_eq_true_eq] at hsome
  obtain ⟨⟨s, outs⟩, hrun, ⟨sub, hsub, hevent, haddr⟩, hlock⟩ := hsome
  exact ⟨s, outs, sub, hrun, hsub, hevent, haddr, hlock⟩

end LiburingServer
