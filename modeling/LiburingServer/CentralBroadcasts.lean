import LiburingServer.Central
import LiburingServer.WebBroadcasts
import Mathlib.Algebra.BigOperators.Fin

/-! The broadcasts of all threads together. Every server thread keeps its account of every item; the
store of the central thread has at least as many uses of an item left as the accounts and the posts still
to be made say. So an item that is recycled is out with no server thread. -/

namespace LiburingServer

open UseCount TcpServer

variable {N n : ℕ}

namespace DataStore

/-- The buffer at `ptr` is that of the item at `k`. -/
def Holds (d : DataStore) (k : ℕ) (ptr : Ptr) : Prop := ∃ item, d.live k = some item ∧ ptr = .item item.serial

/-- How many uses are left of the item at `k`. -/
def usesLeft (d : DataStore) (k : ℕ) : ℤ := (d.live k).elim 0 StoreItem.uses

end DataStore

/-! ### One server thread -/

namespace Worker

def account (w : Worker N) (k : ℕ) : Account := w.machine.app.ledger.account (w.machine.tcp.broadcasts k) k

/-- The terms under which the server thread goes on. -/
def terms (exact : Prop) (valid : ℕ → Ptr → Prop) (w : Worker N) : Terms where
  exact := exact
  valid := valid
  owed k := (w.account k).owed
  posted := w.machine.app.toServerQueue
  reports := w.machine.app.toProgramQueue
  counter := w.machine.app.centralCommunicationEventfd
  entries := w.machine.tcp.broadcastEntries

structure Inv (exact : Prop) (valid : ℕ → Ptr → Prop) (T : ServerType) (w : Worker N) : Prop where
  broadcasts : BroadcastInv (w.terms exact valid) T w.machine.tcp w.machine.app
  messages : ∀ msg ∈ w.machine.app.toServerQueue, valid msg.itemIdx msg.buffPtr
  slots : ∃ n, OccupantInv n w.machine.tcp

/-- What handling a completion does to the channels and the accounts. -/
structure Handled (w w' : Worker N) (c : Completion WebEnv) : Prop where
  owed : ∀ k, (w'.account k).owed = (w.account k).owed
  queue : w'.machine.app.toServerQueue =
    if w.IsNotification c then w.machine.app.toServerQueue.tail else w.machine.app.toServerQueue
  told : ∃ new, w'.machine.app.toProgramQueue = w.machine.app.toProgramQueue ++ new ∧
    w'.machine.app.centralCommunicationEventfd = w.machine.app.centralCommunicationEventfd + new.length

variable {exact : Prop} {valid valid' : ℕ → Ptr → Prop} {T : ServerType} {w w' : Worker N}
  {c : Completion WebEnv} {k : ℕ}

theorem terms_of_broadcastInv {t : Terms} (hexact : t.exact = exact) (hvalid : t.valid = valid)
    (h : BroadcastInv t T w.machine.tcp w.machine.app) :
    BroadcastInv (w.terms exact valid) T w.machine.tcp w.machine.app := by
  subst hexact hvalid
  refine ⟨⟨fun k => ?_, h.ledger.listed, h.ledger.noneClosing, rfl, [], ?_, rfl⟩, h.queues.refl⟩
  · have hbalanced := h.ledger.balanced k
    exact { hbalanced with owed := rfl }
  · exact (List.append_nil _).symm

/-- Whatever is queued for an item, it is out with the server thread. -/
theorem Inv.owed_of_entry (h : w.Inv exact valid T) {i : ℕ} (hi : i < w.machine.tcp.numClients) {e : WriteData}
    (he : e ∈ (w.machine.tcp.clients i).queue) (hbroadcast : e.broadcast) (hinfo : e.customInfo = k) :
    (w.account k).owed ≠ 0 := by
  have hbalanced := h.broadcasts.ledger.balanced k
  have hheld : (w.account k).held ≠ 0 := by
    have hcount : broadcastsOf k (w.machine.tcp.clients i).sendData ≠ 0 := by
      rw [← Client.broadcastsOf_queue, broadcastsOf, ← Nat.pos_iff_ne_zero, List.countP_pos_iff]
      exact ⟨e, he, by simp [hbroadcast, hinfo]⟩
    have : w.machine.tcp.broadcasts k ≠ 0 := by
      rw [broadcasts_eq hi]
      omega
    exact this
  have hworking : (w.account k).received ≠ (w.account k).finished := fun heq => hheld (hbalanced.idle heq)
  have hordered : (w.account k).finished ≤ (w.account k).received := hbalanced.ordered
  unfold Account.owed
  omega

theorem owed_of_message {msg : MessagePostData} (hmsg : msg ∈ w.machine.app.toServerQueue) :
    (w.account msg.itemIdx).owed ≠ 0 := by
  have hinbox : 0 < (w.account msg.itemIdx).inbox := by
    refine List.countP_pos_iff.mpr ⟨msg, hmsg, ?_⟩
    simp
  unfold Account.owed
  omega

/-- Only the items that are out with the server thread matter. -/
theorem Inv.mono (h : w.Inv exact valid T)
    (hvalid : ∀ k ptr, (w.account k).owed ≠ 0 → valid k ptr → valid' k ptr) : w.Inv exact valid' T := by
  refine ⟨⟨⟨h.broadcasts.ledger.balanced, h.broadcasts.ledger.listed, h.broadcasts.ledger.noneClosing,
    h.broadcasts.ledger.posted, h.broadcasts.ledger.told⟩, ?_, h.broadcasts.queues.placed,
    h.broadcasts.queues.older⟩, fun msg hmsg => ?_, h.slots⟩
  · intro i hi e he
    obtain ⟨hnamed, hown⟩ := h.broadcasts.queues.entry i hi e he
    refine ⟨fun hbroadcast => ?_, hown⟩
    obtain ⟨k, hk, hptr⟩ := hnamed hbroadcast
    exact ⟨k, hk, hvalid k _ (h.owed_of_entry hi he hbroadcast hk) hptr⟩
  · exact hvalid _ _ (owed_of_message hmsg) (h.messages msg hmsg)

theorem handle_eq_some (h : w.handle T c = some w') :
    w.tcpServer ∧ (w.IsNotification c → w.notified) ∧
      ∃ m log, w.machine.step T (webApp N) c = some (m, log) ∧
        w' = { w with machine := m, notified := w.notified && !decide (w.IsNotification c) } := by
  unfold handle at h
  split at h
  · rename_i hcond
    obtain ⟨⟨m, log⟩, hstep, rfl⟩ := Option.map_eq_some_iff.mp h
    exact ⟨hcond.1, hcond.2, m, log, hstep, rfl⟩
  · cases h

/-- A server thread that handles a completion keeps its accounts. -/
theorem Inv.handle (h : w.Inv exact valid T) (hkeeps : exact → w.machine.KeepsBroadcasts T c)
    (hqueue : w.IsNotification c → w.machine.app.toServerQueue ≠ []) (hhandle : w.handle T c = some w') :
    w'.Inv exact valid T ∧ w.Handled w' c := by
  obtain ⟨-, -, m, log, hstep, rfl⟩ := handle_eq_some hhandle
  obtain ⟨slots, hslots⟩ := h.slots
  have hslots' := Machine.occupantInv_step hslots hstep
  by_cases hnotification : w.IsNotification c
  · obtain ⟨sub, hsub, hevent⟩ := hnotification
    obtain ⟨msg, rest, hcons⟩ := List.exists_cons_of_ne_nil (hqueue ⟨sub, hsub, hevent⟩)
    have hposted : BroadcastInv { w.terms exact valid with posted := msg :: rest } T w.machine.tcp
        w.machine.app := by
      have := h.broadcasts
      simpa only [terms, hcons] using this
    have hstep' := Machine.broadcastInv_notification hposted (h.messages msg (by simp [hcons])) hsub hevent hstep
    have htaken : m.app.toServerQueue = rest := hstep'.ledger.posted
    refine ⟨⟨terms_of_broadcastInv rfl rfl hstep', fun msg' hmsg' => ?_, hslots'⟩, fun k => ?_, ?_, hstep'.ledger.told⟩
    · rw [htaken] at hmsg'
      exact h.messages msg' (by simp [hcons, hmsg'])
    · exact (hstep'.ledger.balanced k).owed
    · rw [if_pos ⟨sub, hsub, hevent⟩, hcons]
      exact htaken
  · have hother : ∀ sub, w.machine.tcp.inflight[c.index]? = some sub → sub.req.event ≠ .notification :=
      fun sub hsub hevent => hnotification ⟨sub, hsub, hevent⟩
    have hstep' := Machine.broadcastInv_step h.broadcasts hslots hkeeps hother hstep
    have hsame : m.app.toServerQueue = w.machine.app.toServerQueue := hstep'.ledger.posted
    refine ⟨⟨terms_of_broadcastInv rfl rfl hstep', fun msg' hmsg' => ?_, hslots'⟩, fun k => ?_, ?_, hstep'.ledger.told⟩
    · rw [hsame] at hmsg'
      exact h.messages msg' hmsg'
    · exact (hstep'.ledger.balanced k).owed
    · rw [if_neg hnotification]
      exact hsame

theorem Inv.congr (h : w.Inv exact valid T) (hmachine : w'.machine = w.machine) : w'.Inv exact valid T := by
  obtain ⟨machine', tcpServer', efd', notified', reported'⟩ := w'
  subst hmachine
  exact ⟨h.broadcasts, h.messages, h.slots⟩

/-- The application changes in what the central thread may change: the queues and the eventfd. -/
theorem Inv.exchange (h : w.Inv exact valid T) (toServer toProgram : List MessagePostData) (counter : ℕ)
    (hbalanced : ∀ k, ∃ o, Balanced exact o (((w.onApp fun a =>
      { a with toServerQueue := toServer, toProgramQueue := toProgram,
               centralCommunicationEventfd := counter }).account k)))
    (hmessages : ∀ msg ∈ toServer, valid msg.itemIdx msg.buffPtr) :
    (w.onApp fun a => { a with
      toServerQueue := toServer, toProgramQueue := toProgram,
      centralCommunicationEventfd := counter }).Inv exact valid T := by
  refine ⟨⟨⟨fun k => ?_, h.broadcasts.ledger.listed, h.broadcasts.ledger.noneClosing, rfl, [], ?_, rfl⟩,
    h.broadcasts.queues⟩, hmessages, h.slots⟩
  · obtain ⟨o, ho⟩ := hbalanced k
    exact { ho with owed := rfl }
  · exact (List.append_nil _).symm

theorem enqueue_account (w : Worker N) (msg : MessagePostData) (k : ℕ) :
    (w.enqueue msg).account k = if msg.itemIdx = k then (w.account k).post else w.account k := by
  have hinbox : (w.machine.app.toServerQueue ++ [msg]).countP (fun m => m.itemIdx = k) =
      w.machine.app.toServerQueue.countP (fun m => m.itemIdx = k) + if msg.itemIdx = k then 1 else 0 := by
    simp [List.countP_append, List.countP_singleton]
  split
  · rw [if_pos ‹_›] at hinbox
    simp only [account, Ledger.account, WebServer.ledger, enqueue, onApp, Account.post, hinbox]
  · rw [if_neg ‹_›] at hinbox
    simp only [account, Ledger.account, WebServer.ledger, enqueue, onApp, hinbox, Nat.add_zero]

/-- A message for an item that is not out with the server thread. -/
theorem Inv.enqueue (h : w.Inv exact valid T) {msg : MessagePostData} (hvalid : valid msg.itemIdx msg.buffPtr)
    (howed : (w.account msg.itemIdx).owed = 0) : (w.enqueue msg).Inv exact valid T := by
  refine h.exchange (w.machine.app.toServerQueue ++ [msg]) w.machine.app.toProgramQueue
    w.machine.app.centralCommunicationEventfd (fun k => ?_) (fun msg' hmsg' => ?_)
  · have hbalanced : Balanced exact (w.account k).owed (w.account k) := h.broadcasts.ledger.balanced k
    have heq := enqueue_account w msg k
    by_cases hk : msg.itemIdx = k
    · subst hk
      rw [if_pos rfl] at heq
      rw [howed] at hbalanced
      exact ⟨1, heq ▸ hbalanced.post⟩
    · rw [if_neg hk] at heq
      exact ⟨_, heq ▸ hbalanced⟩
  · rcases List.mem_append.mp hmsg' with hmem | hmem
    · exact h.messages msg' hmem
    · rw [List.mem_singleton.mp hmem]
      exact hvalid

variable {msg : MessagePostData} {rest : List MessagePostData}

theorem collect_account (hqueue : w.machine.app.toProgramQueue = msg :: rest) (k : ℕ) :
    w.getFromToProgramQueue.1.account k = if msg.itemIdx = k then (w.account k).collect else w.account k := by
  split
  · simp [account, Ledger.account, WebServer.ledger, getFromToProgramQueue, onApp, Account.collect, *]
  · simp [account, Ledger.account, WebServer.ledger, getFromToProgramQueue, onApp, *]

theorem outbox_ne_zero (hqueue : w.machine.app.toProgramQueue = msg :: rest) :
    (w.account msg.itemIdx).outbox ≠ 0 := by
  simp [account, Ledger.account, WebServer.ledger, hqueue]

/-- A report is collected. -/
theorem Inv.collect (h : w.Inv exact valid T) (hqueue : w.machine.app.toProgramQueue = msg :: rest) :
    w.getFromToProgramQueue.1.Inv exact valid T := by
  refine (h.exchange w.machine.app.toServerQueue w.machine.app.toProgramQueue.tail
    w.machine.app.centralCommunicationEventfd (fun k => ?_) h.messages).congr rfl
  have hbalanced : Balanced exact (w.account k).owed (w.account k) := h.broadcasts.ledger.balanced k
  have heq := collect_account hqueue k
  by_cases hk : msg.itemIdx = k
  · subst hk
    rw [if_pos rfl] at heq
    exact ⟨_, heq ▸ hbalanced.collect (outbox_ne_zero hqueue)⟩
  · rw [if_neg hk] at heq
    exact ⟨_, heq ▸ hbalanced⟩

end Worker

/-! ### All threads -/

namespace System

/-- How often item `k` is still to be posted. -/
def pending (s : System N n) (k : ℕ) : ℕ :=
  s.posting.elim 0 fun p => if p.msg.itemIdx = k then p.remaining.length else 0

/-- How often item `k` is out or still to be posted. -/
def owed (s : System N n) (k : ℕ) : ℕ := ∑ v, ((s.workers v).account k).owed + s.pending k

end System

/-- The invariant of all threads. `exact` says that no queue entry is ever lost, and `full` that no post
is ever dropped. -/
structure SystemInv (exact full : Prop) (T : ServerType) (s : System N n) : Prop where
  worker : ∀ v, (s.workers v).Inv exact s.store.Holds T
  store : s.store.Sound
  positive : ∀ k item, s.store.live k = some item → 0 < n → 0 < item.uses
  budget : ∀ k, (s.owed k : ℤ) ≤ s.store.usesLeft k
  spent : full → ∀ k, (s.owed k : ℤ) = s.store.usesLeft k
  posting : ∀ p, s.posting = some p → s.store.Holds p.msg.itemIdx p.msg.buffPtr ∧ p.remaining.Nodup ∧
    ∀ v ∈ p.remaining, ((s.workers v).account p.msg.itemIdx).owed = 0

namespace System

variable {exact full : Prop} {T : ServerType} {s s' : System N n} {w : Fin n} {worker : Worker N} {k : ℕ}

theorem setWorker_self : (s.setWorker w worker).workers w = worker := Function.update_self ..

theorem setWorker_of_ne {v : Fin n} (hv : v ≠ w) : (s.setWorker w worker).workers v = s.workers v :=
  Function.update_of_ne hv ..

/-- What handling a completion keeps, and the exchange of messages does not matter to, every step keeps. -/
theorem machine_step {e : SystemEvent n} {out : SystemOut n} {P : Machine (WebServer N) → Prop}
    (h : ∀ v, P (s.workers v).machine) (hstep : s.step T e = some (s', out))
    (hexchange : ∀ m toServer toProgram counter, P m → P { m with app := { m.app with
      toServerQueue := toServer, toProgramQueue := toProgram, centralCommunicationEventfd := counter } })
    (hhandle : ∀ w c m log, e = .handle w c → (s.workers w).machine.step T (webApp N) c = some (m, log) → P m) :
    ∀ v, P (s'.workers v).machine := by
  have hset : ∀ (w : Fin n) (worker : Worker N), P worker.machine →
      ∀ v, P ((s.setWorker w worker).workers v).machine := by
    intro w worker hworker v
    by_cases hv : v = w
    · rw [hv, setWorker_self]
      exact hworker
    · rw [setWorker_of_ne hv]
      exact h v
  refine step_rule hstep (R := fun s' _ => ∀ v, P (s'.workers v).machine) (fun w => hset w _ (h w))
    (fun _ _ => h) (fun msg w _ _ _ => hset w _ ?_) (fun _ _ _ _ _ _ => h) (fun _ _ => h)
    (fun _ w _ _ => hset w _ (h w)) (fun w _ _ => hset w _ (h w)) (fun w c worker he hworker => ?_)
    (fun w _ _ => hset w _ ?_) (fun w _ _ _ _ _ => hset w _ ?_)
  · exact hexchange _ _ (s.workers w).machine.app.toProgramQueue
      (s.workers w).machine.app.centralCommunicationEventfd (h w)
  · obtain ⟨-, -, m, log, hm, rfl⟩ := Worker.handle_eq_some hworker
    exact hset w _ (hhandle w c m log he hm)
  · exact hexchange _ (s.workers w).machine.app.toServerQueue (s.workers w).machine.app.toProgramQueue 0 (h w)
  · exact hexchange _ (s.workers w).machine.app.toServerQueue _
      (s.workers w).machine.app.centralCommunicationEventfd (h w)

/-- Only one account changes. -/
theorem sum_owed_of_ne (hothers : ∀ v, v ≠ w → s'.workers v = s.workers v) (k : ℕ) :
    (∑ v, ((s'.workers v).account k).owed) + ((s.workers w).account k).owed =
      (∑ v, ((s.workers v).account k).owed) + ((s'.workers w).account k).owed := by
  have herase : ∑ v ∈ Finset.univ.erase w, ((s'.workers v).account k).owed =
      ∑ v ∈ Finset.univ.erase w, ((s.workers v).account k).owed := by
    refine Finset.sum_congr rfl fun v hv => ?_
    rw [hothers v (Finset.ne_of_mem_erase hv)]
  rw [← Finset.add_sum_erase _ _ (Finset.mem_univ w), ← Finset.add_sum_erase _ _ (Finset.mem_univ w), herase]
  omega

/-- A step of server thread `w` that keeps its accounts. -/
theorem systemInv_local (h : SystemInv exact full T s) (hstore : s'.store = s.store)
    (hself : s'.workers w = worker) (hothers : ∀ v, v ≠ w → s'.workers v = s.workers v)
    (hw : worker.Inv exact s.store.Holds T)
    (howed : ∀ k, (worker.account k).owed = ((s.workers w).account k).owed)
    (hposting : s'.posting.map (fun p => (p.msg, p.remaining)) = s.posting.map fun p => (p.msg, p.remaining)) :
    SystemInv exact full T s' := by
  have hworkers : ∀ v k, ((s'.workers v).account k).owed = ((s.workers v).account k).owed := by
    intro v k
    by_cases hv : v = w
    · rw [hv, hself, howed]
    · rw [hothers v hv]
  have hpending : ∀ k, s'.pending k = s.pending k := by
    intro k
    have hmap : ∀ p : Option (Posting n), p.elim 0 (fun p => if p.msg.itemIdx = k then p.remaining.length else 0) =
        (p.map fun p => (p.msg, p.remaining)).elim 0 fun q => if q.1.itemIdx = k then q.2.length else 0 := by
      rintro (_ | p) <;> rfl
    unfold pending
    rw [hmap, hmap, hposting]
  have htotal : ∀ k, s'.owed k = s.owed k := by
    intro k
    unfold owed
    rw [hpending, Finset.sum_congr rfl fun v _ => hworkers v k]
  refine ⟨fun v => ?_, ?_, ?_, fun k => ?_, fun hfull k => ?_, fun p hp => ?_⟩
  · rw [hstore]
    by_cases hv : v = w
    · rw [hv, hself]
      exact hw
    · rw [hothers v hv]
      exact h.worker v
  · rw [hstore]
    exact h.store
  · rw [hstore]
    exact h.positive
  · rw [hstore, htotal]
    exact h.budget k
  · rw [hstore, htotal]
    exact h.spent hfull k
  · rw [hp, Option.map_some] at hposting
    obtain ⟨p', hp', heq⟩ := Option.map_eq_some_iff.mp hposting.symm
    obtain ⟨hmsg, hremaining⟩ := Prod.mk.inj heq
    rw [← hmsg, ← hremaining, hstore]
    obtain ⟨hholds, hnodup, hzero⟩ := h.posting p' hp'
    exact ⟨hholds, hnodup, fun v hv => (hworkers v _).trans (hzero v hv)⟩

/-- The timer puts a new item into the store. -/
theorem systemInv_insertFrame (h : SystemInv exact full T s) (hposting : s.posting = none) (first : ℕ) :
    SystemInv exact full T (s.insertFrame first) := by
  obtain ⟨hsound, hnone, hlive⟩ := h.store.insertItem timerFrame n first
  have hfresh : s.store.usesLeft (s.store.freeIdx first) = 0 := by rw [DataStore.usesLeft, hnone]; rfl
  have hno : s.owed (s.store.freeIdx first) = 0 := by
    have := h.budget (s.store.freeIdx first)
    omega
  have hzero : ∀ v, ((s.workers v).account (s.store.freeIdx first)).owed = 0 := by
    have hsum : ∑ v, ((s.workers v).account (s.store.freeIdx first)).owed = 0 := by
      unfold owed at hno
      omega
    exact fun v => Finset.sum_eq_zero_iff.mp hsum v (Finset.mem_univ v)
  have hpending : ∀ k, s.pending k = 0 := fun k => by rw [pending, hposting]; rfl
  have hremaining : ∀ k, (s.insertFrame first).pending k = if s.store.freeIdx first = k then n else 0 := by
    intro k
    simp [pending, insertFrame, DataStore.insertItem]
  have howed : ∀ k, (s.insertFrame first).owed k = s.owed k + if s.store.freeIdx first = k then n else 0 := by
    intro k
    simp only [owed, hremaining, hpending, Nat.add_zero]
    rfl
  have huses : ∀ k, (s.insertFrame first).store.usesLeft k =
      s.store.usesLeft k + ((if s.store.freeIdx first = k then n else 0 : ℕ) : ℤ) := by
    intro k
    unfold DataStore.usesLeft
    simp only [insertFrame, hlive]
    by_cases hk : s.store.freeIdx first = k
    · subst hk
      simp [hnone]
    · rw [Function.update_of_ne (Ne.symm hk), if_neg hk, Nat.cast_zero, add_zero]
  refine ⟨fun v => ?_, hsound, fun k item hitem hn => ?_, fun k => ?_, fun hfull k => ?_, fun p hp => ?_⟩
  · refine (h.worker v).mono fun k ptr hk hholds => ?_
    have hne : k ≠ s.store.freeIdx first := fun heq => hk (heq ▸ hzero v)
    obtain ⟨item, hitem, hptr⟩ := hholds
    refine ⟨item, ?_, hptr⟩
    simp only [insertFrame, hlive, Function.update_of_ne hne]
    exact hitem
  · simp only [insertFrame, hlive] at hitem
    by_cases hk : k = s.store.freeIdx first
    · rw [hk, Function.update_self] at hitem
      obtain rfl := Option.some.inj hitem
      exact Int.natCast_pos.mpr hn
    · rw [Function.update_of_ne hk] at hitem
      exact h.positive k item hitem hn
  · have := h.budget k
    rw [howed, huses]
    push_cast
    omega
  · have := h.spent hfull k
    rw [howed, huses]
    push_cast
    omega
  · obtain rfl := Option.some.inj hp
    refine ⟨⟨⟨timerFrame, n, s.store.nextSerial⟩, ?_, rfl⟩, List.nodup_finRange n, fun v _ => hzero v⟩
    simp only [insertFrame, hlive]
    exact Function.update_self ..

/-- The message is posted to the next server thread. -/
theorem systemInv_post {msg : MessagePostData} {remaining : List (Fin n)} (h : SystemInv exact full T s)
    (hposting : s.posting = some ⟨msg, w :: remaining, none⟩) :
    SystemInv exact full T
      { s.setWorker w ((s.workers w).enqueue msg) with posting := some ⟨msg, remaining, some w⟩ } := by
  obtain ⟨hholds, hnodup, hzero⟩ := h.posting _ hposting
  obtain ⟨hnot, hnodup⟩ := List.nodup_cons.mp hnodup
  have hw : ((s.workers w).account msg.itemIdx).owed = 0 := hzero w (by simp)
  set s' : System N n :=
    { s.setWorker w ((s.workers w).enqueue msg) with posting := some ⟨msg, remaining, some w⟩ } with hs'
  have hself : s'.workers w = (s.workers w).enqueue msg := Function.update_self ..
  have hothers : ∀ v, v ≠ w → s'.workers v = s.workers v := fun v hv => setWorker_of_ne hv
  have hmore : ∀ k, ((s'.workers w).account k).owed =
      ((s.workers w).account k).owed + if msg.itemIdx = k then 1 else 0 := by
    intro k
    rw [hself, Worker.enqueue_account]
    split
    · simp only [Account.owed, Account.post]
      omega
    · rfl
  -- what is out with one more thread is to be posted to one thread less
  have htotal : ∀ k, s'.owed k = s.owed k := by
    intro k
    have hsum := sum_owed_of_ne hothers k
    rw [hmore] at hsum
    have hbefore : s.pending k = if msg.itemIdx = k then remaining.length + 1 else 0 := by
      simp [pending, hposting]
    have hafter : s'.pending k = if msg.itemIdx = k then remaining.length else 0 := rfl
    unfold owed
    rw [hbefore, hafter]
    split
    · rw [if_pos ‹_›] at hsum
      omega
    · rw [if_neg ‹_›] at hsum
      omega
  refine ⟨fun v => ?_, h.store, h.positive, fun k => ?_, fun hfull k => ?_, fun p hp => ?_⟩
  · by_cases hv : v = w
    · rw [hv, hself]
      exact (h.worker w).enqueue hholds hw
    · rw [hothers v hv]
      exact h.worker v
  · rw [htotal]
    exact h.budget k
  · rw [htotal]
    exact h.spent hfull k
  · obtain rfl := Option.some.inj hp
    refine ⟨hholds, hnodup, fun v hv => ?_⟩
    have hne : v ≠ w := fun heq => hnot (heq ▸ hv)
    rw [hothers v hne]
    exact hzero v (by simp [hv])

/-- The loop goes on without posting to server thread `w`, or ends. -/
theorem systemInv_skip {p : Posting n} {posting : Option (Posting n)} (h : SystemInv exact full T s)
    (hposting : s.posting = some p)
    (hnext : ∀ p', posting = some p' → p'.msg = p.msg ∧ p'.remaining.Sublist p.remaining)
    (hsame : full → ∀ k, ({ s with posting } : System N n).pending k = s.pending k) :
    SystemInv exact full T { s with posting } := by
  have hpending : ∀ k, ({ s with posting } : System N n).pending k ≤ s.pending k := by
    intro k
    cases posting with
    | none => exact Nat.zero_le _
    | some p' =>
        obtain ⟨hmsg, hsub⟩ := hnext p' rfl
        have := hsub.length_le
        simp only [pending, hposting, Option.elim_some, hmsg]
        split <;> omega
  refine ⟨h.worker, h.store, h.positive, fun k => ?_, fun hfull k => ?_, fun p' hp' => ?_⟩
  · have hbudget := h.budget k
    have hless := hpending k
    have hsum : ∀ k, ({ s with posting } : System N n).owed k + s.pending k =
        s.owed k + ({ s with posting } : System N n).pending k := by
      intro k
      dsimp only [owed]
      omega
    have := hsum k
    show (({ s with posting } : System N n).owed k : ℤ) ≤ s.store.usesLeft k
    omega
  · have hspent := h.spent hfull k
    have : ({ s with posting } : System N n).owed k = s.owed k := by
      unfold owed
      rw [hsame hfull k]
    rw [this]
    exact hspent
  · obtain ⟨hmsg, hsub⟩ := hnext p' hp'
    obtain ⟨hholds, hnodup, hzero⟩ := h.posting p hposting
    rw [hmsg]
    exact ⟨hholds, hnodup.sublist hsub, fun v hv => hzero v (hsub.subset hv)⟩

/-- The central thread collects a report of server thread `w`: an item that is recycled is out with no
server thread. -/
theorem systemInv_collect {msg : MessagePostData} {rest : List MessagePostData} {d : DataStore}
    {recycled : Option ℕ} (h : SystemInv exact full T s) (hposting : s.posting = none)
    (hqueue : (s.workers w).machine.app.toProgramQueue = msg :: rest)
    (hfreed : s.store.freeItem msg.itemIdx = some (d, recycled)) :
    SystemInv exact full T { s.setWorker w (s.workers w).getFromToProgramQueue.1 with store := d } ∧
      ∀ serial, recycled = some serial → ∃ k item, s.store.live k = some item ∧ item.serial = serial ∧
        ∀ v, (((s.setWorker w (s.workers w).getFromToProgramQueue.1).workers v).account k).owed = 0 := by
  set s' : System N n := { s.setWorker w (s.workers w).getFromToProgramQueue.1 with store := d } with hs'
  have hself : s'.workers w = (s.workers w).getFromToProgramQueue.1 := Function.update_self ..
  have hothers : ∀ v, v ≠ w → s'.workers v = s.workers v := fun v hv => setWorker_of_ne hv
  have hout : ((s.workers w).account msg.itemIdx).outbox ≠ 0 := Worker.outbox_ne_zero hqueue
  have hless : ∀ k, ((s'.workers w).account k).owed + (if msg.itemIdx = k then 1 else 0) =
      ((s.workers w).account k).owed := by
    intro k
    rw [hself, Worker.collect_account hqueue]
    split
    · subst k
      simp only [Account.owed, Account.collect]
      omega
    · rfl
  have hnone : ∀ k, s.pending k = 0 := fun k => by rw [pending, hposting]; rfl
  have hnone' : ∀ k, s'.pending k = 0 := fun k => by rw [pending, hs']; simp [setWorker, hposting]
  have htotal : ∀ k, s'.owed k + (if msg.itemIdx = k then 1 else 0) = s.owed k := by
    intro k
    have hsum := sum_owed_of_ne hothers k
    have := hless k
    unfold owed
    rw [hnone, hnone']
    omega
  -- a report is for an item that is live
  have huses : 0 < s.store.usesLeft msg.itemIdx := by
    have hbudget := h.budget msg.itemIdx
    have := htotal msg.itemIdx
    rw [if_pos rfl] at this
    omega
  obtain ⟨item, hitem⟩ : ∃ item, s.store.live msg.itemIdx = some item := by
    cases hlive : s.store.live msg.itemIdx with
    | none => simp [DataStore.usesLeft, hlive] at huses
    | some item => exact ⟨item, rfl⟩
  have hleft : s.store.usesLeft msg.itemIdx = item.uses := by rw [DataStore.usesLeft, hitem]; rfl
  obtain ⟨hsound, hcases⟩ := h.store.freeItem hitem hfreed
  have hzero : recycled ≠ none → ∀ v, ((s'.workers v).account msg.itemIdx).owed = 0 := by
    intro hrecycled v
    have hone : item.uses = 1 := by
      rcases hcases with ⟨hone, -⟩ | ⟨-, hnone, -⟩
      · omega
      · exact absurd hnone hrecycled
    have hbudget := h.budget msg.itemIdx
    have hsum : ∑ v, ((s'.workers v).account msg.itemIdx).owed = 0 := by
      have := htotal msg.itemIdx
      rw [if_pos rfl] at this
      unfold owed at this hbudget
      omega
    exact Finset.sum_eq_zero_iff.mp hsum v (Finset.mem_univ v)
  have hafter : ∀ k, d.usesLeft k = s.store.usesLeft k - if msg.itemIdx = k then 1 else 0 := by
    intro k
    by_cases hk : msg.itemIdx = k
    · subst hk
      rw [hleft, if_pos rfl]
      rcases hcases with ⟨hone, -, hlive⟩ | ⟨-, -, hlive⟩
      · rw [DataStore.usesLeft, hlive, Function.update_self, hone]
        rfl
      · rw [DataStore.usesLeft, hlive, Function.update_self]
        rfl
    · rw [if_neg hk, sub_zero]
      rcases hcases with ⟨-, -, hlive⟩ | ⟨-, -, hlive⟩
      all_goals rw [DataStore.usesLeft, hlive, Function.update_of_ne (Ne.symm hk), DataStore.usesLeft]
  refine ⟨⟨fun v => ?_, hsound, fun k item' hitem' hn => ?_, fun k => ?_, fun hfull k => ?_, fun p hp => ?_⟩,
    fun serial hserial => ?_⟩
  · have hv : (s'.workers v).Inv exact s.store.Holds T := by
      by_cases hv : v = w
      · rw [hv, hself]
        exact (h.worker w).collect hqueue
      · rw [hothers v hv]
        exact h.worker v
    refine hv.mono fun k ptr hk hholds => ?_
    obtain ⟨item', hitem', hptr⟩ := hholds
    rcases hcases with ⟨-, hrecycled, hlive⟩ | ⟨-, -, hlive⟩
    · have hne : k ≠ msg.itemIdx := fun heq => hk (heq ▸ hzero (by simp [hrecycled]) v)
      exact ⟨item', by rw [hs', hlive, Function.update_of_ne hne, hitem'], hptr⟩
    · by_cases heq : k = msg.itemIdx
      · subst heq
        obtain rfl : item = item' := Option.some.inj (hitem.symm.trans hitem')
        exact ⟨{ item with uses := item.uses - 1 }, by rw [hs', hlive, Function.update_self], hptr⟩
      · exact ⟨item', by rw [hs', hlive, Function.update_of_ne heq, hitem'], hptr⟩
  · have hpos := h.positive msg.itemIdx item hitem hn
    rcases hcases with ⟨-, -, hlive⟩ | ⟨hmore, -, hlive⟩
    · rw [hs', hlive, Function.update_apply] at hitem'
      split at hitem'
      · cases hitem'
      · exact h.positive k item' hitem' hn
    · rw [hs', hlive, Function.update_apply] at hitem'
      split at hitem'
      · obtain rfl := Option.some.inj hitem'
        simp only
        omega
      · exact h.positive k item' hitem' hn
  · have hbudget := h.budget k
    have := htotal k
    show (s'.owed k : ℤ) ≤ d.usesLeft k
    rw [hafter]
    split_ifs at this ⊢ <;> omega
  · have hspent := h.spent hfull k
    have := htotal k
    show (s'.owed k : ℤ) = d.usesLeft k
    rw [hafter]
    split_ifs at this ⊢ <;> omega
  · have : s.posting = some p := hp
    rw [hposting] at this
    cases this
  · refine ⟨msg.itemIdx, item, hitem, ?_, hzero (by simp [hserial])⟩
    rcases hcases with ⟨-, hrecycled, -⟩ | ⟨-, hnone, -⟩
    · exact Option.some.inj (hrecycled.symm.trans hserial)
    · exact absurd (hnone.symm.trans hserial) (by simp)

/-- No broadcast entry of a server thread is lost. -/
def KeepsBroadcasts (T : ServerType) (s : System N n) : SystemEvent n → Prop
  | .handle w c => (s.workers w).machine.KeepsBroadcasts T c
  | _ => True

/-- A message is only posted to a server thread that has called `set_tcp_server`. -/
def Ready (s : System N n) : SystemEvent n → Prop
  | .post => ∀ p ∈ s.posting, ∀ w ∈ p.remaining.head?, (s.workers w).tcpServer
  | _ => True

instance (T : ServerType) (s : System N n) : DecidablePred (s.KeepsBroadcasts T) := fun e => by
  cases e
  case handle w c => exact inferInstanceAs (Decidable ((s.workers w).machine.KeepsBroadcasts T c))
  all_goals exact isTrue trivial

instance (s : System N n) : DecidablePred s.Ready := fun e => by
  cases e
  case post =>
    exact inferInstanceAs (Decidable (∀ p ∈ s.posting, ∀ w ∈ p.remaining.head?, (s.workers w).tcpServer))
  all_goals exact isTrue trivial

/-- Every message has its write to an eventfd, or had it and is waited for by none. -/
def Lags (s : System N n) : Prop := ∀ v d, ∃ k, ((s.link v).channel d).Lags k

theorem Lags.toServerQueue (h : s.Lags) (hnotified : (s.workers w).notified) :
    (s.workers w).machine.app.toServerQueue ≠ [] := by
  obtain ⟨k, hk⟩ := h w .toServer
  exact hk.queue_ne_nil (by simp [link, hnotified])

theorem Lags.toProgramQueue (h : s.Lags) (hreported : (s.workers w).reported) :
    (s.workers w).machine.app.toProgramQueue ≠ [] := by
  obtain ⟨k, hk⟩ := h w .toProgram
  exact hk.queue_ne_nil (by simp [link, hreported])

theorem handle_cases {c : Completion WebEnv} (h : SystemInv exact full T s) (hlags : s.Lags)
    (hkeeps : exact → s.KeepsBroadcasts T (.handle w c)) (hhandle : (s.workers w).handle T c = some worker) :
    worker.Inv exact s.store.Holds T ∧ (s.workers w).Handled worker c := by
  refine (h.worker w).handle hkeeps (fun hnotification => hlags.toServerQueue ?_) hhandle
  exact (Worker.handle_eq_some hhandle).2.1 hnotification

/-- One step of any thread or of the kernel. -/
theorem systemInv_step {e : SystemEvent n} {out : SystemOut n} (h : SystemInv exact full T s) (hlags : s.Lags)
    (hkeeps : exact → s.KeepsBroadcasts T e) (hready : full → s.Ready e) (hstep : s.step T e = some (s', out)) :
    SystemInv exact full T s' := by
  refine step_rule hstep (R := fun s' _ => SystemInv exact full T s') (fun w => ?_)
    (fun first hposting => systemInv_insertFrame h hposting first)
    (fun msg w remaining hposting _ => systemInv_post h hposting) (fun msg w remaining he hposting hunset => ?_)
    (fun msg hposting => ?_) (fun msg w remaining hposting => ?_) (fun w _ _ => ?_)
    (fun w c worker he hhandle => ?_) (fun w _ _ => ?_) (fun w d recycled hposting hreported hfreed => ?_)
  · exact systemInv_local h rfl setWorker_self (fun v hv => setWorker_of_ne hv) ((h.worker w).congr rfl)
      (fun _ => rfl) rfl
  · refine systemInv_skip h hposting (fun p' hp' => ?_) (fun hfull => ?_)
    · obtain rfl := Option.some.inj hp'
      exact ⟨rfl, List.sublist_cons_self w remaining⟩
    · have hset := hready hfull
      rw [he] at hset
      have := hset _ hposting w rfl
      simp [hunset] at this
  · refine systemInv_skip h hposting (fun p' hp' => by cases hp') (fun _ k => ?_)
    simp [pending, hposting]
  · exact systemInv_local (w := w) h rfl setWorker_self (fun v hv => setWorker_of_ne hv)
      ((h.worker w).congr rfl) (fun _ => rfl) (by simp [hposting])
  · exact systemInv_local h rfl setWorker_self (fun v hv => setWorker_of_ne hv) ((h.worker w).congr rfl)
      (fun _ => rfl) rfl
  · subst he
    obtain ⟨hinv, hhandled⟩ := handle_cases h hlags hkeeps hhandle
    exact systemInv_local h rfl setWorker_self (fun v hv => setWorker_of_ne hv) hinv hhandled.owed rfl
  · refine systemInv_local h rfl setWorker_self (fun v hv => setWorker_of_ne hv) ?_ (fun _ => rfl) rfl
    exact ((h.worker w).exchange (s.workers w).machine.app.toServerQueue
      (s.workers w).machine.app.toProgramQueue 0 (fun k => ⟨_, (h.worker w).broadcasts.ledger.balanced k⟩)
      (h.worker w).messages).congr rfl
  · obtain ⟨msg, rest, hqueue⟩ := List.exists_cons_of_ne_nil (hlags.toProgramQueue hreported)
    have hmsg : (s.workers w).getFromToProgramQueue.2 = msg := by simp [Worker.getFromToProgramQueue, hqueue]
    rw [hmsg] at hfreed
    exact (systemInv_collect h hposting hqueue hfreed).1

/-! ### The channels of each server thread -/

variable {v : Fin n}

theorem link_congr (hworker : s'.workers v = s.workers v)
    (hposting : s'.posting.bind Posting.notifying = some v ↔ s.posting.bind Posting.notifying = some v) :
    s'.link v = s.link v := by
  simp only [link, hworker, hposting]

theorem link_ext {l : Link} (htcp : (s.workers v).tcpServer = l.tcpServer)
    (htoServer : (s.link v).channel .toServer = l.channel .toServer)
    (htoProgram : (s.link v).channel .toProgram = l.channel .toProgram) : s.link v = l := by
  have hchannel : (s.link v).channel = l.channel := by
    funext d
    cases d with
    | toServer => exact htoServer
    | toProgram => exact htoProgram
  calc s.link v = ⟨(s.workers v).tcpServer, (s.link v).channel⟩ := rfl
    _ = ⟨l.tcpServer, l.channel⟩ := by rw [htcp, hchannel]
    _ = l := rfl

/-- Handling a completion takes a message if it is a notification, and makes some posts. -/
theorem handle_link {c : Completion WebEnv} (hhandled : (s.workers w).Handled worker c)
    (hhandle : (s.workers w).handle T c = some worker) :
    ∃ es outs, Runs.exec Link.step (s.link w) es = some ((s.setWorker w worker).link w, outs) := by
  obtain ⟨hset, hnotified, m, log, hstep, hworker⟩ := Worker.handle_eq_some hhandle
  obtain ⟨new, hreports, hcounter⟩ := hhandled.told
  have hqueue := hhandled.queue
  have hself : (s.setWorker w worker).workers w = worker := setWorker_self
  have hposting : (s.setWorker w worker).posting = s.posting := rfl
  have hefd : worker.notificationEfd = (s.workers w).notificationEfd := by rw [hworker]
  have hflag : worker.notified = ((s.workers w).notified && !decide ((s.workers w).IsNotification c)) := by
    rw [hworker]
  set l := (s.setWorker w worker).link w with hl
  have htaken : ∃ es outs, Runs.exec Link.step (s.link w) es =
      some ((s.link w).setChannel .toServer (l.channel .toServer), outs) := by
    by_cases hnotification : (s.workers w).IsNotification c
    · have hpos : 0 < ((s.link w).channel .toServer).completed := by simp [link, hnotified hnotification]
      have hget : l.channel .toServer = ((s.link w).channel .toServer).get.1 := by
        rw [if_pos hnotification] at hqueue
        simp [hl, link, hself, hposting, Channel.get, hqueue, hefd, hflag, hnotification, hnotified hnotification]
      refine ⟨[.handle .toServer], _, Runs.exec_singleton (o := some ((s.link w).channel .toServer).get.2) ?_⟩
      rw [Link.step, if_pos hpos, hget]
    · have hsame : l.channel .toServer = (s.link w).channel .toServer := by
        rw [if_neg hnotification] at hqueue
        simp [hl, link, hself, hposting, hqueue, hefd, hflag, hnotification]
      refine ⟨[], [], ?_⟩
      rw [hsame]
      simp [Runs.exec, Link.setChannel]
  obtain ⟨es, outs, hrun⟩ := htaken
  have hset' : ((s.link w).setChannel .toServer (l.channel .toServer)).tcpServer := hset
  obtain ⟨outs', hposts⟩ := Link.exec_posts hset' .toProgram new
  refine ⟨_, outs ++ outs', Runs.exec_append.mpr ⟨_, outs, outs', hrun, hposts.trans ?_, rfl⟩⟩
  have hreported : l.channel .toProgram = { (s.link w).channel .toProgram with
      queue := ((s.link w).channel .toProgram).queue ++ new
      counter := ((s.link w).channel .toProgram).counter + new.length } := by
    simp only [hl, link, hself, hreports, hcounter]
    rw [hworker]
  rw [Option.some.injEq, Prod.mk.injEq]
  refine ⟨(link_ext ?_ ?_ ?_).symm, rfl⟩
  · rw [hself, hworker]
    rfl
  · simp [hl, Link.setChannel]
  · rw [← hl, hreported]
    simp [Link.setChannel]

/-- Every step is, for every server thread, a run of its two channels. -/
theorem step_link {e : SystemEvent n} {out : SystemOut n} (h : SystemInv exact full T s) (hlags : s.Lags)
    (hkeeps : exact → s.KeepsBroadcasts T e) (hstep : s.step T e = some (s', out)) (v : Fin n) :
    ∃ es outs, Runs.exec Link.step (s.link v) es = some (s'.link v, outs) := by
  -- a server thread that takes no part in the step
  have hidle : ∀ s' : System N n, s'.link v = s.link v →
      ∃ es outs, Runs.exec Link.step (s.link v) es = some (s'.link v, outs) :=
    fun s' hsame => ⟨[], [], by rw [hsame]; rfl⟩
  have hone : ∀ {s' : System N n} (e : LinkEvent) (out : Option MessagePostData),
      (s.link v).step e = some (s'.link v, out) →
      ∃ es outs, Runs.exec Link.step (s.link v) es = some (s'.link v, outs) :=
    fun e out hstep => ⟨[e], [out], Runs.exec_singleton hstep⟩
  refine step_rule hstep (R := fun s' _ => ∃ es outs, Runs.exec Link.step (s.link v) es = some (s'.link v, outs))
    (fun w => ?_) (fun first hposting => ?_) (fun msg w remaining hposting hset => ?_)
    (fun msg w remaining _ hposting _ => ?_) (fun msg hposting => ?_) (fun msg w remaining hposting => ?_)
    (fun w hefd hnotified => ?_) (fun w c worker he hhandle => ?_) (fun w hefd hreported => ?_)
    (fun w d recycled hposting hreported _ => ?_)
  · by_cases hv : v = w
    · subst hv
      apply hone .setTcpServer none
      simp only [Link.step, link, setWorker_self]
      rfl
    · exact hidle _ (link_congr (setWorker_of_ne hv) Iff.rfl)
  · refine hidle _ (link_congr rfl ?_)
    simp [insertFrame, hposting]
  · by_cases hv : v = w
    · subst hv
      apply hone (.enqueue .toServer msg) none
      have hset' : (s.link v).tcpServer := hset
      simp only [Link.step, if_pos hset', Option.some.injEq, Prod.mk.injEq, and_true]
      refine (link_ext ?_ ?_ ?_).symm
      all_goals simp [link, Link.setChannel, setWorker_self, Worker.enqueue, Worker.onApp, Channel.enqueue, hposting]
    · refine hidle _ (link_congr (setWorker_of_ne hv) ?_)
      simp [hposting, Ne.symm hv]
  · refine hidle _ (link_congr rfl ?_)
    simp [hposting]
  · refine hidle _ (link_congr rfl ?_)
    simp [hposting]
  · by_cases hv : v = w
    · subst hv
      apply hone (.eventfdWrite .toServer) none
      have hpos : 0 < ((s.link v).channel .toServer).posting := by simp [link, hposting]
      simp only [Link.step, if_pos hpos, Option.some.injEq, Prod.mk.injEq, and_true]
      refine (link_ext ?_ ?_ ?_).symm
      all_goals simp [link, Link.setChannel, setWorker_self, Worker.notifyEvent, Channel.eventfdWrite, hposting]
    · refine hidle _ (link_congr (setWorker_of_ne hv) ?_)
      simp [hposting, Ne.symm hv]
  · by_cases hv : v = w
    · subst hv
      apply hone (.eventfdRead .toServer) none
      have hpos : 0 < ((s.link v).channel .toServer).counter := hefd
      simp only [Link.step, if_pos hpos, Option.some.injEq, Prod.mk.injEq, and_true]
      refine (link_ext ?_ ?_ ?_).symm
      · simp [link, Link.setChannel, setWorker_self]
      · simp only [link, Link.setChannel, setWorker_self, Function.update_self, Channel.eventfdRead, hnotified]
        rfl
      · simp [link, Link.setChannel, setWorker_self]
    · exact hidle _ (link_congr (setWorker_of_ne hv) Iff.rfl)
  · subst he
    by_cases hv : v = w
    · subst hv
      exact handle_link (handle_cases h hlags hkeeps hhandle).2 hhandle
    · exact hidle _ (link_congr (setWorker_of_ne hv) Iff.rfl)
  · by_cases hv : v = w
    · subst hv
      apply hone (.eventfdRead .toProgram) none
      have hpos : 0 < ((s.link v).channel .toProgram).counter := hefd
      simp only [Link.step, if_pos hpos, Option.some.injEq, Prod.mk.injEq, and_true]
      refine (link_ext ?_ ?_ ?_).symm
      · simp [link, Link.setChannel, setWorker_self, Worker.onApp]
      · simp only [link, Link.setChannel, setWorker_self, Worker.onApp]
        rfl
      · simp [link, Link.setChannel, setWorker_self, Worker.onApp, Channel.eventfdRead, hreported]
    · exact hidle _ (link_congr (setWorker_of_ne hv) Iff.rfl)
  · by_cases hv : v = w
    · subst hv
      apply hone (.handle .toProgram) (some (s.workers v).getFromToProgramQueue.2)
      have hpos : 0 < ((s.link v).channel .toProgram).completed := by simp [link, hreported]
      simp only [Link.step, if_pos hpos, Option.some.injEq, Prod.mk.injEq]
      refine ⟨(link_ext ?_ ?_ ?_).symm, rfl⟩
      · simp [link, Link.setChannel, setWorker_self, Worker.getFromToProgramQueue, Worker.onApp]
      · simp only [link, Link.setChannel, setWorker_self, Worker.getFromToProgramQueue, Worker.onApp]
        rfl
      · simp [link, Link.setChannel, setWorker_self, Worker.getFromToProgramQueue, Worker.onApp, Channel.get,
          hreported]
    · exact hidle _ (link_congr (setWorker_of_ne hv) Iff.rfl)

/-! ### Runs -/

/-- A server thread has no broadcasts when its loop starts. -/
theorem worker_start (valid : ℕ → Ptr → Prop) (inotifyFd : ℤ) :
    ({ machine := webStart N inotifyFd } : Worker N).Inv exact valid T := by
  have hcalm : Calm T {} (webStart N inotifyFd).tcp := by
    unfold webStart Machine.start
    refine Calm.trans ?_ (calm_addEventReq .accept)
    refine Calm.trans ?_ (calm_customReadReq ..)
    exact ((calm_addEventReq .kill).trans (calm_addEventReq .notification)).trans (calm_addEventReq .timerfd)
  have hempty : EntryInv T valid (fun _ => []) {} := ⟨by simp, by simp, fun _ => List.suffix_rfl⟩
  have hnone : ∀ k, (webStart N inotifyFd).tcp.broadcasts k = 0 := by
    intro k
    rw [hcalm.broadcasts]
    rfl
  refine ⟨⟨⟨fun k => ?_, fun k hk => absurd (hnone k) hk, by simp [webStart, Machine.start, WebServer.NoneClosing],
    rfl, [], rfl, rfl⟩, (hcalm.entryInv hempty).refl⟩, ?_, 0, Machine.occupantInv_start _ _⟩
  · simp only [Worker.terms, Worker.account, hnone]
    exact ⟨rfl, Nat.zero_le 1, le_rfl, Nat.zero_le _, fun hlt => absurd hlt (lt_irrefl 0), fun _ => rfl,
      fun _ hlt => absurd hlt (lt_irrefl 0)⟩
  · simp [webStart, Machine.start]

theorem systemInv_start (inotifyFd : Fin n → ℤ) : SystemInv exact full T (start N n inotifyFd) := by
  have howed : ∀ k, (start N n inotifyFd).owed k = 0 := by
    intro k
    simp only [owed, start, pending, Option.elim_none, Nat.add_zero]
    refine Finset.sum_eq_zero fun v _ => ?_
    rfl
  have huses : ∀ k, (start N n inotifyFd).store.usesLeft k = 0 := fun k => rfl
  refine ⟨fun v => worker_start _ _, ⟨?_, ?_, ?_⟩, ?_, fun k => ?_, fun _ k => ?_, ?_⟩
  · simp [start]
  · simp [start, DataStore.live]
  · simp [start, DataStore.live]
  · simp [start, DataStore.live]
  · rw [howed, huses]
    rfl
  · rw [howed, huses]
    rfl
  · simp [start]

theorem lags_start (inotifyFd : Fin n → ℤ) : (start N n inotifyFd).Lags := by
  intro v d
  refine ⟨0, ⟨?_⟩⟩
  cases d with
  | toServer => rfl
  | toProgram => rfl

/-- One step keeps the accounts and the channels. -/
theorem inv_step {e : SystemEvent n} {out : SystemOut n} (h : SystemInv exact full T s ∧ s.Lags)
    (he : (exact → s.KeepsBroadcasts T e) ∧ (full → s.Ready e)) (hstep : s.step T e = some (s', out)) :
    SystemInv exact full T s' ∧ s'.Lags := by
  refine ⟨systemInv_step h.1 h.2 he.1 he.2 hstep, fun v => ?_⟩
  obtain ⟨es, outs, hlink⟩ := step_link h.1 h.2 he.1 hstep v
  exact Link.lags_exec (h.2 v) hlink

/-- The invariant holds wherever a run leads. -/
theorem systemInv_exec (exact full : Prop) {inotifyFd : Fin n → ℤ} {es : List (SystemEvent n)}
    {outs : List (SystemOut n)}
    (hes : Runs.Along (step T) (fun s e => (exact → s.KeepsBroadcasts T e) ∧ (full → s.Ready e))
      (start N n inotifyFd) es)
    (hrun : Runs.exec (step T) (start N n inotifyFd) es = some (s, outs)) :
    SystemInv exact full T s ∧ s.Lags :=
  Runs.exec_invariant (Q := fun s => SystemInv exact full T s ∧ s.Lags)
    (fun _ _ _ _ h he hstep => inv_step h he hstep) ⟨systemInv_start inotifyFd, lags_start inotifyFd⟩ hes hrun

end System

end LiburingServer
