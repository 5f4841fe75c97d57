import LiburingServer.Messages
import LiburingServer.TcpBroadcasts

/-! The central thread and its server threads. The timer of the central thread puts a frame into its data
store and posts it to every server thread, one after the other; a server thread handles its completions
one at a time; the central thread gives up one use of an item for every report it collects. The steps of
the threads and of the kernel interleave in any order. -/

namespace LiburingServer

variable {N n : ℕ}

/-- An element of `data_vec`. `serial` is bookkeeping that the source does not have: it tells the
allocations apart that a slot of the store is used for. -/
structure StoreItem where
  buffer : Bytes := []
  uses : ℤ := -1
  serial : ℕ := 0

/-- `data_store`. -/
structure DataStore where
  dataVec : List StoreItem := []
  freeIdxs : Finset ℕ := ∅
  nextSerial : ℕ := 0

namespace DataStore

/-- The item at `k`, if it was inserted and not recycled. -/
def live (d : DataStore) (k : ℕ) : Option StoreItem := if k ∈ d.freeIdxs then none else d.dataVec[k]?

/-- `free_item`; it yields the serial of an item that is recycled. -/
def freeItem (d : DataStore) (idx : ℕ) : Option (DataStore × Option ℕ) :=
  match d.dataVec[idx]? with
  | none => none
  | some item =>
      if item.uses - 1 = 0 then
        some ({ d with dataVec := d.dataVec.set idx {}, freeIdxs := insert idx d.freeIdxs }, some item.serial)
      else some ({ d with dataVec := d.dataVec.set idx { item with uses := item.uses - 1 } }, none)

/-- The index for a new item: some free one, which `first` may name, or a new one. -/
def freeIdx (d : DataStore) (first : ℕ) : ℕ :=
  if h : d.freeIdxs.Nonempty then if first ∈ d.freeIdxs then first else d.freeIdxs.min' h
  else d.dataVec.length

/-- `insert_item`; it yields the index of the item and a pointer to its buffer. -/
def insertItem (d : DataStore) (buff : Bytes) (uses : ℤ) (first : ℕ) : DataStore × ℕ × Ptr :=
  let idx := d.freeIdx first
  let dataVec := if d.freeIdxs.Nonempty then d.dataVec else d.dataVec ++ [({ uses := 0 } : StoreItem)]
  ({ dataVec := dataVec.set idx ⟨buff, uses, d.nextSerial⟩
     freeIdxs := d.freeIdxs.erase idx
     nextSerial := d.nextSerial + 1 }, idx, .item d.nextSerial)

/-- Free indexes are indexes of the vector, and no two items that are live have the same serial. -/
structure Sound (d : DataStore) : Prop where
  free : ∀ k ∈ d.freeIdxs, k < d.dataVec.length
  fresh : ∀ k item, d.live k = some item → item.serial < d.nextSerial
  distinct : ∀ k k' item item', d.live k = some item → d.live k' = some item' →
    item.serial = item'.serial → k = k'

variable {d d' : DataStore} {idx k : ℕ} {item item' : StoreItem} {recycled : Option ℕ}

theorem live_eq_some : d.live k = some item ↔ k ∉ d.freeIdxs ∧ d.dataVec[k]? = some item := by
  unfold live
  split <;> simp_all

/-- The item at `idx` is replaced by `item`, which is new or has the serial of the item before. -/
theorem Sound.update (h : d.Sound) (hfree : ∀ k ∈ d'.freeIdxs, k < d'.dataVec.length)
    (hserial : d.nextSerial ≤ d'.nextSerial) (hlive : d'.live = Function.update d.live idx (some item))
    (hitem : item.serial = d.nextSerial ∧ d.nextSerial < d'.nextSerial ∨
      ∃ item', d.live idx = some item' ∧ item.serial = item'.serial) : d'.Sound := by
  have hold : ∀ k item', k ≠ idx → d'.live k = some item' → d.live k = some item' := by
    intro k item' hk hitem'
    rwa [hlive, Function.update_of_ne hk] at hitem'
  have hnew : ∀ item', d'.live idx = some item' → item' = item := by
    intro item' hitem'
    rw [hlive, Function.update_self] at hitem'
    exact (Option.some.inj hitem').symm
  have hother : ∀ k item', k ≠ idx → d.live k = some item' → item'.serial ≠ item.serial := by
    intro k item' hk hitem' heq
    rcases hitem with ⟨hnext, -⟩ | ⟨item₀, hitem₀, hsame⟩
    · have := h.fresh k item' hitem'
      omega
    · exact hk (h.distinct k idx item' item₀ hitem' hitem₀ (heq.trans hsame))
  refine ⟨hfree, fun k item' hitem' => ?_, fun k k' item₁ item₂ h₁ h₂ heq => ?_⟩
  · by_cases hk : k = idx
    · subst hk
      rw [hnew item' hitem']
      rcases hitem with ⟨hnext, hlt⟩ | ⟨item₀, hitem₀, hsame⟩
      · omega
      · have := h.fresh k item₀ hitem₀
        omega
    · have := h.fresh k item' (hold k item' hk hitem')
      omega
  · by_cases hk : k = idx
    · by_cases hk' : k' = idx
      · rw [hk, hk']
      · subst hk
        rw [hnew item₁ h₁] at heq
        exact absurd heq.symm (hother k' item₂ hk' (hold k' item₂ hk' h₂))
    · by_cases hk' : k' = idx
      · subst hk'
        rw [hnew item₂ h₂] at heq
        exact absurd heq (hother k item₁ hk (hold k item₁ hk h₁))
      · exact h.distinct k k' item₁ item₂ (hold k item₁ hk h₁) (hold k' item₂ hk' h₂) heq

/-- The item at `idx` is no longer there. -/
theorem Sound.remove (h : d.Sound) (hfree : ∀ k ∈ d'.freeIdxs, k < d'.dataVec.length)
    (hserial : d'.nextSerial = d.nextSerial) (hlive : d'.live = Function.update d.live idx none) : d'.Sound := by
  have hold : ∀ k item', d'.live k = some item' → d.live k = some item' := by
    intro k item' hitem'
    rw [hlive, Function.update_apply] at hitem'
    split at hitem'
    · cases hitem'
    · exact hitem'
  refine ⟨hfree, fun k item' hitem' => ?_, fun k k' item₁ item₂ h₁ h₂ heq => ?_⟩
  · rw [hserial]
    exact h.fresh k item' (hold k item' hitem')
  · exact h.distinct k k' item₁ item₂ (hold k item₁ h₁) (hold k' item₂ h₂) heq

/-- What `free_item` can do. -/
theorem freeItem_cases (h : d.freeItem idx = some (d', recycled)) :
    ∃ item, d.dataVec[idx]? = some item ∧ idx < d.dataVec.length ∧
      (item.uses = 1 ∧ recycled = some item.serial ∧
          d' = { d with dataVec := d.dataVec.set idx {}, freeIdxs := insert idx d.freeIdxs } ∨
        item.uses ≠ 1 ∧ recycled = none ∧
          d' = { d with dataVec := d.dataVec.set idx { item with uses := item.uses - 1 } }) := by
  unfold freeItem at h
  split at h
  · cases h
  · rename_i item hitem
    refine ⟨item, hitem, (List.getElem?_eq_some_iff.mp hitem).1, ?_⟩
    split at h
    · obtain ⟨rfl, rfl⟩ := by simpa using h
      exact Or.inl ⟨by omega, rfl, rfl⟩
    · obtain ⟨rfl, rfl⟩ := by simpa using h
      exact Or.inr ⟨by omega, rfl, rfl⟩

/-- One use less; an item that had only one is recycled. -/
theorem Sound.freeItem (h : d.Sound) (hitem : d.live idx = some item)
    (hfreed : d.freeItem idx = some (d', recycled)) :
    d'.Sound ∧ (item.uses - 1 = 0 ∧ recycled = some item.serial ∧ d'.live = Function.update d.live idx none ∨
      item.uses - 1 ≠ 0 ∧ recycled = none ∧
        d'.live = Function.update d.live idx (some { item with uses := item.uses - 1 })) := by
  obtain ⟨hnot, hget⟩ := live_eq_some.mp hitem
  obtain ⟨item', hget', hlt, hcases⟩ := freeItem_cases hfreed
  obtain rfl : item = item' := Option.some.inj (hget.symm.trans hget')
  rcases hcases with ⟨hone, hrecycled, rfl⟩ | ⟨hone, hrecycled, rfl⟩
  · have hlive : DataStore.live { d with
        dataVec := d.dataVec.set idx {}, freeIdxs := insert idx d.freeIdxs } = Function.update d.live idx none := by
      funext k
      by_cases hk : k = idx
      · simp [live, hk]
      · simp [live, hk, List.getElem?_set_ne (Ne.symm hk)]
    refine ⟨h.remove (fun k hk => ?_) rfl hlive, Or.inl ⟨by omega, hrecycled, hlive⟩⟩
    rw [List.length_set]
    exact (Finset.mem_insert.mp hk).elim (fun heq => heq ▸ hlt) (h.free k)
  · have hlive : DataStore.live { d with dataVec := d.dataVec.set idx { item with uses := item.uses - 1 } } =
        Function.update d.live idx (some { item with uses := item.uses - 1 }) := by
      funext k
      by_cases hk : k = idx
      · simp [live, hk, hnot, hlt]
      · simp [live, hk, List.getElem?_set_ne (Ne.symm hk)]
    refine ⟨h.update (fun k hk => ?_) le_rfl hlive (Or.inr ⟨item, hitem, rfl⟩), Or.inr ⟨by omega, hrecycled, hlive⟩⟩
    rw [List.length_set]
    exact h.free k hk

/-- The index for a new item has none that is live. -/
theorem live_freeIdx (d : DataStore) (first : ℕ) : d.live (d.freeIdx first) = none := by
  unfold freeIdx
  split
  · split
    · simp [live, *]
    · simp [live, Finset.min'_mem]
  · simp [live]

theorem freeIdx_lt (hfree : ∀ k ∈ d.freeIdxs, k < d.dataVec.length) (first : ℕ) :
    d.freeIdx first < (if d.freeIdxs.Nonempty then d.dataVec else
      d.dataVec ++ [({ uses := 0 } : StoreItem)]).length := by
  unfold freeIdx
  split
  · split
    · exact hfree _ ‹_›
    · exact hfree _ (Finset.min'_mem _ _)
  · simp

/-- The vector may grow for a new item; elsewhere it reads as before. -/
theorem getElem?_of_ne_freeIdx {first : ℕ} (hk : k ≠ d.freeIdx first) : (if d.freeIdxs.Nonempty then d.dataVec else
    d.dataVec ++ [({ uses := 0 } : StoreItem)])[k]? = d.dataVec[k]? := by
  split
  · rfl
  · have hne : k ≠ d.dataVec.length := by simpa [freeIdx, *] using hk
    rcases Nat.lt_or_ge k d.dataVec.length with hlt | hge
    · rw [List.getElem?_append_left hlt]
    · rw [List.getElem?_eq_none hge, List.getElem?_eq_none]
      rw [List.length_append, List.length_singleton]
      omega

/-- A new item, at an index that has none. -/
theorem Sound.insertItem (h : d.Sound) (buff : Bytes) (uses : ℤ) (first : ℕ) :
    (d.insertItem buff uses first).1.Sound ∧ d.live (d.freeIdx first) = none ∧
      (d.insertItem buff uses first).1.live =
        Function.update d.live (d.freeIdx first) (some ⟨buff, uses, d.nextSerial⟩) := by
  have hnone : d.live (d.freeIdx first) = none := d.live_freeIdx first
  have hlt := freeIdx_lt h.free first
  have hlive : (d.insertItem buff uses first).1.live =
      Function.update d.live (d.freeIdx first) (some ⟨buff, uses, d.nextSerial⟩) := by
    funext k
    by_cases hk : k = d.freeIdx first
    · simp [live, DataStore.insertItem, hk, hlt]
    · simp only [live, DataStore.insertItem, Function.update_of_ne hk, List.getElem?_set_ne (Ne.symm hk),
        getElem?_of_ne_freeIdx hk, Finset.mem_erase, hk, ne_eq, not_false_eq_true, true_and]
  refine ⟨h.update (fun k hk => ?_) (Nat.le_succ _) hlive (Or.inl ⟨rfl, Nat.lt_succ_self _⟩), hnone, hlive⟩
  have hmem : k ∈ d.freeIdxs := Finset.mem_of_mem_erase hk
  have hsome : d.freeIdxs.Nonempty := ⟨k, hmem⟩
  simp only [DataStore.insertItem, if_pos hsome, List.length_set]
  exact h.free k hmem

end DataStore

/-- A server thread: whether it has called `set_tcp_server`, its notification eventfd, and whether the
reads of that eventfd and of `central_communication_eventfd` have completed and are not yet handled. -/
structure Worker (N : ℕ) where
  machine : Machine (WebServer N)
  tcpServer : Bool := false
  notificationEfd : ℕ := 0
  notified : Bool := false
  reported : Bool := false

/-- The loop of the timer: the message, the server threads it is still to be posted to, and the one that
it was posted to last if `notify_event` is still to be called. -/
structure Posting (n : ℕ) where
  msg : MessagePostData
  remaining : List (Fin n)
  notifying : Option (Fin n) := none

structure System (N n : ℕ) where
  store : DataStore := {}
  workers : Fin n → Worker N
  posting : Option (Posting n) := none

/-- `first` is the free index of the store that a hash table yields first. `notification` and
`communication` are the completions of the reads of the two eventfds of a server thread. -/
inductive SystemEvent (n : ℕ) where
  | setTcpServer (w : Fin n)
  | timer (first : ℕ)
  | post
  | notify
  | notification (w : Fin n)
  | handle (w : Fin n) (c : Completion WebEnv)
  | communication (w : Fin n)
  | collect (w : Fin n)

/-- The only one of the server threads is the thread `0`. -/
instance neZeroOne : NeZero 1 := ⟨Nat.one_ne_zero⟩

/-- What can be seen of a step: a message that is enqueued, the broadcast entries that the handling of a
completion adds to the queue of each client, and an item that is recycled. -/
inductive SystemOut (n : ℕ) where
  | none
  | posted (w : Fin n) (msg : MessagePostData)
  | handled (w : Fin n) (appended : ℕ → List WriteData)
  | recycled (serial : ℕ)

namespace Worker

def onApp (w : Worker N) (f : WebServer N → WebServer N) : Worker N :=
  { w with machine := { w.machine with app := f w.machine.app } }

/-- The first half of `post_message_to_server_thread`. -/
def enqueue (w : Worker N) (msg : MessagePostData) : Worker N :=
  w.onApp fun a => { a with toServerQueue := a.toServerQueue ++ [msg] }

/-- Its second half, `notify_event`. -/
def notifyEvent (w : Worker N) : Worker N := { w with notificationEfd := w.notificationEfd + 1 }

/-- The request that a completion is for is the read of the notification eventfd. -/
def IsNotification (w : Worker N) (c : Completion WebEnv) : Prop :=
  ∃ sub, w.machine.tcp.inflight[c.index]? = some sub ∧ sub.req.event = .notification

instance (w : Worker N) (c : Completion WebEnv) : Decidable (w.IsNotification c) :=
  inferInstanceAs (Decidable (∃ sub ∈ w.machine.tcp.inflight[c.index]?, sub.req.event = .notification))

/-- One round of the loop of the server thread. -/
def handle (T : ServerType) (w : Worker N) (c : Completion WebEnv) : Option (Worker N) :=
  if w.tcpServer ∧ (w.IsNotification c → w.notified) then
    (w.machine.step T (webApp N) c).map fun r =>
      { w with machine := r.1, notified := w.notified && !decide (w.IsNotification c) }
  else none

/-- What was added to the broadcast entries of each client since. -/
def appendedSince (w w' : Worker N) (i : ℕ) : List WriteData :=
  (w'.machine.tcp.broadcastEntries i).drop (w.machine.tcp.broadcastEntries i).length

/-- `get_from_to_program_queue`. -/
def getFromToProgramQueue (w : Worker N) : Worker N × MessagePostData :=
  (({ w with reported := false } : Worker N).onApp fun a => { a with toProgramQueue := a.toProgramQueue.tail },
    w.machine.app.toProgramQueue.headD {})

end Worker

/-- The frame that the timer broadcasts. -/
def timerFrame : Bytes := makeWsFrame (ascii "haha") 0x1

namespace System

def setWorker (s : System N n) (w : Fin n) (worker : Worker N) : System N n :=
  { s with workers := Function.update s.workers w worker }

/-- `insert_item` of the frame and the message that is posted for it. -/
def insertFrame (s : System N n) (first : ℕ) : System N n :=
  let r := s.store.insertItem timerFrame n first
  let msg : MessagePostData :=
    { buffPtr := r.2.2, length := timerFrame.length, itemIdx := r.2.1, additionalInfo := 2 ^ 64 - 1 }
  { s with store := r.1, posting := some ⟨msg, List.finRange n, none⟩ }

/-- `post_message_to_server_thread` to the next server thread, up to `notify_event`. Without a
`tcp_server` it returns at once. The loop ends when no server thread is left. -/
def postNext (s : System N n) : Option (System N n × SystemOut n) :=
  match s.posting with
  | some ⟨msg, w :: remaining, none⟩ =>
      if (s.workers w).tcpServer then
        some ({ s.setWorker w ((s.workers w).enqueue msg) with posting := some ⟨msg, remaining, some w⟩ },
          .posted w msg)
      else some ({ s with posting := some ⟨msg, remaining, none⟩ }, .none)
  | some ⟨_, [], none⟩ => some ({ s with posting := none }, .none)
  | _ => none

def step (T : ServerType) (s : System N n) : SystemEvent n → Option (System N n × SystemOut n)
  | .setTcpServer w => some (s.setWorker w { s.workers w with tcpServer := true }, .none)
  | .timer first => if s.posting.isNone then some (s.insertFrame first, .none) else none
  | .post => s.postNext
  | .notify =>
      match s.posting with
      | some ⟨msg, remaining, some w⟩ =>
          some ({ s.setWorker w (s.workers w).notifyEvent with posting := some ⟨msg, remaining, none⟩ }, .none)
      | _ => none
  | .notification w =>
      if 0 < (s.workers w).notificationEfd ∧ !(s.workers w).notified then
        some (s.setWorker w { s.workers w with notificationEfd := 0, notified := true }, .none)
      else none
  | .handle w c =>
      ((s.workers w).handle T c).map fun worker =>
        (s.setWorker w worker, .handled w ((s.workers w).appendedSince worker))
  | .communication w =>
      if 0 < (s.workers w).machine.app.centralCommunicationEventfd ∧ !(s.workers w).reported then
        some (s.setWorker w (({ s.workers w with reported := true } : Worker N).onApp fun a =>
          { a with centralCommunicationEventfd := 0 }), .none)
      else none
  | .collect w =>
      if s.posting.isNone ∧ (s.workers w).reported then
        let r := (s.workers w).getFromToProgramQueue
        (s.store.freeItem r.2.itemIdx).map fun freed =>
          ({ s.setWorker w r.1 with store := freed.1 }, freed.2.elim .none .recycled)
      else none

/-- What a step can do. -/
theorem step_rule {T : ServerType} {s s' : System N n} {e : SystemEvent n} {out : SystemOut n}
    {R : System N n → SystemOut n → Prop} (h : s.step T e = some (s', out))
    (hset : ∀ w, R (s.setWorker w { s.workers w with tcpServer := true }) .none)
    (htimer : ∀ first, s.posting = none → R (s.insertFrame first) .none)
    (hpost : ∀ msg w remaining, s.posting = some ⟨msg, w :: remaining, none⟩ → (s.workers w).tcpServer →
      R { s.setWorker w ((s.workers w).enqueue msg) with posting := some ⟨msg, remaining, some w⟩ }
        (.posted w msg))
    (hdrop : ∀ msg w remaining, e = .post → s.posting = some ⟨msg, w :: remaining, none⟩ →
      (s.workers w).tcpServer = false → R { s with posting := some ⟨msg, remaining, none⟩ } .none)
    (hend : ∀ msg, s.posting = some ⟨msg, [], none⟩ → R { s with posting := none } .none)
    (hnotify : ∀ msg w remaining, s.posting = some ⟨msg, remaining, some w⟩ →
      R { s.setWorker w (s.workers w).notifyEvent with posting := some ⟨msg, remaining, none⟩ } .none)
    (hnotification : ∀ w, 0 < (s.workers w).notificationEfd → (s.workers w).notified = false →
      R (s.setWorker w { s.workers w with notificationEfd := 0, notified := true }) .none)
    (hhandle : ∀ w c worker, e = .handle w c → (s.workers w).handle T c = some worker →
      R (s.setWorker w worker) (.handled w ((s.workers w).appendedSince worker)))
    (hcommunication : ∀ w, 0 < (s.workers w).machine.app.centralCommunicationEventfd →
      (s.workers w).reported = false →
      R (s.setWorker w (({ s.workers w with reported := true } : Worker N).onApp fun a =>
        { a with centralCommunicationEventfd := 0 })) .none)
    (hcollect : ∀ w d recycled, s.posting = none → (s.workers w).reported →
      s.store.freeItem (s.workers w).getFromToProgramQueue.2.itemIdx = some (d, recycled) →
      R { s.setWorker w (s.workers w).getFromToProgramQueue.1 with store := d }
        (recycled.elim .none .recycled)) : R s' out := by
  cases e with
  | setTcpServer w =>
      obtain ⟨rfl, rfl⟩ := by simpa [step] using h
      exact hset w
  | timer first =>
      obtain ⟨hnone, rfl, rfl⟩ := by simpa [step] using h
      exact htimer first hnone
  | post =>
      simp only [step, postNext] at h
      split at h
      · rename_i msg w remaining hposting
        split at h
        · obtain ⟨rfl, rfl⟩ := by simpa using h
          exact hpost msg w remaining hposting ‹_›
        · rename_i hunset
          obtain ⟨rfl, rfl⟩ := by simpa using h
          exact hdrop msg w remaining rfl hposting (Bool.eq_false_iff.mpr hunset)
      · rename_i msg hposting
        obtain ⟨rfl, rfl⟩ := by simpa using h
        exact hend msg hposting
      · cases h
  | notify =>
      simp only [step] at h
      split at h
      · rename_i msg remaining w hposting
        obtain ⟨rfl, rfl⟩ := by simpa using h
        exact hnotify msg w remaining hposting
      · cases h
  | notification w =>
      obtain ⟨⟨hefd, hnotified⟩, rfl, rfl⟩ := by simpa [step] using h
      exact hnotification w hefd hnotified
  | handle w c =>
      obtain ⟨worker, hworker, heq⟩ := Option.map_eq_some_iff.mp h
      obtain ⟨rfl, rfl⟩ := by simpa using heq
      exact hhandle w c worker rfl hworker
  | communication w =>
      obtain ⟨⟨hefd, hreported⟩, rfl, rfl⟩ := by simpa [step] using h
      exact hcommunication w hefd hreported
  | collect w =>
      simp only [step] at h
      split at h
      · rename_i hcond
        obtain ⟨⟨d, recycled⟩, hfreed, heq⟩ := Option.map_eq_some_iff.mp h
        obtain ⟨rfl, rfl⟩ := by simpa using heq
        exact hcollect w d recycled (by simpa using hcond.1) hcond.2 hfreed
      · cases h

/-- The two channels between the central thread and server thread `v`. -/
def link (s : System N n) (v : Fin n) : Link where
  tcpServer := (s.workers v).tcpServer
  channel
    | .toServer =>
        { queue := (s.workers v).machine.app.toServerQueue
          posting := if s.posting.bind Posting.notifying = some v then 1 else 0
          counter := (s.workers v).notificationEfd
          completed := (s.workers v).notified.toNat }
    | .toProgram =>
        { queue := (s.workers v).machine.app.toProgramQueue
          counter := (s.workers v).machine.app.centralCommunicationEventfd
          completed := (s.workers v).reported.toNat }

/-- The central thread and its `n` server threads when their loops start; each of them has its own
descriptor for inotify events. -/
def start (N n : ℕ) (inotifyFd : Fin n → ℤ) : System N n where
  workers w := { machine := webStart N (inotifyFd w) }

end System

end LiburingServer
