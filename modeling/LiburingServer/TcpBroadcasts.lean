import LiburingServer.TcpFrame
import LiburingServer.TcpWrites
import Mathlib.Algebra.BigOperators.Group.Finset.Basic

/-! The broadcast entries in the queues of the TCP server. What the server does between two callbacks
leaves their number alone; an entry is added by a broadcast and removed when it was written, when its
queue is emptied, or when its slot is freed or handed out. -/

namespace LiburingServer

/-- How many entries of a queue are broadcasts of item `k`. -/
def broadcastsOf (k : ℕ) (queue : List WriteData) : ℕ :=
  queue.countP fun e => e.broadcast ∧ e.customInfo = (k : ℤ)

/-- No entry of the queue is a broadcast. -/
def NoBroadcasts (queue : List WriteData) : Prop := ∀ e ∈ queue, e.broadcast = false

instance (queue : List WriteData) : Decidable (NoBroadcasts queue) :=
  inferInstanceAs (Decidable (∀ e ∈ queue, e.broadcast = false))

section

variable {k : ℕ} {queue : List WriteData}

@[simp] theorem broadcastsOf_nil : broadcastsOf k [] = 0 := rfl

theorem broadcastInfo_eq_iff {e : WriteData} :
    e.broadcastInfo = (k : ℤ) ↔ e.broadcast ∧ e.customInfo = (k : ℤ) := by
  unfold WriteData.broadcastInfo
  cases e.broadcast with
  | true => simp
  | false =>
      have : (-1 : ℤ) ≠ k := by omega
      simp [this]

theorem broadcastsOf_cons (e : WriteData) :
    broadcastsOf k (e :: queue) = broadcastsOf k queue + if e.broadcastInfo = (k : ℤ) then 1 else 0 := by
  simp only [broadcastsOf, List.countP_cons, broadcastInfo_eq_iff, decide_eq_true_eq]

theorem broadcastsOf_append (queue' : List WriteData) :
    broadcastsOf k (queue ++ queue') = broadcastsOf k queue + broadcastsOf k queue' := by
  simp [broadcastsOf]

theorem Client.broadcastsOf_queue (client : Client) :
    broadcastsOf k client.queue = broadcastsOf k client.sendData := by
  simp only [broadcastsOf, Client.queue, List.countP_map]
  rfl

theorem NoBroadcasts.broadcastsOf_eq_zero (h : NoBroadcasts queue) : broadcastsOf k queue = 0 := by
  simp only [broadcastsOf, List.countP_eq_zero, decide_eq_true_eq]
  rintro e he ⟨hbroadcast, -⟩
  simp [h e he] at hbroadcast

theorem Client.noBroadcasts_queue {client : Client} : NoBroadcasts client.queue ↔ NoBroadcasts client.sendData := by
  simp [NoBroadcasts, Client.queue, WriteData.unwritten]

end

/-- A queue entry of a broadcast names an item that may be used under its pointer, and no other entry
points to an item. -/
def WriteData.Names (valid : ℕ → Ptr → Prop) (e : WriteData) : Prop :=
  (e.broadcast → ∃ k : ℕ, e.customInfo = k ∧ valid k e.ptrBuff) ∧
    (e.broadcast = false → ∀ serial, e.ptrBuff ≠ .item serial)

/-- Only the write requests of the plain server read from an item. -/
def Submission.Placed (T : ServerType) (sub : Submission) : Prop :=
  ∀ serial, sub.addr = .item serial → T = .nonTls ∧ ∃ i, sub.IsWrite i

theorem Submission.placed_of_ne {T : ServerType} {sub : Submission} (h : ∀ serial, sub.addr ≠ .item serial) :
    sub.Placed T := fun serial hserial => absurd hserial (h serial)

theorem mem_placed {T : ServerType} {subs new : List Submission} (h : ∀ sub ∈ new, sub.Placed T) :
    ∀ sub ∈ subs ++ new, sub ∈ subs ∨ sub.Placed T := by
  intro sub hsub
  exact (List.mem_append.mp hsub).imp_right (h sub)

namespace TcpServer

/-- The entries of all clients that are broadcasts of item `k`. -/
def broadcasts (s : TcpServer) (k : ℕ) : ℕ :=
  ∑ i ∈ Finset.range s.numClients, broadcastsOf k (s.clients i).sendData

/-- The same without the entries of client `i`. -/
def broadcastsElsewhere (s : TcpServer) (i k : ℕ) : ℕ :=
  ∑ j ∈ (Finset.range s.numClients).erase i, broadcastsOf k (s.clients j).sendData

/-- The broadcast entries of client `i`, in their order. -/
def broadcastEntries (s : TcpServer) (i : ℕ) : List WriteData :=
  (s.clients i).queue.filter fun e => e.broadcast

/-- Every queue entry and every request in flight is as it should be, and the broadcast entries of a
client are the last ones of `before`. -/
structure EntryInv (T : ServerType) (valid : ℕ → Ptr → Prop) (before : ℕ → List WriteData)
    (s : TcpServer) : Prop where
  entry : ∀ i < s.numClients, ∀ e ∈ (s.clients i).queue, e.Names valid
  placed : ∀ sub ∈ s.inflight, sub.Placed T
  older : ∀ i, s.broadcastEntries i <:+ before i

/-- No queue changes. -/
structure Calm (T : ServerType) (s s' : TcpServer) : Prop where
  queue : ∀ i, (s'.clients i).queue = (s.clients i).queue
  num : s'.numClients = s.numClients
  inflight : ∀ sub ∈ s'.inflight, sub ∈ s.inflight ∨ sub.Placed T

variable {T : ServerType} {valid : ℕ → Ptr → Prop} {before : ℕ → List WriteData} {s s' s'' : TcpServer}
  {i j k : ℕ}

theorem broadcasts_eq (hi : i < s.numClients) :
    s.broadcasts k = s.broadcastsElsewhere i k + broadcastsOf k (s.clients i).sendData :=
  (Finset.sum_erase_add _ _ (Finset.mem_range.mpr hi)).symm

theorem broadcastsElsewhere_congr (hnum : s'.numClients = s.numClients)
    (hothers : ∀ j, j ≠ i → s'.clients j = s.clients j) :
    s'.broadcastsElsewhere i k = s.broadcastsElsewhere i k := by
  unfold broadcastsElsewhere
  rw [hnum]
  refine Finset.sum_congr rfl fun j hj => ?_
  rw [hothers j (Finset.ne_of_mem_erase hj)]

theorem broadcasts_setQueue (hi : i < s.numClients) (sendData : List WriteData) :
    (s.setQueue i sendData).broadcasts k = s.broadcastsElsewhere i k + broadcastsOf k sendData := by
  have helsewhere : (s.setQueue i sendData).broadcastsElsewhere i k = s.broadcastsElsewhere i k :=
    broadcastsElsewhere_congr rfl fun j hj => setQueue_of_ne _ _ _ _ hj
  have hlt : i < (s.setQueue i sendData).numClients := hi
  rw [broadcasts_eq hlt, helsewhere, setQueue_sendData]

namespace Calm

theorem refl (T : ServerType) (s : TcpServer) : Calm T s s := ⟨fun _ => rfl, rfl, fun _ => Or.inl⟩

theorem trans (h : Calm T s s') (h' : Calm T s' s'') : Calm T s s'' :=
  ⟨fun i => (h'.queue i).trans (h.queue i), h'.num.trans h.num,
    fun sub hsub => (h'.inflight sub hsub).elim (h.inflight sub) Or.inr⟩

theorem broadcasts (h : Calm T s s') : s'.broadcasts = s.broadcasts := by
  funext k
  unfold TcpServer.broadcasts
  rw [h.num]
  refine Finset.sum_congr rfl fun i _ => ?_
  rw [← Client.broadcastsOf_queue, h.queue, Client.broadcastsOf_queue]

theorem entryInv (h : Calm T s s') (hs : EntryInv T valid before s) : EntryInv T valid before s' := by
  refine ⟨fun i hi e he => hs.entry i (h.num ▸ hi) e (h.queue i ▸ he), fun sub hsub => ?_, fun i => ?_⟩
  · exact (h.inflight sub hsub).elim (hs.placed sub) id
  · rw [broadcastEntries, h.queue]
    exact hs.older i

end Calm

theorem calm_submit {sub : Submission} (h : sub.Placed T) : Calm T s (s.submit sub) :=
  ⟨fun _ => rfl, rfl, mem_placed (by simpa using h)⟩

theorem calm_addEventReq (event : EventType) : Calm T s (s.addEventReq event) :=
  calm_submit (Submission.placed_of_ne (by simp))

theorem calm_modifyClient {f : Client → Client} (hf : (f (s.clients i)).queue = (s.clients i).queue) :
    Calm T s (s.modifyClient i f) := by
  refine ⟨fun j => ?_, rfl, fun _ => Or.inl⟩
  by_cases hj : j = i
  · rw [hj, modifyClient_self, hf]
  · rw [modifyClient_of_ne _ _ _ _ hj]

theorem calm_activate (active : Finset ℕ) : Calm T s { s with activeConnections := active } :=
  ⟨fun _ => rfl, rfl, fun _ => Or.inl⟩

theorem calm_endWrite : Calm T s (s.endWrite i) := calm_modifyClient rfl

theorem Issued.placed {sub : Submission} (h : s.Issued i sub) : sub.Placed T := by
  apply Submission.placed_of_ne
  rcases h with ⟨event, -, rfl⟩ | ⟨event, length, -, rfl⟩
  · simp [readSubmission]
  · simp [writeSubmission]

theorem Touches.calm (h : Touches i s s') : Calm T s s' := by
  obtain ⟨new, hnew, hissued⟩ := h.inflight
  refine ⟨fun j => ?_, h.numClients, ?_⟩
  · by_cases hj : j = i
    · rw [hj, h.queue]
    · rw [h.others j hj]
  · rw [hnew]
    exact mem_placed fun sub hsub => (hissued sub hsub).placed

/-- A write request of the plain server. -/
theorem calm_addWriteReq (buffer : Ptr) (length : ℕ) :
    Calm .nonTls s (s.addWriteReq i .write buffer length) := by
  refine Calm.trans (calm_modifyClient (i := i) ?_) (calm_submit fun serial _ => ⟨rfl, i, rfl, rfl⟩)
  rfl

theorem calm_customReadReq (fd : ℤ) (toRead : ℕ) (clientIdx : Option ℕ) (buff : Bytes) (readAmount : ℕ)
    (file : Option Bytes) : Calm T s (s.customReadReq fd toRead clientIdx buff readAmount file) :=
  calm_submit (Submission.placed_of_ne (by simp))

theorem calm_writeNext (rest : List WriteData) : Calm .nonTls (s.setQueue i rest) (s.writeNext i rest) := by
  cases rest with
  | nil => exact Calm.refl _ _
  | cons next rest => exact calm_addWriteReq _ _

theorem calm_enqueue (data : WriteData) (length : ℕ) :
    Calm T (s.pushEntry i data) (s.enqueue T i data length) := by
  unfold enqueue
  split
  · cases T with
    | nonTls => exact calm_addWriteReq _ _
    | tls => exact touches_wolfCall.calm
  · exact Calm.refl _ _

/-! ### Changes of a queue -/

theorem broadcastEntries_setQueue (sendData : List WriteData) :
    (s.setQueue i sendData).broadcastEntries i =
      (sendData.map WriteData.unwritten).filter fun e => e.broadcast := by
  simp [broadcastEntries, Client.queue]

theorem broadcastEntries_of_ne {sendData : List WriteData} (hj : j ≠ i) :
    (s.setQueue i sendData).broadcastEntries j = s.broadcastEntries j := by
  rw [broadcastEntries, setQueue_of_ne _ _ _ _ hj, broadcastEntries]

theorem EntryInv.setQueue (h : EntryInv T valid before s) {sendData : List WriteData}
    (hdata : i < s.numClients → ∀ e ∈ sendData, e.unwritten.Names valid)
    (holder : (s.setQueue i sendData).broadcastEntries i <:+ s.broadcastEntries i) :
    EntryInv T valid before (s.setQueue i sendData) := by
  refine ⟨fun j hlt e he => ?_, h.placed, fun j => ?_⟩
  · by_cases hj : j = i
    · subst hj
      obtain ⟨e', he', rfl⟩ := by simpa [Client.queue] using he
      exact hdata hlt e' he'
    · rw [setQueue_of_ne _ _ _ _ hj] at he
      exact h.entry j hlt e he
  · by_cases hj : j = i
    · rw [hj]
      exact holder.trans (h.older i)
    · rw [broadcastEntries_of_ne hj]
      exact h.older j

/-- The queue goes on with its last entries. -/
theorem EntryInv.setQueue_suffix (h : EntryInv T valid before s) {rest : List WriteData}
    (hrest : rest <:+ (s.clients i).sendData) : EntryInv T valid before (s.setQueue i rest) := by
  refine h.setQueue (fun hi e he => h.entry i hi _ (List.mem_map_of_mem (hrest.subset he))) ?_
  rw [broadcastEntries_setQueue]
  exact (hrest.map _).filter _

theorem EntryInv.sendData (h : EntryInv T valid before s) (hi : i < s.numClients) {e : WriteData}
    (he : e ∈ (s.clients i).sendData) : e.unwritten.Names valid := h.entry i hi _ (List.mem_map_of_mem he)

theorem enqueue_broadcasts (hi : i < s.numClients) (data : WriteData) (length : ℕ) :
    (s.enqueue T i data length).broadcasts k =
      s.broadcasts k + if data.broadcastInfo = (k : ℤ) then 1 else 0 := by
  have hdata : broadcastsOf k [data] = if data.broadcastInfo = (k : ℤ) then 1 else 0 := by
    simp [broadcastsOf_cons]
  calc (s.enqueue T i data length).broadcasts k
      = (s.pushEntry i data).broadcasts k := by rw [(calm_enqueue data length).broadcasts]
    _ = s.broadcastsElsewhere i k + broadcastsOf k ((s.clients i).sendData ++ [data]) :=
        broadcasts_setQueue hi _
    _ = s.broadcasts k + _ := by rw [broadcastsOf_append, hdata, ← add_assoc, ← broadcasts_eq hi]

/-- An entry that is no broadcast. -/
theorem EntryInv.enqueue (h : EntryInv T valid before s) {data : WriteData} (hown : data.broadcast = false)
    (hptr : ∀ serial, data.ptrBuff ≠ .item serial) (length : ℕ) :
    EntryInv T valid before (s.enqueue T i data length) := by
  refine (calm_enqueue data length).entryInv (h.setQueue (fun hi e he => ?_) ?_)
  · rcases List.mem_append.mp he with he | he
    · exact h.sendData hi he
    · rw [List.mem_singleton.mp he]
      exact ⟨fun htrue => by simp [WriteData.unwritten, hown] at htrue, fun _ => hptr⟩
  · rw [broadcastEntries_setQueue]
    simp [broadcastEntries, Client.queue, WriteData.unwritten, hown]

theorem enqueue_numClients (data : WriteData) (length : ℕ) :
    (s.enqueue T i data length).numClients = s.numClients := by
  rw [(calm_enqueue data length).num]
  rfl

/-- A broadcast adds an entry for each client that it goes to. -/
theorem broadcastMessage_broadcasts {clientIdxs : List ℕ} (hidxs : ∀ i ∈ clientIdxs, i < s.numClients)
    (buff : Ptr) (length item : ℕ) :
    (s.broadcastMessage T clientIdxs buff length item).broadcasts k =
      s.broadcasts k + if item = k then clientIdxs.length else 0 := by
  unfold broadcastMessage
  induction clientIdxs generalizing s with
  | nil => simp
  | cons i clientIdxs ih =>
      rw [List.foldl_cons, ih, broadcastOne, enqueue_broadcasts (hidxs i (by simp))]
      · by_cases hitem : item = k
        · simp only [WriteData.broadcastInfo, hitem, if_true, List.length_cons]
          omega
        · have hother : (item : ℤ) ≠ k := by omega
          simp [WriteData.broadcastInfo, hitem, hother]
      · intro j hj
        rw [broadcastOne, enqueue_numClients]
        exact hidxs j (by simp [hj])

/-- Whatever the broadcast entries of the clients are. -/
theorem EntryInv.refl (h : EntryInv T valid before s) : EntryInv T valid s.broadcastEntries s :=
  ⟨h.entry, h.placed, fun _ => List.suffix_rfl⟩

theorem EntryInv.broadcastMessage (h : EntryInv T valid before s) (clientIdxs : List ℕ) {buff : Ptr} {item : ℕ}
    (hvalid : valid item buff) (length : ℕ) :
    EntryInv T valid (s.broadcastMessage T clientIdxs buff length item).broadcastEntries
      (s.broadcastMessage T clientIdxs buff length item) := by
  have hone : ∀ (s : TcpServer) i, EntryInv T valid s.broadcastEntries s →
      EntryInv T valid (broadcastOne T buff length item s i).broadcastEntries
        (broadcastOne T buff length item s i) := by
    intro s i hs
    refine ⟨fun j hlt e he => ?_, fun sub hsub => ?_, fun _ => List.suffix_rfl⟩
    swap
    · exact ((calm_enqueue _ _).inflight sub hsub).elim (hs.placed sub) id
    rw [broadcastOne, (calm_enqueue _ _).queue] at he
    by_cases hj : j = i
    · subst hj
      rcases by simpa [pushEntry, Client.queue] using he with ⟨e', he', rfl⟩ | rfl
      · exact hs.sendData (enqueue_numClients (T := T) (i := j) _ _ ▸ hlt) he'
      · exact ⟨fun _ => ⟨item, rfl, hvalid⟩, by simp [WriteData.unwritten]⟩
    · rw [pushEntry, setQueue_of_ne _ _ _ _ hj] at he
      exact hs.entry j (enqueue_numClients (T := T) (i := i) _ _ ▸ hlt) e he
  unfold TcpServer.broadcastMessage
  have hrefl := h.refl
  clear h
  induction clientIdxs generalizing s with
  | nil => exact hrefl
  | cons i clientIdxs ih => exact ih (hone s i hrefl)

/-- A broadcast adds its entry to the end of the queue of each client that it goes to. -/
theorem broadcastMessage_queue {clientIdxs : List ℕ} (hnodup : clientIdxs.Nodup) (buff : Ptr) (length : ℕ)
    (customInfo : ℤ) :
    ((s.broadcastMessage T clientIdxs buff length customInfo).clients i).queue = (s.clients i).queue ++
      if i ∈ clientIdxs then
        [{ ptrBuff := buff, totalLength := length, broadcast := true, customInfo }] else [] := by
  unfold broadcastMessage
  induction clientIdxs generalizing s with
  | nil => simp
  | cons j clientIdxs ih =>
      obtain ⟨hj, hnodup⟩ := List.nodup_cons.mp hnodup
      rw [List.foldl_cons, ih hnodup]
      by_cases hi : i = j
      · subst hi
        rw [broadcastOne, enqueue_queue, if_neg hj, if_pos (by simp), List.append_nil]
        rfl
      · have hother : (broadcastOne T buff length customInfo s j).clients i = s.clients i :=
          (alters_enqueue T _ _).others i hi
        rw [hother]
        simp [hi]

theorem EntryInv.freeSlot (h : EntryInv T valid before s) : EntryInv T valid before (s.freeSlot i) := by
  have hempty : EntryInv T valid before (s.setQueue i []) := h.setQueue_suffix (List.nil_suffix)
  exact ⟨hempty.entry, hempty.placed, hempty.older⟩

/-- When a connection is closed, its broadcast entries are gone unless a write request is in flight. -/
theorem closeConnection_broadcasts (hi : i < s.numClients) :
    (s.closeConnection T i).broadcasts k = if (s.clients i).numWriteReqs = 0 then s.broadcastsElsewhere i k
      else s.broadcasts k := by
  have hfree : ∀ s : TcpServer, i < s.numClients → (s.freeSlot i).broadcasts k = s.broadcastsElsewhere i k :=
    fun s hi => broadcasts_setQueue hi []
  unfold closeConnection
  split
  · cases T with
    | nonTls => exact hfree s hi
    | tls =>
        have hshut : Touches i s (s.wolfCall i).1 := touches_wolfCall
        dsimp only
        rw [hfree _ (hshut.numClients ▸ hi)]
        refine broadcastsElsewhere_congr hshut.numClients fun j hj => ?_
        rw [modifyClient_of_ne _ _ _ _ hj, hshut.others j hj]
  · rfl

theorem EntryInv.closeConnection (h : EntryInv T valid before s) : EntryInv T valid before (s.closeConnection T i) := by
  unfold TcpServer.closeConnection
  split
  · cases T with
    | nonTls => exact h.freeSlot
    | tls =>
        have hshut : Calm .tls s (s.wolfCall i).1 := touches_wolfCall.calm
        have hsession : Calm .tls s
            ((s.wolfCall i).1.modifyClient i fun client => { client with ssl := false }) :=
          hshut.trans (calm_modifyClient rfl)
        exact (hsession.entryInv h).freeSlot
  · exact h

/-- An accept that hands out a slot drops the broadcast entries of its queue. -/
theorem setupClient_broadcasts (sockfd : ℤ) (hfreed : ∀ i ∈ s.freedIndexes, i < s.numClients) :
    (s.setupClient sockfd).1.broadcasts k =
      if h : s.freedIndexes.Nonempty then s.broadcastsElsewhere (s.freedIndexes.min' h) k
      else s.broadcasts k := by
  unfold setupClient
  split
  · rename_i hne
    have hlt : s.freedIndexes.min' hne < s.numClients := hfreed _ (Finset.min'_mem _ hne)
    refine (broadcasts_eq (i := s.freedIndexes.min' hne) ?_).trans ?_
    · exact hlt
    · simp only [Function.update_self, broadcastsOf_nil, Nat.add_zero]
      exact broadcastsElsewhere_congr rfl fun j hj => Function.update_of_ne hj _ _
  · unfold broadcasts
    dsimp only
    rw [Finset.sum_range_succ, Function.update_self, broadcastsOf_nil, Nat.add_zero]
    refine Finset.sum_congr rfl fun j hj => ?_
    rw [Function.update_of_ne (Finset.mem_range.mp hj).ne]

theorem EntryInv.setupClient (h : EntryInv T valid before s) (sockfd : ℤ) :
    EntryInv T valid before (s.setupClient sockfd).1 := by
  unfold TcpServer.setupClient
  split
  all_goals
    refine ⟨fun j hlt e he => ?_, h.placed, fun j => ?_⟩
    · simp only [Function.update_apply] at he
      split at he
      · simp [Client.queue] at he
      · simp only at hlt
        exact h.entry j (by omega) e he
    · simp only [broadcastEntries, Function.update_apply]
      split
      · simp [Client.queue]
      · exact h.older j

end TcpServer

/-- A call that neither broadcasts nor closes, and does not queue an item. -/
def TcpCall.Plain : TcpCall → Prop
  | .broadcastMessage .. => False
  | .closeConnection _ => False
  | .writeConnectionPtr _ buff _ => ∀ serial, buff ≠ .item serial
  | _ => True

namespace TcpServer

variable {T : ServerType} {valid : ℕ → Ptr → Prop} {before : ℕ → List WriteData} {s s' : TcpServer}

theorem call_plain {c : TcpCall} (h : s.call T c = some s') (hc : c.Plain) (hs : EntryInv T valid before s) :
    EntryInv T valid before s' ∧ s'.broadcasts = s.broadcasts := by
  -- an entry of the connection itself
  have hown : ∀ {s : TcpServer} {i : ℕ} (data : WriteData) (length : ℕ), EntryInv T valid before s →
      i < s.numClients → data.broadcast = false → (∀ serial, data.ptrBuff ≠ .item serial) →
      EntryInv T valid before (s.enqueue T i data length) ∧
        (s.enqueue T i data length).broadcasts = s.broadcasts := by
    intro s i data length hs hi hbroadcast hptr
    refine ⟨hs.enqueue hbroadcast hptr length, funext fun k => ?_⟩
    rw [enqueue_broadcasts hi, if_neg]
    · rfl
    · simp [broadcastInfo_eq_iff, hbroadcast]
  unfold call at h
  split at h
  · rename_i hslots
    obtain rfl := Option.some.inj h
    cases c with
    | writeConnection i buff =>
        have hfresh : Calm T s { s with nextAddr := s.nextAddr + 1 } := ⟨fun _ => rfl, rfl, fun _ => Or.inl⟩
        obtain ⟨hinv, hsame⟩ := hown { buff, addr := s.nextAddr } buff.length (hfresh.entryInv hs)
          (hslots i (by simp [TcpCall.slots])) rfl (by simp)
        exact ⟨hinv, hsame.trans hfresh.broadcasts⟩
    | writeConnectionPtr i buff length =>
        exact hown _ length hs (hslots i (by simp [TcpCall.slots])) rfl hc
    | broadcastMessage clientIdxs buff length customInfo => exact absurd hc id
    | closeConnection i => exact absurd hc id
    | readConnection i =>
        have hcalm : Calm T s (s.addReadReq i .read) := (touches_addReadReq (Or.inl rfl)).calm
        exact ⟨hcalm.entryInv hs, hcalm.broadcasts⟩
    | customReadReq fd toRead clientIdx buff readAmount file =>
        have hcalm : Calm T s _ := calm_customReadReq fd toRead clientIdx buff readAmount file
        exact ⟨hcalm.entryInv hs, hcalm.broadcasts⟩
  · cases h

theorem calls_plain {cs : List TcpCall} (h : s.calls T cs = some s') (hcs : ∀ c ∈ cs, c.Plain)
    (hs : EntryInv T valid before s) : EntryInv T valid before s' ∧ s'.broadcasts = s.broadcasts := by
  refine Runs.foldlM_keeps (R := fun x => EntryInv T valid before x ∧ x.broadcasts = s.broadcasts) ?_ ⟨hs, rfl⟩ h
  rintro b c b' hmem ⟨hb, hsame⟩ hcall
  obtain ⟨hb', hsame'⟩ := call_plain hcall (hcs c hmem) hb
  exact ⟨hb', hsame'.trans hsame⟩

end TcpServer

end LiburingServer
