import LiburingServer.Central
import LiburingServer.Lib.Runs

/-! The life of an item of a data store, from its creation to the call of `free_item` that recycles it. A
caller knows only the indexes that it was given and how often it has freed each of them; what it may
expect of the store is stated in these terms, for every sequence of calls. Counters are integers: below
`-2 ^ 31` the source is undefined. -/

namespace LiburingServer

namespace DataStore

/-- `get_item`: what the pointer that it returns points to. -/
def getItem (d : DataStore) (idx : ℕ) : Option Bytes := d.dataVec[idx]?.map StoreItem.buffer

/-- `resize` of a vector. -/
def resize (buff : Bytes) (size : ℕ) : Bytes := buff.take size ++ List.replicate (size - buff.length) 0

/-- `make_item`. The slot keeps the counter that it had before; `uses` is not read. -/
def makeItem (d : DataStore) (size : ℕ) (_uses : ℤ) (first : ℕ) : DataStore × ℕ × Ptr :=
  let idx := d.freeIdx first
  let dataVec := if d.freeIdxs.Nonempty then d.dataVec else d.dataVec ++ [({ uses := 0 } : StoreItem)]
  ({ dataVec := dataVec.modify idx fun item =>
       { item with buffer := resize item.buffer size, serial := d.nextSerial }
     freeIdxs := d.freeIdxs.erase idx
     nextSerial := d.nextSerial + 1 }, idx, .item d.nextSerial)

end DataStore

/-- The calls of a `data_store`. `first` is the free index that the set of them yields first. -/
inductive StoreCall where
  | insertItem (buff : Bytes) (uses : ℤ) (first : ℕ)
  | makeItem (size : ℕ) (uses : ℤ) (first : ℕ)
  | freeItem (idx : ℕ)
  | getItem (idx : ℕ)

/-- What a call did: the index that it returned, whether it recycled the item, the buffer that it
returned. -/
inductive StoreResult where
  | inserted (idx : ℕ) (buff : Bytes) (uses : ℤ)
  | made (idx : ℕ)
  | freed (idx : ℕ) (recycled : Bool)
  | got (idx : ℕ) (buff : Bytes)
  deriving DecidableEq

/-- The call was `free_item` for `k`. -/
def StoreResult.frees (k : ℕ) : StoreResult → Bool
  | .freed idx _ => idx = k
  | _ => false

/-- A call; it is undefined where the source indexes `data_vec` out of range. -/
def DataStore.step (d : DataStore) : StoreCall → Option (DataStore × StoreResult)
  | .insertItem buff uses first =>
      let r := d.insertItem buff uses first
      some (r.1, .inserted r.2.1 buff uses)
  | .makeItem size uses first =>
      let r := d.makeItem size uses first
      some (r.1, .made r.2.1)
  | .freeItem idx => (d.freeItem idx).map fun r => (r.1, .freed idx r.2.isSome)
  | .getItem idx => (d.getItem idx).map fun buff => (d, .got idx buff)

/-! ### What a caller knows of an item -/

/-- What was inserted at an index last, and how often it was freed since. -/
structure ItemRecord where
  buff : Bytes
  uses : ℤ
  freed : ℕ

/-- The record of index `k` after one more call. -/
def StoreResult.record (k : ℕ) (item : Option ItemRecord) : StoreResult → Option ItemRecord
  | .inserted idx buff uses => if idx = k then some ⟨buff, uses, 0⟩ else item
  | .freed idx _ => if idx = k then item.map fun i => { i with freed := i.freed + 1 } else item
  | _ => item

/-- The record of index `k` after the calls `es`. -/
def lastItem (es : List StoreResult) (k : ℕ) : Option ItemRecord := es.foldl (StoreResult.record k) none

/-- A call of `free_item` is for an item that was inserted in the calls before it and was not yet freed as
often as it has uses. -/
def StoreResult.WithinUses (past : List StoreResult) : StoreResult → Prop
  | .freed idx _ => ∃ item ∈ lastItem past idx, item.freed < item.uses
  | _ => True

instance (past : List StoreResult) : ∀ e : StoreResult, Decidable (e.WithinUses past)
  | .freed idx _ => inferInstanceAs (Decidable (∃ item ∈ lastItem past idx, item.freed < item.uses))
  | .inserted .. | .made _ | .got .. => inferInstanceAs (Decidable True)

/-- `free_item` is called at most as often for each item that is inserted as it has uses. -/
def WithinUses (es : List StoreResult) : Prop :=
  ∀ before e after, es = before ++ e :: after → e.WithinUses before

/-- A call of `insert_item` with at least one use, of `free_item` or of `get_item`. -/
def StoreCall.Inserts : StoreCall → Prop
  | .insertItem _ uses _ => 1 ≤ uses
  | .makeItem .. => False
  | _ => True

variable {d d' : DataStore} {es : List StoreResult} {e : StoreResult} {c : StoreCall} {k idx : ℕ}

theorem lastItem_append_singleton : lastItem (es ++ [e]) k = e.record k (lastItem es k) := by
  simp [lastItem]

/-- Calls that insert nothing at an index only count up how often it was freed. -/
theorem lastItem_append {after : List StoreResult} {item : ItemRecord} (h : lastItem es k = some item)
    (hafter : ∀ buff uses, StoreResult.inserted k buff uses ∉ after) :
    lastItem (es ++ after) k = some { item with freed := item.freed + after.countP (StoreResult.frees k) } := by
  induction after using List.reverseRecOn with
  | nil => simpa using h
  | append_singleton after e ih =>
      have hold := ih fun buff uses hmem => hafter buff uses (List.mem_append_left _ hmem)
      rw [← List.append_assoc, lastItem_append_singleton, hold, List.countP_append]
      cases e with
      | inserted idx buff uses =>
          have hne : idx ≠ k := by
            rintro rfl
            exact hafter buff uses (by simp)
          simp [StoreResult.record, StoreResult.frees, hne]
      | made idx => simp [StoreResult.record, StoreResult.frees]
      | freed idx recycled =>
          by_cases hidx : idx = k
          · simp [StoreResult.record, StoreResult.frees, hidx, Nat.add_assoc]
          · simp [StoreResult.record, StoreResult.frees, hidx]
      | got idx buff => simp [StoreResult.record, StoreResult.frees]

theorem WithinUses.init (h : WithinUses (es ++ [e])) : WithinUses es := by
  intro before e' after heq
  exact h before e' (after ++ [e]) (by rw [heq]; simp)

theorem withinUses_iff : WithinUses es ↔ ∀ (n : ℕ) (h : n < es.length), es[n].WithinUses (es.take n) := by
  constructor
  · intro h n hn
    apply h (es.take n) es[n] (es.drop (n + 1))
    rw [← List.drop_eq_getElem_cons hn, List.take_append_drop]
  · intro h before e after heq
    subst es
    have hlt : before.length < (before ++ e :: after).length := by simp
    simpa using h before.length hlt

instance : Decidable (WithinUses es) := decidable_of_iff _ withinUses_iff.symm

/-! ### The store keeps what the caller expects -/

/-- An index is live as long as the item that was inserted there last has uses left, with the buffer and
the uses that the caller expects; and an item was only ever inserted where none had uses left. -/
structure DataStore.Tracks (d : DataStore) (es : List StoreResult) : Prop where
  sound : d.Sound
  live : ∀ k item, lastItem es k = some item → item.freed < item.uses →
    ∃ slot, d.live k = some slot ∧ slot.buffer = item.buff ∧ slot.uses = item.uses - item.freed
  idle : ∀ k slot, d.live k = some slot → ∃ item, lastItem es k = some item ∧ item.freed < item.uses
  listed : ∀ k item, lastItem es k = some item → k < d.dataVec.length
  fresh : ∀ before k buff uses after, es = before ++ .inserted k buff uses :: after →
    ∀ item, lastItem before k = some item → item.uses ≤ item.freed

namespace DataStore

theorem tracks_empty : Tracks {} [] where
  sound := ⟨by simp, by simp [live], by simp [live]⟩
  live := by simp [lastItem]
  idle := by simp [DataStore.live]
  listed := by simp [lastItem]
  fresh := by simp

theorem length_insertItem (buff : Bytes) (uses : ℤ) (first : ℕ) :
    d.dataVec.length ≤ (d.insertItem buff uses first).1.dataVec.length := by
  simp only [insertItem, List.length_set]
  split <;> simp

theorem length_freeItem {recycled : Option ℕ} (h : d.freeItem idx = some (d', recycled)) :
    d'.dataVec.length = d.dataVec.length := by
  obtain ⟨item, -, -, ⟨-, -, rfl⟩ | ⟨-, -, rfl⟩⟩ := freeItem_cases h
  all_goals simp

theorem live_freeItem_of_ne {recycled : Option ℕ} (h : d.freeItem idx = some (d', recycled)) (hk : k ≠ idx) :
    d'.live k = d.live k := by
  obtain ⟨item, -, -, ⟨-, -, rfl⟩ | ⟨-, -, rfl⟩⟩ := freeItem_cases h
  all_goals simp [DataStore.live, hk, List.getElem?_set_ne (Ne.symm hk)]

/-- Where an item is live, `free_item` and `get_item` are defined. -/
theorem isSome_freeItem {slot : StoreItem} (h : d.live k = some slot) : (d.freeItem k).isSome := by
  obtain ⟨-, hget⟩ := live_eq_some.mp h
  unfold freeItem
  rw [hget]
  dsimp only
  split <;> rfl

theorem getItem_live {slot : StoreItem} (h : d.live k = some slot) : d.getItem k = some slot.buffer := by
  obtain ⟨-, hget⟩ := live_eq_some.mp h
  rw [getItem, hget]
  rfl

/-- An index at which nothing is live is free, if the vector has it. -/
theorem mem_freeIdxs (h : d.live k = none) (hlt : k < d.dataVec.length) : k ∈ d.freeIdxs := by
  by_contra hnot
  rw [live, if_neg hnot, List.getElem?_eq_getElem hlt] at h
  cases h

/-- A free index is returned by the next insertion if the set yields it first. -/
theorem freeIdx_of_mem (h : k ∈ d.freeIdxs) : d.freeIdx k = k := by
  have hsome : d.freeIdxs.Nonempty := ⟨k, h⟩
  rw [freeIdx, dif_pos hsome, if_pos h]

/-- A new record in the history concerns an insertion only if it is one. -/
theorem Tracks.fresh_append (h : d.Tracks es)
    (hnew : ∀ k buff uses, e = .inserted k buff uses → ∀ item, lastItem es k = some item → item.uses ≤ item.freed) :
    ∀ before k buff uses after, es ++ [e] = before ++ .inserted k buff uses :: after →
      ∀ item, lastItem before k = some item → item.uses ≤ item.freed := by
  intro before k buff uses after heq
  rcases List.eq_nil_or_concat after with rfl | ⟨after', e', rfl⟩
  · obtain ⟨rfl, heq'⟩ := List.append_inj' heq rfl
    exact hnew k buff uses (List.singleton_inj.mp heq')
  · have heq' : es ++ [e] = (before ++ .inserted k buff uses :: after') ++ [e'] := by
      rw [heq]
      simp
    obtain ⟨hes, -⟩ := List.append_inj' heq' rfl
    exact h.fresh before k buff uses after' hes

theorem Tracks.insertItem {buff : Bytes} {uses : ℤ} (h : d.Tracks es) (huses : 1 ≤ uses) (first : ℕ) :
    (d.insertItem buff uses first).1.Tracks (es ++ [.inserted (d.freeIdx first) buff uses]) := by
  obtain ⟨hsound, hnone, hlive⟩ := h.sound.insertItem buff uses first
  have hrecord : ∀ k, lastItem (es ++ [.inserted (d.freeIdx first) buff uses]) k =
      if d.freeIdx first = k then some ⟨buff, uses, 0⟩ else lastItem es k := by
    intro k
    rw [lastItem_append_singleton]
    rfl
  refine ⟨hsound, fun k item hitem hleft => ?_, fun k slot hslot => ?_, fun k item hitem => ?_,
    h.fresh_append fun k buff' uses' heq item hitem => ?_⟩
  · rw [hrecord] at hitem
    rw [hlive]
    split at hitem
    · obtain rfl := Option.some.inj hitem
      subst k
      exact ⟨_, Function.update_self .., rfl, by simp⟩
    · rw [Function.update_of_ne (Ne.symm ‹_›)]
      exact h.live k item hitem hleft
  · rw [hlive] at hslot
    rw [hrecord]
    split
    · refine ⟨_, rfl, ?_⟩
      show ((0 : ℕ) : ℤ) < uses
      omega
    · rw [Function.update_of_ne (Ne.symm ‹_›)] at hslot
      exact h.idle k slot hslot
  · rw [hrecord] at hitem
    split at hitem
    · subst k
      have hmem : (d.insertItem buff uses first).1.live (d.freeIdx first) = some ⟨buff, uses, d.nextSerial⟩ := by
        rw [hlive, Function.update_self]
      exact (List.getElem?_eq_some_iff.mp (live_eq_some.mp hmem).2).1
    · exact (h.listed k item hitem).trans_le (length_insertItem ..)
  · obtain ⟨rfl, -, -⟩ := StoreResult.inserted.inj heq
    by_contra hlt
    obtain ⟨slot, hslot, -, -⟩ := h.live _ item hitem (not_le.mp hlt)
    rw [hnone] at hslot
    cases hslot

theorem Tracks.freeItem {recycled : Option ℕ} (h : d.Tracks es) (hfreed : d.freeItem idx = some (d', recycled))
    (hwithin : ∃ item ∈ lastItem es idx, item.freed < item.uses) :
    d'.Tracks (es ++ [.freed idx recycled.isSome]) := by
  obtain ⟨item, hitem, hleft⟩ := hwithin
  obtain ⟨slot, hslot, hbuff, huses⟩ := h.live idx item hitem hleft
  have hrecord : ∀ k, lastItem (es ++ [.freed idx recycled.isSome]) k =
      if idx = k then some { item with freed := item.freed + 1 } else lastItem es k := by
    intro k
    rw [lastItem_append_singleton, StoreResult.record]
    split
    · subst k
      rw [hitem]
      rfl
    · rfl
  obtain ⟨hsound, hcases⟩ := h.sound.freeItem hslot hfreed
  have hother : ∀ k, idx ≠ k → d'.live k = d.live k :=
    fun k hk => live_freeItem_of_ne hfreed (Ne.symm hk)
  refine ⟨hsound, fun k item' hitem' hleft' => ?_, fun k slot' hslot' => ?_, fun k item' hitem' => ?_,
    h.fresh_append fun k buff uses heq => by cases heq⟩
  · rw [hrecord] at hitem'
    split at hitem'
    · obtain rfl := Option.some.inj hitem'
      subst k
      rcases hcases with ⟨hone, -, -⟩ | ⟨-, -, hlive⟩
      · have hlt : ((item.freed + 1 : ℕ) : ℤ) < item.uses := hleft'
        omega
      · refine ⟨{ slot with uses := slot.uses - 1 }, by rw [hlive, Function.update_self], hbuff, ?_⟩
        show slot.uses - 1 = item.uses - (item.freed + 1 : ℕ)
        omega
    · rw [hother k ‹_›]
      exact h.live k item' hitem' hleft'
  · rw [hrecord]
    split
    · subst k
      rcases hcases with ⟨-, -, hlive⟩ | ⟨hone, -, hlive⟩
      · rw [hlive, Function.update_self] at hslot'
        cases hslot'
      · refine ⟨_, rfl, ?_⟩
        show ((item.freed + 1 : ℕ) : ℤ) < item.uses
        omega
    · rw [hother k ‹_›] at hslot'
      exact h.idle k slot' hslot'
  · rw [length_freeItem hfreed]
    rw [hrecord] at hitem'
    split at hitem'
    · subst k
      exact h.listed idx item hitem
    · exact h.listed k item' hitem'

/-- Each call that the caller may make keeps it. -/
theorem Tracks.step (h : d.Tracks es) (hc : c.Inserts) (hstep : d.step c = some (d', e))
    (hwithin : WithinUses (es ++ [e])) : d'.Tracks (es ++ [e]) := by
  cases c with
  | insertItem buff uses first =>
      obtain ⟨rfl, rfl⟩ := by simpa [DataStore.step] using hstep
      exact h.insertItem hc first
  | makeItem size uses first => exact hc.elim
  | freeItem idx =>
      simp only [DataStore.step, Option.map_eq_some_iff, Prod.mk.injEq] at hstep
      obtain ⟨⟨d₁, recycled⟩, hfreed, rfl, rfl⟩ := hstep
      exact h.freeItem hfreed (hwithin es _ [] rfl)
  | getItem idx =>
      simp only [DataStore.step, Option.map_eq_some_iff, Prod.mk.injEq] at hstep
      obtain ⟨buff, -, rfl, rfl⟩ := hstep
      have hrecord : ∀ k, lastItem (es ++ [.got idx buff]) k = lastItem es k := by
        intro k
        rw [lastItem_append_singleton]
        rfl
      refine ⟨h.sound, fun k => ?_, fun k => ?_, fun k => ?_, h.fresh_append fun k b u heq => by cases heq⟩
      · rw [hrecord]
        exact h.live k
      · rw [hrecord]
        exact h.idle k
      · rw [hrecord]
        exact h.listed k

/-- A call leaves the live items at other indexes as they are, and inserts nothing at the index of one. -/
theorem Sound.live_step {slot : StoreItem} (h : d.Sound) (hc : c.Inserts) (hstep : d.step c = some (d', e))
    (hslot : d.live k = some slot) :
    (e.frees k = false → d'.live k = some slot) ∧ ∀ buff uses, e ≠ .inserted k buff uses := by
  cases c with
  | insertItem buff uses first =>
      obtain ⟨rfl, rfl⟩ := by simpa [DataStore.step] using hstep
      obtain ⟨-, hnone, hlive⟩ := h.insertItem buff uses first
      have hne : k ≠ d.freeIdx first := by
        rintro rfl
        rw [hnone] at hslot
        cases hslot
      refine ⟨fun _ => by rw [hlive, Function.update_of_ne hne, hslot], fun buff' uses' heq => ?_⟩
      exact hne (StoreResult.inserted.inj heq).1.symm
  | makeItem size uses first => exact hc.elim
  | freeItem idx =>
      simp only [DataStore.step, Option.map_eq_some_iff, Prod.mk.injEq] at hstep
      obtain ⟨⟨d₁, recycled⟩, hfreed, rfl, rfl⟩ := hstep
      refine ⟨fun hnot => ?_, fun buff uses heq => by cases heq⟩
      have hne : idx ≠ k := by simpa [StoreResult.frees] using hnot
      rw [live_freeItem_of_ne hfreed (Ne.symm hne), hslot]
  | getItem idx =>
      simp only [DataStore.step, Option.map_eq_some_iff, Prod.mk.injEq] at hstep
      obtain ⟨buff, -, rfl, rfl⟩ := hstep
      exact ⟨fun _ => hslot, fun buff uses heq => by cases heq⟩

theorem tracks_exec {calls : List StoreCall} (hcalls : ∀ c ∈ calls, c.Inserts)
    (hrun : Runs.exec step {} calls = some (d, es)) (hwithin : WithinUses es) : d.Tracks es := by
  have hhistory : WithinUses ([] ++ es) → d.Tracks ([] ++ es) := by
    refine Runs.exec_history (Q := fun d es => WithinUses es → d.Tracks es) (P := fun _ c => c.Inserts) ?_
      (fun _ => tracks_empty) (Runs.along_of_mem hcalls) hrun
    intro d past c d' e h hc hstep hes
    exact (h hes.init).step hc hstep hes
  exact hhistory hwithin

end DataStore

/-- An insertion, and what is recorded of its item as long as nothing else is inserted at its index. -/
theorem lastItem_inserted {before after : List StoreResult} {buff : Bytes} {uses : ℤ}
    (hafter : ∀ buff' uses', StoreResult.inserted idx buff' uses' ∉ after) :
    lastItem (before ++ .inserted idx buff uses :: after) idx =
      some ⟨buff, uses, after.countP (StoreResult.frees idx)⟩ := by
  have hfirst : lastItem (before ++ [.inserted idx buff uses]) idx = some ⟨buff, uses, 0⟩ := by
    rw [lastItem_append_singleton]
    simp [StoreResult.record]
  have hall := lastItem_append hfirst hafter
  rw [List.append_assoc, List.singleton_append] at hall
  rw [hall]
  simp

/-- Nothing is inserted at an index as long as the item there has uses left. -/
theorem not_inserted_of_lt {before after : List StoreResult} {buff : Bytes} {uses : ℤ}
    (hfresh : ∀ before' k b u after',
      before ++ .inserted idx buff uses :: after = before' ++ .inserted k b u :: after' →
      ∀ item, lastItem before' k = some item → item.uses ≤ item.freed)
    (hlt : (after.countP (StoreResult.frees idx) : ℤ) < uses) :
    ∀ buff' uses', StoreResult.inserted idx buff' uses' ∉ after := by
  induction after using List.reverseRecOn with
  | nil => simp
  | append_singleton after e ih =>
      rw [List.countP_append] at hlt
      have hinit : ∀ b u, StoreResult.inserted idx b u ∉ after := by
        refine ih (fun before' k b u after' heq => ?_) (by omega)
        apply hfresh before' k b u (after' ++ [e])
        rw [← List.cons_append, ← List.append_assoc, heq]
        simp
      intro b u hmem
      rcases List.mem_append.mp hmem with hmem | hmem
      · exact hinit b u hmem
      · obtain rfl := List.mem_singleton.mp hmem
        have hfull : uses ≤ (after.countP (StoreResult.frees idx) : ℤ) :=
          hfresh (before ++ .inserted idx buff uses :: after) idx b u [] (by simp) _ (lastItem_inserted hinit)
        omega

/-- **The items of a data store.** After any sequence of calls of `insert_item` with at least one use and of
`free_item`, at most as many for an item as it has uses, and for every item that was inserted: until its
last use is freed its index is not returned again, `get_item` gives its buffer, its counter is the number of
uses left and the next `free_item` for it is defined; from then on its index can be returned by the next
insertion, unless it was returned already. And a further call leaves every other live item as it is, and
inserts nothing at the index of one. -/
theorem store_items_kept (calls : List StoreCall) (hcalls : ∀ c ∈ calls, c.Inserts) (d : DataStore)
    (es : List StoreResult) (hrun : Runs.exec DataStore.step {} calls = some (d, es)) (hwithin : WithinUses es) :
    (∀ before idx buff uses after, es = before ++ .inserted idx buff uses :: after →
      let freed : ℤ := after.countP (StoreResult.frees idx)
      (freed < uses → (∀ buff' uses', .inserted idx buff' uses' ∉ after) ∧ d.getItem idx = some buff ∧
        (∃ slot, d.live idx = some slot ∧ slot.buffer = buff ∧ slot.uses = uses - freed) ∧
        (d.freeItem idx).isSome) ∧
      (uses ≤ freed → (∀ buff' uses', .inserted idx buff' uses' ∉ after) →
        idx ∈ d.freeIdxs ∧ ∀ buff' uses', (d.insertItem buff' uses' idx).2.1 = idx)) ∧
    ∀ c d' e, c.Inserts → d.step c = some (d', e) → ∀ k slot, d.live k = some slot →
      (e.frees k = false → d'.live k = some slot) ∧ ∀ buff uses, e ≠ .inserted k buff uses := by
  have h : d.Tracks es := DataStore.tracks_exec hcalls hrun hwithin
  constructor
  · intro before idx buff uses after hes freed
    constructor
    · intro hlt
      have hnot : ∀ buff' uses', StoreResult.inserted idx buff' uses' ∉ after :=
        not_inserted_of_lt (fun before' k b u after' heq => h.fresh before' k b u after' (hes.trans heq)) hlt
      have hitem : lastItem es idx = some ⟨buff, uses, after.countP (StoreResult.frees idx)⟩ := by
        rw [hes, lastItem_inserted hnot]
      obtain ⟨slot, hslot, hbuff, huses⟩ := h.live idx _ hitem hlt
      refine ⟨hnot, ?_, ⟨slot, hslot, hbuff, huses⟩, DataStore.isSome_freeItem hslot⟩
      rw [DataStore.getItem_live hslot, hbuff]
    · intro hle hnot
      have hitem : lastItem es idx = some ⟨buff, uses, after.countP (StoreResult.frees idx)⟩ := by
        rw [hes, lastItem_inserted hnot]
      have hnone : d.live idx = none := by
        by_contra hsome
        obtain ⟨slot, hslot⟩ := Option.ne_none_iff_exists'.mp hsome
        obtain ⟨item, hitem', hlt⟩ := h.idle idx slot hslot
        rw [hitem] at hitem'
        obtain rfl := Option.some.inj hitem'
        exact absurd hlt (not_lt.mpr hle)
      have hmem : idx ∈ d.freeIdxs := DataStore.mem_freeIdxs hnone (h.listed idx _ hitem)
      exact ⟨hmem, fun buff' uses' => DataStore.freeIdx_of_mem hmem⟩
  · intro c d' e hc hstep k slot hslot
    exact h.sound.live_step hc hstep hslot

/-- Two items, of which the second is recycled and its index used again before the first has lost its last
use. -/
def twoItems : List StoreCall :=
  [.insertItem [1, 2] 2 0, .insertItem [3] 1 0, .freeItem 1, .freeItem 0, .insertItem [4] 1 1]

theorem store_items_kept_two :
    ∃ d es, Runs.exec DataStore.step {} twoItems = some (d, es) ∧ WithinUses es ∧ d.getItem 0 = some [1, 2] ∧
      d.getItem 1 = some [4] := by
  have hcalls : ∀ c ∈ twoItems, c.Inserts := by
    simp [twoItems, StoreCall.Inserts]
  have hsome : (Runs.exec DataStore.step {} twoItems).any (fun r =>
      decide (WithinUses r.2) && decide (r.2 = [.inserted 0 [1, 2] 2, .inserted 1 [3] 1, .freed 1 true,
        .freed 0 false, .inserted 1 [4] 1])) = true := by
    decide +kernel
  simp only [Option.any_eq_true, Bool.and_eq_true, decide_eq_true_eq] at hsome
  obtain ⟨⟨d, es⟩, hrun, hwithin, hes⟩ := hsome
  have hkept := (store_items_kept twoItems hcalls d es hrun hwithin).1
  have hfirst := (hkept [] 0 [1, 2] 2 _ hes).1 (by decide)
  have hagain := (hkept [.inserted 0 [1, 2] 2, .inserted 1 [3] 1, .freed 1 true, .freed 0 false] 1 [4] 1 [] hes).1
    (by decide)
  exact ⟨d, es, hrun, hwithin, hfirst.2.1, hagain.2.1⟩

/-! ### Items that are made in place -/

namespace DataStore

/-- The two stores answer alike, whatever `free_item` and `get_item` are called for. -/
def ObservablyEqual (d d' : DataStore) : Prop :=
  ∀ calls : List StoreCall, (∀ c ∈ calls, (∃ idx, c = .freeItem idx) ∨ ∃ idx, c = .getItem idx) →
    (Runs.exec step d calls).map Prod.snd = (Runs.exec step d' calls).map Prod.snd

/-- Whatever `free_item` and `get_item` are called for, the item at `idx` is recycled by the call of
`free_item` for it that comes after `uses - 1` others, and by no other. -/
def RecycledAt (d : DataStore) (idx : ℕ) (uses : ℤ) : Prop :=
  ∀ calls : List StoreCall, (∀ c ∈ calls, (∃ idx, c = .freeItem idx) ∨ ∃ idx, c = .getItem idx) →
    ∀ d' es, Runs.exec step d calls = some (d', es) →
      ∀ before recycled after, es = before ++ .freed idx recycled :: after →
        (recycled = true ↔ (before.countP (StoreResult.frees idx) + 1 : ℤ) = uses)

/-- A free slot is empty, and its counter is below zero. -/
def Cleared (d : DataStore) : Prop :=
  ∀ k ∈ d.freeIdxs, ∃ slot, d.dataVec[k]? = some slot ∧ slot.buffer = [] ∧ slot.uses < 0

/-- The slot that the next new item is put into. -/
theorem Cleared.slot (h : d.Cleared) (first : ℕ) :
    ∃ slot, (if d.freeIdxs.Nonempty then d.dataVec else
      d.dataVec ++ [({ uses := 0 } : StoreItem)])[d.freeIdx first]? = some slot ∧ slot.buffer = [] ∧
        slot.uses ≤ 0 := by
  unfold freeIdx
  split
  · have hmem : (if first ∈ d.freeIdxs then first else d.freeIdxs.min' ‹_›) ∈ d.freeIdxs := by
      split
      · assumption
      · exact Finset.min'_mem ..
    obtain ⟨slot, hget, hbuff, huses⟩ := h _ hmem
    exact ⟨slot, hget, hbuff, huses.le⟩
  · exact ⟨{ uses := 0 }, by simp, rfl, le_rfl⟩

/-- A free slot other than the one that is taken is as before. -/
theorem Cleared.take (h : d.Cleared) {dataVec : List StoreItem} {first : ℕ}
    (hget : ∀ k, k ≠ d.freeIdx first → dataVec[k]? = (if d.freeIdxs.Nonempty then d.dataVec else
      d.dataVec ++ [({ uses := 0 } : StoreItem)])[k]?) :
    Cleared ⟨dataVec, d.freeIdxs.erase (d.freeIdx first), d.nextSerial + 1⟩ := by
  intro k hk
  obtain ⟨hne, hmem⟩ := Finset.mem_erase.mp hk
  obtain ⟨slot, hslot, hcleared⟩ := h k hmem
  exact ⟨slot, by rw [hget k hne, getElem?_of_ne_freeIdx hne, hslot], hcleared⟩

theorem Cleared.freeItem {recycled : Option ℕ} (h : d.Cleared) (hfreed : d.freeItem idx = some (d', recycled)) :
    d'.Cleared := by
  obtain ⟨item, hitem, hlt, ⟨-, -, rfl⟩ | ⟨-, -, rfl⟩⟩ := freeItem_cases hfreed
  · intro k hk
    by_cases hidx : k = idx
    · exact ⟨{}, by simp [hidx, hlt], rfl, by decide⟩
    · have hmem : k ∈ d.freeIdxs := (Finset.mem_insert.mp hk).resolve_left hidx
      obtain ⟨slot, hslot, hcleared⟩ := h k hmem
      exact ⟨slot, by simp [List.getElem?_set_ne (Ne.symm hidx), hslot], hcleared⟩
  · intro k hk
    obtain ⟨slot, hslot, hbuff, huses⟩ := h k hk
    by_cases hidx : k = idx
    · subst hidx
      obtain rfl : item = slot := Option.some.inj (hitem.symm.trans hslot)
      refine ⟨{ item with uses := item.uses - 1 }, by simp [hlt], hbuff, ?_⟩
      show item.uses - 1 < 0
      omega
    · exact ⟨slot, by simp [List.getElem?_set_ne (Ne.symm hidx), hslot], hbuff, huses⟩

theorem Cleared.step (h : d.Cleared) (hstep : d.step c = some (d', e)) : d'.Cleared := by
  cases c with
  | insertItem buff uses first =>
      obtain ⟨rfl, -⟩ := by simpa [DataStore.step] using hstep
      exact h.take fun k hk => List.getElem?_set_ne (Ne.symm hk)
  | makeItem size uses first =>
      obtain ⟨rfl, -⟩ := by simpa [DataStore.step] using hstep
      exact h.take fun k hk => List.getElem?_modify_ne _ _ (Ne.symm hk)
  | freeItem idx =>
      simp only [DataStore.step, Option.map_eq_some_iff, Prod.mk.injEq] at hstep
      obtain ⟨⟨d₁, recycled⟩, hfreed, rfl, -⟩ := hstep
      exact h.freeItem hfreed
  | getItem idx =>
      simp only [DataStore.step, Option.map_eq_some_iff, Prod.mk.injEq] at hstep
      obtain ⟨buff, -, rfl, -⟩ := hstep
      exact h

/-- `free_item` and `get_item` leave the slot at `idx` as it is, unless it is freed. -/
theorem slot_step {slot : StoreItem} (hc : (∃ idx, c = .freeItem idx) ∨ ∃ idx, c = .getItem idx)
    (h : d.dataVec[idx]? = some slot) (hstep : d.step c = some (d', e)) :
    ∃ slot', d'.dataVec[idx]? = some slot' ∧
      (e.frees idx = false ∧ slot' = slot ∨
        ∃ recycled, e = .freed idx recycled ∧ (recycled = true ↔ slot.uses = 1) ∧
          slot'.uses = if slot.uses = 1 then -1 else slot.uses - 1) := by
  rcases hc with ⟨k, rfl⟩ | ⟨k, rfl⟩
  · simp only [DataStore.step, Option.map_eq_some_iff, Prod.mk.injEq] at hstep
    obtain ⟨⟨d₁, recycled⟩, hfreed, rfl, rfl⟩ := hstep
    obtain ⟨item, hitem, hlt, hcases⟩ := freeItem_cases hfreed
    by_cases hk : k = idx
    · subst hk
      obtain rfl : item = slot := Option.some.inj (hitem.symm.trans h)
      rcases hcases with ⟨hone, rfl, rfl⟩ | ⟨hone, rfl, rfl⟩
      · exact ⟨{}, by simp [hlt], Or.inr ⟨true, rfl, by simp [hone], by simp [hone]⟩⟩
      · exact ⟨{ item with uses := item.uses - 1 }, by simp [hlt],
          Or.inr ⟨false, rfl, by simp [hone], by simp [hone]⟩⟩
    · refine ⟨slot, ?_, Or.inl ⟨by simp [StoreResult.frees, hk], rfl⟩⟩
      rcases hcases with ⟨-, -, rfl⟩ | ⟨-, -, rfl⟩
      all_goals simp [List.getElem?_set_ne hk, h]
  · simp only [DataStore.step, Option.map_eq_some_iff, Prod.mk.injEq] at hstep
    obtain ⟨buff, -, rfl, rfl⟩ := hstep
    exact ⟨slot, h, Or.inl ⟨rfl, rfl⟩⟩

/-- The counter of a slot says which call of `free_item` recycles it. -/
theorem recycledAt_uses {slot : StoreItem} (h : d.dataVec[idx]? = some slot) : d.RecycledAt idx slot.uses := by
  intro calls hcalls
  induction calls generalizing d slot with
  | nil =>
      intro d' es hrun before recycled after heq
      obtain ⟨-, rfl⟩ : d = d' ∧ [] = es := by simpa [Runs.exec] using hrun
      simp at heq
  | cons c calls ih =>
      intro d' es hrun before recycled after heq
      obtain ⟨d₁, e, es', hstep, hrest, rfl⟩ := Runs.exec_cons hrun
      obtain ⟨slot', hslot', hcases⟩ := slot_step (hcalls c (by simp)) h hstep
      have hlater := ih hslot' (fun c hc => hcalls c (List.mem_cons_of_mem _ hc)) d' es' hrest
      cases before with
      | nil =>
          obtain ⟨rfl, rfl⟩ := List.cons.inj heq
          rcases hcases with ⟨hfrees, -⟩ | ⟨recycled', he, hone, -⟩
          · simp [StoreResult.frees] at hfrees
          · obtain ⟨-, rfl⟩ := StoreResult.freed.inj he
            rw [hone]
            simp only [List.countP_nil]
            omega
      | cons e' before =>
          obtain ⟨rfl, rfl⟩ := List.cons.inj heq
          have hrecycled := hlater before recycled after rfl
          rw [List.countP_cons]
          rcases hcases with ⟨hfrees, rfl⟩ | ⟨recycled', rfl, -, huses⟩
          · simpa [hfrees] using hrecycled
          · rw [hrecycled, huses]
            simp only [StoreResult.frees, decide_true, if_true]
            split <;> omega

/-- `free_item` can be called for a slot any number of times. -/
theorem exec_freeItem {slot : StoreItem} (h : d.dataVec[idx]? = some slot) (n : ℕ) :
    ∃ d' es recycled, Runs.exec step d (List.replicate (n + 1) (.freeItem idx)) =
      some (d', es ++ [.freed idx recycled]) ∧ es.countP (StoreResult.frees idx) = n := by
  have hstep : ∃ d₁ recycled, d.step (.freeItem idx) = some (d₁, .freed idx recycled) := by
    simp only [DataStore.step, freeItem, h]
    split <;> exact ⟨_, _, rfl⟩
  obtain ⟨d₁, recycled, hstep⟩ := hstep
  induction n generalizing d slot d₁ recycled with
  | zero => exact ⟨d₁, [], recycled, by simp [Runs.exec, hstep], rfl⟩
  | succ n ih =>
      obtain ⟨slot', hslot', -⟩ := slot_step (Or.inl ⟨idx, rfl⟩) h hstep
      obtain ⟨d₂, recycled', hstep'⟩ : ∃ d₂ recycled', d₁.step (.freeItem idx) =
          some (d₂, .freed idx recycled') := by
        simp only [DataStore.step, freeItem, hslot']
        split <;> exact ⟨_, _, rfl⟩
      obtain ⟨d', es, last, hrun, hcount⟩ := ih hslot' d₂ recycled' hstep'
      refine ⟨d', .freed idx recycled :: es, last, ?_, by simp [StoreResult.frees, hcount]⟩
      rw [List.replicate_succ]
      simp [Runs.exec, hstep, hrun]

/-- The item that `insert_item` puts into the store. -/
theorem slot_insertItem (hfree : ∀ k ∈ d.freeIdxs, k < d.dataVec.length) (buff : Bytes) (uses : ℤ) (first : ℕ) :
    (d.insertItem buff uses first).1.dataVec[d.freeIdx first]? = some ⟨buff, uses, d.nextSerial⟩ := by
  have hlt := freeIdx_lt hfree first
  simp [insertItem, hlt]

/-- The item that `make_item` puts into the store: its counter is not above zero. -/
theorem Cleared.slot_makeItem (h : d.Cleared) (size : ℕ) (uses : ℤ) (first : ℕ) :
    ∃ left ≤ 0, (d.makeItem size uses first).1.dataVec[d.freeIdx first]? =
      some ⟨List.replicate size 0, left, d.nextSerial⟩ := by
  obtain ⟨slot, hslot, hbuff, huses⟩ := h.slot first
  refine ⟨slot.uses, huses, ?_⟩
  simp [makeItem, hslot, resize, hbuff]

end DataStore

/-- **Items that are made in place are not recycled.** In every state that a mix of calls leads to, a call of
`make_item` does not lead to the same as a call of `insert_item` for as many zero bytes and as many uses:
the call of `free_item` that recycles the item of the latter does not recycle that of the former. -/
theorem make_item_not_recycled (calls : List StoreCall) (d : DataStore) (es : List StoreResult)
    (hrun : Runs.exec DataStore.step {} calls = some (d, es)) (size : ℕ) (uses : ℤ) (huses : 1 ≤ uses)
    (first : ℕ) :
    let made := d.makeItem size uses first
    let inserted := d.insertItem (List.replicate size 0) uses first
    ¬ made.1.ObservablyEqual inserted.1 ∧ ¬ made.1.RecycledAt made.2.1 uses := by
  intro made inserted
  have hcleared : d.Cleared := Runs.exec_invariant (Q := DataStore.Cleared) (P := fun _ _ => True)
    (fun d c d' e h _ hstep => h.step hstep) (by simp [DataStore.Cleared])
    (Runs.along_of_forall fun _ _ => trivial) hrun
  have hfree : ∀ k ∈ d.freeIdxs, k < d.dataVec.length := by
    intro k hk
    obtain ⟨slot, hslot, -⟩ := hcleared k hk
    exact (List.getElem?_eq_some_iff.mp hslot).1
  obtain ⟨left, hleft, hmade⟩ := hcleared.slot_makeItem size uses first
  have hinserted := DataStore.slot_insertItem hfree (List.replicate size 0) uses first
  obtain ⟨n, hn⟩ : ∃ n : ℕ, uses = n + 1 := ⟨(uses - 1).toNat, by omega⟩
  have hcalls : ∀ c ∈ List.replicate (n + 1) (StoreCall.freeItem (d.freeIdx first)),
      (∃ idx, c = .freeItem idx) ∨ ∃ idx, c = .getItem idx :=
    fun c hc => Or.inl ⟨_, List.eq_of_mem_replicate hc⟩
  obtain ⟨d₁, es₁, recycled₁, hrun₁, hcount₁⟩ := DataStore.exec_freeItem hmade n
  obtain ⟨d₂, es₂, recycled₂, hrun₂, hcount₂⟩ := DataStore.exec_freeItem hinserted n
  have hkept : recycled₁ ≠ true := by
    rw [ne_eq, DataStore.recycledAt_uses hmade _ hcalls d₁ _ hrun₁ es₁ recycled₁ [] rfl, hcount₁]
    show ¬ (n + 1 : ℤ) = left
    omega
  have hrecycled : recycled₂ = true := by
    rw [DataStore.recycledAt_uses hinserted _ hcalls d₂ _ hrun₂ es₂ recycled₂ [] rfl, hcount₂]
    exact hn.symm
  constructor
  · intro hequal
    have hsame := hequal _ hcalls
    rw [hrun₁, hrun₂] at hsame
    obtain ⟨-, hlast⟩ := List.append_inj' (Option.some.inj hsame) rfl
    have hflags : recycled₁ = recycled₂ := by simpa using hlast
    exact hkept (hflags.trans hrecycled)
  · intro (hat : made.1.RecycledAt (d.freeIdx first) uses)
    apply hkept
    rw [hat _ hcalls d₁ _ hrun₁ es₁ recycled₁ [] rfl, hcount₁]
    exact hn.symm

theorem make_item_not_recycled_empty :
    ¬ (DataStore.makeItem {} 1 1 0).1.ObservablyEqual (DataStore.insertItem {} [0] 1 0).1 ∧
      ¬ (DataStore.makeItem {} 1 1 0).1.RecycledAt 0 1 :=
  make_item_not_recycled [] {} [] rfl 1 1 (by decide) 0

/-- An item of one byte and one use that is made in an empty store is still there after it was freed. -/
theorem made_item_remains :
    ((Runs.exec DataStore.step (DataStore.makeItem {} 1 1 0).1 [.freeItem 0, .getItem 0]).map Prod.snd =
        some [.freed 0 false, .got 0 [0]] ∧
      (Runs.exec DataStore.step (DataStore.insertItem {} [0] 1 0).1 [.freeItem 0, .getItem 0]).map Prod.snd =
        some [.freed 0 true, .got 0 []]) ∧
      ¬ (DataStore.makeItem {} 1 1 0).1.ObservablyEqual (DataStore.insertItem {} [0] 1 0).1 := by
  have hmade : (Runs.exec DataStore.step (DataStore.makeItem {} 1 1 0).1 [.freeItem 0, .getItem 0]).map Prod.snd =
      some [.freed 0 false, .got 0 [0]] := by decide +kernel
  have hinserted : (Runs.exec DataStore.step (DataStore.insertItem {} [0] 1 0).1 [.freeItem 0, .getItem 0]).map
      Prod.snd = some [.freed 0 true, .got 0 []] := by decide +kernel
  refine ⟨⟨hmade, hinserted⟩, fun hequal => ?_⟩
  have hsame := hequal [.freeItem 0, .getItem 0] (by simp)
  rw [hmade, hinserted] at hsame
  exact absurd hsame (by decide)

end LiburingServer
