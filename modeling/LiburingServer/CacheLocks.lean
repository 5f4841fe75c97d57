import LiburingServer.CacheList

/-! The locks of the cache against its uses. A client uses a slot from a successful fetch on until it is
finished with its item. Every slot is locked once for each of its uses, as long as no fetch finds a
locked item outdated and each client that is finished has used the slot that it fetched last, once, and
no other. -/

namespace LiburingServer

variable {N : ℕ}

namespace Cache

variable {c c' : Cache N} {filepath buff : Bytes} {clientIdx first : ℕ} {wd : ℤ} {client client' : TcpClient}

theorem removeOutdated_data (i : Fin N) : (c.removeOutdated i).data = Function.update c.data i {} := by
  funext j
  by_cases hj : j = i <;> simp [removeOutdated, data, CacheItem.data, hj]

theorem detachItem_maps (i n : Fin N) :
    SameMaps c (c.detachItem i n) ∧ (c.detachItem i n).clientIdxToCacheIdx = c.clientIdxToCacheIdx := by
  unfold detachItem
  split <;> exact ⟨⟨rfl, rfl, rfl, rfl⟩, rfl⟩

/-- What a fetch does that is defined: a miss changes nothing; a fetch of a cached path marks its client
and locks an item that is up to date, or resets one that is not. -/
theorem fetchItem_cases {item : CacheFetchItem N}
    (h : c.fetchItem filepath clientIdx client = some (c', client', item)) :
    (c.filepathToCacheIdx filepath = none ∧ c' = c ∧ client' = client ∧ item = { found := false }) ∨
    ∃ i, c.filepathToCacheIdx filepath = some i ∧ client' = { client with usingFile := true } ∧
      c'.clientIdxToCacheIdx = Function.update c.clientIdxToCacheIdx clientIdx (some i) ∧
      (((c.data i).outdated = false ∧ item = c'.foundItem i ∧ SameMaps c c' ∧
        c'.data = Function.update c.data i { c.data i with lockNumber := (c.data i).lockNumber + 1 }) ∨
      ((c.data i).outdated = true ∧ item = { found := false } ∧ c'.data = Function.update c.data i {} ∧
        c'.freeIdxs = insert i c.freeIdxs ∧
        c'.watchToCacheIdx = Function.update c.watchToCacheIdx (c.data i).watch none)) := by
  unfold fetchItem at h
  split at h
  · rename_i hpath
    obtain ⟨rfl, rfl, rfl⟩ := by simpa using h
    exact Or.inl ⟨hpath, rfl, rfl, rfl⟩
  · rename_i i hpath
    refine Or.inr ⟨i, hpath, ?_⟩
    have hlocked : SameMaps c (c.lockItem i clientIdx) := ⟨rfl, rfl, rfl, rfl⟩
    have hout : ((c.lockItem i clientIdx).cacheBuffer i).outdated = (c.data i).outdated := by
      simp [lockItem, modifyItem, data, CacheItem.data]
    have hreset : ∀ d : Cache N, d.data = (c.lockItem i clientIdx).data → d.freeIdxs = c.freeIdxs →
        d.watchToCacheIdx = c.watchToCacheIdx →
        (d.removeOutdated i).data = Function.update c.data i {} ∧
          (d.removeOutdated i).freeIdxs = insert i c.freeIdxs ∧
          (d.removeOutdated i).watchToCacheIdx =
            Function.update c.watchToCacheIdx (c.data i).watch none := by
      intro d hd hfree hwatch
      have hkept : (d.cacheBuffer i).watch = (c.data i).watch := by
        have hsame := congrArg ItemData.watch (congrFun hd i)
        rw [lockItem_data, Function.update_self] at hsame
        exact hsame
      refine ⟨?_, by rw [removeOutdated, hfree], by rw [removeOutdated, hwatch, hkept]⟩
      rw [removeOutdated_data, hd, lockItem_data, Function.update_idem]
    dsimp only at h
    rw [hout] at h
    split at h
    · split_ifs at h with hold
      · obtain ⟨rfl, rfl, rfl⟩ := by simpa using h
        refine ⟨rfl, ?_, Or.inr ⟨hold, rfl, hreset _ ?_ ?_ ?_⟩⟩
        · split <;> rfl
        · split
          · exact data_of_update rfl rfl
          · rfl
        · split <;> rfl
        · split <;> rfl
      · obtain ⟨rfl, rfl, rfl⟩ := by simpa using h
        exact ⟨rfl, rfl, Or.inl ⟨by simpa using hold, rfl, hlocked, lockItem_data ..⟩⟩
    · rename_i n _
      obtain ⟨hmaps, hclients⟩ := (c.lockItem i clientIdx).detachItem_maps i n
      have hdata : ((c.lockItem i clientIdx).detachItem i n).data = (c.lockItem i clientIdx).data :=
        detachItem_data ..
      split_ifs at h with hold
      · obtain ⟨rfl, rfl, rfl⟩ := by simpa using h
        exact ⟨rfl, hclients, Or.inr ⟨hold, rfl, hreset _ hdata hmaps.free hmaps.watches⟩⟩
      · split at h
        · cases h
        · rename_i high _
          obtain ⟨rfl, rfl, rfl⟩ := by simpa using h
          refine ⟨rfl, hclients, Or.inl ⟨by simpa using hold, rfl, ?_, ?_⟩⟩
          · exact ⟨hmaps.filepath, hmaps.names, hmaps.free, hmaps.watches⟩
          · rw [← lockItem_data, ← hdata]
            generalize (c.lockItem i clientIdx).detachItem i n = d
            have hnext : (d.modifyItem high fun item => { item with nextItemIdx := some i }).data = d.data :=
              data_of_update rfl rfl
            rw [← hnext]
            exact data_of_update rfl rfl

/-- What an insertion does that is defined: it takes a free slot, or the lowest one if that is not
locked, or it does nothing. -/
theorem tryInsertItem_cases {done : Bool}
    (h : c.tryInsertItem filepath buff first wd = some (c', done)) :
    (done = true ∧ ∃ i, cbegin c.freeIdxs first = some i ∧
      c' = (c.takeFree i).insertAt i filepath buff wd) ∨
    (done = true ∧ c.freeIdxs = ∅ ∧ ∃ low newLow, (c.data low).lockNumber = 0 ∧
      c' = (c.evictLowest low newLow).insertAt low filepath buff wd) ∨
    (done = false ∧ c' = c) := by
  unfold tryInsertItem at h
  split at h
  · rename_i i hi
    obtain ⟨rfl, rfl⟩ : _ = c' ∧ true = done := by simpa using h
    exact Or.inl ⟨rfl, i, hi, rfl⟩
  · rename_i hnone
    have hfull : c.freeIdxs = ∅ := (cbegin_eq_none_iff _ _).mp hnone
    split at h
    · cases h
    · rename_i low _
      split_ifs at h with hlock
      · split at h
        · cases h
        · rename_i newLow _
          obtain ⟨rfl, rfl⟩ : _ = c' ∧ true = done := by simpa using h
          exact Or.inr (Or.inl ⟨rfl, hfull, low, newLow, hlock, rfl⟩)
      · obtain ⟨rfl, rfl⟩ : c = c' ∧ false = done := by simpa using h
        exact Or.inr (Or.inr ⟨rfl, rfl⟩)

/-- What the end of a use does: a client that is marked gives up a lock of the slot it fetched last. -/
theorem finishedWithItem_cases (h : c.finishedWithItem clientIdx client = some (c', client')) :
    (client.usingFile = false ∧ c' = c ∧ client' = client) ∨
    (client.usingFile = true ∧ client' = { client with usingFile := false } ∧
      ∃ i, c.cacheIdxOf clientIdx = some i ∧ SameMaps c c' ∧
        c'.clientIdxToCacheIdx = Function.update c.clientIdxToCacheIdx clientIdx (some i) ∧
        c'.data = Function.update c.data i
          { c.data i with lockNumber := (c.data i).lockNumber - 1 }) := by
  unfold finishedWithItem at h
  split_ifs at h with husing
  · split at h
    · cases h
    · rename_i i hi
      obtain ⟨rfl, rfl⟩ : _ = c' ∧ _ = client' := by simpa using h
      refine Or.inr ⟨husing, rfl, i, hi, ⟨rfl, rfl, rfl, rfl⟩, rfl, ?_⟩
      funext j
      by_cases hj : j = i <;> simp [modifyItem, data, CacheItem.data, hj]
  · obtain ⟨rfl, rfl⟩ : c = c' ∧ client = client' := by simpa using h
    exact Or.inl ⟨by simpa using husing, rfl, rfl⟩

end Cache

/-! ### Uses -/

/-- The outstanding uses after one more call: a fetch that finds an item adds one, and a client that is
finished has none left. -/
def recordUse (uses : List (ℕ × Fin N)) : CacheOp × CacheResult N → List (ℕ × Fin N)
  | (.fetch _ clientIdx, .fetched ⟨true, _, some i, _⟩) => (clientIdx, i) :: uses
  | (.finished clientIdx, _) => uses.filter fun u => u.1 ≠ clientIdx
  | _ => uses

/-- A cache with the uses that are outstanding: which client uses which slot. -/
structure UsedCache (N : ℕ) where
  state : CacheState N := {}
  uses : List (ℕ × Fin N) := []

/-- A call with the `client_idx` that `try_insert_item` is given; the source does not use it. -/
def useStep (s : UsedCache N) (call : CacheOp × ℕ) : Option (UsedCache N × CacheResult N) :=
  (cacheStep s.state call.1).map fun r => (⟨r.1, recordUse s.uses (call.1, r.2)⟩, r.2)

/-- The client that makes a call. -/
def CacheOp.caller (clientIdx : ℕ) : CacheOp → Option ℕ
  | .fetch _ k => some k
  | .tryInsert _ _ _ _ => some clientIdx
  | .inotify _ => none
  | .finished k => some k

namespace UsedCache

/-- A fetch that finds its item outdated finds it unlocked; an insertion is not given a free slot that
another client uses; and a client that is finished, if it has fetched a cached path, has used exactly
one slot since it was last finished, and it is the one of its last fetch. -/
def LocksRight (s : UsedCache N) : CacheOp × ℕ → Prop
  | (.fetch filepath _, _) => ∀ i, s.state.cache.filepathToCacheIdx filepath = some i →
      (s.state.cache.cacheBuffer i).outdated = true → (s.state.cache.cacheBuffer i).lockNumber = 0
  | (.tryInsert _ _ first _, clientIdx) => ∀ i, Cache.cbegin s.state.cache.freeIdxs first = some i →
      ∀ u ∈ s.uses, u.2 = i → u.1 = clientIdx
  | (.inotify _, _) => True
  | (.finished clientIdx, _) => (s.state.clients clientIdx).usingFile = true →
      ∃ i, s.state.cache.clientIdxToCacheIdx clientIdx = some i ∧
        s.uses.filter (fun u => u.1 = clientIdx) = [(clientIdx, i)]

instance (s : UsedCache N) : ∀ call, Decidable (s.LocksRight call)
  | (.fetch filepath _, _) => inferInstanceAs (Decidable (∀ i,
      s.state.cache.filepathToCacheIdx filepath = some i → (s.state.cache.cacheBuffer i).outdated = true →
        (s.state.cache.cacheBuffer i).lockNumber = 0))
  | (.tryInsert _ _ first _, clientIdx) => inferInstanceAs (Decidable (∀ i,
      Cache.cbegin s.state.cache.freeIdxs first = some i → ∀ u ∈ s.uses, u.2 = i → u.1 = clientIdx))
  | (.inotify _, _) => isTrue trivial
  | (.finished clientIdx, _) => inferInstanceAs (Decidable ((s.state.clients clientIdx).usingFile = true →
      ∃ i, s.state.cache.clientIdxToCacheIdx clientIdx = some i ∧
        s.uses.filter (fun u => u.1 = clientIdx) = [(clientIdx, i)]))

/-- Every slot is locked once for each of its uses, and a client that uses a slot is marked. -/
structure Counted (s : UsedCache N) : Prop where
  locks : ∀ i, (s.state.cache.data i).lockNumber = s.uses.countP fun u => u.2 = i
  marked : ∀ u ∈ s.uses, (s.state.clients u.1).usingFile = true

variable {s t : UsedCache N} {o : CacheResult N}

theorem counted_empty : ({} : UsedCache N).Counted := by
  refine ⟨fun i => ?_, ?_⟩
  · simp [Cache.data, CacheItem.data]
  · simp

/-- Nobody uses a slot that is not locked. -/
theorem Counted.unused (h : s.Counted) {i : Fin N} (hlock : (s.state.cache.data i).lockNumber = 0) :
    ∀ u ∈ s.uses, u.2 ≠ i := by
  have hnone : s.uses.countP (fun u => u.2 = i) = 0 := by
    have := h.locks i
    omega
  intro u hu heq
  have := List.countP_eq_zero.mp hnone u hu
  simp [heq] at this

/-- Other locks than those of `i` do not matter when the uses stay the same. -/
theorem Counted.of_data (h : s.Counted) {c : Cache N} {clients : ℕ → TcpClient}
    (hlocks : ∀ i, (c.data i).lockNumber = (s.state.cache.data i).lockNumber)
    (hclients : ∀ k, (s.state.clients k).usingFile = true → (clients k).usingFile = true) :
    Counted ⟨⟨c, clients⟩, s.uses⟩ :=
  ⟨fun i => (hlocks i).trans (h.locks i), fun u hu => hclients _ (h.marked u hu)⟩

/-- A call leaves the buffers alone that others than the caller use. -/
def KeepsUsed (s t : UsedCache N) (caller : Option ℕ) : Prop :=
  ∀ u ∈ s.uses, caller ≠ some u.1 →
    (t.state.cache.cacheBuffer u.2).buffer = (s.state.cache.cacheBuffer u.2).buffer

theorem keepsUsed_of_data {caller : Option ℕ}
    (h : ∀ u ∈ s.uses, caller ≠ some u.1 →
      (t.state.cache.data u.2).buffer = (s.state.cache.data u.2).buffer) : s.KeepsUsed t caller := h

theorem Counted.fetch (h : s.Counted) {filepath : Bytes} {clientIdx k : ℕ}
    (hright : s.LocksRight (.fetch filepath clientIdx, k))
    (hstep : useStep s (.fetch filepath clientIdx, k) = some (t, o)) :
    t.Counted ∧ s.KeepsUsed t (some clientIdx) := by
  obtain ⟨⟨s', o'⟩, hcache, heq⟩ := Option.map_eq_some_iff.mp hstep
  obtain ⟨rfl, rfl⟩ : _ = t ∧ o' = o := by simpa using heq
  obtain ⟨⟨c', client', item⟩, hfetch, heq⟩ := Option.map_eq_some_iff.mp hcache
  obtain ⟨rfl, rfl⟩ : _ = s' ∧ .fetched item = o' := by simpa using heq
  have hmarked : client' = { s.state.clients clientIdx with usingFile := true } →
      ∀ k, (s.state.clients k).usingFile = true →
        (Function.update s.state.clients clientIdx client' k).usingFile = true := by
    rintro rfl k hk
    by_cases heq : k = clientIdx
    · simp [heq]
    · simpa [heq] using hk
  rcases Cache.fetchItem_cases hfetch with
    ⟨-, rfl, rfl, rfl⟩ | ⟨i, hpath, hclient, -, ⟨-, rfl, -, hdata⟩ | ⟨hout, rfl, hdata, -⟩⟩
  · refine ⟨h.of_data (fun _ => rfl) fun k hk => ?_, fun u _ _ => rfl⟩
    simpa using hk
  · refine ⟨⟨fun j => ?_, fun u hu => ?_⟩, keepsUsed_of_data fun u _ _ => ?_⟩
    · have hlocks := h.locks j
      show (c'.data j).lockNumber = (((clientIdx, i) :: s.uses).countP fun u => u.2 = j : ℕ)
      rw [hdata, List.countP_cons]
      by_cases hj : j = i
      · subst hj
        simp [hlocks]
      · simp [hj, Ne.symm hj, hlocks]
    · rcases List.mem_cons.mp hu with rfl | hu
      · simp [hclient]
      · exact hmarked hclient _ (h.marked u hu)
    · show (c'.data u.2).buffer = _
      by_cases hj : u.2 = i <;> simp [hdata, hj]
  · -- the item that is reset is not used
    have hlock : (s.state.cache.data i).lockNumber = 0 := hright i hpath hout
    refine ⟨h.of_data (fun j => ?_) (hmarked hclient), keepsUsed_of_data fun u hu _ => ?_⟩
    · by_cases hj : j = i
      · subst hj
        simpa [hdata] using hlock.symm
      · simp [hdata, hj]
    · simp [hdata, h.unused hlock u hu]

theorem Counted.tryInsert (h : s.Counted) {filepath buff : Bytes} {first clientIdx : ℕ} {wd : ℤ}
    (hright : s.LocksRight (.tryInsert filepath buff first wd, clientIdx))
    (hstep : useStep s (.tryInsert filepath buff first wd, clientIdx) = some (t, o)) :
    t.Counted ∧ s.KeepsUsed t (some clientIdx) := by
  obtain ⟨⟨s', o'⟩, hcache, heq⟩ := Option.map_eq_some_iff.mp hstep
  obtain ⟨rfl, rfl⟩ : _ = t ∧ o' = o := by simpa using heq
  obtain ⟨⟨c', done⟩, hinsert, heq⟩ := Option.map_eq_some_iff.mp hcache
  obtain ⟨rfl, rfl⟩ : _ = s' ∧ .inserted done = o' := by simpa using heq
  rcases Cache.tryInsertItem_cases hinsert with
    ⟨rfl, i, hi, rfl⟩ | ⟨rfl, -, low, newLow, hlock, rfl⟩ | ⟨rfl, rfl⟩
  · have hdata : (s.state.cache.takeFree i).data = s.state.cache.data := rfl
    refine ⟨h.of_data (fun j => ?_) fun _ hk => hk, keepsUsed_of_data fun u hu hcaller => ?_⟩
    · rw [Cache.insertAt_data, hdata]
      by_cases hj : j = i <;> simp [hj]
    · have hother : u.2 ≠ i := by
        intro heq
        exact hcaller (congrArg some (hright i hi u hu heq).symm)
      simp [Cache.insertAt_data, hdata, hother]
  · refine ⟨h.of_data (fun j => ?_) fun _ hk => hk, keepsUsed_of_data fun u hu _ => ?_⟩
    · rw [Cache.insertAt_data, Cache.evictLowest_data]
      by_cases hj : j = low
      · simp [hj, hlock]
      · simp [hj]
    · simp [Cache.insertAt_data, Cache.evictLowest_data, h.unused hlock u hu]
  · exact ⟨h, fun _ _ _ => rfl⟩

theorem Counted.inotify (h : s.Counted) {watch : ℤ} {clientIdx : ℕ}
    (hstep : useStep s (.inotify watch, clientIdx) = some (t, o)) :
    t.Counted ∧ s.KeepsUsed t none := by
  obtain ⟨rfl, -⟩ : (⟨⟨s.state.cache.inotifyEventHandler watch, s.state.clients⟩, s.uses⟩ : UsedCache N) = t ∧
      _ := by simpa [useStep, cacheStep, recordUse] using hstep
  have hdata : ∀ j, ((s.state.cache.inotifyEventHandler watch).data j).lockNumber =
      (s.state.cache.data j).lockNumber ∧ ((s.state.cache.inotifyEventHandler watch).data j).buffer =
      (s.state.cache.data j).buffer := by
    intro j
    unfold Cache.inotifyEventHandler
    split
    · rename_i i _
      by_cases hj : j = i <;> simp [Cache.modifyItem, Cache.data, CacheItem.data, hj]
    · exact ⟨rfl, rfl⟩
  exact ⟨h.of_data (fun j => (hdata j).1) fun _ hk => hk, keepsUsed_of_data fun u _ _ => (hdata u.2).2⟩

theorem Counted.finished (h : s.Counted) {clientIdx k : ℕ} (hright : s.LocksRight (.finished clientIdx, k))
    (hstep : useStep s (.finished clientIdx, k) = some (t, o)) :
    t.Counted ∧ s.KeepsUsed t (some clientIdx) := by
  obtain ⟨⟨s', o'⟩, hcache, heq⟩ := Option.map_eq_some_iff.mp hstep
  obtain ⟨rfl, rfl⟩ : _ = t ∧ o' = o := by simpa using heq
  obtain ⟨⟨c', client'⟩, hfinished, heq⟩ := Option.map_eq_some_iff.mp hcache
  obtain ⟨rfl, rfl⟩ : _ = s' ∧ .done = o' := by simpa using heq
  have hmarked : ∀ u ∈ s.uses.filter (fun u => u.1 ≠ clientIdx),
      (Function.update s.state.clients clientIdx client' u.1).usingFile = true := by
    intro u hu
    obtain ⟨hu, hother⟩ := List.mem_filter.mp hu
    rw [Function.update_of_ne (by simpa using hother)]
    exact h.marked u hu
  -- the uses are those of the client and those that are left
  have hsplit : ∀ j, s.uses.countP (fun u => u.2 = j) =
      (s.uses.filter fun u => u.1 = clientIdx).countP (fun u => u.2 = j) +
        (s.uses.filter fun u => u.1 ≠ clientIdx).countP fun u => u.2 = j := by
    intro j
    have := List.countP_eq_countP_filter_add s.uses (fun u => u.2 = j) fun u => u.1 = clientIdx
    simpa using this
  rcases Cache.finishedWithItem_cases hfinished with
    ⟨husing, rfl, rfl⟩ | ⟨husing, rfl, i, hi, -, -, hdata⟩
  · have hnone : s.uses.filter (fun u => u.1 = clientIdx) = [] := by
      refine List.filter_eq_nil_iff.mpr fun u hu heq => ?_
      have := h.marked u hu
      simp [of_decide_eq_true heq, husing] at this
    refine ⟨⟨fun j => ?_, hmarked⟩, fun u _ _ => rfl⟩
    have hlocks := h.locks j
    rw [hsplit, hnone] at hlocks
    show (s.state.cache.data j).lockNumber = ((s.uses.filter fun u => u.1 ≠ clientIdx).countP _ : ℕ)
    simpa using hlocks
  · obtain ⟨i', hidx, hone⟩ := hright husing
    obtain rfl : i' = i := by simpa [Cache.cacheIdxOf, hidx] using hi
    refine ⟨⟨fun j => ?_, hmarked⟩, keepsUsed_of_data fun u _ _ => ?_⟩
    · have hlocks := h.locks j
      rw [hsplit, hone] at hlocks
      show (c'.data j).lockNumber = ((s.uses.filter fun u => u.1 ≠ clientIdx).countP _ : ℕ)
      rw [hdata]
      by_cases hj : j = i'
      · subst hj
        simp only [List.countP_singleton, decide_true, if_true, Int.natCast_add, Int.natCast_one] at hlocks
        simp only [Function.update_self]
        omega
      · simpa [hj, Ne.symm hj] using hlocks
    · show (c'.data u.2).buffer = _
      by_cases hj : u.2 = i' <;> simp [hdata, hj]

/-- One call. -/
theorem counted_step (h : s.Counted) {call : CacheOp × ℕ} (hright : s.LocksRight call)
    (hstep : useStep s call = some (t, o)) : t.Counted ∧ s.KeepsUsed t (call.1.caller call.2) := by
  obtain ⟨op, clientIdx⟩ := call
  cases op with
  | fetch filepath k => exact h.fetch hright hstep
  | tryInsert filepath buff first wd => exact h.tryInsert hright hstep
  | inotify watch => exact h.inotify hstep
  | finished k => exact h.finished hright hstep

end UsedCache

open UsedCache

/-- **Locks count the uses.** After any sequence of calls in which locks are taken and given up rightly,
every slot is locked once for each of its outstanding uses: never less than zero times, and not at all
once nobody uses it. The next such call leaves the buffers alone that other clients use. -/
theorem locks_count_uses (calls : List (CacheOp × ℕ))
    (hcalls : Runs.Along useStep LocksRight ({} : UsedCache N) calls) (s : UsedCache N)
    (results : List (CacheResult N)) (hrun : Runs.exec useStep {} calls = some (s, results)) :
    (∀ i, (s.state.cache.cacheBuffer i).lockNumber = s.uses.countP fun u => u.2 = i) ∧
      (∀ i, 0 ≤ (s.state.cache.cacheBuffer i).lockNumber) ∧
      (∀ i, (∀ u ∈ s.uses, u.2 ≠ i) → (s.state.cache.cacheBuffer i).lockNumber = 0) ∧
      ∀ call t o, s.LocksRight call → useStep s call = some (t, o) →
        s.KeepsUsed t (call.1.caller call.2) := by
  have hcounted : s.Counted := Runs.exec_invariant
    (fun s call t o h hright hstep => (counted_step h hright hstep).1) counted_empty hcalls hrun
  have hlocks : ∀ i, (s.state.cache.cacheBuffer i).lockNumber = s.uses.countP fun u => u.2 = i :=
    hcounted.locks
  refine ⟨hlocks, fun i => ?_, fun i hnone => ?_, fun call t o hright hstep => ?_⟩
  · rw [hlocks]
    exact Int.natCast_nonneg _
  · rw [hlocks, Int.natCast_eq_zero, List.countP_eq_zero]
    simpa using hnone
  · exact (counted_step hcounted hright hstep).2

/-- Two clients fetch a file and one of them is finished. -/
def sharedCalls : List (CacheOp × ℕ) :=
  [(.tryInsert [112] [1] 0 7, 0), (.fetch [112] 0, 0), (.fetch [112] 1, 1), (.finished 0, 0)]

theorem locks_count_uses_shared :
    Runs.Along useStep LocksRight ({} : UsedCache 2) sharedCalls ∧
      ∃ s results, Runs.exec useStep ({} : UsedCache 2) sharedCalls = some (s, results) ∧
        s.uses = [(1, 0)] ∧ (s.state.cache.cacheBuffer 0).lockNumber = 1 ∧
        ∀ t o, useStep s (.tryInsert [113] [2] 1 8, 0) = some (t, o) →
          (t.state.cache.cacheBuffer 0).buffer = (s.state.cache.cacheBuffer 0).buffer := by
  have hcalls : Runs.Along useStep LocksRight ({} : UsedCache 2) sharedCalls := by decide
  have hsome : (Runs.exec useStep ({} : UsedCache 2) sharedCalls).any (fun r =>
      r.1.uses = [(1, 0)] ∧ r.1.LocksRight (.tryInsert [113] [2] 1 8, 0)) = true := by decide
  simp only [Option.any_eq_true, decide_eq_true_eq] at hsome
  obtain ⟨⟨s, results⟩, hrun, huses, hright⟩ := hsome
  obtain ⟨hlocks, -, -, hkept⟩ := locks_count_uses sharedCalls hcalls s results hrun
  refine ⟨hcalls, s, results, hrun, huses, ?_, fun t o hstep => ?_⟩
  · rw [hlocks, huses]
    rfl
  · have hmem : (1, 0) ∈ s.uses := by
      rw [huses]
      exact List.mem_singleton_self _
    exact hkept _ t o hright hstep _ hmem (by decide)

/-- A client fetches a file twice and is finished once: nobody uses the file any more, and it stays
locked. -/
theorem locks_leaked :
    ∃ s results, Runs.exec useStep ({} : UsedCache 2) [(.tryInsert [112] [1] 0 7, 0), (.fetch [112] 0, 0),
        (.fetch [112] 0, 0), (.finished 0, 0)] = some (s, results) ∧
      s.uses = [] ∧ (s.state.cache.cacheBuffer 0).lockNumber = 1 ∧
      ¬∀ i, (s.state.cache.cacheBuffer i).lockNumber = s.uses.countP fun u => u.2 = i := by
  have hsome : (Runs.exec useStep ({} : UsedCache 2) [(.tryInsert [112] [1] 0 7, 0), (.fetch [112] 0, 0),
      (.fetch [112] 0, 0), (.finished 0, 0)]).any (fun r =>
      r.1.uses = [] ∧ (r.1.state.cache.cacheBuffer 0).lockNumber = 1) = true := by decide
  simp only [Option.any_eq_true, decide_eq_true_eq] at hsome
  obtain ⟨⟨s, results⟩, hrun, huses, hlock⟩ := hsome
  change s.uses = [] at huses
  change (s.state.cache.cacheBuffer 0).lockNumber = 1 at hlock
  refine ⟨s, results, hrun, huses, hlock, fun h => ?_⟩
  have hzero := h 0
  rw [huses, hlock] at hzero
  exact absurd hzero (by decide)

end LiburingServer
