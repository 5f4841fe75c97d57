import LiburingServer.CacheHistory
import LiburingServer.CacheLocks

/-! What the cache holds for a path, the list of the slots damaged or not. Watches lead to the slots that they
were added for, so that a slot that is taken for a new item is not marked as outdated, and the item is found.
The item for one path that is never reported as modified stays what was inserted for it, whatever happens to
the others. -/

namespace LiburingServer

variable {N : ℕ}

namespace Cache

/-- The item for `filepath`, if there is one, is up to date and its buffer has the property `good`; free slots are
not marked as outdated, and watches lead to the slots that they were added for. -/
structure Holds (filepath : Bytes) (good : Bytes → Prop) (c : Cache N) : Prop where
  item : ∀ i, c.filepathToCacheIdx filepath = some i →
    c.cacheIdxToFilepath i = some filepath ∧ i ∉ c.freeIdxs ∧ (c.data i).outdated = false ∧ good (c.data i).buffer
  watched : ∀ w i, c.watchToCacheIdx w = some i → (c.data i).watch = w ∧ i ∉ c.freeIdxs
  fresh : ∀ i ∈ c.freeIdxs, (c.data i).outdated = false

/-- Free slots are not marked as outdated, and watches lead to the slots that they were added for. -/
structure Tracked (c : Cache N) : Prop where
  watched : ∀ w i, c.watchToCacheIdx w = some i → (c.data i).watch = w ∧ i ∉ c.freeIdxs
  fresh : ∀ i ∈ c.freeIdxs, (c.data i).outdated = false

variable {filepath : Bytes} {good : Bytes → Prop} {c c' : Cache N} {clientIdx : ℕ} {client client' : TcpClient}

namespace Tracked

theorem empty : Tracked ({} : Cache N) := by
  refine ⟨fun w i h => ?_, fun i _ => rfl⟩
  simp at h

/-- Locks and the order of the list do not matter. -/
theorem congr (h : c.Tracked) (hmaps : SameMaps c c') (hdata : ∀ i, SameTrace (c'.data i) (c.data i)) :
    c'.Tracked := by
  refine ⟨fun w i hw => ?_, fun i hi => ?_⟩
  · rw [hmaps.watches] at hw
    rw [hmaps.free, (hdata i).2.1]
    exact h.watched w i hw
  · rw [hmaps.free] at hi
    rw [(hdata i).2.2]
    exact h.fresh i hi

/-- A slot that is freed loses its watch and its mark. -/
theorem fetchItem (h : c.Tracked) {q : Bytes} {item : CacheFetchItem N}
    (hfetch : c.fetchItem q clientIdx client = some (c', client', item)) : c'.Tracked := by
  rcases fetchItem_cases hfetch with ⟨-, rfl, -⟩ |
    ⟨j, -, -, -, ⟨-, -, hmaps, hdata⟩ | ⟨-, -, hdata, hfree, hwatches⟩⟩
  · exact h
  · refine h.congr hmaps fun i => ?_
    by_cases hij : i = j <;> simp [hdata, SameTrace, hij]
  · refine ⟨fun w i hw => ?_, fun i hi => ?_⟩
    · rw [hwatches] at hw
      have hne : w ≠ (c.data j).watch := by
        rintro rfl
        simp at hw
      rw [Function.update_of_ne hne] at hw
      obtain ⟨hwatch, hused⟩ := h.watched w i hw
      have hij : i ≠ j := by
        rintro rfl
        exact hne hwatch.symm
      rw [hfree, hdata, Function.update_of_ne hij]
      exact ⟨hwatch, by simp [hij, hused]⟩
    · rw [hdata]
      by_cases hij : i = j
      · simp [hij]
      · rw [Function.update_of_ne hij]
        rw [hfree] at hi
        exact h.fresh i (Finset.mem_of_mem_insert_of_ne hi hij)

theorem finishedWithItem (h : c.Tracked) (hdone : c.finishedWithItem clientIdx client = some (c', client')) :
    c'.Tracked := by
  rcases finishedWithItem_cases hdone with ⟨-, rfl, -⟩ | ⟨-, -, j, -, hmaps, -, -⟩
  · exact h
  · exact h.congr hmaps (finishedWithItem_data hdone)

/-- An event marks a slot that is not free. -/
theorem inotifyEventHandler (h : c.Tracked) (watch : ℤ) : (c.inotifyEventHandler watch).Tracked := by
  cases hslot : c.watchToCacheIdx watch with
  | none =>
      have hsame : c.inotifyEventHandler watch = c := by simp [Cache.inotifyEventHandler, hslot]
      rw [hsame]
      exact h
  | some k =>
      have hdata := inotifyEventHandler_data c hslot
      obtain ⟨-, hmaps⟩ := c.inotifyEventHandler_frame watch
      refine ⟨fun w i hw => ?_, fun i hi => ?_⟩
      · rw [hmaps.watches] at hw
        rw [hmaps.free, hdata]
        by_cases hik : i = k
        · subst hik
          simpa using h.watched w i hw
        · simpa [hik] using h.watched w i hw
      · rw [hmaps.free] at hi
        have hik : i ≠ k := by
          rintro rfl
          exact (h.watched watch i hslot).2 hi
        rw [hdata, Function.update_of_ne hik]
        exact h.fresh i hi

theorem takeFree (h : c.Tracked) (i : Fin N) : (c.takeFree i).Tracked where
  watched w j hw := ⟨(h.watched w j hw).1, fun hmem => (h.watched w j hw).2 (Finset.mem_of_mem_erase hmem)⟩
  fresh j hj := h.fresh j (Finset.mem_of_mem_erase hj)

/-- Insertion into a slot that no watch leads to. -/
theorem insertAt (h : c.Tracked) {i : Fin N} (hwatch : ∀ w, c.watchToCacheIdx w ≠ some i) (hfree : i ∉ c.freeIdxs)
    (q buff : Bytes) (wd : ℤ) : (c.insertAt i q buff wd).Tracked := by
  refine ⟨fun w j hw => ?_, fun j hj => ?_⟩
  · rw [insertAt_watchToCacheIdx] at hw
    rw [insertAt_freeIdxs, insertAt_data]
    by_cases hwd : w = wd
    · subst hwd
      obtain rfl : i = j := by simpa using hw
      simp [hfree]
    · rw [Function.update_of_ne hwd] at hw
      have hji : j ≠ i := by
        rintro rfl
        exact hwatch w hw
      rw [Function.update_of_ne hji]
      exact h.watched w j hw
  · rw [insertAt_freeIdxs] at hj
    have hji : j ≠ i := by
      rintro rfl
      exact hfree hj
    rw [insertAt_data, Function.update_of_ne hji]
    exact h.fresh j hj

/-- After the eviction of a slot no watch leads to it. -/
theorem evictLowest (h : c.Tracked) (low newLow : Fin N) (hfree : c.freeIdxs = ∅) :
    (c.evictLowest low newLow).Tracked ∧ ∀ w, (c.evictLowest low newLow).watchToCacheIdx w ≠ some low := by
  have hwatch : ∀ w i, (c.evictLowest low newLow).watchToCacheIdx w = some i →
      c.watchToCacheIdx w = some i ∧ i ≠ low := by
    intro w i hw
    rw [evictLowest_watchToCacheIdx] at hw
    have hne : w ≠ (c.data low).watch := by
      rintro rfl
      simp at hw
    rw [Function.update_of_ne hne] at hw
    refine ⟨hw, ?_⟩
    rintro rfl
    exact hne (h.watched w i hw).1.symm
  refine ⟨⟨fun w i hw => ?_, fun i hi => ?_⟩, fun w hw => (hwatch w low hw).2 rfl⟩
  · obtain ⟨hold, hne⟩ := hwatch w i hw
    rw [evictLowest_data, Function.update_of_ne hne]
    exact h.watched w i hold
  · have hnone : i ∈ c.freeIdxs := hi
    simp [hfree] at hnone

theorem tryInsertItem (h : c.Tracked) {q buff : Bytes} {first : ℕ} {wd : ℤ} {done : Bool}
    (hinsert : c.tryInsertItem q buff first wd = some (c', done)) : c'.Tracked := by
  rcases tryInsertItem_cases hinsert with ⟨-, i, hi, rfl⟩ | ⟨-, hfree, low, newLow, -, rfl⟩ | ⟨-, rfl⟩
  · refine (h.takeFree i).insertAt (fun w hw => (h.watched w i hw).2 (cbegin_mem i hi)) ?_ q buff wd
    simp [Cache.takeFree]
  · obtain ⟨hevicted, hwatch⟩ := h.evictLowest low newLow hfree
    refine hevicted.insertAt hwatch ?_ q buff wd
    simp [Cache.evictLowest, modifyItem, hfree]
  · exact h

/-- What was inserted is found up to date. -/
theorem inserted (h : c.Tracked) {q buff : Bytes} {first : ℕ} {wd : ℤ}
    (hinsert : c.tryInsertItem q buff first wd = some (c', true)) :
    ∃ i, c'.filepathToCacheIdx q = some i ∧ (c'.data i).outdated = false ∧ (c'.data i).buffer = buff := by
  rcases tryInsertItem_cases hinsert with ⟨-, i, hi, rfl⟩ | ⟨-, -, low, newLow, -, rfl⟩ | ⟨hnone, -⟩
  · have hout : ((c.takeFree i).data i).outdated = false := h.fresh i (cbegin_mem i hi)
    exact ⟨i, by simp [insertAt_filepathToCacheIdx], by simpa [insertAt_data] using hout, by simp [insertAt_data]⟩
  · exact ⟨low, by simp [insertAt_filepathToCacheIdx], by simp [insertAt_data, evictLowest_data],
      by simp [insertAt_data]⟩
  · cases hnone

end Tracked

/-! ### One path -/

theorem holds_empty : Holds filepath good ({} : Cache N) :=
  ⟨fun i h => by simp at h, Tracked.empty.watched, Tracked.empty.fresh⟩

/-- A fetch leaves the paths and the names of the slots alone. -/
theorem fetchItem_paths {q : Bytes} {item : CacheFetchItem N}
    (h : c.fetchItem q clientIdx client = some (c', client', item)) :
    c'.filepathToCacheIdx = c.filepathToCacheIdx ∧ c'.cacheIdxToFilepath = c.cacheIdxToFilepath := by
  unfold fetchItem at h
  split at h
  · obtain ⟨rfl, -⟩ : c = c' ∧ _ := by simpa using h
    exact ⟨rfl, rfl⟩
  · rename_i i _
    have hdetach : ∀ n, ((c.lockItem i clientIdx).detachItem i n).filepathToCacheIdx = c.filepathToCacheIdx ∧
        ((c.lockItem i clientIdx).detachItem i n).cacheIdxToFilepath = c.cacheIdxToFilepath := by
      intro n
      obtain ⟨hmaps, -⟩ := (c.lockItem i clientIdx).detachItem_maps i n
      exact ⟨hmaps.filepath, hmaps.names⟩
    dsimp only at h
    split at h
    · split_ifs at h
      · obtain ⟨rfl, -⟩ : _ = c' ∧ _ := by simpa using h
        split
        · exact ⟨rfl, rfl⟩
        · exact ⟨rfl, rfl⟩
      · obtain ⟨rfl, -⟩ : _ = c' ∧ _ := by simpa using h
        exact ⟨rfl, rfl⟩
    · split_ifs at h
      · obtain ⟨rfl, -⟩ : _ = c' ∧ _ := by simpa using h
        exact hdetach _
      · split at h
        · cases h
        · obtain ⟨rfl, -⟩ : _ = c' ∧ _ := by simpa using h
          exact hdetach _

namespace Holds

theorem tracked (h : c.Holds filepath good) : c.Tracked := ⟨h.watched, h.fresh⟩

/-- Locks and the order of the list do not matter. -/
theorem congr (h : c.Holds filepath good) (hmaps : SameMaps c c') (hdata : ∀ i, SameTrace (c'.data i) (c.data i)) :
    c'.Holds filepath good := by
  have htracked := h.tracked.congr hmaps hdata
  refine ⟨fun i hi => ?_, htracked.watched, htracked.fresh⟩
  rw [hmaps.filepath] at hi
  rw [hmaps.names, hmaps.free, (hdata i).1, (hdata i).2.2]
  exact h.item i hi

/-- An item that is found outdated is not the one for `filepath`, whatever path it was fetched by. -/
theorem fetchItem (h : c.Holds filepath good) {q : Bytes} {item : CacheFetchItem N}
    (hfetch : c.fetchItem q clientIdx client = some (c', client', item)) : c'.Holds filepath good := by
  have htracked := h.tracked.fetchItem hfetch
  obtain ⟨hpaths, hnames⟩ := fetchItem_paths hfetch
  rcases fetchItem_cases hfetch with ⟨-, rfl, -⟩ |
    ⟨j, -, -, -, ⟨-, -, hmaps, hdata⟩ | ⟨hout, -, hdata, hfree, -⟩⟩
  · exact h
  · refine h.congr hmaps fun i => ?_
    by_cases hij : i = j <;> simp [hdata, SameTrace, hij]
  · refine ⟨fun i hi => ?_, htracked.watched, htracked.fresh⟩
    rw [hpaths] at hi
    obtain ⟨hname, hused, hfresh, hgood⟩ := h.item i hi
    have hij : i ≠ j := by
      rintro rfl
      simp [hfresh] at hout
    rw [hnames, hfree, hdata, Function.update_of_ne hij]
    exact ⟨hname, by simp [hij, hused], hfresh, hgood⟩

theorem finishedWithItem (h : c.Holds filepath good)
    (hdone : c.finishedWithItem clientIdx client = some (c', client')) : c'.Holds filepath good := by
  rcases finishedWithItem_cases hdone with ⟨-, rfl, -⟩ | ⟨-, -, j, -, hmaps, -, -⟩
  · exact h
  · exact h.congr hmaps (finishedWithItem_data hdone)

/-- An event that does not lead to the item for `filepath`. -/
theorem inotifyEventHandler (h : c.Holds filepath good) {watch : ℤ}
    (hwatch : ∀ i, c.filepathToCacheIdx filepath = some i → c.watchToCacheIdx watch ≠ some i) :
    (c.inotifyEventHandler watch).Holds filepath good := by
  have htracked := h.tracked.inotifyEventHandler watch
  refine ⟨fun i hi => ?_, htracked.watched, htracked.fresh⟩
  cases hslot : c.watchToCacheIdx watch with
  | none =>
      have hsame : c.inotifyEventHandler watch = c := by simp [Cache.inotifyEventHandler, hslot]
      rw [hsame] at hi ⊢
      exact h.item i hi
  | some k =>
      obtain ⟨-, hmaps⟩ := c.inotifyEventHandler_frame watch
      rw [hmaps.filepath] at hi
      have hik : i ≠ k := by
        rintro rfl
        exact hwatch i hi hslot
      rw [hmaps.names, hmaps.free, inotifyEventHandler_data c hslot, Function.update_of_ne hik]
      exact h.item i hi

theorem takeFree (h : c.Holds filepath good) (i : Fin N) : (c.takeFree i).Holds filepath good := by
  have htracked := h.tracked.takeFree i
  refine ⟨fun j hj => ?_, htracked.watched, htracked.fresh⟩
  obtain ⟨hname, hused, hrest⟩ := h.item j hj
  exact ⟨hname, fun hmem => hused (Finset.mem_of_mem_erase hmem), hrest⟩

/-- Insertion into a slot that nothing leads to. -/
theorem insertAt (h : c.Holds filepath good) {i : Fin N} {q buff : Bytes} {wd : ℤ} (hgood : q = filepath → good buff)
    (hpath : c.filepathToCacheIdx filepath ≠ some i) (hwatch : ∀ w, c.watchToCacheIdx w ≠ some i)
    (hfree : i ∉ c.freeIdxs) (hout : (c.data i).outdated = false) : (c.insertAt i q buff wd).Holds filepath good := by
  have htracked := h.tracked.insertAt hwatch hfree q buff wd
  refine ⟨fun j hj => ?_, htracked.watched, htracked.fresh⟩
  rw [insertAt_filepathToCacheIdx] at hj
  rw [insertAt_cacheIdxToFilepath, insertAt_freeIdxs, insertAt_data]
  by_cases hq : q = filepath
  · subst hq
    obtain rfl : i = j := by simpa using hj
    simp [hfree, hout, hgood]
  · rw [Function.update_of_ne (Ne.symm hq)] at hj
    have hji : j ≠ i := by
      rintro rfl
      exact hpath hj
    rw [Function.update_of_ne hji, Function.update_of_ne hji]
    exact h.item j hj

/-- After the eviction of a slot nothing leads to it: a path that did has its name. -/
theorem evictLowest (h : c.Holds filepath good) (low newLow : Fin N) (hfree : c.freeIdxs = ∅) :
    (c.evictLowest low newLow).Holds filepath good ∧
      (c.evictLowest low newLow).filepathToCacheIdx filepath ≠ some low ∧
      ∀ w, (c.evictLowest low newLow).watchToCacheIdx w ≠ some low := by
  obtain ⟨htracked, hwatch⟩ := h.tracked.evictLowest low newLow hfree
  have hpath : ∀ i, (c.evictLowest low newLow).filepathToCacheIdx filepath = some i →
      c.filepathToCacheIdx filepath = some i ∧ i ≠ low := by
    intro i hi
    have hupdate : Function.update c.filepathToCacheIdx ((c.cacheIdxToFilepath low).getD []) none filepath =
      some i := hi
    have hne : filepath ≠ (c.cacheIdxToFilepath low).getD [] := by
      intro heq
      rw [heq] at hupdate
      simp at hupdate
    rw [Function.update_of_ne hne] at hupdate
    refine ⟨hupdate, ?_⟩
    rintro rfl
    exact hne (by simp [(h.item i hupdate).1])
  refine ⟨⟨fun i hi => ?_, htracked.watched, htracked.fresh⟩, fun hi => (hpath low hi).2 rfl, hwatch⟩
  obtain ⟨hold, hne⟩ := hpath i hi
  have hname : (c.evictLowest low newLow).cacheIdxToFilepath i = c.cacheIdxToFilepath i :=
    Function.update_of_ne hne _ _
  rw [hname, evictLowest_data, Function.update_of_ne hne]
  exact h.item i hold

/-- What is inserted for `filepath` has the property; what is inserted for other paths does not matter. -/
theorem tryInsertItem (h : c.Holds filepath good) {q buff : Bytes} {first : ℕ} {wd : ℤ} {done : Bool}
    (hgood : q = filepath → good buff) (hinsert : c.tryInsertItem q buff first wd = some (c', done)) :
    c'.Holds filepath good := by
  rcases tryInsertItem_cases hinsert with ⟨-, i, hi, rfl⟩ | ⟨-, hfree, low, newLow, -, rfl⟩ | ⟨-, rfl⟩
  · have hfree : i ∈ c.freeIdxs := cbegin_mem i hi
    refine (h.takeFree i).insertAt hgood (fun hpath => (h.item i hpath).2.1 hfree)
      (fun w hw => (h.watched w i hw).2 hfree) ?_ (h.fresh i hfree)
    simp [Cache.takeFree]
  · obtain ⟨hevicted, hpath, hwatch⟩ := h.evictLowest low newLow hfree
    refine hevicted.insertAt hgood hpath hwatch ?_ ?_
    · simp [Cache.evictLowest, modifyItem, hfree]
    · simp [evictLowest_data]
  · exact h

/-- A hit returns the buffer of the item, which has the property. -/
theorem hit (h : c.Holds filepath good) {item : CacheFetchItem N}
    (hfetch : c.fetchItem filepath clientIdx client = some (c', client', item)) (hfound : item.found = true) :
    ∃ i, item = c'.foundItem i ∧ good (c'.data i).buffer := by
  rcases fetchItem_cases hfetch with ⟨-, -, -, rfl⟩ | ⟨i, hi, -, -, ⟨-, rfl, -, hdata⟩ | ⟨-, rfl, -⟩⟩
  · simp at hfound
  · refine ⟨i, rfl, ?_⟩
    rw [hdata, Function.update_self]
    exact (h.item i hi).2.2.2
  · simp at hfound

end Holds

/-! ### The item that was inserted last -/

/-- What is inserted goes to the high end of the list. -/
theorem tryInsertItem_next {q buff : Bytes} {first : ℕ} {wd : ℤ} {i : Fin N}
    (hinsert : c.tryInsertItem q buff first wd = some (c', true)) (hpath : c'.filepathToCacheIdx q = some i) :
    (c'.cacheBuffer i).nextItemIdx = none := by
  have hat : ∀ (d : Cache N) j, (d.insertAt j q buff wd).filepathToCacheIdx q = some i →
      ((d.insertAt j q buff wd).cacheBuffer i).nextItemIdx = none := by
    intro d j hj
    obtain rfl : j = i := by simpa [insertAt_filepathToCacheIdx] using hj
    simp [Cache.insertAt, modifyItem]
  rcases tryInsertItem_cases hinsert with ⟨-, j, -, rfl⟩ | ⟨-, -, low, newLow, -, rfl⟩ | ⟨hnone, -⟩
  · exact hat _ j hpath
  · exact hat _ low hpath
  · cases hnone

/-- A hit on an item that is up to date and has no next one changes no links. -/
theorem fetchItem_highest {i : Fin N} (hpath : c.filepathToCacheIdx filepath = some i)
    (hnext : (c.cacheBuffer i).nextItemIdx = none) (hout : (c.data i).outdated = false) (clientIdx : ℕ)
    (client : TcpClient) :
    c.fetchItem filepath clientIdx client = some (c.lockItem i clientIdx, { client with usingFile := true },
      (c.lockItem i clientIdx).foundItem i) := by
  have hitem : ((c.lockItem i clientIdx).cacheBuffer i).nextItemIdx = none ∧
      ((c.lockItem i clientIdx).cacheBuffer i).outdated = false := by
    have hout' : (c.cacheBuffer i).outdated = false := hout
    simp [lockItem, modifyItem, hnext, hout']
  simp [Cache.fetchItem, hpath, hitem.1, hitem.2]

end Cache

theorem cacheStep_tracked {s s' : CacheState N} {op : CacheOp} {r : CacheResult N} (h : s.cache.Tracked)
    (hstep : cacheStep s op = some (s', r)) : s'.cache.Tracked := by
  cases op with
  | fetch filepath clientIdx =>
      simp only [cacheStep, Option.map_eq_some_iff, Prod.mk.injEq] at hstep
      obtain ⟨⟨c', client', item⟩, hfetch, rfl, -⟩ := hstep
      exact h.fetchItem hfetch
  | tryInsert filepath buff first wd =>
      simp only [cacheStep, Option.map_eq_some_iff, Prod.mk.injEq] at hstep
      obtain ⟨⟨c', done⟩, hinsert, rfl, -⟩ := hstep
      exact h.tryInsertItem hinsert
  | inotify watch =>
      obtain ⟨rfl, -⟩ := by simpa [cacheStep] using hstep
      exact h.inotifyEventHandler watch
  | finished clientIdx =>
      simp only [cacheStep, Option.map_eq_some_iff, Prod.mk.injEq] at hstep
      obtain ⟨⟨c', client'⟩, hdone, rfl, -⟩ := hstep
      exact h.finishedWithItem hdone

/-- **What was inserted is found.** In every state that a sequence of calls leads to, none of which indexes
`cache_buffer` out of range, the list of the slots damaged or not: when an insertion succeeds, the fetch of
its path right after it, for any client, is defined and is a hit with exactly the bytes inserted. -/
theorem inserted_item_found (ops : List CacheOp) (s : CacheState N) (results : List (CacheResult N))
    (hrun : cacheRun N ops = some (s, results)) (filepath buff : Bytes) (first : ℕ) (wd : ℤ) (c' : Cache N)
    (hinsert : s.cache.tryInsertItem filepath buff first wd = some (c', true)) (clientIdx : ℕ)
    (client : TcpClient) :
    ∃ c'' client' item, c'.fetchItem filepath clientIdx client = some (c'', client', item) ∧
      item.found = true ∧ item.size = buff.length ∧ item.bytes = buff := by
  have htracked : s.cache.Tracked := Runs.exec_invariant (Q := fun s : CacheState N => s.cache.Tracked)
    (P := fun _ _ => True) (fun s op s' r h _ hstep => cacheStep_tracked h hstep) Cache.Tracked.empty
    (Runs.along_of_forall fun _ _ => trivial) hrun
  obtain ⟨i, hpath, hout, hbuff⟩ := htracked.inserted hinsert
  have hnext := Cache.tryInsertItem_next hinsert hpath
  have hlocked : ((c'.lockItem i clientIdx).cacheBuffer i).buffer = buff := by
    have hbuff' : (c'.cacheBuffer i).buffer = buff := hbuff
    simp [Cache.lockItem, Cache.modifyItem, hbuff']
  refine ⟨_, _, _, Cache.fetchItem_highest hpath hnext hout clientIdx client, rfl, ?_, hlocked⟩
  show ((c'.lockItem i clientIdx).cacheBuffer i).buffer.length = buff.length
  rw [hlocked]

/-- An item is reported as modified and found to be so; its slot, which is free then, is used again while its
path still leads there. -/
theorem inserted_item_found_again :
    ∃ c' c'' client' item, ((cacheRun 2 [.tryInsert [97] [1, 2] 0 5, .inotify 5, .fetch [97] 3,
        .finished 3]).bind fun r => r.1.cache.tryInsertItem [98] [3] 0 6) = some (c', true) ∧
      c'.fetchItem [98] 4 {} = some (c'', client', item) ∧ item.found = true ∧ item.bytes = [3] := by
  have hsome : ((cacheRun 2 [.tryInsert [97] [1, 2] 0 5, .inotify 5, .fetch [97] 3, .finished 3]).bind fun r =>
      r.1.cache.tryInsertItem [98] [3] 0 6).any (fun r => r.2 = true) = true := by
    decide +kernel
  simp only [Option.any_eq_true, decide_eq_true_eq] at hsome
  obtain ⟨⟨c', done⟩, hbind, rfl⟩ := hsome
  obtain ⟨⟨s, results⟩, hrun, hinsert⟩ := Option.bind_eq_some_iff.mp hbind
  obtain ⟨c'', client', item, hfetch, hfound, -, hbytes⟩ :=
    inserted_item_found _ s results hrun [98] [3] 0 6 c' hinsert 4 {}
  exact ⟨c', c'', client', item, hbind, hfetch, hfound, hbytes⟩

end LiburingServer
