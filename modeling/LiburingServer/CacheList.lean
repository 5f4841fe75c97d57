import LiburingServer.Cache
import Mathlib.Data.Fintype.Card

/-! The recency list of the cache. Every operation is described by what it does to four views of the
state: the links of the list, the contents of the slots, the two path maps and the free slots. From
these the structural invariant of the cache follows, together with the exact condition under which
a call keeps it. -/

namespace LiburingServer

open IndexList

/-- What an item holds besides its links. -/
structure ItemData where
  buffer : Bytes := []
  lockNumber : ℤ := 0
  outdated : Bool := false
  watch : ℤ := 0
  deriving DecidableEq

def CacheItem.data {N : ℕ} (item : CacheItem N) : ItemData :=
  ⟨item.buffer, item.lockNumber, item.outdated, item.watch⟩

namespace Cache

variable {N : ℕ} (c : Cache N) (i n low newLow : Fin N) (filepath buff : Bytes) (wd : ℤ)

/-- The contents of a slot, without its links. -/
def data : ItemData := (c.cacheBuffer i).data

/-- Overwriting a slot with an item of the same contents changes no contents. -/
theorem data_of_update {c c' : Cache N} {i : Fin N} {item : CacheItem N}
    (hbuffer : c'.cacheBuffer = Function.update c.cacheBuffer i item) (hitem : item.data = c.data i) :
    c'.data = c.data := by
  funext j
  by_cases hj : j = i
  · subst hj
    simp [data, hbuffer, hitem]
  · simp [data, hbuffer, hj]

theorem cbegin_eq_none_iff (idxs : Finset (Fin N)) (first : ℕ) : cbegin idxs first = none ↔ idxs = ∅ := by
  unfold cbegin
  split
  · rename_i j hj
    have hmem : j ∈ idxs := by
      have := List.find?_some hj
      simp only [decide_eq_true_eq] at this
      exact this.2
    simp [Finset.ne_empty_of_mem hmem]
  · simp [Finset.eq_empty_iff_forall_notMem]

theorem cbegin_mem {idxs : Finset (Fin N)} {first : ℕ} (h : cbegin idxs first = some i) : i ∈ idxs := by
  unfold cbegin at h
  split at h
  · rename_i j hj
    have := List.find?_some hj
    simp only [decide_eq_true_eq] at this
    obtain rfl : j = i := by simpa using h
    exact this.2
  · simpa using List.find?_some h

/-! ### Locks and promotions -/

section Fetch

variable (clientIdx : ℕ)

@[simp] theorem lockItem_links : (c.lockItem i clientIdx).links = c.links := by
  ext j k <;> by_cases hj : j = i <;> simp [lockItem, modifyItem, links, hj]

@[simp] theorem lockItem_data : (c.lockItem i clientIdx).data =
    Function.update c.data i { c.data i with lockNumber := (c.data i).lockNumber + 1 } := by
  funext j
  by_cases hj : j = i <;> simp [lockItem, modifyItem, data, CacheItem.data, hj]

theorem detachItem_links (hnext : (c.cacheBuffer i).nextItemIdx = some n) :
    (c.detachItem i n).links = c.links.unlink i := by
  unfold detachItem Links.unlink
  cases hprev : (c.cacheBuffer i).prevItemIdx with
  | none =>
      ext j k
      · by_cases hj : j = n <;> simp [modifyItem, links, hprev, hj]
      · by_cases hj : j = n <;> simp [modifyItem, links, hprev, hnext, hj]
      · simp [links, hprev, hnext]
      · simp [modifyItem, links, hnext]
  | some p =>
      ext j k
      · by_cases hn : j = n <;> by_cases hp : j = p <;>
          simp [modifyItem, links, hprev, hnext, hn, hp] <;> grind
      · by_cases hn : j = n <;> by_cases hp : j = p <;>
          simp [modifyItem, links, hprev, hnext, hn, hp]
        all_goals grind
      · simp [modifyItem, links, hprev]
      · simp [modifyItem, links, hnext]

@[simp] theorem detachItem_data : (c.detachItem i n).data = c.data := by
  unfold detachItem
  split
  · rename_i p _
    have hnext : (c.modifyItem p fun item => { item with nextItemIdx := some n }).data = c.data :=
      data_of_update rfl rfl
    rw [← hnext]
    exact data_of_update rfl rfl
  · exact data_of_update rfl rfl

/-- The path maps, the free slots and the watches of two caches agree. -/
structure SameMaps (c c' : Cache N) : Prop where
  filepath : c'.filepathToCacheIdx = c.filepathToCacheIdx
  names : c'.cacheIdxToFilepath = c.cacheIdxToFilepath
  free : c'.freeIdxs = c.freeIdxs
  watches : c'.watchToCacheIdx = c.watchToCacheIdx

theorem fetchItem_miss (client : TcpClient) (h : c.filepathToCacheIdx filepath = none) :
    c.fetchItem filepath clientIdx client = some (c, client, { found := false }) := by
  simp [fetchItem, h]

/-- A hit on an item that is up to date locks it and moves it to the high end. -/
theorem fetchItem_hit (client : TcpClient) (hpath : c.filepathToCacheIdx filepath = some i)
    (hout : (c.data i).outdated = false) (hhigh : c.highestIdx ≠ none) (hlow : c.lowestIdx ≠ none) :
    ∃ c', c.fetchItem filepath clientIdx client =
        some (c', { client with usingFile := true }, c'.foundItem i) ∧
      c'.links = (if c.links.next i = none then c.links else (c.links.unlink i).pushBack i) ∧
      c'.data = Function.update c.data i { c.data i with lockNumber := (c.data i).lockNumber + 1 } ∧
      SameMaps c c' ∧
      c'.clientIdxToCacheIdx = Function.update c.clientIdxToCacheIdx clientIdx (some i) := by
  have hout' : ((c.lockItem i clientIdx).cacheBuffer i).outdated = false := by
    simpa [lockItem, modifyItem, data, CacheItem.data] using hout
  have hnext' : ((c.lockItem i clientIdx).cacheBuffer i).nextItemIdx = c.links.next i := by
    simp [lockItem, modifyItem, links]
  cases hnext : c.links.next i with
  | none =>
      refine ⟨c.lockItem i clientIdx, ?_, by simp, by simp, ⟨rfl, rfl, rfl, rfl⟩, rfl⟩
      simp [fetchItem, hpath, hnext', hnext, hout']
  | some n =>
      obtain ⟨h, hh⟩ := Option.ne_none_iff_exists'.mp hhigh
      have hdetached : ((c.lockItem i clientIdx).detachItem i n).highestIdx = some h := by
        unfold detachItem
        split <;> simpa [lockItem, modifyItem] using hh
      have hlinks := detachItem_links (c.lockItem i clientIdx) i n (hnext'.trans hnext)
      rw [lockItem_links] at hlinks
      refine ⟨_, by simp only [fetchItem, hpath, hnext', hnext, hout', hdetached]; rfl, ?_, ?_, ?_, ?_⟩
      · simp only [reduceCtorEq, if_false]
        rw [← hlinks]
        have hlow' : ((c.lockItem i clientIdx).detachItem i n).lowestIdx ≠ none := by
          unfold detachItem
          split <;> simp [lockItem, modifyItem, hlow]
        obtain ⟨low, hl⟩ := Option.ne_none_iff_exists'.mp hlow'
        generalize (c.lockItem i clientIdx).detachItem i n = d at *
        ext j k
        · by_cases hj : j = i <;> by_cases hjh : j = h <;>
            simp [modifyItem, links, Links.pushBack, hdetached, hj, hjh]
          all_goals grind
        · by_cases hj : j = i <;> by_cases hjh : j = h <;>
            simp [modifyItem, links, Links.pushBack, hdetached, hj, hjh]
          all_goals grind
        · simp [modifyItem, links, Links.pushBack, hl]
        · simp [links, Links.pushBack]
      · rw [← lockItem_data c i clientIdx, ← detachItem_data (c.lockItem i clientIdx) i n]
        generalize (c.lockItem i clientIdx).detachItem i n = d
        have hnext : (d.modifyItem h fun item => { item with nextItemIdx := some i }).data = d.data :=
          data_of_update rfl rfl
        rw [← hnext]
        exact data_of_update rfl rfl
      · constructor <;> (simp only [modifyItem, detachItem]; split <;> rfl)
      · simp only [modifyItem, detachItem]
        split <;> rfl

/-- A fetch that finds an outdated item frees its slot and leaves both path maps as they are. -/
theorem fetchItem_outdated (client : TcpClient) (hpath : c.filepathToCacheIdx filepath = some i)
    (hout : (c.data i).outdated = true) :
    ∃ c', c.fetchItem filepath clientIdx client =
        some (c', { client with usingFile := true }, { found := false }) ∧
      c'.filepathToCacheIdx = c.filepathToCacheIdx ∧
      c'.cacheIdxToFilepath = c.cacheIdxToFilepath ∧ i ∈ c'.freeIdxs := by
  have hout' : ((c.lockItem i clientIdx).cacheBuffer i).outdated = true := by
    simpa [lockItem, modifyItem, data, CacheItem.data] using hout
  cases hnext : ((c.lockItem i clientIdx).cacheBuffer i).nextItemIdx with
  | none =>
      refine ⟨_, by simp only [fetchItem, hpath, hnext, hout']; rfl, ?_, ?_, ?_⟩
      · cases ((c.lockItem i clientIdx).cacheBuffer i).prevItemIdx <;> rfl
      · cases ((c.lockItem i clientIdx).cacheBuffer i).prevItemIdx <;> rfl
      · simp [removeOutdated]
  | some n =>
      refine ⟨_, by simp only [fetchItem, hpath, hnext, hout']; rfl, ?_, ?_, ?_⟩
      · simp only [removeOutdated, detachItem]
        split <;> rfl
      · simp only [removeOutdated, detachItem]
        split <;> rfl
      · simp [removeOutdated]

end Fetch

/-! ### Insertions -/

theorem insertAt_links : (c.insertAt i filepath buff wd).links =
    { c.links.pushBack i with low := c.lowestIdx } := by
  cases hhigh : c.highestIdx with
  | none =>
      ext j k
      · by_cases hj : j = i <;> simp [insertAt, hhigh, modifyItem, links, Links.pushBack, hj]
      · by_cases hj : j = i <;> simp [insertAt, hhigh, modifyItem, links, Links.pushBack, hj]
      · simp [insertAt, hhigh, modifyItem, links]
      · simp [insertAt, hhigh, links, Links.pushBack]
  | some h =>
      ext j k
      · by_cases hj : j = i <;> by_cases hjh : j = h <;>
          simp [insertAt, hhigh, modifyItem, links, Links.pushBack, hj, hjh]
        all_goals grind
      · by_cases hj : j = i <;> by_cases hjh : j = h <;>
          simp [insertAt, hhigh, modifyItem, links, Links.pushBack, hj, hjh]
        all_goals grind
      · simp [insertAt, hhigh, modifyItem, links]
      · simp [insertAt, hhigh, links, Links.pushBack]

theorem insertAt_data : (c.insertAt i filepath buff wd).data =
    Function.update c.data i { c.data i with buffer := buff, watch := wd } := by
  have hset : ∀ d : Cache N, d.data = c.data → ∀ high,
      (d.modifyItem i fun item =>
        { item with watch := wd, prevItemIdx := high, nextItemIdx := none, buffer := buff }).data =
      Function.update c.data i { c.data i with buffer := buff, watch := wd } := by
    intro d hd high
    rw [← hd]
    funext j
    by_cases hj : j = i <;> simp [modifyItem, data, CacheItem.data, hj]
  cases hhigh : c.highestIdx with
  | none =>
      simp only [insertAt, hhigh]
      exact hset _ rfl _
  | some h =>
      simp only [insertAt, hhigh]
      refine hset _ ?_ _
      exact data_of_update (i := h) rfl rfl

theorem insertAt_filepathToCacheIdx : (c.insertAt i filepath buff wd).filepathToCacheIdx =
    Function.update c.filepathToCacheIdx filepath (some i) := by
  cases hhigh : c.highestIdx <;> simp [insertAt, hhigh, modifyItem]

theorem insertAt_cacheIdxToFilepath : (c.insertAt i filepath buff wd).cacheIdxToFilepath =
    Function.update c.cacheIdxToFilepath i (some filepath) := by
  cases hhigh : c.highestIdx <;> simp [insertAt, hhigh, modifyItem]

theorem insertAt_watchToCacheIdx : (c.insertAt i filepath buff wd).watchToCacheIdx =
    Function.update c.watchToCacheIdx wd (some i) := by
  cases hhigh : c.highestIdx <;> simp [insertAt, hhigh, modifyItem]

theorem insertAt_freeIdxs : (c.insertAt i filepath buff wd).freeIdxs = c.freeIdxs := by
  cases hhigh : c.highestIdx <;> simp [insertAt, hhigh, modifyItem]

theorem insertAt_clientIdxToCacheIdx :
    (c.insertAt i filepath buff wd).clientIdxToCacheIdx = c.clientIdxToCacheIdx := by
  cases hhigh : c.highestIdx <;> simp [insertAt, hhigh, modifyItem]

/-- The link updates of an insertion into a slot that was the lowest one. -/
theorem evictLowest_insertAt_links (hne : low ≠ newLow)
    (hnext : c.links.next low = some newLow) (hprev : c.links.prev low = none) :
    ((c.evictLowest low newLow).insertAt low filepath buff wd).links =
      (c.links.unlink low).pushBack low := by
  have hnext' : (c.cacheBuffer low).nextItemIdx = some newLow := hnext
  have hprev' : (c.cacheBuffer low).prevItemIdx = none := hprev
  rw [insertAt_links]
  ext j k
  · cases hhigh : c.highestIdx with
    | none =>
        by_cases hj : j = low <;> by_cases hn : j = newLow <;>
          simp [evictLowest, modifyItem, links, Links.pushBack, Links.unlink, hnext', hprev', hhigh,
            hj, hn]
        all_goals grind
    | some h =>
        by_cases hj : j = low <;> by_cases hn : j = newLow <;> by_cases hh : j = h <;>
          simp [evictLowest, modifyItem, links, Links.pushBack, Links.unlink, hnext', hprev', hhigh,
            hj, hn, hh]
        all_goals grind
  · by_cases hj : j = low <;> by_cases hn : j = newLow <;>
      simp [evictLowest, modifyItem, links, Links.pushBack, Links.unlink, hnext', hprev', hj, hn]
    all_goals grind
  · simp [evictLowest, links, Links.pushBack, Links.unlink, hnext', hprev']
  · simp [Links.pushBack]

theorem evictLowest_data : (c.evictLowest low newLow).data = Function.update c.data low {} := by
  have hprev : (c.modifyItem newLow fun item => { item with prevItemIdx := none }).data = c.data :=
    data_of_update rfl rfl
  rw [← hprev]
  funext j
  by_cases hj : j = low
  · subst hj
    simp [evictLowest, data, CacheItem.data]
  · simp [evictLowest, data, hj]

theorem evictLowest_watchToCacheIdx : (c.evictLowest low newLow).watchToCacheIdx =
    Function.update c.watchToCacheIdx (c.data low).watch none := by
  by_cases hn : low = newLow <;> simp [evictLowest, modifyItem, data, CacheItem.data, hn]

/-! ### The recency list -/

/-- The recency list of the cache is `l`, from the least to the most recently used slot: the links
spell it out, the slots outside it are the free ones, and the slots in it are the named ones. -/
structure Recency (c : Cache N) (l : List (Fin N)) : Prop where
  threads : Threads c.links l
  free_iff : ∀ i, i ∈ c.freeIdxs ↔ i ∉ l
  named_iff : ∀ i, (∃ p, c.cacheIdxToFilepath i = some p) ↔ i ∈ l

/-- The two path maps are inverse to each other. -/
def PathsInverse (c : Cache N) : Prop :=
  ∀ p i, c.filepathToCacheIdx p = some i ↔ c.cacheIdxToFilepath i = some p

/-- The structural invariant of the cache. -/
def WellFormed (c : Cache N) : Prop := (∃ l, c.Recency l) ∧ c.PathsInverse

namespace Recency

variable {c c' : Cache N} {l : List (Fin N)} {i : Fin N}

/-- Only the links, the free slots and the names matter. -/
theorem congr (h : c.Recency l) (hlinks : c'.links = c.links) (hfree : c'.freeIdxs = c.freeIdxs)
    (hnames : c'.cacheIdxToFilepath = c.cacheIdxToFilepath) : c'.Recency l :=
  ⟨hlinks ▸ h.threads, fun i => by rw [hfree, h.free_iff], fun i => by rw [hnames, h.named_iff]⟩

/-- A full list has a lowest and a second lowest slot. -/
theorem exists_cons_cons (h : c.Recency l) (hN : 2 ≤ N) (hfree : c.freeIdxs = ∅) :
    ∃ low newLow rest, l = low :: newLow :: rest := by
  have hall : ∀ i, i ∈ l := by
    intro i
    by_contra hi
    have := (h.free_iff i).mpr hi
    simp [hfree] at this
  have hlen : N ≤ l.length := by
    have hcard : (Finset.univ : Finset (Fin N)).card ≤ l.toFinset.card :=
      Finset.card_le_card fun i _ => List.mem_toFinset.mpr (hall i)
    rw [Finset.card_univ, Fintype.card_fin] at hcard
    exact hcard.trans (List.toFinset_card_le l)
  match l, hlen with
  | [], hlen => simp at hlen; omega
  | [_], hlen => simp at hlen; omega
  | low :: newLow :: rest, _ => exact ⟨low, newLow, rest, rfl⟩

/-- The slot of a cached path is listed, and a listed slot has both ends of the list set. -/
theorem ends_ne_none (h : c.Recency l) (hi : i ∈ l) : c.highestIdx ≠ none ∧ c.lowestIdx ≠ none := by
  constructor
  · intro hhigh
    rw [h.threads.eq_nil_of_high hhigh] at hi
    simp at hi
  · intro hlow
    rw [h.threads.eq_nil_of_low hlow] at hi
    simp at hi

/-- Touching a listed slot moves it to the high end, whether it was there already or not. -/
theorem touch {l₁ l₂ : List (Fin N)} (h : c.Recency (l₁ ++ i :: l₂))
    (hlinks : c'.links = if c.links.next i = none then c.links else (c.links.unlink i).pushBack i)
    (hfree : c'.freeIdxs = c.freeIdxs) (hnames : c'.cacheIdxToFilepath = c.cacheIdxToFilepath) :
    c'.Recency (l₁ ++ l₂ ++ [i]) := by
  have hmem : ∀ j, j ∈ l₁ ++ l₂ ++ [i] ↔ j ∈ l₁ ++ i :: l₂ := by
    intro j
    simp only [List.mem_append, List.mem_cons, List.not_mem_nil, or_false]
    tauto
  refine ⟨?_, fun j => by rw [hfree, h.free_iff, hmem], fun j => by rw [hnames, h.named_iff, hmem]⟩
  rw [hlinks, h.threads.next_eq]
  cases l₂ with
  | nil => simpa using h.threads
  | cons n l₂ => simpa using h.threads.promote

/-- What an insertion does: it takes a free slot, or the slot of the lowest item, or nothing. -/
theorem tryInsertItem_cases (h : c.Recency l) (hN : 2 ≤ N) (filepath buff : Bytes) (first : ℕ)
    (wd : ℤ) :
    (∃ i, i ∉ l ∧ c.tryInsertItem filepath buff first wd =
        some ((c.takeFree i).insertAt i filepath buff wd, true)) ∨
    (c.freeIdxs = ∅ ∧ ∃ low newLow rest, l = low :: newLow :: rest ∧ (c.data low).lockNumber = 0 ∧
      c.tryInsertItem filepath buff first wd =
        some ((c.evictLowest low newLow).insertAt low filepath buff wd, true)) ∨
    (c.freeIdxs = ∅ ∧ ∃ low rest, l = low :: rest ∧ (c.data low).lockNumber ≠ 0 ∧
      c.tryInsertItem filepath buff first wd = some (c, false)) := by
  cases hfirst : cbegin c.freeIdxs first with
  | some i =>
      refine Or.inl ⟨i, (h.free_iff i).mp (cbegin_mem i hfirst), ?_⟩
      simp [tryInsertItem, hfirst]
  | none =>
      have hfree := (cbegin_eq_none_iff _ _).mp hfirst
      obtain ⟨low, newLow, rest, rfl⟩ := h.exists_cons_cons hN hfree
      have hlow : c.lowestIdx = some low := h.threads.low_eq
      have hnext : (c.cacheBuffer low).nextItemIdx = some newLow := h.threads.head_next
      by_cases hlock : (c.data low).lockNumber = 0
      · refine Or.inr (Or.inl ⟨hfree, low, newLow, rest, rfl, hlock, ?_⟩)
        have hlock' : (c.cacheBuffer low).lockNumber = 0 := hlock
        simp [tryInsertItem, hfirst, hlow, hlock', hnext]
      · refine Or.inr (Or.inr ⟨hfree, low, newLow :: rest, rfl, hlock, ?_⟩)
        have hlock' : (c.cacheBuffer low).lockNumber ≠ 0 := hlock
        simp [tryInsertItem, hfirst, hlow, hlock']

theorem takeFree (h : c.Recency l) (hi : i ∉ l) (filepath buff : Bytes) (wd : ℤ) :
    ((c.takeFree i).insertAt i filepath buff wd).Recency (l ++ [i]) := by
  refine ⟨?_, fun j => ?_, fun j => ?_⟩
  · rw [insertAt_links]
    exact h.threads.pushBack hi
  · rw [insertAt_freeIdxs]
    simp only [Cache.takeFree, Finset.mem_erase, h.free_iff, List.mem_append, List.mem_singleton]
    tauto
  · rw [insertAt_cacheIdxToFilepath]
    by_cases hj : j = i
    · simp [hj]
    · simpa [hj, Cache.takeFree] using h.named_iff j

theorem evictLowest {low newLow : Fin N} {rest : List (Fin N)}
    (h : c.Recency (low :: newLow :: rest)) (filepath buff : Bytes) (wd : ℤ) :
    ((c.evictLowest low newLow).insertAt low filepath buff wd).Recency (newLow :: rest ++ [low]) := by
  have hnext : c.links.next low = some newLow := h.threads.head_next
  have hprev : c.links.prev low = none := h.threads.head_prev
  have hne : low ≠ newLow := by
    have := h.threads.nodup
    simp only [List.nodup_cons, List.mem_cons, not_or] at this
    exact this.1.1
  have hmem : ∀ j, j ∈ newLow :: rest ++ [low] ↔ j ∈ low :: newLow :: rest := by
    intro j
    simp only [List.cons_append, List.mem_cons, List.mem_append, List.not_mem_nil, or_false]
    tauto
  refine ⟨?_, fun j => ?_, fun j => ?_⟩
  · rw [evictLowest_insertAt_links c low newLow filepath buff wd hne hnext hprev]
    exact h.threads.rotate
  · rw [insertAt_freeIdxs, hmem]
    exact h.free_iff j
  · rw [insertAt_cacheIdxToFilepath, hmem]
    by_cases hj : j = low
    · simp [hj]
    · simpa [hj, Cache.evictLowest, modifyItem] using h.named_iff j

end Recency

theorem wellFormed_empty : WellFormed ({} : Cache N) := by
  refine ⟨⟨[], ⟨⟨by simp, trivial, rfl, rfl⟩, by simp, by simp⟩⟩, ?_⟩
  intro p i
  simp

/-! ### Which calls keep the structure -/

/-- The calls that keep the structure of the cache: a fetch that does not find an outdated item, and
an insertion of a path that is not cached, or that does nothing because the lowest item is locked,
or that replaces the very item of its path. -/
def Admissible (c : Cache N) : CacheOp → Prop
  | .fetch filepath _ => ∀ i, c.filepathToCacheIdx filepath = some i → (c.cacheBuffer i).outdated = false
  | .tryInsert filepath _ _ _ =>
      c.filepathToCacheIdx filepath = none ∨
        c.freeIdxs = ∅ ∧ ∃ low, c.lowestIdx = some low ∧
          ((c.cacheBuffer low).lockNumber ≠ 0 ∨ c.cacheIdxToFilepath low = some filepath)
  | _ => True

namespace WellFormed

variable {c c' : Cache N} {i : Fin N} {filepath : Bytes}

/-- The parts of the state that the structure depends on. -/
theorem congr (h : c.WellFormed) (hlinks : c'.links = c.links) (hmaps : SameMaps c c') :
    c'.WellFormed := by
  obtain ⟨⟨l, hl⟩, hpaths⟩ := h
  refine ⟨⟨l, hl.congr hlinks hmaps.free hmaps.names⟩, fun p i => ?_⟩
  rw [hmaps.filepath, hmaps.names, hpaths]

theorem fetchItem (h : c.WellFormed) (clientIdx : ℕ) (client : TcpClient)
    (hout : ∀ i, c.filepathToCacheIdx filepath = some i → (c.cacheBuffer i).outdated = false) :
    ∃ c' client' item, c.fetchItem filepath clientIdx client = some (c', client', item) ∧
      c'.WellFormed := by
  cases hpath : c.filepathToCacheIdx filepath with
  | none => exact ⟨c, client, _, c.fetchItem_miss filepath clientIdx client hpath, h⟩
  | some i =>
      obtain ⟨⟨l, hl⟩, hpaths⟩ := h
      have hi : i ∈ l := (hl.named_iff i).mp ⟨filepath, (hpaths _ _).mp hpath⟩
      obtain ⟨hhigh, hlow⟩ := hl.ends_ne_none hi
      obtain ⟨c', hc', hlinks, -, hmaps, -⟩ :=
        c.fetchItem_hit i filepath clientIdx client hpath (hout i hpath) hhigh hlow
      obtain ⟨l₁, l₂, rfl⟩ := List.append_of_mem hi
      refine ⟨c', _, _, hc', ⟨_, hl.touch hlinks hmaps.free hmaps.names⟩, fun p j => ?_⟩
      rw [hmaps.filepath, hmaps.names, hpaths]

/-- An insertion that goes ahead into slot `i` keeps the path maps inverse exactly if the slot of the
inserted path, if there is one, is `i` itself. -/
theorem pathsInverse_insert {d : Cache N} (filepath buff : Bytes) (wd : ℤ) (hslot : d.cacheIdxToFilepath i = none)
    (hpaths : d.PathsInverse) :
    (d.insertAt i filepath buff wd).PathsInverse ↔ d.filepathToCacheIdx filepath = none := by
  unfold PathsInverse
  rw [insertAt_filepathToCacheIdx, insertAt_cacheIdxToFilepath]
  constructor
  · intro h
    by_contra hne
    obtain ⟨j, hj⟩ := Option.ne_none_iff_exists'.mp hne
    have hji : j ≠ i := by
      rintro rfl
      exact absurd ((hpaths _ _).mp hj) (by simp [hslot])
    have := (h filepath j).mpr (by simpa [hji] using (hpaths _ _).mp hj)
    simp [hji.symm] at this
  · intro hnone p j
    by_cases hp : p = filepath <;> by_cases hj : j = i
    · simp [hp, hj]
    · have : d.cacheIdxToFilepath j ≠ some filepath := fun h => by
        simp [(hpaths _ _).mpr h] at hnone
      simp [hp, hj, Ne.symm hj, this]
    · have : d.filepathToCacheIdx p ≠ some i := fun h => by
        simp [(hpaths _ _).mp h] at hslot
      simp [hp, hj, Ne.symm hp, this]
    · simpa [hp, hj] using hpaths p j

/-- Without one of its named items the cache still has inverse path maps. -/
theorem pathsInverse_evict {low : Fin N} {q : Bytes} (hpaths : c.PathsInverse) (newLow : Fin N)
    (hq : c.cacheIdxToFilepath low = some q) : (c.evictLowest low newLow).PathsInverse := by
  have hqlow := (hpaths q low).mpr hq
  intro p j
  simp only [Cache.evictLowest, modifyItem, hq, Option.getD_some]
  by_cases hp : p = q <;> by_cases hj : j = low
  · simp [hp, hj]
  · have : c.cacheIdxToFilepath j ≠ some q := by
      intro hjq
      have := (hpaths q j).mpr hjq
      rw [hqlow] at this
      exact hj (by simpa using this.symm)
    simp [hp, hj, this]
  · have : c.filepathToCacheIdx p ≠ some low := by
      intro hpl
      have := (hpaths p low).mp hpl
      rw [hq] at this
      exact hp (by simpa using this.symm)
    simp [hp, hj, this]
  · simpa [hp, hj] using hpaths p j

theorem fetch_iff (h : c.WellFormed) (clientIdx : ℕ) (client : TcpClient) :
    c.Admissible (.fetch filepath clientIdx) ↔
      ∃ c' client' item, c.fetchItem filepath clientIdx client = some (c', client', item) ∧
        c'.WellFormed := by
  refine ⟨h.fetchItem clientIdx client, ?_⟩
  rintro ⟨c', client', item, hc', ⟨l', hl'⟩, hpaths'⟩ i hpath
  by_contra hout
  have hout' : (c.cacheBuffer i).outdated = true := by simpa using hout
  obtain ⟨d, hd, hfile, hnames, hfree⟩ :=
    c.fetchItem_outdated i filepath clientIdx client hpath hout'
  obtain ⟨rfl, -, -⟩ : d = c' ∧ _ ∧ _ := by simpa [hd] using hc'
  -- the freed slot is still named, so the list would have to hold it
  have hnamed : i ∈ l' := (hl'.named_iff i).mp ⟨filepath, (hpaths' _ _).mp (hfile ▸ hpath)⟩
  exact (hl'.free_iff i).mp hfree hnamed

theorem tryInsert_iff (h : c.WellFormed) (hN : 2 ≤ N) (buff : Bytes) (first : ℕ) (wd : ℤ) :
    c.Admissible (.tryInsert filepath buff first wd) ↔
      ∃ c' done, c.tryInsertItem filepath buff first wd = some (c', done) ∧ c'.WellFormed := by
  obtain ⟨⟨l, hl⟩, hpaths⟩ := h
  rcases hl.tryInsertItem_cases hN filepath buff first wd with
    ⟨i, hi, heq⟩ | ⟨hfree, low, newLow, rest, rfl, hlock, heq⟩ | ⟨hfree, low, rest, rfl, hlock, heq⟩
  · have hslot : c.cacheIdxToFilepath i = none := by
      by_contra hne
      exact hi ((hl.named_iff i).mp (Option.ne_none_iff_exists'.mp hne))
    have hne : c.freeIdxs ≠ ∅ := Finset.ne_empty_of_mem ((hl.free_iff i).mpr hi)
    have hinv := pathsInverse_insert (d := c.takeFree i) filepath buff wd hslot hpaths
    have hadm : c.Admissible (.tryInsert filepath buff first wd) ↔
        c.filepathToCacheIdx filepath = none := by
      simp [Admissible, hne]
    rw [hadm, heq]
    constructor
    · exact fun hnone => ⟨_, _, rfl, ⟨_, hl.takeFree hi filepath buff wd⟩, hinv.mpr hnone⟩
    · rintro ⟨c', done, hc', -, hpaths'⟩
      obtain ⟨rfl, -⟩ : _ = c' ∧ _ := by simpa using hc'
      exact hinv.mp hpaths'
  · have hlow : c.lowestIdx = some low := hl.threads.low_eq
    obtain ⟨q, hq⟩ := (hl.named_iff low).mpr (by simp)
    have hevicted : (c.evictLowest low newLow).PathsInverse := pathsInverse_evict hpaths newLow hq
    have hinv := pathsInverse_insert filepath buff wd
      (show (c.evictLowest low newLow).cacheIdxToFilepath low = none by simp [Cache.evictLowest]) hevicted
    have hlock' : (c.cacheBuffer low).lockNumber = 0 := hlock
    have hadm : c.Admissible (.tryInsert filepath buff first wd) ↔
        (c.evictLowest low newLow).filepathToCacheIdx filepath = none := by
      simp only [Admissible, hfree, hlow, Cache.evictLowest, modifyItem, hq, Option.getD_some]
      by_cases hp : filepath = q
      · simp [hp, hq]
      · simp [hp, hlock', hq, Ne.symm hp]
    rw [hadm, heq]
    constructor
    · exact fun hnone => ⟨_, _, rfl, ⟨_, hl.evictLowest filepath buff wd⟩, hinv.mpr hnone⟩
    · rintro ⟨c', done, hc', -, hpaths'⟩
      obtain ⟨rfl, -⟩ : _ = c' ∧ _ := by simpa using hc'
      exact hinv.mp hpaths'
  · have hlow : c.lowestIdx = some low := hl.threads.low_eq
    have hlock' : (c.cacheBuffer low).lockNumber ≠ 0 := hlock
    refine iff_of_true (Or.inr ⟨hfree, low, hlow, Or.inl hlock'⟩) ?_
    exact ⟨c, false, heq, ⟨_, hl⟩, hpaths⟩

end WellFormed

/-! ### Calls that leave the list alone -/

/-- A modification event only marks the contents of a slot. -/
theorem inotifyEventHandler_frame (watch : ℤ) :
    (c.inotifyEventHandler watch).links = c.links ∧ SameMaps c (c.inotifyEventHandler watch) := by
  unfold inotifyEventHandler
  cases c.watchToCacheIdx watch with
  | none => exact ⟨rfl, ⟨rfl, rfl, rfl, rfl⟩⟩
  | some i =>
      refine ⟨?_, ⟨rfl, rfl, rfl, rfl⟩⟩
      ext j k <;> by_cases hj : j = i <;> simp [modifyItem, links, hj]

theorem inotifyEventHandler_data {watch : ℤ} {k : Fin N} (hslot : c.watchToCacheIdx watch = some k) :
    (c.inotifyEventHandler watch).data = Function.update c.data k { c.data k with outdated := true } := by
  funext j
  by_cases hj : j = k <;> simp [inotifyEventHandler, hslot, modifyItem, data, CacheItem.data, hj]

/-- Finishing with an item only changes a lock. -/
theorem finishedWithItem_frame (hN : 0 < N) (clientIdx : ℕ) (client : TcpClient) :
    ∃ c' client', c.finishedWithItem clientIdx client = some (c', client') ∧ c'.links = c.links ∧
      SameMaps c c' := by
  unfold finishedWithItem
  split
  · obtain ⟨i, hi⟩ : ∃ i, c.cacheIdxOf clientIdx = some i := by
      unfold cacheIdxOf
      cases c.clientIdxToCacheIdx clientIdx <;> simp [hN]
    rw [hi]
    refine ⟨_, _, rfl, ?_, ⟨rfl, rfl, rfl, rfl⟩⟩
    ext j k <;> by_cases hj : j = i <;> simp [modifyItem, links, hj]
  · exact ⟨c, client, rfl, rfl, ⟨rfl, rfl, rfl, rfl⟩⟩

end Cache

/-- One call keeps the structure exactly if it is admissible. -/
theorem cacheStep_wellFormed_iff {N : ℕ} (hN : 2 ≤ N) (s : CacheState N) (op : CacheOp)
    (h : s.cache.WellFormed) :
    s.cache.Admissible op ↔ ∃ t o, cacheStep s op = some (t, o) ∧ t.cache.WellFormed := by
  cases op with
  | fetch filepath clientIdx =>
      rw [h.fetch_iff clientIdx (s.clients clientIdx)]
      constructor
      · rintro ⟨c', client', item, hc', hwf⟩
        exact ⟨_, _, by simp [cacheStep, hc']; exact ⟨rfl, rfl⟩, hwf⟩
      · rintro ⟨t, o, ht, hwf⟩
        simp only [cacheStep, Option.map_eq_some_iff, Prod.mk.injEq] at ht
        obtain ⟨⟨c', client', item⟩, hc', rfl, -⟩ := ht
        exact ⟨c', client', item, hc', hwf⟩
  | tryInsert filepath buff first wd =>
      rw [h.tryInsert_iff hN buff first wd]
      constructor
      · rintro ⟨c', done, hc', hwf⟩
        exact ⟨_, _, by simp [cacheStep, hc']; exact ⟨rfl, rfl⟩, hwf⟩
      · rintro ⟨t, o, ht, hwf⟩
        simp only [cacheStep, Option.map_eq_some_iff, Prod.mk.injEq] at ht
        obtain ⟨⟨c', done⟩, hc', rfl, -⟩ := ht
        exact ⟨c', done, hc', hwf⟩
  | inotify watch =>
      refine iff_of_true trivial ⟨_, _, rfl, ?_⟩
      obtain ⟨hlinks, hmaps⟩ := s.cache.inotifyEventHandler_frame watch
      exact h.congr hlinks hmaps
  | finished clientIdx =>
      obtain ⟨c', client', hc', hlinks, hmaps⟩ :=
        s.cache.finishedWithItem_frame (by omega) clientIdx (s.clients clientIdx)
      refine iff_of_true trivial ⟨_, _, by simp [cacheStep, hc']; exact ⟨rfl, rfl⟩, ?_⟩
      exact h.congr hlinks hmaps

/-- **Structure of the cache.** Over any sequence of calls, the recency list, the free slots and the
path maps fit together in every state, and no call indexes outside the cache, exactly if no fetch
finds an outdated item and no insertion that goes ahead is of a path cached in another slot. -/
theorem cache_structure_iff {N : ℕ} (hN : 2 ≤ N) (ops : List CacheOp) :
    Runs.Throughout cacheStep (fun s => s.cache.WellFormed) ({} : CacheState N) ops ↔
      Runs.Along cacheStep (fun s op => s.cache.Admissible op) ({} : CacheState N) ops :=
  Runs.throughout_iff_along (fun s op h => cacheStep_wellFormed_iff hN s op h) Cache.wellFormed_empty

/-- An insertion, a fetch of the inserted path and the end of its use, on a cache of two slots. -/
theorem cache_structure_insert_fetch :
    2 ≤ 2 ∧ Runs.Throughout cacheStep (fun s => s.cache.WellFormed) ({} : CacheState 2)
      [.tryInsert [112] [1] 0 7, .fetch [112] 0, .finished 0] := by
  refine ⟨le_rfl, (cache_structure_iff le_rfl _).mpr ⟨Or.inl rfl, ?_⟩⟩
  rintro _ _ ⟨⟩
  refine ⟨fun i hi => ?_, ?_⟩
  · obtain rfl : (0 : Fin 2) = i := Option.some.inj hi
    rfl
  · rintro _ _ ⟨⟩
    exact ⟨trivial, fun _ _ _ => trivial⟩

/-- A file is cached, modified and fetched again: the fetch frees the slot of the file but leaves its
path mapped to it. -/
theorem cache_structure_lost :
    ¬Runs.Throughout cacheStep (fun s => s.cache.WellFormed) ({} : CacheState 2)
      [.tryInsert [112] [1] 0 7, .inotify 7, .fetch [112] 0] := by
  intro h
  obtain ⟨t, os, ht, ⟨l, hl⟩, -⟩ := h.exec_last
  have hstate : (cacheRun 2 [.tryInsert [112] [1] 0 7, .inotify 7, .fetch [112] 0]).map
      (fun r => (r.1.cache.cacheIdxToFilepath 0, decide (0 ∈ r.1.cache.freeIdxs))) =
      some (some [112], true) := by decide
  rw [cacheRun, ht] at hstate
  obtain ⟨hname, hfree⟩ : t.cache.cacheIdxToFilepath 0 = some [112] ∧ 0 ∈ t.cache.freeIdxs := by
    simpa using hstate
  exact (hl.free_iff 0).mp hfree ((hl.named_iff 0).mp ⟨_, hname⟩)

end LiburingServer
