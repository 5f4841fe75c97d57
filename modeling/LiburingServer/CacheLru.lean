import LiburingServer.CacheList
import LiburingServer.Lib.Lru

/-! The cache as a least-recently-used list. Without modification events, and when only paths that are
not cached are inserted, the cache does what the list of `Lru` does: the slots are its entries, in the
order of the recency list. -/

namespace LiburingServer

open IndexList

variable {N : ℕ}

/-- A call as the abstract list sees it: which free slot the hash table yields and which descriptor
the watch gets are not part of it. -/
def CacheOp.lruOp : CacheOp → Option (Lru.Op Bytes Bytes)
  | .fetch filepath clientIdx => some (.fetch filepath clientIdx)
  | .tryInsert filepath buff _ _ => some (.insert filepath buff)
  | .inotify _ => none
  | .finished clientIdx => some (.finish clientIdx)

/-- What the caller sees; of a hit, the `size` bytes the returned pointer leads to. -/
def CacheResult.observe : CacheResult N → Lru.Result Bytes
  | .fetched item => .fetched (if item.found then some (item.bytes.take item.size) else none)
  | .inserted ok => .inserted ok
  | .done => .done

/-- No modification event, and no insertion of a path that is cached. -/
def Cache.Unmodified (c : Cache N) : CacheOp → Prop
  | .tryInsert filepath _ _ _ => c.filepathToCacheIdx filepath = none
  | .inotify _ => False
  | _ => True

namespace Cache

/-- The entry of a slot. -/
def entry (c : Cache N) (i : Fin N) : Lru.Entry Bytes Bytes :=
  ⟨(c.cacheIdxToFilepath i).getD [], (c.data i).buffer, (c.data i).lockNumber⟩

/-- Each client that is using a file holds a lock of the slot it fetched last. -/
structure Held (c : Cache N) (clients : ℕ → TcpClient) (holders : Fin N → Finset ℕ) : Prop where
  locks : ∀ i, ((holders i).card : ℤ) ≤ (c.data i).lockNumber
  holds : ∀ k, (clients k).usingFile = true → ∃ i, c.clientIdxToCacheIdx k = some i ∧ k ∈ holders i

end Cache

/-- The abstract list of a cache: its entries are the listed slots from the lowest to the highest one,
and a client that is using a file uses the path of its slot. -/
structure Refines (s : CacheState N) (a : Lru.State Bytes Bytes) : Prop where
  entries : ∃ l, s.cache.Recency l ∧ a.entries = l.map s.cache.entry
  paths : s.cache.PathsInverse
  current : ∀ i, (s.cache.data i).outdated = false
  unlocked : ∀ i ∈ s.cache.freeIdxs, (s.cache.data i).lockNumber = 0
  inUse : ∀ k, a.inUse k = if (s.clients k).usingFile then
    (s.cache.clientIdxToCacheIdx k).bind s.cache.cacheIdxToFilepath else none
  held : ∃ holders, s.cache.Held s.clients holders

namespace Cache

variable {c c' : Cache N} {clients : ℕ → TcpClient} {holders : Fin N → Finset ℕ} {i : Fin N} {k : ℕ}

namespace Held

/-- A slot that a client is using is locked. -/
theorem lockNumber_pos (h : c.Held clients holders) (hk : (clients k).usingFile = true)
    (hi : c.clientIdxToCacheIdx k = some i) : 0 < (c.data i).lockNumber := by
  obtain ⟨j, hj, hmem⟩ := h.holds k hk
  obtain rfl : i = j := by simpa [hi] using hj
  have hcard := Finset.card_pos.mpr ⟨k, hmem⟩
  have := h.locks i
  omega

/-- Locks of slots nobody holds may be overwritten. -/
theorem of_locks (h : c.Held clients holders)
    (hlocks : ∀ i, (c.data i).lockNumber ≤ (c'.data i).lockNumber)
    (hidx : c'.clientIdxToCacheIdx = c.clientIdxToCacheIdx) : c'.Held clients holders := by
  refine ⟨fun i => (h.locks i).trans (hlocks i), fun k hk => ?_⟩
  rw [hidx]
  exact h.holds k hk

/-- A hit takes one lock for its client. -/
theorem lock (h : c.Held clients holders) (client : TcpClient)
    (hdata : c'.data = Function.update c.data i
      { c.data i with lockNumber := (c.data i).lockNumber + 1 })
    (hidx : c'.clientIdxToCacheIdx = Function.update c.clientIdxToCacheIdx k (some i)) :
    c'.Held (Function.update clients k client) (Function.update holders i (insert k (holders i))) := by
  refine ⟨fun j => ?_, fun m hm => ?_⟩
  · rw [hdata]
    by_cases hj : j = i
    · subst hj
      have hcard := Finset.card_insert_le k (holders j)
      have := h.locks j
      simp only [Function.update_self]
      omega
    · simpa [hj] using h.locks j
  · rw [hidx]
    by_cases hmk : m = k
    · subst hmk
      exact ⟨i, by simp, by simp⟩
    · rw [Function.update_of_ne hmk] at hm
      obtain ⟨j, hj, hmem⟩ := h.holds m hm
      refine ⟨j, by simpa [hmk] using hj, ?_⟩
      by_cases hji : j = i
      · subst hji
        simp [hmem]
      · simpa [hji] using hmem

/-- Finishing gives the lock of the client back. -/
theorem unlock (h : c.Held clients holders) (client : TcpClient) (hclient : client.usingFile = false)
    (hk : (clients k).usingFile = true) (hi : c.clientIdxToCacheIdx k = some i)
    (hdata : c'.data = Function.update c.data i
      { c.data i with lockNumber := (c.data i).lockNumber - 1 })
    (hidx : c'.clientIdxToCacheIdx = c.clientIdxToCacheIdx) :
    c'.Held (Function.update clients k client) (Function.update holders i ((holders i).erase k)) := by
  obtain ⟨j, hj, hmem⟩ := h.holds k hk
  obtain rfl : i = j := by simpa [hi] using hj
  refine ⟨fun j => ?_, fun m hm => ?_⟩
  · rw [hdata]
    by_cases hji : j = i
    · subst hji
      have hcard := Finset.card_erase_add_one hmem
      have := h.locks j
      simp only [Function.update_self]
      omega
    · simpa [hji] using h.locks j
  · rw [hidx]
    have hmk : m ≠ k := by
      rintro rfl
      simp [hclient] at hm
    rw [Function.update_of_ne hmk] at hm
    obtain ⟨j, hj, hmem'⟩ := h.holds m hm
    refine ⟨j, hj, ?_⟩
    by_cases hji : j = i
    · subst hji
      simpa using ⟨hmk, hmem'⟩
    · simpa [hji] using hmem'

end Held

/-- Distinct named slots have distinct keys. -/
theorem PathsInverse.entry_key_ne {j : Fin N} (h : c.PathsInverse) {l : List (Fin N)}
    (hl : c.Recency l) (hi : i ∈ l) (hj : j ∈ l) (hne : j ≠ i) : (c.entry j).key ≠ (c.entry i).key := by
  obtain ⟨p, hp⟩ := (hl.named_iff i).mpr hi
  obtain ⟨q, hq⟩ := (hl.named_iff j).mpr hj
  intro heq
  obtain rfl : q = p := by simpa [entry, hp, hq] using heq
  have := (h q j).mpr hq
  rw [(h q i).mpr hp] at this
  exact hne (by simpa using this.symm)

/-- A path that is not cached is the key of no listed slot. -/
theorem Recency.entry_key_ne_of_none {l : List (Fin N)} (hl : c.Recency l) (hpaths : c.PathsInverse)
    {filepath : Bytes} (hpath : c.filepathToCacheIdx filepath = none) :
    ∀ e ∈ l.map c.entry, e.key ≠ filepath := by
  intro e he
  obtain ⟨i, hi, rfl⟩ := List.mem_map.mp he
  obtain ⟨p, hp⟩ := (hl.named_iff i).mpr hi
  intro heq
  obtain rfl : p = filepath := by simpa [entry, hp] using heq
  simp [(hpaths p i).mpr hp] at hpath

/-- The list is full exactly if no slot is free. -/
theorem Recency.length_lt_iff {l : List (Fin N)} (hl : c.Recency l) :
    l.length < N ↔ c.freeIdxs ≠ ∅ := by
  have hcard : l.toFinset.card = l.length := List.toFinset_card_of_nodup hl.threads.nodup
  have hcompl : c.freeIdxs = l.toFinsetᶜ := by
    ext i
    simp [hl.free_iff]
  have hsum := Finset.card_compl_add_card l.toFinset
  rw [Fintype.card_fin, ← hcompl, hcard] at hsum
  rw [← Finset.nonempty_iff_ne_empty, ← Finset.card_pos]
  omega

end Cache

open Cache

namespace Refines

variable {s : CacheState N} {a : Lru.State Bytes Bytes}

theorem empty : Refines ({} : CacheState N) {} := by
  refine ⟨⟨[], ?_, rfl⟩, wellFormed_empty.2, fun _ => rfl, fun _ _ => rfl, fun _ => rfl, ?_⟩
  · obtain ⟨⟨l, hl⟩, -⟩ := wellFormed_empty (N := N)
    rwa [hl.threads.eq_nil_of_high rfl] at hl
  · exact ⟨fun _ => ∅, fun _ => by simp [data, CacheItem.data], fun k hk => by simp at hk⟩

/-- The abstract list never holds more than `N` entries. -/
theorem length_le (h : Refines s a) : a.entries.length ≤ N := by
  obtain ⟨l, hl, hentries⟩ := h.entries
  rw [hentries, List.length_map]
  simpa using hl.threads.nodup.length_le_card

/-- Only the slot of a client that is using a file matters to the client, and that slot is locked. -/
theorem inUse_congr (h : Refines s a) {c' : Cache N} {i : Fin N}
    (hlock : (s.cache.data i).lockNumber = 0)
    (hnames : ∀ j, j ≠ i → c'.cacheIdxToFilepath j = s.cache.cacheIdxToFilepath j)
    (hidx : c'.clientIdxToCacheIdx = s.cache.clientIdxToCacheIdx) (k : ℕ) :
    a.inUse k = if (s.clients k).usingFile then
      (c'.clientIdxToCacheIdx k).bind c'.cacheIdxToFilepath else none := by
  rw [h.inUse k, hidx]
  split
  · rename_i hk
    obtain ⟨holders, hheld⟩ := h.held
    obtain ⟨j, hj, hmem⟩ := hheld.holds k hk
    have hji : j ≠ i := by
      rintro rfl
      have := hheld.lockNumber_pos hk hj
      omega
    simp [hj, hnames j hji]
  · rfl

/-- The fetch of a path that is not cached. -/
theorem fetch_miss (h : Refines s a) (filepath : Bytes) (clientIdx : ℕ)
    (hpath : s.cache.filepathToCacheIdx filepath = none) :
    ∃ t o, cacheStep s (.fetch filepath clientIdx) = some (t, o) ∧
      Refines t (Lru.step N a (.fetch filepath clientIdx)).1 ∧
      o.observe = (Lru.step N a (.fetch filepath clientIdx)).2 := by
  obtain ⟨l, hl, hentries⟩ := h.entries
  have hnone : Lru.find a.entries filepath = none := by
    rw [hentries]
    exact Lru.find_eq_none (hl.entry_key_ne_of_none h.paths hpath)
  have hsame : Function.update s.clients clientIdx (s.clients clientIdx) = s.clients := by simp
  refine ⟨_, _, by rw [cacheStep, fetchItem_miss _ _ _ _ hpath]; rfl, ?_, ?_⟩
  · simp only [Lru.step, hnone, hsame]
    exact h
  · simp [Lru.step, hnone, CacheResult.observe]

/-- The fetch of a cached path locks its entry and moves it to the most recent end. -/
theorem fetch_hit (h : Refines s a) (filepath : Bytes) (clientIdx : ℕ) {i : Fin N}
    (hpath : s.cache.filepathToCacheIdx filepath = some i) :
    ∃ t o, cacheStep s (.fetch filepath clientIdx) = some (t, o) ∧
      Refines t (Lru.step N a (.fetch filepath clientIdx)).1 ∧
      o.observe = (Lru.step N a (.fetch filepath clientIdx)).2 := by
  obtain ⟨l, hl, hentries⟩ := h.entries
  have hname := (h.paths filepath i).mp hpath
  have hi : i ∈ l := (hl.named_iff i).mp ⟨filepath, hname⟩
  obtain ⟨hhigh, hlow⟩ := hl.ends_ne_none hi
  obtain ⟨c', hc', hlinks, hdata, hmaps, hidx⟩ := s.cache.fetchItem_hit i filepath clientIdx
    (s.clients clientIdx) hpath (h.current i) hhigh hlow
  obtain ⟨l₁, l₂, rfl⟩ := List.append_of_mem hi
  -- the entries of the other slots are as they were
  have hother : ∀ j, j ≠ i → c'.entry j = s.cache.entry j := by
    intro j hj
    simp [entry, hmaps.names, hdata, hj]
  have hself : c'.entry i = { s.cache.entry i with locks := (s.cache.entry i).locks + 1 } := by
    simp [entry, hmaps.names, hdata]
  have hnodup := hl.threads.nodup
  have hkey : (s.cache.entry i).key = filepath := by simp [entry, hname]
  have hbefore : ∀ e ∈ l₁.map s.cache.entry, e.key ≠ (s.cache.entry i).key := by
    intro e he
    obtain ⟨j, hj, rfl⟩ := List.mem_map.mp he
    apply h.paths.entry_key_ne hl hi (by simp [hj])
    rintro rfl
    exact (List.nodup_append.mp hnodup).2.2 j hj j (by simp) rfl
  have hfind : Lru.find a.entries filepath = some (s.cache.entry i) := by
    rw [hentries, List.map_append, List.map_cons, ← hkey]
    exact Lru.find_append hbefore
  have hnot : ∀ j ∈ l₁ ++ l₂, j ≠ i := by
    rintro j hj rfl
    rw [List.nodup_middle, List.nodup_cons] at hnodup
    exact hnodup.1 hj
  have htouch : Lru.touch a.entries filepath = (l₁ ++ l₂ ++ [i]).map c'.entry := by
    rw [hentries, List.map_append, List.map_cons, ← hkey, Lru.touch_append hbefore]
    rw [List.map_append, List.map_congr_left fun j hj => hother j (hnot j hj)]
    simp [hself]
  refine ⟨_, _, by rw [cacheStep, hc']; rfl, ?_, ?_⟩
  · simp only [Lru.step, hfind]
    refine ⟨⟨_, hl.touch hlinks hmaps.free hmaps.names, htouch⟩, ?_, ?_, ?_, ?_, ?_⟩
    · intro p j
      rw [hmaps.filepath, hmaps.names]
      exact h.paths p j
    · intro j
      by_cases hj : j = i
      · subst hj
        simpa [hdata] using h.current j
      · simpa [hdata, hj] using h.current j
    · intro j hj
      rw [hmaps.free] at hj
      have hji : j ≠ i := by
        rintro rfl
        exact (hl.free_iff j).mp hj hi
      simpa [hdata, hji] using h.unlocked j hj
    · intro k
      rw [hidx, hmaps.names]
      by_cases hk : k = clientIdx
      · subst hk
        simp [hname]
      · simpa [hk] using h.inUse k
    · obtain ⟨holders, hheld⟩ := h.held
      exact ⟨_, hheld.lock _ hdata hidx⟩
  · have hbuffer : (c'.cacheBuffer i).buffer = (s.cache.entry i).value := by
      have := congrArg Lru.Entry.value hself
      exact this
    simp [Lru.step, hfind, CacheResult.observe, foundItem, hbuffer]

/-- An insertion into slot `i`, which is not locked and not listed any more. -/
theorem insertAt (h : Refines s a) {c' : Cache N} {i : Fin N} {l : List (Fin N)}
    {entries : List (Lru.Entry Bytes Bytes)} (filepath buff : Bytes) (wd : ℤ)
    (hlock : (s.cache.data i).lockNumber = 0) (hwf : c'.WellFormed) (hl : c'.Recency (l ++ [i]))
    (hentries : entries = l.map s.cache.entry ++ [⟨filepath, buff, 0⟩])
    (hnames : c'.cacheIdxToFilepath = Function.update s.cache.cacheIdxToFilepath i (some filepath))
    (hdata : c'.data = Function.update s.cache.data i ⟨buff, 0, false, wd⟩)
    (hidx : c'.clientIdxToCacheIdx = s.cache.clientIdxToCacheIdx)
    (hfree : c'.freeIdxs ⊆ s.cache.freeIdxs) :
    Refines ⟨c', s.clients⟩ { a with entries := entries } := by
  have hother : ∀ j ∈ l, c'.entry j = s.cache.entry j := by
    intro j hj
    have hji : j ≠ i := by
      rintro rfl
      exact (List.nodup_append.mp hl.threads.nodup).2.2 j hj j (by simp) rfl
    simp [entry, hnames, hdata, hji]
  refine ⟨⟨_, hl, ?_⟩, hwf.2, ?_, ?_, ?_, ?_⟩
  · rw [List.map_append, List.map_congr_left hother]
    simp [hentries, entry, hnames, hdata]
  · intro j
    by_cases hj : j = i
    · simp [hdata, hj]
    · simpa [hdata, hj] using h.current j
  · intro j hj
    by_cases hji : j = i
    · simp [hdata, hji]
    · simpa [hdata, hji] using h.unlocked j (hfree hj)
  · exact h.inUse_congr hlock (fun j hj => by simp [hnames, hj]) hidx
  · obtain ⟨holders, hheld⟩ := h.held
    refine ⟨holders, hheld.of_locks (fun j => ?_) hidx⟩
    by_cases hj : j = i
    · simp [hdata, hj, hlock]
    · simp [hdata, hj]

theorem tryInsert (h : Refines s a) (hN : 2 ≤ N) (filepath buff : Bytes) (first : ℕ) (wd : ℤ)
    (hpath : s.cache.filepathToCacheIdx filepath = none) :
    ∃ t o, cacheStep s (.tryInsert filepath buff first wd) = some (t, o) ∧
      Refines t (Lru.step N a (.insert filepath buff)).1 ∧
      o.observe = (Lru.step N a (.insert filepath buff)).2 := by
  obtain ⟨l, hl, hentries⟩ := h.entries
  have hlen : a.entries.length < N ↔ s.cache.freeIdxs ≠ ∅ := by
    rw [hentries, List.length_map]
    exact hl.length_lt_iff
  have hwf : s.cache.WellFormed := ⟨⟨l, hl⟩, h.paths⟩
  obtain ⟨c', done, hc', hwf'⟩ := (hwf.tryInsert_iff hN buff first wd).mp (Or.inl hpath)
  rcases hl.tryInsertItem_cases hN filepath buff first wd with
    ⟨i, hi, heq⟩ | ⟨hfree, low, newLow, rest, rfl, hlock, heq⟩ | ⟨hfree, low, rest, rfl, hlock, heq⟩
  · obtain ⟨rfl, rfl⟩ : _ = c' ∧ true = done := by simpa [heq] using hc'
    have hfree : i ∈ s.cache.freeIdxs := (hl.free_iff i).mpr hi
    have hinsert : Lru.insert N a.entries filepath buff =
        some (a.entries ++ [⟨filepath, buff, 0⟩]) := by
      simp [Lru.insert, hlen, Finset.ne_empty_of_mem hfree]
    refine ⟨_, _, by rw [cacheStep, heq]; rfl, ?_, ?_⟩
    · simp only [Lru.step, hinsert]
      refine h.insertAt filepath buff wd (h.unlocked i hfree) hwf' (hl.takeFree hi ..) ?_
        (insertAt_cacheIdxToFilepath ..) ?_ (insertAt_clientIdxToCacheIdx ..) ?_
      · rw [hentries]
      · have hdata : (s.cache.takeFree i).data = s.cache.data := rfl
        simp [insertAt_data, hdata, h.unlocked i hfree, h.current i]
      · rw [insertAt_freeIdxs]
        exact Finset.erase_subset _ _
    · simp [Lru.step, hinsert, CacheResult.observe]
  · obtain ⟨rfl, rfl⟩ : _ = c' ∧ true = done := by simpa [heq] using hc'
    have hfull : ¬a.entries.length < N := by simp [hlen, hfree]
    have hinsert : Lru.insert N a.entries filepath buff =
        some ((newLow :: rest).map s.cache.entry ++ [⟨filepath, buff, 0⟩]) := by
      rw [hentries] at hfull ⊢
      rw [List.map_cons, Lru.insert_of_full _ _ hfull]
      simp [entry, hlock]
    refine ⟨_, _, by rw [cacheStep, heq]; rfl, ?_, ?_⟩
    · simp only [Lru.step, hinsert]
      refine h.insertAt filepath buff wd hlock hwf' (hl.evictLowest ..) rfl ?_ ?_ ?_ ?_
      · rw [insertAt_cacheIdxToFilepath]
        simp [Cache.evictLowest, modifyItem]
      · rw [insertAt_data, evictLowest_data]
        simp
      · rw [insertAt_clientIdxToCacheIdx]
        rfl
      · rw [insertAt_freeIdxs]
        exact subset_rfl
    · simp [Lru.step, hinsert, CacheResult.observe]
  · have hfull : ¬a.entries.length < N := by simp [hlen, hfree]
    have hinsert : Lru.insert N a.entries filepath buff = none := by
      rw [hentries] at hfull ⊢
      rw [List.map_cons, Lru.insert_of_full _ _ hfull]
      simp [entry, hlock]
    refine ⟨_, _, by rw [cacheStep, heq]; rfl, ?_, ?_⟩
    · simpa only [Lru.step, hinsert] using h
    · simp [Lru.step, hinsert, CacheResult.observe]

theorem finished (h : Refines s a) (clientIdx : ℕ) :
    ∃ t o, cacheStep s (.finished clientIdx) = some (t, o) ∧
      Refines t (Lru.step N a (.finish clientIdx)).1 ∧
      o.observe = (Lru.step N a (.finish clientIdx)).2 := by
  obtain ⟨l, hl, hentries⟩ := h.entries
  obtain ⟨holders, hheld⟩ := h.held
  by_cases hk : (s.clients clientIdx).usingFile = true
  · obtain ⟨i, hi, -⟩ := hheld.holds clientIdx hk
    have hpos := hheld.lockNumber_pos hk hi
    have hmem : i ∈ l := by
      by_contra hnot
      have := h.unlocked i ((hl.free_iff i).mpr hnot)
      omega
    obtain ⟨p, hp⟩ := (hl.named_iff i).mpr hmem
    have hinUse : a.inUse clientIdx = some p := by simp [h.inUse clientIdx, hk, hi, hp]
    have hidx : s.cache.cacheIdxOf clientIdx = some i := by simp [cacheIdxOf, hi]
    have hsame : Function.update s.cache.clientIdxToCacheIdx clientIdx (some i) =
        s.cache.clientIdxToCacheIdx := by
      rw [← hi, Function.update_eq_self]
    refine ⟨_, _, by simp only [cacheStep, finishedWithItem, hk, if_true, hidx]; rfl, ?_, ?_⟩
    · simp only [Lru.step, hinUse, hsame]
      set c' : Cache N := s.cache.modifyItem i fun item => { item with lockNumber := item.lockNumber - 1 }
        with hc'
      have hdata : c'.data = Function.update s.cache.data i
          { s.cache.data i with lockNumber := (s.cache.data i).lockNumber - 1 } := by
        funext j
        by_cases hj : j = i <;> simp [hc', modifyItem, data, CacheItem.data, hj]
      have hlinks : c'.links = s.cache.links := by
        ext j m <;> by_cases hj : j = i <;> simp [hc', modifyItem, links, hj]
      refine ⟨⟨l, hl.congr hlinks rfl rfl, ?_⟩, h.paths, ?_, ?_, ?_, ?_⟩
      · rw [Lru.release, hentries, List.map_map]
        refine List.map_congr_left fun j hj => ?_
        by_cases hji : j = i
        · subst hji
          simp [entry, hdata, hp, show c'.cacheIdxToFilepath j = some p from hp]
        · have hkey := h.paths.entry_key_ne hl hmem hj hji
          have hkey' : (s.cache.entry i).key = p := by simp [entry, hp]
          rw [hkey'] at hkey
          simp [hkey]
          simp [entry, hdata, hji, show c'.cacheIdxToFilepath j = s.cache.cacheIdxToFilepath j from rfl]
      · intro j
        by_cases hj : j = i
        · subst hj
          simpa [hdata] using h.current j
        · simpa [hdata, hj] using h.current j
      · intro j hj
        have hji : j ≠ i := by
          rintro rfl
          exact (hl.free_iff j).mp hj hmem
        simpa [hdata, hji] using h.unlocked j hj
      · intro k
        by_cases hkk : k = clientIdx
        · simp [hkk]
        · simp only [Function.update_of_ne hkk]
          exact h.inUse k
      · exact ⟨_, hheld.unlock _ rfl hk hi hdata rfl⟩
    · simp [Lru.step, hinUse, CacheResult.observe]
  · have hinUse : a.inUse clientIdx = none := by simp [h.inUse clientIdx, hk]
    have hsame : Function.update s.clients clientIdx (s.clients clientIdx) = s.clients := by simp
    refine ⟨_, _, by simp only [cacheStep, finishedWithItem, hk]; rfl, ?_, ?_⟩
    · simp only [Lru.step, hinUse, hsame]
      exact h
    · simp [Lru.step, hinUse, CacheResult.observe]

end Refines

/-- One call on the cache is one call on the abstract list. -/
theorem cacheStep_refines (hN : 2 ≤ N) (s : CacheState N) (a : Lru.State Bytes Bytes) (op : CacheOp)
    (h : Refines s a) (hop : s.cache.Unmodified op) :
    ∃ k t o, op.lruOp = some k ∧ cacheStep s op = some (t, o) ∧ Refines t (Lru.step N a k).1 ∧
      o.observe = (Lru.step N a k).2 := by
  cases op with
  | fetch filepath clientIdx =>
      cases hpath : s.cache.filepathToCacheIdx filepath with
      | none =>
          obtain ⟨t, o, hstep⟩ := h.fetch_miss filepath clientIdx hpath
          exact ⟨_, t, o, rfl, hstep⟩
      | some i =>
          obtain ⟨t, o, hstep⟩ := h.fetch_hit filepath clientIdx hpath
          exact ⟨_, t, o, rfl, hstep⟩
  | tryInsert filepath buff first wd =>
      obtain ⟨t, o, hstep⟩ := h.tryInsert hN filepath buff first wd hop
      exact ⟨_, t, o, rfl, hstep⟩
  | inotify watch => exact hop.elim
  | finished clientIdx =>
      obtain ⟨t, o, hstep⟩ := h.finished clientIdx
      exact ⟨_, t, o, rfl, hstep⟩

/-- **The cache is a least-recently-used list.** Any sequence of calls without modification events, in
which only paths that are not cached are inserted, is defined; its results are those of the abstract
list of capacity `N` on the same calls, whatever free slots the hash table yields, and the cache
reached refines the list reached. An insertion that returns false changes nothing. -/
theorem cache_refines_lru (hN : 2 ≤ N) (ops : List CacheOp)
    (hops : Runs.Along cacheStep (fun s op => s.cache.Unmodified op) ({} : CacheState N) ops) :
    ∃ t results, cacheRun N ops = some (t, results) ∧
      Refines t (Runs.trace (Lru.step N) {} (ops.filterMap CacheOp.lruOp)).1 ∧
      results.map CacheResult.observe = (Runs.trace (Lru.step N) {} (ops.filterMap CacheOp.lruOp)).2 ∧
      (Runs.trace (Lru.step N) {} (ops.filterMap CacheOp.lruOp)).1.entries.length ≤ N ∧
      ∀ filepath buff first wd u, cacheStep t (.tryInsert filepath buff first wd) =
        some (u, .inserted false) → u = t := by
  obtain ⟨t, results, hrun, href, hobs⟩ :=
    Runs.exec_simulates (cacheStep_refines hN) Refines.empty hops
  refine ⟨t, results, hrun, href, hobs, href.length_le, fun filepath buff first wd u hu => ?_⟩
  obtain ⟨l, hl, -⟩ := href.entries
  rcases hl.tryInsertItem_cases hN filepath buff first wd with
    ⟨i, -, heq⟩ | ⟨-, low, newLow, rest, -, -, heq⟩ | ⟨-, low, rest, -, -, heq⟩
  · simp [cacheStep, heq] at hu
  · simp [cacheStep, heq] at hu
  · simpa [cacheStep, heq] using hu.symm

/-- On two slots: two files are cached, the first is fetched and a third file replaces the second. -/
theorem cache_refines_lru_replace :
    Runs.Along cacheStep (fun s op => s.cache.Unmodified op) ({} : CacheState 2)
        [.tryInsert [112] [1] 0 7, .tryInsert [113] [2] 1 8, .fetch [112] 0, .tryInsert [114] [3] 0 9] ∧
      ∃ t results, cacheRun 2 [.tryInsert [112] [1] 0 7, .tryInsert [113] [2] 1 8, .fetch [112] 0,
          .tryInsert [114] [3] 0 9] = some (t, results) ∧
        results.map CacheResult.observe =
          [.inserted true, .inserted true, .fetched (some [1]), .inserted true] := by
  have hops : Runs.Along cacheStep (fun s op => s.cache.Unmodified op) ({} : CacheState 2)
      [.tryInsert [112] [1] 0 7, .tryInsert [113] [2] 1 8, .fetch [112] 0, .tryInsert [114] [3] 0 9] := by
    refine ⟨rfl, ?_⟩
    rintro _ _ ⟨⟩
    refine ⟨rfl, ?_⟩
    rintro _ _ ⟨⟩
    refine ⟨trivial, ?_⟩
    rintro _ _ ⟨⟩
    exact ⟨rfl, fun _ _ _ => trivial⟩
  obtain ⟨t, results, hrun, -, hobs, -⟩ := cache_refines_lru le_rfl _ hops
  exact ⟨hops, t, results, hrun, hobs⟩

end LiburingServer
