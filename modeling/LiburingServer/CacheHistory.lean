import LiburingServer.CacheList

/-! What a hit returns, against the history of the cache. The history of a path is its most recent
successful insertion and whether its watch has reported a modification since. Up to the first fetch
of an outdated item, a hit returns the bytes of that insertion and no modification was reported. -/

namespace LiburingServer

open IndexList

/-- The most recent successful insertion of a path, and whether an event for its watch came since. -/
structure Insertion where
  bytes : Bytes
  watch : ℤ
  modified : Bool
  deriving DecidableEq

variable {N : ℕ}

/-- How one call and its result extend the history of `filepath`. -/
def recordCall (filepath : Bytes) (last : Option Insertion) :
    CacheOp × CacheResult N → Option Insertion
  | (.tryInsert path buff _ wd, .inserted true) =>
      if path = filepath then some ⟨buff, wd, false⟩ else last
  | (.inotify watch, _) =>
      last.map fun ins => if ins.watch = watch then { ins with modified := true } else ins
  | _ => last

/-- The history of a path after a sequence of calls. -/
def lastInsertion (filepath : Bytes) (calls : List (CacheOp × CacheResult N)) : Option Insertion :=
  calls.foldl (recordCall filepath) none

/-- A successful insertion replaces the history of its path. -/
theorem recordCall_inserted (history : Bytes → Option Insertion) (filepath buff : Bytes) (first : ℕ)
    (wd : ℤ) :
    (fun p => recordCall (N := N) p (history p) (.tryInsert filepath buff first wd, .inserted true)) =
      Function.update history filepath (some ⟨buff, wd, false⟩) := by
  funext p
  by_cases hp : p = filepath
  · subst hp
    simp [recordCall]
  · simp [recordCall, hp, Ne.symm hp]

/-- A descriptor that `inotify_add_watch` returns names one path for the whole run. -/
def OneWatchPerPath (owner : ℤ → Bytes) (ops : List CacheOp) : Prop :=
  ∀ filepath buff first wd, CacheOp.tryInsert filepath buff first wd ∈ ops → owner wd = filepath

/-- A fetch does not find an item that is flagged outdated. -/
def Cache.NoOutdatedHit (c : Cache N) : CacheOp → Prop
  | .fetch filepath _ => ∀ i, c.filepathToCacheIdx filepath = some i → (c.cacheBuffer i).outdated = false
  | _ => True

/-- If a fetch of `filepath` after the calls `before` hits, it returns the bytes of the most recent
insertion of `filepath`, and no modification was reported since that insertion. -/
def HitFaithful (N : ℕ) (before : List CacheOp) (filepath : Bytes) (clientIdx : ℕ) : Prop :=
  ∀ s results t item, cacheRun N before = some (s, results) →
    cacheStep s (.fetch filepath clientIdx) = some (t, .fetched item) → item.found = true →
    ∃ wd, lastInsertion filepath (before.zip results) = some ⟨item.bytes, wd, false⟩

namespace Cache

/-- The cache agrees with the history: a mapped path is mapped to the slot its last insertion filled,
and watches lead to the slots they were added for. -/
structure Traced (owner : ℤ → Bytes) (c : Cache N) (history : Bytes → Option Insertion) : Prop where
  mapped : ∀ p i, c.filepathToCacheIdx p = some i → c.cacheIdxToFilepath i = some p ∧
    ∃ ins, history p = some ins ∧ (c.data i).buffer = ins.bytes ∧ (c.data i).watch = ins.watch ∧
      (c.data i).outdated = ins.modified ∧ c.watchToCacheIdx ins.watch = some i
  watched : ∀ w i, c.watchToCacheIdx w = some i → (c.data i).watch = w ∧ i ∉ c.freeIdxs
  owned : ∀ i p, c.cacheIdxToFilepath i = some p → owner (c.data i).watch = p
  fresh : ∀ i ∈ c.freeIdxs, (c.data i).outdated = false

theorem traced_empty (owner : ℤ → Bytes) : Traced owner ({} : Cache N) fun _ => none := by
  refine ⟨?_, ?_, ?_, ?_⟩
  · intro p i h
    simp at h
  · intro w i h
    simp at h
  · intro i p h
    simp at h
  · intro i _
    rfl

/-- The parts of an item's contents that the history speaks of; locks are not among them. -/
def SameTrace (a b : ItemData) : Prop :=
  a.buffer = b.buffer ∧ a.watch = b.watch ∧ a.outdated = b.outdated

variable {owner : ℤ → Bytes} {c c' : Cache N} {history : Bytes → Option Insertion} {i : Fin N}
  {filepath : Bytes} {wd : ℤ}

namespace Traced

/-- Locks and the order of the list do not matter. -/
theorem congr (h : Traced owner c history) (hmaps : SameMaps c c')
    (hdata : ∀ i, SameTrace (c'.data i) (c.data i)) : Traced owner c' history := by
  refine ⟨fun p i hp => ?_, fun w i hw => ?_, fun i p hp => ?_, fun i hi => ?_⟩
  · rw [hmaps.filepath] at hp
    obtain ⟨hname, ins, hins, hbuffer, hwatch, hout, hslot⟩ := h.mapped p i hp
    obtain ⟨hb, hw, ho⟩ := hdata i
    exact ⟨by rw [hmaps.names, hname], ins, hins, by rw [hb, hbuffer], by rw [hw, hwatch],
      by rw [ho, hout], by rw [hmaps.watches, hslot]⟩
  · rw [hmaps.watches] at hw
    rw [(hdata i).2.1, hmaps.free]
    exact h.watched w i hw
  · rw [hmaps.names] at hp
    rw [(hdata i).2.1]
    exact h.owned i p hp
  · rw [hmaps.free] at hi
    rw [(hdata i).2.2]
    exact h.fresh i hi

/-- Insertion into slot `i` of a cache in which nothing leads to `i` any more. -/
theorem insertAt (h : Traced owner c history) (buff : Bytes) (howner : owner wd = filepath)
    (hname : c.cacheIdxToFilepath i = none) (hwatch : ∀ w, c.watchToCacheIdx w ≠ some i)
    (hout : (c.data i).outdated = false) (hfree : i ∉ c.freeIdxs) :
    Traced owner (c.insertAt i filepath buff wd)
      (Function.update history filepath (some ⟨buff, wd, false⟩)) := by
  refine ⟨fun p j hp => ?_, fun w j hw => ?_, fun j p hp => ?_, fun j hj => ?_⟩
  · rw [insertAt_filepathToCacheIdx] at hp
    rw [insertAt_cacheIdxToFilepath, insertAt_data, insertAt_watchToCacheIdx]
    by_cases hpath : p = filepath
    · subst hpath
      obtain rfl : i = j := by simpa using hp
      exact ⟨by simp, ⟨buff, wd, false⟩, by simp, by simp, by simp, by simpa using hout, by simp⟩
    · rw [Function.update_of_ne hpath] at hp
      obtain ⟨hj, ins, hins, hbuffer, hwatch', hout', hslot⟩ := h.mapped p j hp
      have hji : j ≠ i := by
        rintro rfl
        simp [hname] at hj
      -- another path has another descriptor
      have hw : ins.watch ≠ wd := by
        rintro rfl
        rw [← hwatch', h.owned j p hj] at howner
        exact hpath howner
      exact ⟨by simpa [hji] using hj, ins, by simpa [hpath] using hins, by simpa [hji] using hbuffer,
        by simpa [hji] using hwatch', by simpa [hji] using hout', by simpa [hw] using hslot⟩
  · rw [insertAt_watchToCacheIdx] at hw
    rw [insertAt_data, insertAt_freeIdxs]
    by_cases hwd : w = wd
    · subst hwd
      obtain rfl : i = j := by simpa using hw
      exact ⟨by simp, hfree⟩
    · rw [Function.update_of_ne hwd] at hw
      have hji : j ≠ i := by
        rintro rfl
        exact hwatch w hw
      simpa [hji] using h.watched w j hw
  · rw [insertAt_cacheIdxToFilepath] at hp
    rw [insertAt_data]
    by_cases hji : j = i
    · subst hji
      obtain rfl : filepath = p := by simpa using hp
      simpa using howner
    · rw [Function.update_of_ne hji] at hp
      simpa [hji] using h.owned j p hp
  · rw [insertAt_freeIdxs] at hj
    have hji : j ≠ i := by
      rintro rfl
      exact hfree hj
    rw [insertAt_data]
    simpa [hji] using h.fresh j hj

theorem takeFree (h : Traced owner c history) : Traced owner (c.takeFree i) history where
  mapped := h.mapped
  watched w j hw := ⟨(h.watched w j hw).1, fun hj => (h.watched w j hw).2 (Finset.mem_of_mem_erase hj)⟩
  owned := h.owned
  fresh j hj := h.fresh j (Finset.mem_of_mem_erase hj)

/-- Evicting a named slot removes its path and its watch and touches no other path. -/
theorem evictLowest {low : Fin N} {q : Bytes} (h : Traced owner c history) (newLow : Fin N)
    (hq : c.cacheIdxToFilepath low = some q) : Traced owner (c.evictLowest low newLow) history := by
  have hfile : (c.evictLowest low newLow).filepathToCacheIdx =
      Function.update c.filepathToCacheIdx q none := by
    simp [Cache.evictLowest, modifyItem, hq]
  have hnames : (c.evictLowest low newLow).cacheIdxToFilepath =
      Function.update c.cacheIdxToFilepath low none := rfl
  refine ⟨fun p j hp => ?_, fun w j hw => ?_, fun j p hp => ?_, fun j hj => ?_⟩
  · rw [hfile] at hp
    rw [hnames, evictLowest_data, evictLowest_watchToCacheIdx]
    have hpq : p ≠ q := by
      rintro rfl
      simp at hp
    rw [Function.update_of_ne hpq] at hp
    obtain ⟨hj, ins, hins, hbuffer, hwatch, hout, hslot⟩ := h.mapped p j hp
    have hjl : j ≠ low := by
      rintro rfl
      exact hpq (by simpa [hj] using hq)
    have hw : ins.watch ≠ (c.data low).watch := by
      intro heq
      have := h.owned low q hq
      rw [← heq, ← hwatch, h.owned j p hj] at this
      exact hpq this
    exact ⟨by simpa [hjl] using hj, ins, hins, by simpa [hjl] using hbuffer,
      by simpa [hjl] using hwatch, by simpa [hjl] using hout, by simpa [hw] using hslot⟩
  · rw [evictLowest_watchToCacheIdx] at hw
    rw [evictLowest_data]
    have hne : w ≠ (c.data low).watch := by
      rintro rfl
      simp at hw
    rw [Function.update_of_ne hne] at hw
    have hjl : j ≠ low := by
      rintro rfl
      exact hne (h.watched w j hw).1.symm
    rw [Function.update_of_ne hjl]
    exact h.watched w j hw
  · rw [hnames] at hp
    rw [evictLowest_data]
    have hjl : j ≠ low := by
      rintro rfl
      simp at hp
    rw [Function.update_of_ne hjl] at hp
    simpa [hjl] using h.owned j p hp
  · rw [evictLowest_data]
    by_cases hjl : j = low
    · simp [hjl]
    · simpa [hjl] using h.fresh j hj

/-- A modification event marks the slot of its watch and the history of the paths inserted with it. -/
theorem inotifyEventHandler (h : Traced owner c history) (watch : ℤ) :
    Traced owner (c.inotifyEventHandler watch) fun p => (history p).map fun ins =>
      if ins.watch = watch then { ins with modified := true } else ins := by
  cases hslot : c.watchToCacheIdx watch with
  | none =>
      have heq : c.inotifyEventHandler watch = c := by simp [Cache.inotifyEventHandler, hslot]
      rw [heq]
      refine ⟨fun p i hp => ?_, h.watched, h.owned, h.fresh⟩
      obtain ⟨hname, ins, hins, hrest⟩ := h.mapped p i hp
      have hne : ins.watch ≠ watch := by
        rintro rfl
        rw [hrest.2.2.2] at hslot
        simp at hslot
      exact ⟨hname, ins, by simp [hins, hne], hrest⟩
  | some k =>
      have hdata := inotifyEventHandler_data c hslot
      obtain ⟨hlinks, hmaps⟩ := c.inotifyEventHandler_frame watch
      obtain ⟨hwatch_k, hfree_k⟩ := h.watched watch k hslot
      refine ⟨fun p i hp => ?_, fun w i hw => ?_, fun i p hp => ?_, fun i hi => ?_⟩
      · rw [hmaps.filepath] at hp
        rw [hmaps.names, hmaps.watches, hdata]
        obtain ⟨hname, ins, hins, hbuffer, hwatch, hout, hslot'⟩ := h.mapped p i hp
        by_cases heq : ins.watch = watch
        · obtain rfl : k = i := by
            rw [heq, hslot] at hslot'
            simpa using hslot'
          exact ⟨hname, { ins with modified := true }, by simp [hins, heq], by simpa using hbuffer,
            by simpa using hwatch, by simp, hslot'⟩
        · have hik : i ≠ k := by
            rintro rfl
            exact heq (hwatch.symm.trans hwatch_k)
          exact ⟨hname, ins, by simp [hins, heq], by simpa [hik] using hbuffer,
            by simpa [hik] using hwatch, by simpa [hik] using hout, hslot'⟩
      · rw [hmaps.watches] at hw
        rw [hmaps.free, hdata]
        by_cases hik : i = k
        · subst hik
          simpa using h.watched w i hw
        · simpa [hik] using h.watched w i hw
      · rw [hmaps.names] at hp
        rw [hdata]
        by_cases hik : i = k
        · subst hik
          simpa using h.owned i p hp
        · simpa [hik] using h.owned i p hp
      · rw [hmaps.free] at hi
        have hik : i ≠ k := by
          rintro rfl
          exact hfree_k hi
        rw [hdata]
        simpa [hik] using h.fresh i hi

end Traced

/-- Finishing with an item changes a lock and nothing the history speaks of. -/
theorem finishedWithItem_data {clientIdx : ℕ} {client client' : TcpClient}
    (h : c.finishedWithItem clientIdx client = some (c', client')) (i : Fin N) :
    SameTrace (c'.data i) (c.data i) := by
  unfold finishedWithItem at h
  split at h
  · cases hidx : c.cacheIdxOf clientIdx with
    | none => simp [hidx] at h
    | some k =>
        obtain ⟨rfl, -⟩ : _ = c' ∧ _ := by simpa [hidx] using h
        by_cases hik : i = k <;> simp [SameTrace, modifyItem, data, CacheItem.data, hik]
  · obtain ⟨rfl, -⟩ : c = c' ∧ _ := by simpa using h
    exact ⟨rfl, rfl, rfl⟩

end Cache

open Cache

/-- One call keeps the agreement with the history, and is defined. -/
theorem cacheStep_traced (hN : 2 ≤ N) {owner : ℤ → Bytes} {s : CacheState N}
    {history : Bytes → Option Insertion} (op : CacheOp) (howner : OneWatchPerPath owner [op])
    (hrecency : ∃ l, s.cache.Recency l) (h : Traced owner s.cache history)
    (hop : s.cache.NoOutdatedHit op) :
    ∃ t o, cacheStep s op = some (t, o) ∧ (∃ l, t.cache.Recency l) ∧
      Traced owner t.cache fun p => recordCall p (history p) (op, o) := by
  obtain ⟨l, hl⟩ := hrecency
  cases op with
  | fetch filepath clientIdx =>
      cases hpath : s.cache.filepathToCacheIdx filepath with
      | none =>
          have hmiss := s.cache.fetchItem_miss filepath clientIdx (s.clients clientIdx) hpath
          refine ⟨_, _, by rw [cacheStep, hmiss]; rfl, ?_, ?_⟩
          · exact ⟨l, hl⟩
          · exact h
      | some i =>
          have hi : i ∈ l := (hl.named_iff i).mp ⟨filepath, (h.mapped _ _ hpath).1⟩
          obtain ⟨hhigh, hlow⟩ := hl.ends_ne_none hi
          obtain ⟨c', hc', hlinks, hdata, hmaps, -⟩ := s.cache.fetchItem_hit i filepath clientIdx
            (s.clients clientIdx) hpath (hop i hpath) hhigh hlow
          obtain ⟨l₁, l₂, rfl⟩ := List.append_of_mem hi
          refine ⟨_, _, by rw [cacheStep, hc']; rfl, ⟨_, hl.touch hlinks hmaps.free hmaps.names⟩,
            h.congr hmaps fun j => ?_⟩
          by_cases hj : j = i <;> simp [hdata, SameTrace, hj]
  | tryInsert filepath buff first wd =>
      have how : owner wd = filepath := howner filepath buff first wd (by simp)
      rcases hl.tryInsertItem_cases hN filepath buff first wd with
        ⟨i, hi, heq⟩ | ⟨hfree, low, newLow, rest, rfl, -, heq⟩ | ⟨-, -, -, -, -, heq⟩
      · have hfree : i ∈ s.cache.freeIdxs := (hl.free_iff i).mpr hi
        have hname : s.cache.cacheIdxToFilepath i = none := by
          by_contra hne
          exact hi ((hl.named_iff i).mp (Option.ne_none_iff_exists'.mp hne))
        refine ⟨_, _, by rw [cacheStep, heq]; rfl, ⟨_, hl.takeFree hi filepath buff wd⟩, ?_⟩
        have htaken : Traced owner (s.cache.takeFree i) history := h.takeFree
        have hins := htaken.insertAt (i := i) buff how hname
          (fun w hw => (h.watched w i hw).2 hfree) (h.fresh i hfree) (by simp [Cache.takeFree])
        rwa [← recordCall_inserted (N := N) history filepath buff first wd] at hins
      · obtain ⟨q, hq⟩ := (hl.named_iff low).mpr (by simp)
        refine ⟨_, _, by rw [cacheStep, heq]; rfl, ⟨_, hl.evictLowest filepath buff wd⟩, ?_⟩
        have hev := h.evictLowest newLow hq
        have hwatch : ∀ w, (s.cache.evictLowest low newLow).watchToCacheIdx w ≠ some low := by
          intro w hw
          rw [evictLowest_watchToCacheIdx] at hw
          by_cases hne : w = (s.cache.data low).watch
          · simp [hne] at hw
          · rw [Function.update_of_ne hne] at hw
            exact hne (h.watched w low hw).1.symm
        have hins := hev.insertAt (i := low) buff how (by simp [Cache.evictLowest]) hwatch
          (by simp [evictLowest_data]) (by simp [Cache.evictLowest, modifyItem, hfree])
        rwa [← recordCall_inserted (N := N) history filepath buff first wd] at hins
      · refine ⟨_, _, by rw [cacheStep, heq]; rfl, ?_, ?_⟩
        · exact ⟨l, hl⟩
        · exact h
  | inotify watch =>
      obtain ⟨hlinks, hmaps⟩ := s.cache.inotifyEventHandler_frame watch
      exact ⟨_, _, rfl, ⟨l, hl.congr hlinks hmaps.free hmaps.names⟩, h.inotifyEventHandler watch⟩
  | finished clientIdx =>
      obtain ⟨c', client', hc', hlinks, hmaps⟩ :=
        s.cache.finishedWithItem_frame (by omega) clientIdx (s.clients clientIdx)
      exact ⟨_, _, by rw [cacheStep, hc']; rfl, ⟨l, hl.congr hlinks hmaps.free hmaps.names⟩,
        h.congr hmaps (finishedWithItem_data hc')⟩

/-- A run without outdated hits is defined and ends in agreement with the history. -/
theorem exec_traced (hN : 2 ≤ N) {owner : ℤ → Bytes} {s : CacheState N}
    {history : Bytes → Option Insertion} (ops : List CacheOp) (howner : OneWatchPerPath owner ops)
    (hrecency : ∃ l, s.cache.Recency l) (h : Traced owner s.cache history)
    (hops : Runs.Along cacheStep (fun s op => s.cache.NoOutdatedHit op) s ops) :
    ∃ t os, Runs.exec cacheStep s ops = some (t, os) ∧ (∃ l, t.cache.Recency l) ∧
      Traced owner t.cache fun p => (ops.zip os).foldl (recordCall p) (history p) := by
  induction ops generalizing s history with
  | nil => exact ⟨s, [], rfl, hrecency, h⟩
  | cons op ops ih =>
      obtain ⟨hop, hrest⟩ := hops
      have hone : OneWatchPerPath owner [op] := fun p b f wd hmem =>
        howner p b f wd (by rw [List.mem_singleton.mp hmem]; simp)
      have hlater : OneWatchPerPath owner ops := fun p b f wd hmem => howner p b f wd (by simp [hmem])
      obtain ⟨t, o, ht, hrec, htr⟩ := cacheStep_traced hN op hone hrecency h hop
      obtain ⟨u, os, hu, hrec', htr'⟩ := ih hlater hrec htr (hrest t o ht)
      exact ⟨u, o :: os, by simp [Runs.exec, ht, hu], hrec', htr'⟩

/-- **A hit returns the last insertion.** After any sequence of calls in which no fetch found an
outdated item, a hit on a path returns exactly the bytes of the most recent successful insertion of
that path, and no modification event for its watch came since. -/
theorem hit_faithful (hN : 2 ≤ N) (owner : ℤ → Bytes) (before : List CacheOp)
    (howner : OneWatchPerPath owner before)
    (hbefore : Runs.Along cacheStep (fun s op => s.cache.NoOutdatedHit op) ({} : CacheState N) before)
    (filepath : Bytes) (clientIdx : ℕ) : HitFaithful N before filepath clientIdx := by
  intro s results t item hs ht hfound
  obtain ⟨s', results', hs', ⟨l, hl⟩, htr⟩ :=
    exec_traced hN before howner wellFormed_empty.1 (traced_empty owner) hbefore
  obtain ⟨rfl, rfl⟩ : s' = s ∧ results' = results := by
    rw [cacheRun] at hs
    simpa [hs'] using hs
  simp only [cacheStep, Option.map_eq_some_iff, Prod.mk.injEq, CacheResult.fetched.injEq] at ht
  obtain ⟨⟨c', client', item'⟩, hc', -, rfl⟩ := ht
  cases hpath : s'.cache.filepathToCacheIdx filepath with
  | none =>
      rw [fetchItem_miss _ _ _ _ hpath] at hc'
      obtain ⟨-, -, rfl⟩ : _ ∧ _ ∧ _ = item' := by simpa using hc'
      simp at hfound
  | some i =>
      obtain ⟨hname, ins, hins, hbuffer, -, hout, -⟩ := htr.mapped filepath i hpath
      by_cases hmod : (s'.cache.data i).outdated = true
      · obtain ⟨d, hd, -⟩ := s'.cache.fetchItem_outdated i filepath clientIdx _ hpath hmod
        rw [hd] at hc'
        obtain ⟨-, -, rfl⟩ : _ ∧ _ ∧ _ = item' := by simpa using hc'
        simp at hfound
      · have hi : i ∈ l := (hl.named_iff i).mp ⟨filepath, hname⟩
        obtain ⟨hhigh, hlow⟩ := hl.ends_ne_none hi
        obtain ⟨d, hd, -, hdata, -⟩ := s'.cache.fetchItem_hit i filepath clientIdx
          (s'.clients clientIdx) hpath (by simpa using hmod) hhigh hlow
        rw [hd] at hc'
        obtain ⟨-, -, rfl⟩ : _ ∧ _ ∧ d.foundItem i = item' := by simpa using hc'
        have hbytes : (d.foundItem i).bytes = ins.bytes := by
          have := congrFun hdata i
          rw [Function.update_self] at this
          rw [← hbuffer]
          exact congrArg ItemData.buffer this
        refine ⟨ins.watch, ?_⟩
        simp only [Bool.not_eq_true] at hmod
        rw [lastInsertion, hins, hbytes, ← hmod, hout]

/-- Two files are cached on two slots and the first is fetched: the hit returns its bytes. -/
theorem hit_faithful_two_files :
    OneWatchPerPath (fun wd => if wd = 7 then [112] else [113])
        [.tryInsert [112] [1] 0 7, .tryInsert [113] [2] 1 8] ∧
      HitFaithful 2 [.tryInsert [112] [1] 0 7, .tryInsert [113] [2] 1 8] [112] 0 := by
  have howner : OneWatchPerPath (fun wd => if wd = 7 then [112] else [113])
      [.tryInsert [112] [1] 0 7, .tryInsert [113] [2] 1 8] := by
    intro p b f wd hmem
    simp only [List.mem_cons, CacheOp.tryInsert.injEq, List.not_mem_nil, or_false] at hmem
    rcases hmem with ⟨rfl, -, -, rfl⟩ | ⟨rfl, -, -, rfl⟩ <;> rfl
  exact ⟨howner, hit_faithful le_rfl _ _ howner
    ⟨trivial, fun _ _ _ => ⟨trivial, fun _ _ _ => trivial⟩⟩ _ _⟩

/-- A file is cached, modified and fetched; its freed slot is given to another file. The next fetch of
the first path hits and returns the bytes of the other file. -/
theorem hit_foreign_bytes :
    OneWatchPerPath (fun wd => if wd = 7 then [112] else [113])
        [.tryInsert [112] [1] 0 7, .inotify 7, .fetch [112] 0, .tryInsert [113] [2] 0 8] ∧
      ¬HitFaithful 2 [.tryInsert [112] [1] 0 7, .inotify 7, .fetch [112] 0, .tryInsert [113] [2] 0 8]
        [112] 0 := by
  refine ⟨?_, fun h => ?_⟩
  · intro p b f wd hmem
    simp only [List.mem_cons, CacheOp.tryInsert.injEq, reduceCtorEq, List.not_mem_nil, or_false,
      false_or] at hmem
    rcases hmem with ⟨rfl, -, -, rfl⟩ | ⟨rfl, -, -, rfl⟩ <;> rfl
  · obtain ⟨wd, hwd⟩ := h _ _ _ _ rfl rfl rfl
    have hbytes : (some [1] : Option Bytes) = some [2] := congrArg (Option.map Insertion.bytes) hwd
    simp at hbytes

end LiburingServer
