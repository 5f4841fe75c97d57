import LiburingServer.CacheLru
import LiburingServer.Lib.LruDistance

/-! How long the cache keeps a file: until as many other paths as it has slots were found in it or inserted since the
file was. -/

namespace LiburingServer

variable {N : ℕ}

/-- The path and the bytes of a call that finds a file or inserts it. -/
def CacheOp.touched : CacheOp → CacheResult N → Option (Bytes × Bytes)
  | .fetch filepath _, .fetched item => if item.found then some (filepath, item.bytes.take item.size) else none
  | .tryInsert filepath buff _ _, .inserted true => some (filepath, buff)
  | _, _ => none

/-- The paths that a run of calls finds or inserts. -/
def touchedPaths (calls : List (CacheOp × CacheResult N)) : Finset Bytes :=
  (calls.filterMap fun call => (call.1.touched call.2).map Prod.fst).toFinset

theorem touched_lruOp {op : CacheOp} {k : Lru.Op Bytes Bytes} (h : op.lruOp = some k) (o : CacheResult N) :
    Lru.touched k o.observe = op.touched o := by
  cases op with
  | fetch filepath clientIdx =>
      obtain rfl : Lru.Op.fetch filepath clientIdx = k := Option.some.inj h
      cases o with
      | fetched item =>
          by_cases hfound : item.found <;> simp [Lru.touched, CacheOp.touched, CacheResult.observe, hfound]
      | inserted ok => rfl
      | done => rfl
  | tryInsert filepath buff first wd =>
      obtain rfl : Lru.Op.insert filepath buff = k := Option.some.inj h
      cases o with
      | fetched item => rfl
      | inserted ok => cases ok <;> rfl
      | done => rfl
  | inotify watch => cases h
  | finished clientIdx =>
      obtain rfl : Lru.Op.finish clientIdx = k := Option.some.inj h
      cases o <;> rfl

theorem touchedPaths_cons (op : CacheOp) (o : CacheResult N) (calls : List (CacheOp × CacheResult N)) :
    touchedPaths ((op, o) :: calls) = Lru.keysOf (op.touched o) ∪ touchedPaths calls := by
  ext p
  rcases h : op.touched o with _ | ⟨filepath, bytes⟩ <;> simp [touchedPaths, h]

namespace Refines

variable {s : CacheState N} {a : Lru.State Bytes Bytes}

theorem bounded (h : Refines s a) : Lru.Bounded N a.entries := by
  obtain ⟨l, hl, hentries⟩ := h.entries
  refine ⟨?_, h.length_le⟩
  rw [hentries, List.map_map]
  refine hl.threads.nodup.map_on fun i hi j hj heq => ?_
  by_contra hne
  exact h.paths.entry_key_ne hl hj hi hne heq

theorem fresh (h : Refines s a) {op : CacheOp} {k : Lru.Op Bytes Bytes} (hop : s.cache.Unmodified op)
    (hk : op.lruOp = some k) : Lru.Fresh a.entries k := by
  obtain ⟨l, hl, hentries⟩ := h.entries
  cases op with
  | fetch filepath clientIdx =>
      obtain rfl := Option.some.inj hk
      trivial
  | tryInsert filepath buff first wd =>
      obtain rfl := Option.some.inj hk
      exact hentries ▸ hl.entry_key_ne_of_none h.paths hop
  | inotify watch => cases hk
  | finished clientIdx =>
      obtain rfl := Option.some.inj hk
      trivial

end Refines

/-- A run of calls that neither finds nor inserts the file. -/
theorem trails_exec (hN : 2 ≤ N) {s t : CacheState N} {a : Lru.State Bytes Bytes} {filepath bytes : Bytes}
    {since : Finset Bytes} {ops : List CacheOp} {os : List (CacheResult N)} (href : Refines s a)
    (htrails : Lru.Trails N a.entries filepath bytes since)
    (hops : Runs.Along cacheStep (fun s op => s.cache.Unmodified op) s ops)
    (hrun : Runs.exec cacheStep s ops = some (t, os)) (hother : filepath ∉ touchedPaths (ops.zip os)) :
    ∃ a', Refines t a' ∧ Lru.Trails N a'.entries filepath bytes (since ∪ touchedPaths (ops.zip os)) := by
  induction ops generalizing s a since os with
  | nil =>
      obtain ⟨rfl, rfl⟩ : s = t ∧ [] = os := by simpa [Runs.exec] using hrun
      exact ⟨a, href, by simpa [touchedPaths] using htrails⟩
  | cons op ops ih =>
      obtain ⟨u, o, os', hstep, hrest, rfl⟩ := Runs.exec_cons hrun
      obtain ⟨k, u', o', hk, hstep', href', hobserve⟩ := cacheStep_refines hN s a op href hops.1
      obtain ⟨rfl, rfl⟩ : u = u' ∧ o = o' := by simpa [hstep] using hstep'
      have htouched : Lru.touched k (Lru.step N a k).2 = op.touched o := hobserve ▸ touched_lruOp hk o
      rw [List.zip_cons_cons, touchedPaths_cons, Finset.mem_union, not_or] at hother
      have hnext := htrails.step (href.fresh hops.1 hk) (htouched ▸ hother.1)
      rw [htouched] at hnext
      rw [List.zip_cons_cons, touchedPaths_cons, ← Finset.union_assoc]
      exact ih href' hnext (hops.2 u o hstep) hrest hother.2

/-- **What the cache keeps.** In every run without modification events in which only paths that are not cached are
inserted, a file that was found or inserted is found again, with the same bytes, exactly if fewer other paths than the
cache has slots were found or inserted since. Which slots were free, which readers hold locks and which insertions
failed over them does not matter. -/
theorem recent_file_found_iff (hN : 2 ≤ N) (before after : List CacheOp) (op : CacheOp)
    (hops : Runs.Along cacheStep (fun s op => s.cache.Unmodified op) ({} : CacheState N) (before ++ op :: after)) :
    ∃ s t u o past later, cacheRun N before = some (s, past) ∧ cacheStep s op = some (t, o) ∧
      Runs.exec cacheStep t after = some (u, later) ∧
      ∀ filepath bytes, op.touched o = some (filepath, bytes) → filepath ∉ touchedPaths (after.zip later) →
        ∀ clientIdx, ∃ v item, cacheStep u (.fetch filepath clientIdx) = some (v, .fetched item) ∧
          (CacheResult.fetched item).observe =
            .fetched (if (touchedPaths (after.zip later)).card < N then some bytes else none) := by
  obtain ⟨u, os, hrun, -, -⟩ := Runs.exec_simulates (cacheStep_refines hN) Refines.empty hops
  obtain ⟨s, past, os', hbefore, hrest, rfl⟩ := Runs.exec_append.mp hrun
  obtain ⟨hpast, hops⟩ := (Runs.along_append hbefore).mp hops
  obtain ⟨s', past', hbefore', href, -⟩ := Runs.exec_simulates (cacheStep_refines hN) Refines.empty hpast
  obtain ⟨rfl, rfl⟩ : s = s' ∧ past = past' := by simpa [hbefore] using hbefore'
  obtain ⟨t, o, later, hstep, hafter, rfl⟩ := Runs.exec_cons hrest
  refine ⟨s, t, u, o, past, later, hbefore, hstep, hafter, fun filepath bytes htouch hother clientIdx => ?_⟩
  set a := (Runs.trace (Lru.step N) {} (before.filterMap CacheOp.lruOp)).1
  obtain ⟨k, t', o', hk, hstep', href', hobserve⟩ := cacheStep_refines hN s a op href hops.1
  obtain ⟨rfl, rfl⟩ : t = t' ∧ o = o' := by simpa [hstep] using hstep'
  have htouched : Lru.touched k (Lru.step N a k).2 = some (filepath, bytes) := by
    rw [← hobserve, touched_lruOp hk, htouch]
  have hbegin := Lru.Trails.begin href.bounded (Lru.moves_step N a k) (href.fresh hops.1 hk) htouched
  obtain ⟨a', hlast, hkept⟩ := trails_exec hN href' hbegin (hops.2 t o hstep) hafter hother
  obtain ⟨k', v, o', hk', hfetch, -, hfound⟩ := cacheStep_refines hN u a' (.fetch filepath clientIdx) hlast trivial
  obtain rfl : Lru.Op.fetch filepath clientIdx = k' := Option.some.inj hk'
  rw [Finset.empty_union] at hkept
  rw [Lru.step_fetch, hkept.find_eq] at hfound
  cases o' with
  | fetched item => exact ⟨v, item, hfetch, hfound⟩
  | inserted ok => cases hfound
  | done => cases hfound

/-- On two slots: a file is cached, then another one, which is found twice. -/
theorem recent_file_found_iff_two :
    let after : List CacheOp := [.tryInsert [113] [2] 1 8, .fetch [113] 0, .fetch [113] 1]
    Runs.Along cacheStep (fun s op => s.cache.Unmodified op) ({} : CacheState 2)
        ([] ++ .tryInsert [112] [1] 0 7 :: after) ∧
      ∃ t u later, cacheStep ({} : CacheState 2) (.tryInsert [112] [1] 0 7) = some (t, .inserted true) ∧
        Runs.exec cacheStep t after = some (u, later) ∧ touchedPaths (after.zip later) = {[113]} ∧
        ∃ v item, cacheStep u (.fetch [112] 2) = some (v, .fetched item) ∧
          (CacheResult.fetched item).observe = .fetched (some [1]) := by
  intro after
  have hops : Runs.Along cacheStep (fun s op => s.cache.Unmodified op) ({} : CacheState 2)
      ([] ++ .tryInsert [112] [1] 0 7 :: after) := by
    refine ⟨rfl, ?_⟩
    rintro _ _ ⟨⟩
    refine ⟨rfl, ?_⟩
    rintro _ _ ⟨⟩
    refine ⟨trivial, fun _ _ _ => ⟨trivial, fun _ _ _ => trivial⟩⟩
  obtain ⟨s, t, u, o, past, later, hbefore, hstep, hafter, hfound⟩ :=
    recent_file_found_iff le_rfl [] after (.tryInsert [112] [1] 0 7) hops
  obtain ⟨⟩ := hbefore
  obtain ⟨⟩ := hstep
  obtain ⟨⟩ := hafter
  obtain ⟨v, item, hfetch, hbytes⟩ := hfound [112] [1] rfl (by decide +kernel) 2
  exact ⟨hops, _, _, _, rfl, rfl, by decide +kernel, v, item, hfetch, hbytes⟩

end LiburingServer
