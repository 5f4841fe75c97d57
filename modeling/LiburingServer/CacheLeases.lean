import LiburingServer.CacheLocks
import LiburingServer.Lib.Leases

/-! Leases of cache slots. A client that fetches a file holds a lease of its slot until it is finished
with the file. The locks of the slots cover the leases, whatever is fetched, inserted, modified and
finished, as long as no item that is locked is removed, and no client gives up the lock of a slot that was
freed since it has fetched it. -/

namespace LiburingServer

namespace Cache

variable {N : ℕ} {c c' : Cache N} {filepath buff : Bytes} {clientIdx first : ℕ} {wd : ℤ}
  {client client' marked : TcpClient} {clients clients' : ℕ → TcpClient} {slot : Fin N}
  {holders : Fin N → Finset ℕ}

/-- The locks of the slots cover their holders, a client that is marked holds the slot it fetched last
unless that was freed, watches lead to slots that are not free, and a free slot is not outdated, has an
empty buffer and no holders. -/
structure Leased (c : Cache N) (clients : ℕ → TcpClient) (holders : Fin N → Finset ℕ) : Prop where
  covered : Leases.Covered (fun i => (c.data i).lockNumber) holders
  marked : ∀ k, (clients k).usingFile = true →
    ∃ i, c.clientIdxToCacheIdx k = some i ∧ (k ∈ holders i ∨ i ∈ c.freeIdxs)
  watched : ∀ w i, c.watchToCacheIdx w = some i → (c.data i).watch = w ∧ i ∉ c.freeIdxs
  fresh : ∀ i ∈ c.freeIdxs, (c.data i).outdated = false ∧ (c.data i).buffer = [] ∧ holders i = ∅

theorem leased_empty : ({} : Cache N).Leased (fun _ => {}) fun _ => ∅ := by
  refine ⟨fun i => ?_, fun k hk => ?_, fun w i hw => ?_, fun i _ => ⟨rfl, rfl, rfl⟩⟩
  · simp [data, CacheItem.data]
  · simp at hk
  · simp at hw

/-- A change of one slot is a change of one lock. -/
theorem locks_of_data {d : ItemData} (hdata : c'.data = Function.update c.data slot d) :
    (fun i => (c'.data i).lockNumber) =
      Function.update (fun i => (c.data i).lockNumber) slot d.lockNumber := by
  funext i
  by_cases hi : i = slot <;> simp [hdata, hi]

/-- An insertion does not touch the contents of a slot that is locked and not free. -/
theorem tryInsertItem_locked {done : Bool} (hlock : (c.data slot).lockNumber ≠ 0) (hfree : slot ∉ c.freeIdxs)
    (hinsert : c.tryInsertItem filepath buff first wd = some (c', done)) : c'.data slot = c.data slot := by
  rcases tryInsertItem_cases hinsert with ⟨-, i, hi, rfl⟩ | ⟨-, -, low, newLow, hzero, rfl⟩ | ⟨-, rfl⟩
  · have hne : slot ≠ i := fun heq => hfree (heq ▸ cbegin_mem i hi)
    rw [insertAt_data, Function.update_of_ne hne]
    rfl
  · have hne : slot ≠ low := fun heq => hlock (heq ▸ hzero)
    rw [insertAt_data, Function.update_of_ne hne, evictLowest_data, Function.update_of_ne hne]
  · rfl

namespace Leased

/-- Marks may be taken away. -/
theorem of_marks (h : c.Leased clients holders)
    (hmarks : ∀ k, (clients' k).usingFile = true → (clients k).usingFile = true) :
    c.Leased clients' holders :=
  ⟨h.covered, fun k hk => h.marked k (hmarks k hk), h.watched, h.fresh⟩

/-- The client of the last fetch is marked for the slot it has got. -/
theorem marked_update (h : c.Leased clients holders) {holders' : Fin N → Finset ℕ} {slot : Fin N}
    (hidx : c'.clientIdxToCacheIdx = Function.update c.clientIdxToCacheIdx clientIdx (some slot))
    (hslot : clientIdx ∈ holders' slot ∨ slot ∈ c'.freeIdxs) (hholders : ∀ i, holders i ⊆ holders' i)
    (hfree : c.freeIdxs ⊆ c'.freeIdxs) (client : TcpClient) (k : ℕ)
    (hk : (Function.update clients clientIdx client k).usingFile = true) :
    ∃ i, c'.clientIdxToCacheIdx k = some i ∧ (k ∈ holders' i ∨ i ∈ c'.freeIdxs) := by
  rw [hidx]
  by_cases heq : k = clientIdx
  · subst heq
    exact ⟨slot, by simp, hslot⟩
  · rw [Function.update_of_ne heq] at hk
    obtain ⟨i, hi, hor⟩ := h.marked k hk
    exact ⟨i, by simpa [heq] using hi, hor.imp (fun hmem => hholders i hmem) fun hmem => hfree hmem⟩

/-- A lock is taken for a client: it holds the slot, unless that is free. -/
theorem holder (h : c.Leased clients holders) (slot : Fin N) (k : ℕ) :
    ∃ holders' : Fin N → Finset ℕ, Leases.Covered (Function.update (fun i => (c.data i).lockNumber) slot
        ((c.data slot).lockNumber + 1)) holders' ∧ (∀ i, holders i ⊆ holders' i) ∧
      (∀ i ∈ c.freeIdxs, holders' i = ∅) ∧ (k ∈ holders' slot ∨ slot ∈ c.freeIdxs) := by
  by_cases hfree : slot ∈ c.freeIdxs
  · refine ⟨holders, h.covered.mono fun i => ?_, fun _ => subset_rfl, fun i hi => (h.fresh i hi).2.2, Or.inr hfree⟩
    by_cases hi : i = slot
    · subst hi
      rw [Function.update_self]
      omega
    · rw [Function.update_of_ne hi]
  · refine ⟨_, h.covered.lock slot k, fun i m hm => ?_, fun i hi => ?_, Or.inl (by simp)⟩
    · by_cases hslot : i = slot
      · subst hslot
        simp [hm]
      · simpa [hslot] using hm
    · have hne : i ≠ slot := fun heq => hfree (heq ▸ hi)
      simpa [hne] using (h.fresh i hi).2.2

/-- The fetch of a cached path gives its client a lease of the slot whose contents it returns; an item that
is outdated must not be leased. -/
theorem fetchItem (h : c.Leased clients holders) {item : CacheFetchItem N}
    (hpath : c.filepathToCacheIdx filepath = some slot)
    (hout : (c.data slot).outdated = true → (c.data slot).lockNumber = 0)
    (hfetch : c.fetchItem filepath clientIdx client = some (c', client', item)) (marked : TcpClient) :
    ∃ holders', c'.Leased (Function.update clients clientIdx marked) holders' ∧
      (∀ i, holders i ⊆ holders' i) ∧ ∀ i, item.buff = some i → item.bytes ≠ [] → clientIdx ∈ holders' i := by
  rcases fetchItem_cases hfetch with ⟨hnone, -⟩ | ⟨i, hpath', -, hidx, hcases⟩
  · simp [hpath] at hnone
  obtain rfl : slot = i := by simpa [hpath] using hpath'
  rcases hcases with ⟨-, rfl, hmaps, hdata⟩ | ⟨hold, rfl, hdata, hfree, hwatch⟩
  · have hsame : ∀ i, (c'.data i).watch = (c.data i).watch ∧ (c'.data i).outdated = (c.data i).outdated ∧
        (c'.data i).buffer = (c.data i).buffer := by
      intro i
      by_cases hi : i = slot <;> simp [hdata, hi]
    obtain ⟨holders', hcovered, hgrow, hempty, hslot⟩ := h.holder slot clientIdx
    refine ⟨holders', ⟨?_, ?_, fun w i hw => ?_, fun i hi => ?_⟩, hgrow, fun i hi hbytes => ?_⟩
    · rw [locks_of_data hdata]
      exact hcovered
    · rw [← hmaps.free] at hslot
      exact h.marked_update hidx hslot hgrow hmaps.free.ge marked
    · rw [hmaps.watches] at hw
      rw [(hsame i).1, hmaps.free]
      exact h.watched w i hw
    · rw [hmaps.free] at hi
      obtain ⟨hfresh, hbuffer, -⟩ := h.fresh i hi
      exact ⟨(hsame i).2.1.trans hfresh, (hsame i).2.2.trans hbuffer, hempty i hi⟩
    · obtain rfl : slot = i := by simpa [foundItem] using hi
      have hbuffer : (c.data slot).buffer ≠ [] := by
        rw [← (hsame slot).2.2]
        exact hbytes
      exact hslot.resolve_right fun hmem => hbuffer (h.fresh slot hmem).2.1
  · refine ⟨holders, ⟨?_, ?_, fun w i hw => ?_, fun i hi => ?_⟩, fun _ => subset_rfl, by simp⟩
    · rw [locks_of_data hdata, ← hout hold, Function.update_eq_self]
      exact h.covered
    · refine h.marked_update hidx (Or.inr ?_) (fun _ => subset_rfl) ?_ marked
      · simp [hfree]
      · simp [hfree]
    · rw [hwatch] at hw
      have hne : w ≠ (c.data slot).watch := by
        rintro rfl
        simp at hw
      rw [Function.update_of_ne hne] at hw
      obtain ⟨hwatched, hnot⟩ := h.watched w i hw
      have hi : i ≠ slot := by
        rintro rfl
        exact hne hwatched.symm
      simp [hdata, hfree, hi, hwatched, hnot]
    · rw [hdata]
      by_cases hslot : i = slot
      · subst hslot
        have hnone : holders i = ∅ := Finset.eq_empty_of_forall_notMem fun k => h.covered.notMem (hout hold)
        simp [hnone]
      · rw [hfree, Finset.mem_insert] at hi
        simpa [hslot] using h.fresh i (hi.resolve_left hslot)

/-- An insertion into slot `slot`, which no watch leads to any more. -/
theorem insertAt (h : c.Leased clients holders) (hfree : slot ∉ c.freeIdxs)
    (hwatch : ∀ w, c.watchToCacheIdx w ≠ some slot) :
    (c.insertAt slot filepath buff wd).Leased clients holders := by
  refine ⟨?_, fun k hk => ?_, fun w i hw => ?_, fun i hi => ?_⟩
  · rw [locks_of_data (insertAt_data ..), Function.update_eq_self]
    exact h.covered
  · rw [insertAt_clientIdxToCacheIdx, insertAt_freeIdxs]
    exact h.marked k hk
  · rw [insertAt_watchToCacheIdx] at hw
    rw [insertAt_data, insertAt_freeIdxs]
    by_cases hwd : w = wd
    · subst hwd
      obtain rfl : slot = i := by simpa using hw
      exact ⟨by simp, hfree⟩
    · rw [Function.update_of_ne hwd] at hw
      have hi : i ≠ slot := by
        rintro rfl
        exact hwatch w hw
      simpa [hi] using h.watched w i hw
  · rw [insertAt_freeIdxs] at hi
    have hne : i ≠ slot := fun heq => hfree (heq ▸ hi)
    rw [insertAt_data, Function.update_of_ne hne]
    exact h.fresh i hi

/-- A lowest item that is not locked is evicted. -/
theorem evictLowest (h : c.Leased clients holders) {low : Fin N} (newLow : Fin N)
    (hlock : (c.data low).lockNumber = 0) : (c.evictLowest low newLow).Leased clients holders := by
  refine ⟨?_, h.marked, fun w i hw => ?_, fun i hi => ?_⟩
  · have hsame : ({} : ItemData).lockNumber = (c.data low).lockNumber := hlock.symm
    rw [locks_of_data (evictLowest_data ..), hsame, Function.update_eq_self]
    exact h.covered
  · rw [evictLowest_watchToCacheIdx] at hw
    have hne : w ≠ (c.data low).watch := by
      rintro rfl
      simp at hw
    rw [Function.update_of_ne hne] at hw
    obtain ⟨hwatched, hnot⟩ := h.watched w i hw
    have hi : i ≠ low := by
      rintro rfl
      exact hne hwatched.symm
    rw [evictLowest_data, Function.update_of_ne hi]
    exact ⟨hwatched, hnot⟩
  · obtain ⟨hfresh, hbuffer, hnone⟩ := h.fresh i hi
    rw [evictLowest_data]
    by_cases hlow : i = low
    · subst hlow
      simp [hnone]
    · simpa [hlow] using h.fresh i hi

/-- A successful insertion keeps the leases, provided no client is marked for the free slot it is given;
its path then leads to a slot that is not outdated. -/
theorem tryInsertItem (h : c.Leased clients holders)
    (hmarks : ∀ i, cbegin c.freeIdxs first = some i → ∀ k, (clients k).usingFile = true →
      c.clientIdxToCacheIdx k ≠ some i)
    (hinsert : c.tryInsertItem filepath buff first wd = some (c', true)) :
    c'.Leased clients holders ∧
      ∃ i, c'.filepathToCacheIdx filepath = some i ∧ (c'.data i).outdated = false := by
  rcases tryInsertItem_cases hinsert with ⟨-, i, hi, rfl⟩ | ⟨-, hfull, low, newLow, hlock, rfl⟩ | ⟨hfalse, -⟩
  · have hmem : i ∈ c.freeIdxs := cbegin_mem i hi
    have htaken : (c.takeFree i).Leased clients holders := by
      refine ⟨h.covered, fun k hk => ?_, fun w j hw => ?_, fun j hj => ?_⟩
      · obtain ⟨j, hj, hor⟩ := h.marked k hk
        refine ⟨j, hj, hor.imp_right fun hmem => Finset.mem_erase.mpr ⟨?_, hmem⟩⟩
        rintro rfl
        exact hmarks j hi k hk hj
      · obtain ⟨hwatched, hnot⟩ := h.watched w j hw
        exact ⟨hwatched, fun hmem => hnot (Finset.mem_of_mem_erase hmem)⟩
      · exact h.fresh j (Finset.mem_of_mem_erase hj)
    refine ⟨htaken.insertAt (Finset.notMem_erase _ _) fun w hw => (h.watched w i hw).2 hmem, i, ?_, ?_⟩
    · simp [insertAt_filepathToCacheIdx]
    · have hdata : (c.takeFree i).data = c.data := rfl
      simp [insertAt_data, hdata, h.fresh i hmem]
  · have hwatch : ∀ w, (c.evictLowest low newLow).watchToCacheIdx w ≠ some low := by
      intro w hw
      rw [evictLowest_watchToCacheIdx] at hw
      by_cases hne : w = (c.data low).watch
      · simp [hne] at hw
      · rw [Function.update_of_ne hne] at hw
        exact hne (h.watched w low hw).1.symm
    have hfree : low ∉ (c.evictLowest low newLow).freeIdxs := by simp [Cache.evictLowest, modifyItem, hfull]
    refine ⟨(h.evictLowest newLow hlock).insertAt hfree hwatch, low, ?_, ?_⟩
    · simp [insertAt_filepathToCacheIdx]
    · simp [insertAt_data, evictLowest_data]
  · cases hfalse

/-- A modification event marks an item that is not free. -/
theorem inotifyEventHandler (h : c.Leased clients holders) (watch : ℤ) :
    (c.inotifyEventHandler watch).Leased clients holders := by
  cases hslot : c.watchToCacheIdx watch with
  | none =>
      have heq : c.inotifyEventHandler watch = c := by simp [Cache.inotifyEventHandler, hslot]
      rw [heq]
      exact h
  | some slot =>
      have hdata := inotifyEventHandler_data c hslot
      obtain ⟨-, hmaps⟩ := c.inotifyEventHandler_frame watch
      refine ⟨?_, fun k hk => ?_, fun w i hw => ?_, fun i hi => ?_⟩
      · rw [locks_of_data hdata, Function.update_eq_self]
        exact h.covered
      · obtain ⟨i, hi, hor⟩ := h.marked k hk
        refine ⟨i, ?_, hor.imp_right fun hmem => hmaps.free ▸ hmem⟩
        simpa [Cache.inotifyEventHandler, hslot, modifyItem] using hi
      · rw [hmaps.watches] at hw
        obtain ⟨hwatched, hnot⟩ := h.watched w i hw
        refine ⟨?_, hmaps.free ▸ hnot⟩
        by_cases hi : i = slot
        · subst hi
          simpa [hdata] using hwatched
        · simpa [hdata, hi] using hwatched
      · rw [hmaps.free] at hi
        have hne : i ≠ slot := by
          rintro rfl
          exact (h.watched watch i hslot).2 hi
        simpa [hdata, hne] using h.fresh i hi

/-- A client that is finished gives up at most its lease of the slot it fetched last, provided that slot
was not freed. -/
theorem finishedWithItem (h : c.Leased clients holders) (hmark : client.usingFile = (clients clientIdx).usingFile)
    (hslot : client.usingFile = true → ∀ i, c.clientIdxToCacheIdx clientIdx = some i → i ∉ c.freeIdxs)
    (hfinished : c.finishedWithItem clientIdx client = some (c', client')) (hmarked : marked.usingFile = false) :
    ∃ holders', c'.Leased (Function.update clients clientIdx marked) holders' ∧
      ∀ i, ∀ m ∈ holders i, ¬(m = clientIdx ∧ client.usingFile = true ∧ c.clientIdxToCacheIdx m = some i) →
        m ∈ holders' i := by
  have hunmarked : ∀ k, (Function.update clients clientIdx marked k).usingFile = true →
      k ≠ clientIdx ∧ (clients k).usingFile = true := by
    intro k hk
    by_cases heq : k = clientIdx
    · simp [heq, hmarked] at hk
    · exact ⟨heq, by simpa [heq] using hk⟩
  rcases finishedWithItem_cases hfinished with ⟨-, rfl, -⟩ | ⟨husing, -, i, hi, hmaps, hidx, hdata⟩
  · exact ⟨holders, h.of_marks fun k hk => (hunmarked k hk).2, fun _ _ hm _ => hm⟩
  · obtain ⟨j, hj, hor⟩ := h.marked clientIdx (hmark ▸ husing)
    obtain rfl : j = i := by simpa [cacheIdxOf, hj] using hi
    have hholder : clientIdx ∈ holders j := hor.resolve_right (hslot husing j hj)
    have hkept : ∀ i, ∀ m ∈ holders i, ¬(m = clientIdx ∧ i = j) →
        m ∈ Function.update holders j ((holders j).erase clientIdx) i := by
      intro i m hm hne
      by_cases hij : i = j
      · subst hij
        simp only [Function.update_self, Finset.mem_erase]
        exact ⟨fun heq => hne ⟨heq, rfl⟩, hm⟩
      · simpa [hij] using hm
    refine ⟨Function.update holders j ((holders j).erase clientIdx),
      ⟨?_, fun k hk => ?_, fun w i hw => ?_, fun i hmem => ?_⟩, fun i m hm hne => ?_⟩
    · rw [locks_of_data hdata]
      exact h.covered.unlock hholder
    · obtain ⟨hne, hk⟩ := hunmarked k hk
      obtain ⟨i, hi, hor⟩ := h.marked k hk
      rw [hidx, Function.update_of_ne hne, hmaps.free]
      exact ⟨i, hi, hor.imp_left fun hmem => hkept i k hmem fun heq => hne heq.1⟩
    · rw [hmaps.watches] at hw
      rw [hmaps.free]
      obtain ⟨hwatched, hnot⟩ := h.watched w i hw
      by_cases hij : i = j
      · subst hij
        exact ⟨by simpa [hdata] using hwatched, hnot⟩
      · exact ⟨by simpa [hdata, hij] using hwatched, hnot⟩
    · rw [hmaps.free] at hmem
      have hij : i ≠ j := fun heq => hslot husing j hj (heq ▸ hmem)
      simpa [hdata, hij] using h.fresh i hmem
    · refine hkept i m hm ?_
      rintro ⟨rfl, rfl⟩
      exact hne ⟨rfl, husing, hj⟩

end Leased

end Cache

end LiburingServer
