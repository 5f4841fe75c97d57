import Mathlib.Data.Finset.Max
import Mathlib.Data.Int.Order.Basic
import Mathlib.Order.Interval.Finset.Nat

/-! A pool of records. Each party keeps a reference to a record, which may be out of date, and each record
the party it belongs to. A record is in use or free; a party is active while the record it refers to is its
own. A released record is given to the next party that acquires one. -/

structure RecordPool where
  ref : List ℤ
  owner : List ℕ
  free : Finset ℤ
  used : Finset ℤ
  active : Finset ℕ

namespace RecordPool

/-- What can happen to a pool. -/
inductive Act where
  | idle
  | clear (i : ℕ)
  | release (i : ℕ)
  | acquire (i : ℕ)
  | retire (i : ℕ)

variable (s : RecordPool)

/-- The party that record `x` belongs to. -/
def ownerOf (x : ℤ) : Option ℕ := if 0 ≤ x then s.owner[x.toNat]? else none

/-- Party `i` refers to no record, and is made known if it was not. -/
def clear (i : ℕ) : RecordPool :=
  { s with ref := (s.ref ++ List.replicate (i + 1 - s.ref.length) (-1)).set i (-1) }

/-- The record `x` that party `i` refers to is no longer in use. It is free if the party is active. -/
def release (i : ℕ) (x : ℤ) : RecordPool :=
  if i ∈ s.active then
    { s with used := s.used.erase x, active := s.active.erase i, free := insert x s.free }
  else { s with used := s.used.erase x }

/-- Party `i` is active with record `x`. -/
def enter (i : ℕ) (x : ℤ) (owner : List ℕ) : RecordPool where
  ref := s.ref.set i x
  owner := owner
  free := s.free.erase x
  used := insert x s.used
  active := insert i s.active

/-- A free record is acquired before the pool grows. A party that retires ends being active, but its record
is not released by that. -/
inductive Move : Act → RecordPool → Prop
  | idle : Move .idle s
  | clear (i : ℕ) : Move (.clear i) (s.clear i)
  | release {i : ℕ} {x : ℤ} (hx : s.ref[i]? = some x) : Move (.release i) (s.release i x)
  | reuse {i : ℕ} {x : ℤ} (hi : i < s.ref.length) (hfree : x ∈ s.free) (howner : (s.ownerOf x).isSome) :
      Move (.acquire i) (s.enter i x (s.owner.set x.toNat i))
  | grow {i : ℕ} (hi : i < s.ref.length) (hfree : s.free = ∅) :
      Move (.acquire i) (s.enter i s.owner.length (s.owner ++ [i]))
  | retire {i k : ℕ} {x : ℤ} (hx : s.ref[i]? = some x) (hk : s.ownerOf x = some k) :
      Move (.retire i) { s with active := s.active.erase k }

variable {s} {s' : RecordPool} {act : Act} {i k : ℕ} {x y : ℤ}

theorem used_release : (s.release i x).used ⊆ s.used := by
  unfold release
  split
  · exact Finset.erase_subset _ _
  · exact Finset.erase_subset _ _

theorem ownerOf_isSome : (s.ownerOf x).isSome ↔ 0 ≤ x ∧ x < s.owner.length := by
  unfold ownerOf
  split
  · rename_i hpos
    have hlt : x.toNat < s.owner.length ↔ x < s.owner.length := by omega
    simp [hpos, hlt]
  · rename_i hneg
    simp [hneg]

theorem ownerOf_enter_reuse (hx : (s.ownerOf x).isSome) :
    (s.enter i x (s.owner.set x.toNat i)).ownerOf y = if y = x then some i else s.ownerOf y := by
  obtain ⟨hnonneg, hlt⟩ := ownerOf_isSome.mp hx
  unfold ownerOf enter
  by_cases hy : y = x
  · subst hy
    have hlt' : y.toNat < s.owner.length := by omega
    simp [hnonneg, hlt']
  · by_cases hpos : 0 ≤ y
    · have hne : x.toNat ≠ y.toNat := by omega
      simp [hpos, hy, hne]
    · simp [hpos, hy]

theorem ownerOf_enter_grow :
    (s.enter i s.owner.length (s.owner ++ [i])).ownerOf y =
      if y = s.owner.length then some i else s.ownerOf y := by
  unfold ownerOf enter
  by_cases hy : y = s.owner.length
  · subst hy
    simp
  · by_cases hpos : 0 ≤ y
    · rw [if_pos hpos, if_neg hy, if_pos hpos]
      by_cases hlt : y.toNat < s.owner.length
      · exact List.getElem?_append_left hlt
      · have hlong : s.owner.length + 1 ≤ y.toNat := by omega
        rw [List.getElem?_eq_none (by simpa using hlong), List.getElem?_eq_none (by omega)]
    · simp [hpos, hy]

/-! ### Links -/

/-- The record that an active party refers to is in use, is not free and belongs to the party. -/
def Linked (s : RecordPool) : Prop :=
  ∀ k ∈ s.active, ∃ x, s.ref[k]? = some x ∧ x ∈ s.used ∧ x ∉ s.free ∧ s.ownerOf x = some k

/-- No active party is cleared, and what is released for a party that is not active is no record that an
active one refers to. -/
def KeepsLinks (s : RecordPool) : Act → Prop
  | .clear i => i ∉ s.active
  | .release i => i ∈ s.active ∨ ∀ k ∈ s.active, s.ref[k]? ≠ s.ref[i]?
  | _ => True

namespace Linked

theorem clear (h : s.Linked) (hi : i ∉ s.active) : (s.clear i).Linked := by
  intro k hk
  obtain ⟨x, hx, hrest⟩ := h k hk
  have hne : i ≠ k := fun heq => hi (heq ▸ hk)
  obtain ⟨hlt, -⟩ := List.getElem?_eq_some_iff.mp hx
  refine ⟨x, ?_, hrest⟩
  show ((s.ref ++ _).set i (-1))[k]? = some x
  rw [List.getElem?_set_ne hne, List.getElem?_append_left hlt, hx]

theorem release (h : s.Linked) (hx : s.ref[i]? = some x) (hi : s.KeepsLinks (.release i)) :
    (s.release i x).Linked := by
  by_cases hactive : i ∈ s.active
  · obtain ⟨x', hx', -, -, howner⟩ := h i hactive
    obtain rfl : x = x' := Option.some.inj (hx.symm.trans hx')
    rw [RecordPool.release, if_pos hactive]
    intro k hk
    obtain ⟨hne, hk⟩ := Finset.mem_erase.mp hk
    obtain ⟨y, hy, hused, hfree, hback⟩ := h k hk
    have hdistinct : y ≠ x := by
      rintro rfl
      exact hne (Option.some.inj (hback.symm.trans howner))
    refine ⟨y, hy, Finset.mem_erase.mpr ⟨hdistinct, hused⟩, ?_, hback⟩
    rw [Finset.mem_insert]
    exact fun hmem => hmem.elim hdistinct hfree
  · have hothers := hi.resolve_left hactive
    rw [RecordPool.release, if_neg hactive]
    intro k hk
    obtain ⟨y, hy, hused, hrest⟩ := h k hk
    have hdistinct : y ≠ x := by
      rintro rfl
      exact hothers k hk (hy.trans hx.symm)
    exact ⟨y, hy, Finset.mem_erase.mpr ⟨hdistinct, hused⟩, hrest⟩

/-- The record acquired is not one that an active party refers to. -/
theorem enter (h : s.Linked) {owner : List ℕ} (hi : i < s.ref.length)
    (hfresh : ∀ y k, s.ownerOf y = some k → y ∉ s.free → y ≠ x)
    (howner : ∀ y, (s.enter i x owner).ownerOf y = if y = x then some i else s.ownerOf y) :
    (s.enter i x owner).Linked := by
  intro k hk
  by_cases hki : k = i
  · subst hki
    refine ⟨x, ?_, Finset.mem_insert_self _ _, Finset.notMem_erase _ _, by rw [howner, if_pos rfl]⟩
    exact List.getElem?_set_self hi
  · obtain ⟨y, hy, hused, hfree, hback⟩ := h k ((Finset.mem_insert.mp hk).resolve_left hki)
    refine ⟨y, ?_, Finset.mem_insert_of_mem hused, fun hmem => hfree (Finset.mem_of_mem_erase hmem), ?_⟩
    · show (s.ref.set i x)[k]? = some y
      rw [List.getElem?_set_ne (Ne.symm hki), hy]
    · rw [howner, if_neg (hfresh y k hback hfree), hback]

theorem move (h : s.Linked) (hact : s.KeepsLinks act) (hmove : s.Move act s') : s'.Linked := by
  cases hmove with
  | idle => exact h
  | clear i => exact h.clear hact
  | release hx => exact h.release hx hact
  | reuse hi hfree howner =>
      refine h.enter hi (fun y k _ hnot heq => hnot (heq ▸ hfree)) fun y => ownerOf_enter_reuse howner
  | grow hi hfree =>
      refine h.enter hi (fun y k hback _ heq => ?_) fun y => ownerOf_enter_grow
      have hvalid := ownerOf_isSome.mp (Option.isSome_of_eq_some hback)
      omega
  | retire hx hk => exact fun k hk => h k (Finset.mem_of_mem_erase hk)

/-- Only the release of its own record ends that an active party's record is in use. -/
theorem used_move (h : s.Linked) (hact : s.KeepsLinks act) (hmove : s.Move act s') (hk : k ∈ s.active)
    (hx : s.ref[k]? = some x) (hother : act ≠ .release k) : x ∈ s'.used := by
  obtain ⟨x', hx', hused, -, hback⟩ := h k hk
  obtain rfl : x = x' := Option.some.inj (hx.symm.trans hx')
  cases hmove with
  | idle => exact hused
  | clear i => exact hused
  | @release i y hy =>
      have hdistinct : x ≠ y := by
        rintro rfl
        by_cases hi : i ∈ s.active
        · obtain ⟨z, hz, -, -, howner⟩ := h i hi
          obtain rfl : x = z := Option.some.inj (hy.symm.trans hz)
          exact hother (congrArg _ (Option.some.inj (howner.symm.trans hback)))
        · exact hact.resolve_left hi k hk (hx.trans hy.symm)
      have hleft : x ∈ s.used.erase y := Finset.mem_erase.mpr ⟨hdistinct, hused⟩
      unfold RecordPool.release
      split
      · exact hleft
      · exact hleft
  | reuse hi hfree howner => exact Finset.mem_insert_of_mem hused
  | grow hi hfree => exact Finset.mem_insert_of_mem hused
  | retire hy hj => exact hused

end Linked

/-! ### Uses -/

/-- A record is either in use or free, and nothing else is. -/
structure Partitioned (s : RecordPool) : Prop where
  exactly : ∀ x : ℤ, 0 ≤ x ∧ x < s.owner.length ↔ x ∈ s.used ∪ s.free
  disjoint : Disjoint s.used s.free

/-- What is released for an active party is a record, and nothing in use is released for any other. -/
def FreesOnce (s : RecordPool) : Act → Prop
  | .release i => ∀ x ∈ s.ref[i]?, if i ∈ s.active then (s.ownerOf x).isSome else x ∉ s.used
  | _ => True

namespace Partitioned

theorem release (h : s.Partitioned) (hx : s.ref[i]? = some x) (hact : s.FreesOnce (.release i)) :
    (s.release i x).Partitioned := by
  have hrecord := hact x hx
  unfold RecordPool.release
  split at hrecord
  · rename_i hactive
    rw [if_pos hactive]
    have hmem := (h.exactly x).mp (ownerOf_isSome.mp hrecord)
    refine ⟨fun y => ?_, ?_⟩
    · rw [h.exactly y]
      simp only [Finset.mem_union, Finset.mem_erase, Finset.mem_insert] at hmem ⊢
      by_cases hy : y = x
      · subst hy
        tauto
      · tauto
    · refine Finset.disjoint_insert_right.mpr ⟨Finset.notMem_erase x s.used, ?_⟩
      exact h.disjoint.mono_left (Finset.erase_subset _ _)
  · rename_i hactive
    rw [if_neg hactive, Finset.erase_eq_of_notMem hrecord]
    exact h

theorem reuse (h : s.Partitioned) (hfree : x ∈ s.free) :
    (s.enter i x (s.owner.set x.toNat i)).Partitioned := by
  refine ⟨fun y => ?_, ?_⟩
  · show 0 ≤ y ∧ y < (s.owner.set x.toNat i).length ↔ y ∈ insert x s.used ∪ s.free.erase x
    rw [List.length_set, h.exactly y]
    simp only [Finset.mem_union, Finset.mem_erase, Finset.mem_insert]
    by_cases hy : y = x
    · subst hy
      tauto
    · tauto
  · refine Finset.disjoint_insert_left.mpr ⟨Finset.notMem_erase x s.free, ?_⟩
    exact h.disjoint.mono_right (Finset.erase_subset _ _)

theorem grow (h : s.Partitioned) (hfree : s.free = ∅) :
    (s.enter i s.owner.length (s.owner ++ [i])).Partitioned := by
  refine ⟨fun y => ?_, ?_⟩
  · have hold := h.exactly y
    rw [hfree, Finset.union_empty] at hold
    show 0 ≤ y ∧ y < (s.owner ++ [i]).length ↔ y ∈ insert (s.owner.length : ℤ) s.used ∪ s.free.erase _
    rw [hfree, Finset.erase_empty, Finset.union_empty, Finset.mem_insert, ← hold, List.length_append,
      List.length_singleton]
    omega
  · show Disjoint _ (s.free.erase _)
    rw [hfree, Finset.erase_empty]
    exact Finset.disjoint_empty_right _

theorem move (h : s.Partitioned) (hact : s.FreesOnce act) (hmove : s.Move act s') : s'.Partitioned := by
  cases hmove with
  | idle => exact h
  | clear i => exact ⟨h.exactly, h.disjoint⟩
  | release hx => exact h.release hx hact
  | reuse hi hfree howner => exact h.reuse hfree
  | grow hi hfree => exact h.grow hfree
  | retire hx hk => exact ⟨h.exactly, h.disjoint⟩

/-- The records in use and the free ones make up the pool. -/
theorem card (h : s.Partitioned) : s.used.card + s.free.card = s.owner.length := by
  have hrange : s.used ∪ s.free = (Finset.range s.owner.length).image fun n : ℕ => (n : ℤ) := by
    ext x
    rw [← h.exactly x, Finset.mem_image]
    constructor
    · rintro ⟨hpos, hlt⟩
      exact ⟨x.toNat, Finset.mem_range.mpr (by omega), by omega⟩
    · rintro ⟨n, hn, rfl⟩
      have := Finset.mem_range.mp hn
      omega
  have hinj : Function.Injective fun n : ℕ => (n : ℤ) := fun _ _ heq => Int.ofNat.inj heq
  rw [← Finset.card_union_of_disjoint h.disjoint, hrange, Finset.card_image_of_injective _ hinj, Finset.card_range]

/-- The pool grows only when every record is in use. -/
theorem length_move (h : s.Partitioned) (hact : s.FreesOnce act) (hmove : s.Move act s') :
    s'.owner.length = s.owner.length ∨ s'.owner.length = s'.used.card := by
  have hcard := (h.move hact hmove).card
  cases hmove with
  | idle => exact Or.inl rfl
  | clear i => exact Or.inl rfl
  | release hx =>
      unfold RecordPool.release
      split
      · exact Or.inl rfl
      · exact Or.inl rfl
  | reuse hi hfree howner => exact Or.inl (List.length_set ..)
  | @grow i hi hfree =>
      have hnone : (s.enter i s.owner.length (s.owner ++ [i])).free = ∅ := by
        show s.free.erase _ = ∅
        rw [hfree, Finset.erase_empty]
      rw [hnone, Finset.card_empty] at hcard
      exact Or.inr hcard.symm
  | retire hx hk => exact Or.inl rfl

end Partitioned

/-! ### Parties that are not active -/

/-- What every party has that is not active but owns a record in use. -/
def Backed (s : RecordPool) (full : ℕ → Prop) : Prop :=
  ∀ x ∈ s.used, ∀ k, s.ownerOf x = some k → k ∉ s.active → full k

/-- A party owns no record in use. -/
def Unowned (s : RecordPool) (i : ℕ) : Prop := ∀ x ∈ s.used, s.ownerOf x ≠ some i

/-- A party whose record is released owns no other one that is in use. -/
def ReleasesOwn (s : RecordPool) : Act → Prop
  | .release i => ∀ x ∈ s.used, s.ownerOf x = some i → s.ref[i]? = some x
  | _ => True

theorem ownerOf_release : (s.release i x).ownerOf y = s.ownerOf y := by
  unfold release
  split
  · rfl
  · rfl

theorem unowned_release (hx : s.ref[i]? = some x) (hact : s.ReleasesOwn (.release i)) :
    (s.release i x).Unowned i := by
  intro y hy howner
  rw [ownerOf_release] at howner
  have heq : x = y := Option.some.inj (hx.symm.trans (hact y (used_release hy) howner))
  have hne : x ∉ (s.release i x).used := by
    unfold release
    split
    · exact Finset.notMem_erase _ _
    · exact Finset.notMem_erase _ _
  exact hne (heq ▸ hy)

namespace Backed

variable {full full' : ℕ → Prop}

theorem mono (h : s.Backed full) (hfull : ∀ k, ¬s.Unowned k → full k → full' k) : s.Backed full' := by
  intro x hx k hk hinactive
  exact hfull k (fun hunowned => hunowned x hx hk) (h x hx k hk hinactive)

theorem enter (h : s.Backed full) {owner : List ℕ}
    (howner : ∀ y, (s.enter i x owner).ownerOf y = if y = x then some i else s.ownerOf y) :
    (s.enter i x owner).Backed full := by
  intro y hy k hk hinactive
  have hinsert : k ∉ insert i s.active := hinactive
  rw [howner] at hk
  split at hk
  · obtain rfl := Option.some.inj hk
    exact absurd (Finset.mem_insert_self _ _) hinsert
  · rename_i hne
    have hused : y ∈ s.used := (Finset.mem_insert.mp (show y ∈ insert x s.used from hy)).resolve_left hne
    exact h y hused k hk fun hactive => hinsert (Finset.mem_insert_of_mem hactive)

/-- A party that retires has it, too. -/
theorem move (h : s.Backed full) (hact : s.ReleasesOwn act) (hmove : s.Move act s')
    (hretire : ∀ i, act = .retire i → ∀ k ∈ s.active, k ∉ s'.active → full k) : s'.Backed full := by
  cases hmove with
  | idle => exact h
  | clear i => exact h
  | @release i x hx =>
      intro y hy k hk hinactive
      have hne : k ≠ i := by
        rintro rfl
        exact unowned_release hx hact y hy hk
      rw [ownerOf_release] at hk
      refine h y (used_release hy) k hk fun hactive => hinactive ?_
      unfold release
      split
      · exact Finset.mem_erase.mpr ⟨hne, hactive⟩
      · exact hactive
  | reuse hi hfree howner => exact h.enter fun y => ownerOf_enter_reuse howner
  | grow hi hfree => exact h.enter fun y => ownerOf_enter_grow
  | retire hx hk =>
      intro y hy j hj hinactive
      by_cases hactive : j ∈ s.active
      · exact hretire _ rfl j hactive hinactive
      · exact h y hy j hj hactive

end Backed

end RecordPool
