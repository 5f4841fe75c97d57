import LiburingServer.Lib.InFlight
import Mathlib.Data.List.Nodup

/-! Objects that are given away with tasks. The object of a task comes back when the task is done; it is given away
again, deleted or forgotten. What touches an object that was deleted is not defined. -/

namespace Ownership

/-- What is done with an object that has come back. -/
structure Use where
  resubmits : Bool := false
  deletes : Bool := false
  deriving DecidableEq

/-- The objects of the tasks that are not done, in the order of the tasks, and the objects that were deleted;
`next` is the first one that was not created yet. -/
structure Objects where
  inflight : List ℕ := []
  deleted : List ℕ := []
  next : ℕ := 0
  deriving DecidableEq

namespace Objects

/-- New objects, each with a task. -/
def create (o : Objects) (count : ℕ) : Objects :=
  { o with inflight := o.inflight ++ List.range' o.next count, next := o.next + count }

/-- The task at `n` is done. -/
def complete (o : Objects) (n : ℕ) (use : Use) : Option Objects :=
  match o.inflight[n]? with
  | none => none
  | some a =>
      if a ∈ o.deleted then none
      else
        some { o with
          inflight := o.inflight.eraseIdx n ++ if use.resubmits then [a] else []
          deleted := o.deleted ++ if use.deletes then [a] else [] }

/-- No object is deleted twice, and none that a task refers to is deleted. -/
structure Safe (o : Objects) : Prop where
  once : o.deleted.Nodup
  alive : ∀ a ∈ o.inflight, a ∉ o.deleted

instance (o : Objects) : Decidable o.Safe :=
  decidable_of_iff (o.deleted.Nodup ∧ ∀ a ∈ o.inflight, a ∉ o.deleted) ⟨fun h => ⟨h.1, h.2⟩, fun h => ⟨h.once, h.alive⟩⟩

/-- Each object has at most one task, and only objects that were created are there. -/
structure Wf (o : Objects) : Prop where
  distinct : o.inflight.Nodup
  created : ∀ a ∈ o.inflight, a < o.next
  buried : ∀ a ∈ o.deleted, a < o.next

variable {o o' : Objects} {n count : ℕ} {use : Use}

theorem safe_empty : Safe {} := ⟨List.nodup_nil, by simp⟩

theorem wf_empty : Wf {} := ⟨List.nodup_nil, by simp, by simp⟩

@[simp] theorem create_deleted : (o.create count).deleted = o.deleted := rfl

@[simp] theorem length_create : (o.create count).inflight.length = o.inflight.length + count := by simp [create]

theorem Wf.create (h : o.Wf) (count : ℕ) : (o.create count).Wf := by
  have hnew : ∀ a ∈ List.range' o.next count, o.next ≤ a ∧ a < o.next + count := fun a ha =>
    List.mem_range'_1.mp ha
  refine ⟨?_, fun a ha => ?_, fun a ha => ?_⟩
  · refine List.nodup_append.mpr ⟨h.distinct, List.nodup_range', fun a ha b hb => ?_⟩
    have hold := h.created a ha
    have hfresh := (hnew b hb).1
    omega
  · rcases List.mem_append.mp ha with ha | ha
    · exact Nat.lt_add_right count (h.created a ha)
    · exact (hnew a ha).2
  · exact Nat.lt_add_right count (h.buried a ha)

/-- What was deleted is older than what is created. -/
theorem safe_create_iff (h : o.Wf) : (o.create count).Safe ↔ o.Safe := by
  refine ⟨fun hs => ⟨hs.once, fun a ha => hs.alive a (List.mem_append_left _ ha)⟩,
    fun hs => ⟨hs.once, fun a ha hdeleted => ?_⟩⟩
  rcases List.mem_append.mp ha with ha | ha
  · exact hs.alive a ha hdeleted
  · have hfresh := (List.mem_range'_1.mp ha).1
    have hold := h.buried a hdeleted
    omega

theorem complete_eq_some : o.complete n use = some o' ↔ ∃ a, o.inflight[n]? = some a ∧ a ∉ o.deleted ∧
    o' = { o with
      inflight := o.inflight.eraseIdx n ++ if use.resubmits then [a] else []
      deleted := o.deleted ++ if use.deletes then [a] else [] } := by
  unfold complete
  split
  · rename_i hnone
    simp [hnone]
  · rename_i a ha
    split
    · rename_i hdeleted
      simp [ha, hdeleted]
    · rename_i halive
      rw [ha, Option.some.injEq]
      constructor
      · rintro rfl
        exact ⟨a, rfl, halive, rfl⟩
      · rintro ⟨b, hb, -, rfl⟩
        rw [Option.some.inj hb]

/-- An object that comes back to safe ones can be used. -/
theorem complete_isSome (hs : o.Safe) (hn : n < o.inflight.length) (use : Use) : ∃ o', o.complete n use = some o' :=
  ⟨_, complete_eq_some.mpr ⟨_, List.getElem?_eq_getElem hn, hs.alive _ (List.getElem_mem hn), rfl⟩⟩

theorem length_complete (h : o.complete n use = some o') :
    o'.inflight.length + 1 = o.inflight.length + if use.resubmits then 1 else 0 := by
  obtain ⟨a, ha, -, rfl⟩ := complete_eq_some.mp h
  have hn : n < o.inflight.length := (List.getElem?_eq_some_iff.mp ha).1
  rw [List.length_append, List.length_eraseIdx_of_lt hn]
  split
  · rw [List.length_singleton]
    omega
  · rw [List.length_nil]
    omega

theorem Wf.complete (hw : o.Wf) (h : o.complete n use = some o') : o'.Wf := by
  obtain ⟨a, ha, -, rfl⟩ := complete_eq_some.mp h
  obtain ⟨l₁, l₂, hl, herase⟩ := InFlight.exists_split ha
  have hdistinct := hw.distinct
  rw [hl] at hdistinct
  have hnext : a < o.next := hw.created a (List.mem_of_getElem? ha)
  refine ⟨?_, fun b hb => ?_, fun b hb => ?_⟩
  · rw [herase]
    split
    · exact (List.perm_middle.trans (List.perm_append_singleton a _).symm).nodup hdistinct
    · rw [List.append_nil]
      exact (List.nodup_middle.mp hdistinct).of_cons
  · simp only [List.mem_append, List.mem_ite_nil_right, List.mem_singleton] at hb
    rcases hb with hb | ⟨-, rfl⟩
    · exact hw.created b (List.mem_of_mem_eraseIdx hb)
    · exact hnext
  · simp only [List.mem_append, List.mem_ite_nil_right, List.mem_singleton] at hb
    rcases hb with hb | ⟨-, rfl⟩
    · exact hw.buried b hb
    · exact hnext

/-- The objects stay safe, unless an object is given away again and deleted. -/
theorem safe_complete_iff (hw : o.Wf) (hs : o.Safe) (h : o.complete n use = some o') :
    o'.Safe ↔ ¬(use.resubmits ∧ use.deletes) := by
  obtain ⟨a, ha, halive, rfl⟩ := complete_eq_some.mp h
  obtain ⟨l₁, l₂, hl, herase⟩ := InFlight.exists_split ha
  have hlater : ∀ b ∈ o.inflight.eraseIdx n, b ∉ o.deleted ∧ b ≠ a := by
    intro b hb
    have hmem : b ∈ o.inflight := List.mem_of_mem_eraseIdx hb
    refine ⟨hs.alive b hmem, fun heq => ?_⟩
    have hdistinct := hw.distinct
    rw [hl] at hdistinct
    rw [herase, heq] at hb
    exact (List.nodup_cons.mp (List.nodup_middle.mp hdistinct)).1 hb
  constructor
  · rintro hs' ⟨hresubmits, hdeletes⟩
    exact hs'.alive a (by simp [hresubmits]) (by simp [hdeletes])
  · intro hnot
    have hburied : (o.deleted ++ if use.deletes then [a] else []).Nodup := by
      split
      · rw [← List.concat_eq_append]
        exact List.Nodup.concat halive hs.once
      · simpa using hs.once
    refine ⟨hburied, fun b hb hdeleted => ?_⟩
    simp only [List.mem_append, List.mem_ite_nil_right, List.mem_singleton] at hb hdeleted
    rcases hb with hb | ⟨hresubmits, rfl⟩
    · exact hdeleted.elim (hlater b hb).1 fun hdeletes => (hlater b hb).2 hdeletes.2
    · exact hdeleted.elim halive fun hdeletes => hnot ⟨hresubmits, hdeletes.1⟩

end Objects

end Ownership
