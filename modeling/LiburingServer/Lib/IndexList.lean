import Mathlib.Data.List.Induction
import Mathlib.Data.List.Nodup
import Mathlib.Logic.Function.Basic

/-! Doubly linked lists threaded through an index type. The links are two partial functions and two
end pointers; `Threads` says that they spell out a given list. Unlinking and appending are the
usual constant-time pointer updates, and each is shown to act on the spelled-out list. -/

namespace IndexList

variable {ι : Type*}

/-- The forward and backward links of every index, and the two ends. -/
@[ext]
structure Links (ι : Type*) where
  next : ι → Option ι
  prev : ι → Option ι
  low : Option ι
  high : Option ι

/-- The links of `l` are those of a stretch entered from `p` and left towards `q`. -/
def Seg (next prev : ι → Option ι) : Option ι → List ι → Option ι → Prop
  | _, [], _ => True
  | p, a :: l, q => prev a = p ∧ next a = l.head?.or q ∧ Seg next prev (some a) l q

/-- Following `next` from `low` visits the distinct indices `l` and ends at `high`; `prev` runs
through the same list backwards. -/
structure Threads (L : Links ι) (l : List ι) : Prop where
  nodup : l.Nodup
  seg : Seg L.next L.prev none l none
  low_eq : L.low = l.head?
  high_eq : L.high = l.getLast?

section Seg

variable {next prev next' prev' : ι → Option ι}

theorem seg_congr {l : List ι} {p q : Option ι} (hnext : ∀ a ∈ l, next' a = next a)
    (hprev : ∀ a ∈ l, prev' a = prev a) (h : Seg next prev p l q) : Seg next' prev' p l q := by
  induction l generalizing p with
  | nil => trivial
  | cons a l ih =>
      obtain ⟨hp, hn, hl⟩ := h
      refine ⟨by rw [hprev a (by simp), hp], by rw [hnext a (by simp), hn], ?_⟩
      exact ih (fun b hb => hnext b (by simp [hb])) (fun b hb => hprev b (by simp [hb])) hl

theorem seg_append {l₁ l₂ : List ι} {p q : Option ι} :
    Seg next prev p (l₁ ++ l₂) q ↔
      Seg next prev p l₁ (l₂.head?.or q) ∧ Seg next prev (l₁.getLast?.or p) l₂ q := by
  induction l₁ generalizing p with
  | nil => simp [Seg]
  | cons a l₁ ih =>
      have hlast : (a :: l₁).getLast?.or p = l₁.getLast?.or (some a) := by
        rw [List.getLast?_cons]
        cases l₁.getLast? <;> rfl
      rw [List.cons_append, Seg, Seg, ih, hlast, List.head?_append, Option.or_assoc]
      tauto

/-- Only the last index of a stretch sees where it leads. -/
theorem seg_retarget [DecidableEq ι] {l : List ι} {a : ι} {p q : Option ι} (hnodup : (l ++ [a]).Nodup)
    (h : Seg next prev p (l ++ [a]) q) (target : Option ι) :
    Seg (Function.update next a target) prev p (l ++ [a]) target := by
  obtain ⟨hl, ha⟩ := seg_append.mp h
  have hmem : a ∉ l := by
    have := List.nodup_append.mp hnodup
    exact fun hmem => this.2.2 a hmem a (by simp) rfl
  refine seg_append.mpr ⟨?_, ?_⟩
  · refine seg_congr (fun b hb => Function.update_of_ne ?_ _ _) (fun _ _ => rfl) hl
    rintro rfl
    exact hmem hb
  · exact ⟨ha.1, by simp, trivial⟩

/-- Only the first index of a stretch sees where it is entered from. -/
theorem seg_reenter [DecidableEq ι] {l : List ι} {a : ι} {p q : Option ι} (hnodup : (a :: l).Nodup)
    (h : Seg next prev p (a :: l) q) (source : Option ι) :
    Seg next (Function.update prev a source) source (a :: l) q := by
  obtain ⟨_, hn, hl⟩ := h
  refine ⟨by simp, hn, seg_congr (fun _ _ => rfl) (fun b hb => Function.update_of_ne ?_ _ _) hl⟩
  rintro rfl
  exact (List.nodup_cons.mp hnodup).1 hb

end Seg

namespace Links

variable [DecidableEq ι]

/-- Take an index out: its neighbours are linked to each other, and an end that pointed at it moves
to its neighbour. The index keeps its own stale links. -/
def unlink (L : Links ι) (i : ι) : Links ι where
  next := match L.prev i with
    | some p => Function.update L.next p (L.next i)
    | none => L.next
  prev := match L.next i with
    | some n => Function.update L.prev n (L.prev i)
    | none => L.prev
  low := if L.prev i = none then L.next i else L.low
  high := if L.next i = none then L.prev i else L.high

/-- Append an index at the high end. -/
def pushBack (L : Links ι) (i : ι) : Links ι where
  next := Function.update (match L.high with
    | some h => Function.update L.next h (some i)
    | none => L.next) i none
  prev := Function.update L.prev i L.high
  low := L.low.or (some i)
  high := some i

end Links

namespace Threads

variable {L : Links ι} {l l₁ l₂ : List ι} {i : ι}

theorem next_eq (h : Threads L (l₁ ++ i :: l₂)) : L.next i = l₂.head? := by
  have := (seg_append.mp h.seg).2
  simpa using this.2.1

theorem prev_eq (h : Threads L (l₁ ++ i :: l₂)) : L.prev i = l₁.getLast? := by
  have := (seg_append.mp h.seg).2
  simpa using this.1

theorem head_next (h : Threads L (i :: l)) : L.next i = l.head? := by
  simpa using h.seg.2.1

theorem head_prev (h : Threads L (i :: l)) : L.prev i = none := h.seg.1

theorem eq_nil_of_high (h : Threads L l) (hhigh : L.high = none) : l = [] := by
  rwa [h.high_eq, List.getLast?_eq_none_iff] at hhigh

theorem eq_nil_of_low (h : Threads L l) (hlow : L.low = none) : l = [] := by
  rwa [h.low_eq, List.head?_eq_none_iff] at hlow

/-- The links of the indices in the list and the two ends are all that matters. -/
theorem congr {L' : Links ι} (h : Threads L l) (hnext : ∀ a ∈ l, L'.next a = L.next a)
    (hprev : ∀ a ∈ l, L'.prev a = L.prev a) (hlow : L'.low = L.low) (hhigh : L'.high = L.high) :
    Threads L' l :=
  ⟨h.nodup, seg_congr hnext hprev h.seg, hlow.trans h.low_eq, hhigh.trans h.high_eq⟩

variable [DecidableEq ι]

theorem pushBack (h : Threads L l) (hi : i ∉ l) : Threads (L.pushBack i) (l ++ [i]) := by
  have hnodup : (l ++ [i]).Nodup := by
    rw [List.nodup_append]
    refine ⟨h.nodup, by simp, fun a ha b hb hab => hi ?_⟩
    rwa [← List.mem_singleton.mp hb, ← hab]
  have hne : ∀ a ∈ l, a ≠ i := fun a ha hai => hi (hai ▸ ha)
  refine ⟨hnodup, ?_, ?_, by simp [Links.pushBack]⟩
  · cases l using List.reverseRecOn with
    | nil => simp [Seg, Links.pushBack, h.high_eq]
    | append_singleton l a =>
        have hhigh : L.high = some a := by simp [h.high_eq]
        refine seg_append.mpr ⟨?_, ?_⟩
        · refine seg_congr (fun b hb => ?_) (fun b hb => ?_)
            (seg_retarget h.nodup h.seg (some i))
          · simp [Links.pushBack, hhigh, Function.update_of_ne (hne b hb)]
          · simp [Links.pushBack, Function.update_of_ne (hne b hb)]
        · simp [Seg, Links.pushBack, hhigh]
  · cases l <;> simp [Links.pushBack, h.low_eq]

theorem unlink (h : Threads L (l₁ ++ i :: l₂)) : Threads (L.unlink i) (l₁ ++ l₂) := by
  have hnext := h.next_eq
  have hprev := h.prev_eq
  obtain ⟨hseg₁, hseg₂⟩ := seg_append.mp h.seg
  obtain ⟨-, -, hseg₂⟩ := hseg₂
  have hnodup := h.nodup
  rw [List.nodup_append] at hnodup
  obtain ⟨hn₁, hn₂, hdisj⟩ := hnodup
  have hn₂' := (List.nodup_cons.mp hn₂).2
  have hdisj' : ∀ a ∈ l₁, ∀ b ∈ l₂, a ≠ b := fun a ha b hb => hdisj a ha b (by simp [hb])
  refine ⟨List.nodup_append.mpr ⟨hn₁, hn₂', hdisj'⟩, ?_, ?_, ?_⟩
  · -- each half keeps its inner links; only the two indices beside `i` are redirected
    refine seg_append.mpr ⟨?_, ?_⟩
    · have hleft : Seg (L.unlink i).next L.prev none l₁ (l₂.head?.or none) := by
        cases l₁ using List.reverseRecOn with
        | nil => trivial
        | append_singleton l a =>
            have : (L.unlink i).next = Function.update L.next a (l₂.head?.or none) := by
              simp [Links.unlink, hprev, hnext]
            rw [this]
            exact seg_retarget hn₁ hseg₁ _
      refine seg_congr (fun _ _ => rfl) (fun a ha => ?_) hleft
      cases l₂ with
      | nil => simp [Links.unlink, hnext]
      | cons b l₂ =>
          simp [Links.unlink, hnext, Function.update_of_ne (hdisj' a ha b (by simp))]
    · have hright : Seg L.next (L.unlink i).prev (l₁.getLast?.or none) l₂ none := by
        cases l₂ with
        | nil => trivial
        | cons b l₂ =>
            have : (L.unlink i).prev = Function.update L.prev b (l₁.getLast?.or none) := by
              simp [Links.unlink, hprev, hnext]
            rw [this]
            exact seg_reenter hn₂' hseg₂ _
      refine seg_congr (fun b hb => ?_) (fun _ _ => rfl) hright
      cases l₁ using List.reverseRecOn with
      | nil => simp [Links.unlink, hprev]
      | append_singleton l a =>
          simp [Links.unlink, hprev, Function.update_of_ne (hdisj' a (by simp) b hb).symm]
  · cases l₁ with
    | nil => simp [Links.unlink, hprev, hnext]
    | cons a l₁ =>
        simp [Links.unlink, hprev, h.low_eq]
  · cases l₂ with
    | nil => simp [Links.unlink, hprev, hnext]
    | cons b l₂ => simp [Links.unlink, hnext, h.high_eq]

/-- Moving an index to the high end. -/
theorem promote (h : Threads L (l₁ ++ i :: l₂)) :
    Threads ((L.unlink i).pushBack i) (l₁ ++ l₂ ++ [i]) := by
  apply h.unlink.pushBack
  have hnodup := (List.nodup_middle.mp h.nodup)
  exact (List.nodup_cons.mp hnodup).1

/-- Moving the lowest index to the high end. -/
theorem rotate (h : Threads L (i :: l)) : Threads ((L.unlink i).pushBack i) (l ++ [i]) := by
  have h' : Threads L ([] ++ i :: l) := h
  exact h'.promote

end Threads

end IndexList
