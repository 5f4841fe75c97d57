import Mathlib.Data.List.Basic
import Mathlib.Data.List.Infix
import Mathlib.Tactic.Common

/-! Lexical resolution of relative paths: names are pushed, and a step up takes back the last name, or climbs
above the start when no name is left. -/

namespace LexicalPath

variable {α : Type*}

/-- What a component of a path does. -/
inductive Step (α : Type*) where
  | name (a : α)
  | up
  deriving DecidableEq

namespace Step

def isUp : Step α → Bool
  | name _ => false
  | up => true

end Step

/-- How many steps lead up. -/
def ups (steps : List (Step α)) : ℕ := steps.countP Step.isUp

/-- How many steps are names. -/
def names (steps : List (Step α)) : ℕ := steps.countP fun s => !s.isUp

/-- No beginning of the path has more steps up than names. -/
def NeverClimbs (steps : List (Step α)) : Prop := ∀ l, l <+: steps → ups l ≤ names l

/-- The path leads back to where it starts and never above it. -/
def Balanced (steps : List (Step α)) : Prop := NeverClimbs steps ∧ ups steps = names steps

/-! ### Resolution -/

/-- Where a resolved path leads: how far above the start, and by which names from there, the last one first. -/
def walk : ℕ × List α → Step α → ℕ × List α
  | (above, stack), .name a => (above, a :: stack)
  | (above, []), .up => (above + 1, [])
  | (above, _ :: stack), .up => (above, stack)

def resolve (steps : List (Step α)) : ℕ × List α := steps.foldl walk (0, [])

/-- The resolved path leads to the entry `a` of the directory where it starts, or below it. -/
def Inside (a : α) (steps : List (Step α)) : Prop := (resolve steps).1 = 0 ∧ (resolve steps).2.getLast? = some a

instance [DecidableEq α] (a : α) (steps : List (Step α)) : Decidable (Inside a steps) :=
  inferInstanceAs (Decidable (_ ∧ _))

@[simp] theorem resolve_nil : resolve ([] : List (Step α)) = (0, []) := rfl

theorem resolve_concat (steps : List (Step α)) (s : Step α) : resolve (steps ++ [s]) = walk (resolve steps) s := by
  simp [resolve]

theorem resolve_append (steps steps' : List (Step α)) :
    resolve (steps ++ steps') = steps'.foldl walk (resolve steps) := by
  simp [resolve]

@[simp] theorem ups_concat_name (steps : List (Step α)) (a : α) : ups (steps ++ [.name a]) = ups steps := by
  simp [ups, Step.isUp]

@[simp] theorem ups_concat_up (steps : List (Step α)) : ups (steps ++ [.up]) = ups steps + 1 := by
  simp [ups, Step.isUp]

@[simp] theorem names_concat_name (steps : List (Step α)) (a : α) :
    names (steps ++ [.name a]) = names steps + 1 := by
  simp [names, Step.isUp]

@[simp] theorem names_concat_up (steps : List (Step α)) : names (steps ++ [.up]) = names steps := by
  simp [names, Step.isUp]

/-- What is pushed is taken back, left, or replaced by a climb. -/
theorem names_add_above (steps : List (Step α)) :
    names steps + (resolve steps).1 = ups steps + (resolve steps).2.length := by
  induction steps using List.reverseRecOn with
  | nil => rfl
  | append_singleton steps s ih =>
      rw [resolve_concat]
      generalize resolve steps = r at ih
      obtain ⟨above, stack⟩ := r
      cases s with
      | name a =>
          simp only [walk, names_concat_name, ups_concat_name, List.length_cons] at ih ⊢
          omega
      | up =>
          rw [names_concat_up, ups_concat_up]
          cases stack with
          | nil =>
              simp only [walk, List.length_nil] at ih ⊢
              omega
          | cons b stack =>
              simp only [walk, List.length_cons] at ih ⊢
              omega

theorem above_le_walk (r : ℕ × List α) (s : Step α) : r.1 ≤ (walk r s).1 := by
  obtain ⟨above, stack⟩ := r
  cases s with
  | name a => exact Nat.le_refl _
  | up =>
      cases stack with
      | nil => exact Nat.le_succ _
      | cons b stack => exact Nat.le_refl _

theorem above_le_foldl (steps : List (Step α)) (r : ℕ × List α) : r.1 ≤ (steps.foldl walk r).1 := by
  induction steps generalizing r with
  | nil => exact Nat.le_refl _
  | cons s steps ih => exact (above_le_walk r s).trans (ih (walk r s))

/-! ### Resolution and counting -/

/-- A path climbs in its resolution exactly if it does by counting. -/
theorem neverClimbs_iff {steps : List (Step α)} : NeverClimbs steps ↔ (resolve steps).1 = 0 := by
  constructor
  · intro h
    induction steps using List.reverseRecOn with
    | nil => rfl
    | append_singleton steps s ih =>
        have habove := ih fun l hl => h l (hl.trans (List.prefix_append steps [s]))
        have hwhole := h _ (List.prefix_refl _)
        have hcount := names_add_above steps
        rw [resolve_concat]
        generalize resolve steps = r at habove hcount
        obtain ⟨above, stack⟩ := r
        cases s with
        | name a => exact habove
        | up =>
            rw [ups_concat_up, names_concat_up] at hwhole
            cases stack with
            | nil =>
                simp only [List.length_nil] at habove hcount
                omega
            | cons b stack => exact habove
  · rintro h l ⟨rest, rfl⟩
    rw [resolve_append] at h
    have hle := above_le_foldl rest (resolve l)
    have hcount := names_add_above l
    omega

theorem balanced_iff {steps : List (Step α)} : Balanced steps ↔ resolve steps = (0, []) := by
  have hcount := names_add_above steps
  rw [Balanced, neverClimbs_iff, Prod.ext_iff, ← List.length_eq_zero_iff]
  constructor
  · rintro ⟨habove, heq⟩
    exact ⟨habove, by omega⟩
  · rintro ⟨habove, hlength⟩
    exact ⟨habove, by omega⟩

/-- A path that does not climb leaves the names that are there before it alone. -/
theorem foldl_walk_append {steps : List (Step α)} {stack : List α} (above : ℕ) (base : List α)
    (h : (steps.foldl walk (above, stack)).1 = above) :
    steps.foldl walk (above, stack ++ base) = (above, (steps.foldl walk (above, stack)).2 ++ base) := by
  induction steps generalizing stack with
  | nil => rfl
  | cons s steps ih =>
      cases s with
      | name a => exact ih h
      | up =>
          cases stack with
          | nil =>
              have hle : above + 1 ≤ above := (above_le_foldl steps (above + 1, [])).trans_eq h
              omega
          | cons b stack => exact ih h

/-- Behind a path back to the start, an entry of it and a path that does not climb, that entry is the lowest
name. -/
theorem resolve_of_cut {before after : List (Step α)} {a : α} (hbefore : Balanced before)
    (hafter : NeverClimbs after) :
    resolve (before ++ .name a :: after) = (0, (resolve after).2 ++ [a]) := by
  rw [resolve_append, balanced_iff.mp hbefore, List.foldl_cons]
  exact foldl_walk_append 0 [a] (neverClimbs_iff.mp hafter)

/-- The path is a path back to the start, the entry `a`, and a path that does not climb. -/
def CutAt (a : α) (steps : List (Step α)) : Prop :=
  ∃ before after, steps = before ++ .name a :: after ∧ Balanced before ∧ NeverClimbs after

theorem CutAt.concat_name {a : α} {steps : List (Step α)} (h : CutAt a steps) (b : α) :
    CutAt a (steps ++ [.name b]) := by
  obtain ⟨before, after, rfl, hbefore, hafter⟩ := h
  refine ⟨before, after ++ [.name b], by simp, hbefore, ?_⟩
  rw [neverClimbs_iff, resolve_concat]
  exact neverClimbs_iff.mp hafter

/-- A step up takes back a name behind the entry as long as another name is left. -/
theorem CutAt.concat_up {a : α} {steps : List (Step α)} (h : CutAt a steps)
    (hleft : 1 < (resolve steps).2.length) : CutAt a (steps ++ [.up]) := by
  obtain ⟨before, after, rfl, hbefore, hafter⟩ := h
  refine ⟨before, after ++ [.up], by simp, hbefore, ?_⟩
  have habove := neverClimbs_iff.mp hafter
  rw [resolve_of_cut hbefore hafter, List.length_append, List.length_singleton] at hleft
  rw [neverClimbs_iff, resolve_concat]
  generalize resolve after = r at habove hleft
  obtain ⟨above, stack⟩ := r
  cases stack with
  | nil => exact absurd hleft (Nat.lt_irrefl 1)
  | cons c stack => exact habove

theorem Inside.cutAt {a : α} {steps : List (Step α)} (h : Inside a steps) : CutAt a steps := by
  induction steps using List.reverseRecOn with
  | nil => simp [Inside] at h
  | append_singleton steps s ih =>
      rw [Inside, resolve_concat] at h
      unfold Inside at ih
      cases hr : resolve steps with
      | mk above stack =>
          rw [hr] at h ih
          cases s with
          | name b =>
              obtain ⟨rfl, hlast⟩ := h
              cases stack with
              | nil =>
                  -- the path is back at the start and the last name enters it
                  obtain rfl : b = a := by simpa [walk] using hlast
                  exact ⟨steps, [], rfl, balanced_iff.mpr hr, neverClimbs_iff.mpr rfl⟩
              | cons c stack =>
                  have hlast' : (c :: stack).getLast? = some a := by rwa [walk, List.getLast?_cons_cons] at hlast
                  exact (ih ⟨rfl, hlast'⟩).concat_name b
          | up =>
              cases stack with
              | nil => cases h.1
              | cons c stack =>
                  cases stack with
                  | nil => cases h.2
                  | cons d stack =>
                      obtain ⟨rfl, hlast⟩ := h
                      have hlast' : (c :: d :: stack).getLast? = some a := by rwa [List.getLast?_cons_cons]
                      exact (ih ⟨rfl, hlast'⟩).concat_up (by simp [hr])

/-- **Where a path leads, by counting.** It leads to an entry or below it exactly if it can be cut at this entry
into a path back to the start and a path that does not climb. -/
theorem inside_iff_cutAt {a : α} {steps : List (Step α)} : Inside a steps ↔ CutAt a steps := by
  refine ⟨Inside.cutAt, ?_⟩
  rintro ⟨before, after, rfl, hbefore, hafter⟩
  rw [Inside, resolve_of_cut hbefore hafter]
  exact ⟨rfl, by simp⟩

end LexicalPath
