import LiburingServer.Lib.Runs
import Mathlib.Data.List.Induction
import Mathlib.Order.Bounds.Defs

/-! A pool that grows only when all of it is in use is as large as what was ever in use at once. -/

namespace Peaks

open Runs

variable {σ ι ο : Type*} {step : σ → ι → Option (σ × ο)} {s t u : σ} {is : List ι} {i : ι}

/-- The run on `is` from `s` passes through `u`. -/
def Visited (step : σ → ι → Option (σ × ο)) (s : σ) (is : List ι) (u : σ) : Prop :=
  ∃ is₁ is₂ os, is = is₁ ++ is₂ ∧ exec step s is₁ = some (u, os)

theorem Visited.last {os : List ο} (h : exec step s is = some (t, os)) : Visited step s is t :=
  ⟨is, [], os, by simp, h⟩

theorem Visited.append (h : Visited step s is u) (is' : List ι) : Visited step s (is ++ is') u := by
  obtain ⟨is₁, is₂, os, rfl, hrun⟩ := h
  exact ⟨is₁, is₂ ++ is', os, by simp, hrun⟩

/-- A run that is longer by one step passes through where it leads, beside where it passed before. -/
theorem visited_concat {os : List ο} (hrun : exec step s (is ++ [i]) = some (t, os))
    (h : Visited step s (is ++ [i]) u) : Visited step s is u ∨ u = t := by
  obtain ⟨is₁, is₂, os₁, hsplit, hrun₁⟩ := h
  cases is₂ using List.reverseRecOn with
  | nil =>
      rw [List.append_nil] at hsplit
      rw [hsplit, hrun₁] at hrun
      exact Or.inr (by simpa using congrArg (Option.map Prod.fst) hrun)
  | append_singleton is₂ j =>
      rw [← List.append_assoc] at hsplit
      obtain ⟨hinit, -⟩ := List.append_inj' hsplit rfl
      exact Or.inl ⟨is₁, is₂, os₁, hinit, hrun₁⟩

/-- **Peaks.** When the size never decreases, and is in use completely whenever it has grown, it is the greatest amount
that was in use on the way. -/
theorem isGreatest_used {I : σ → Prop} (size used : σ → ℕ) (hused : ∀ s, used s ≤ size s)
    (hstep : ∀ s i t o, I s → step s i = some (t, o) →
      I t ∧ size s ≤ size t ∧ (size t = size s ∨ used t = size t)) (hI : I s) (hs : used s = size s)
    {os : List ο} (hrun : exec step s is = some (t, os)) :
    IsGreatest {n | ∃ u, Visited step s is u ∧ n = used u} (size t) := by
  suffices h : I t ∧ IsGreatest {n | ∃ u, Visited step s is u ∧ n = used u} (size t) from h.2
  induction is using List.reverseRecOn generalizing t os with
  | nil =>
      obtain ⟨rfl, -⟩ : s = t ∧ _ := by simpa [exec] using hrun
      refine ⟨hI, ⟨s, Visited.last hrun, hs.symm⟩, ?_⟩
      rintro n ⟨u, ⟨is₁, is₂, os₁, hnil, hu⟩, rfl⟩
      obtain ⟨rfl, -⟩ := List.append_eq_nil_iff.mp hnil.symm
      obtain ⟨rfl, -⟩ : s = u ∧ _ := by simpa [exec] using hu
      exact hused s
  | append_singleton is i ih =>
      obtain ⟨v, os₁, os₂, hv, ht, -⟩ := exec_append.mp hrun
      obtain ⟨w, o, os', hi, hw, -⟩ := exec_cons ht
      obtain ⟨rfl, -⟩ : w = t ∧ _ := by simpa [exec] using hw
      obtain ⟨hIv, hmem, hbound⟩ := ih hv
      obtain ⟨hIw, hle, hgrown⟩ := hstep v i w o hIv hi
      refine ⟨hIw, ?_, ?_⟩
      · rcases hgrown with hsame | hfull
        · obtain ⟨u, hu, hsize⟩ := hmem
          exact ⟨u, hu.append [i], hsame.trans hsize⟩
        · exact ⟨w, Visited.last hrun, hfull.symm⟩
      · rintro n ⟨u, hu, rfl⟩
        rcases visited_concat hrun hu with hu | rfl
        · calc used u ≤ size v := hbound ⟨u, hu, rfl⟩
            _ ≤ size w := hle
        · exact hused u

end Peaks
