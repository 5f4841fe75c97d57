import Mathlib.Computability.StateTransition
import Mathlib.Data.List.Basic

/-! Loops: a partial step function is iterated until it gives nothing. `StateTransition.eval` is the loop
itself; here it is run with a bound on its rounds. -/

namespace Loops

open StateTransition

variable {σ : Type*} {step : σ → Option σ} {s t u : σ} {fuel : ℕ}

/-- The loop, given up after `fuel` rounds. -/
def run (step : σ → Option σ) : ℕ → σ → Option σ
  | 0, _ => none
  | fuel + 1, s =>
      match step s with
      | none => some s
      | some t => run step fuel t

/-- The states of the first `fuel` rounds from which the loop goes on. -/
def trace (step : σ → Option σ) : ℕ → σ → List σ
  | 0, _ => []
  | fuel + 1, s =>
      match step s with
      | none => []
      | some t => s :: trace step fuel t

theorem run_succ_of_none (h : step s = none) : run step (fuel + 1) s = some s := by simp [run, h]

theorem run_succ_of_some (h : step s = some t) : run step (fuel + 1) s = run step fuel t := by
  simp [run, h]

theorem trace_succ_of_none (h : step s = none) : trace step (fuel + 1) s = [] := by simp [trace, h]

theorem trace_succ_of_some (h : step s = some t) :
    trace step (fuel + 1) s = s :: trace step fuel t := by simp [trace, h]

/-- What each round keeps holds wherever the loop leads. -/
theorem reaches_invariant {I : σ → Prop} (hstep : ∀ s t, I s → step s = some t → I t) (hs : I s)
    (h : Reaches step s t) : I t := by
  induction h with
  | refl => exact hs
  | tail _ hlast ih => exact hstep _ _ ih hlast

/-- A bounded loop that ends does so where the loop ends. -/
theorem mem_eval_of_run (h : run step fuel s = some t) : t ∈ eval step s := by
  rw [mem_eval]
  induction fuel generalizing s with
  | zero => cases h
  | succ fuel ih =>
      cases hs : step s with
      | none =>
          rw [run_succ_of_none hs, Option.some.injEq] at h
          subst h
          exact ⟨.refl, hs⟩
      | some u =>
          rw [run_succ_of_some hs] at h
          obtain ⟨hreach, hend⟩ := ih h
          exact ⟨.head hs hreach, hend⟩

/-- A loop that ends does so after some number of rounds. -/
theorem exists_run_of_mem_eval (h : t ∈ eval step s) : ∃ fuel, run step fuel s = some t := by
  refine evalInduction h fun a ha ih => ?_
  cases hs : step a with
  | none =>
      obtain rfl : t = a := (eval_maximal (mem_eval.mpr ⟨.refl, hs⟩)).mp (mem_eval.mp ha).1
      exact ⟨1, run_succ_of_none hs⟩
  | some u =>
      obtain ⟨fuel, hfuel⟩ := ih u hs
      exact ⟨fuel + 1, (run_succ_of_some hs).trans hfuel⟩

/-- The rounds of a loop that ends are those of the states reached before the last one. -/
theorem mem_trace_iff (h : run step fuel s = some t) :
    u ∈ trace step fuel s ↔ Reaches step s u ∧ step u ≠ none := by
  induction fuel generalizing s with
  | zero => cases h
  | succ fuel ih =>
      cases hs : step s with
      | none =>
          rw [trace_succ_of_none hs]
          refine iff_of_false (List.not_mem_nil) ?_
          rintro ⟨hreach, hgoes⟩
          rcases Relation.ReflTransGen.cases_head hreach with rfl | ⟨v, hv, -⟩
          · exact hgoes hs
          · cases hs.symm.trans hv
      | some v =>
          rw [run_succ_of_some hs] at h
          rw [trace_succ_of_some hs, List.mem_cons, ih h]
          constructor
          · rintro (rfl | ⟨hreach, hgoes⟩)
            · exact ⟨.refl, by simp [hs]⟩
            · exact ⟨.head hs hreach, hgoes⟩
          · rintro ⟨hreach, hgoes⟩
            rcases Relation.ReflTransGen.cases_head hreach with rfl | ⟨w, hw, hrest⟩
            · exact Or.inl rfl
            · obtain rfl : v = w := Option.some.inj (hs.symm.trans hw)
              exact Or.inr ⟨hrest, hgoes⟩

theorem length_trace_lt (h : run step fuel s = some t) : (trace step fuel s).length < fuel := by
  induction fuel generalizing s with
  | zero => cases h
  | succ fuel ih =>
      cases hs : step s with
      | none =>
          rw [trace_succ_of_none hs]
          exact Nat.succ_pos fuel
      | some u =>
          rw [run_succ_of_some hs] at h
          rw [trace_succ_of_some hs, List.length_cons]
          exact Nat.succ_lt_succ (ih h)

/-- A loop that ends does so with any bound above the number of its rounds. -/
theorem run_of_length_trace_lt {fuel' : ℕ} (h : run step fuel s = some t)
    (hfuel : (trace step fuel s).length < fuel') :
    run step fuel' s = some t ∧ trace step fuel' s = trace step fuel s := by
  induction fuel generalizing s fuel' with
  | zero => cases h
  | succ fuel ih =>
      obtain ⟨fuel', rfl⟩ : ∃ n, fuel' = n + 1 := ⟨fuel' - 1, by omega⟩
      cases hs : step s with
      | none =>
          rw [run_succ_of_none hs] at h ⊢
          rw [trace_succ_of_none hs, trace_succ_of_none hs]
          exact ⟨h, rfl⟩
      | some u =>
          rw [run_succ_of_some hs] at h ⊢
          rw [trace_succ_of_some hs, List.length_cons] at hfuel
          rw [trace_succ_of_some hs, trace_succ_of_some hs]
          obtain ⟨hrun, htrace⟩ := ih h (Nat.lt_of_succ_lt_succ hfuel)
          exact ⟨hrun, by rw [htrace]⟩

/-- A measure that goes down in every round bounds the rounds. -/
theorem exists_run_of_decreasing (μ : σ → ℕ)
    (hdec : ∀ t u, Reaches step s t → step t = some u → μ u < μ t) (hfuel : μ s < fuel) :
    ∃ t, run step fuel s = some t := by
  induction fuel generalizing s with
  | zero => cases hfuel
  | succ fuel ih =>
      cases hs : step s with
      | none => exact ⟨s, run_succ_of_none hs⟩
      | some v =>
          rw [run_succ_of_some hs]
          have hless := hdec s v .refl hs
          exact ih (fun t u hreach => hdec t u (.head hs hreach)) (by omega)

/-- A loop among states from which it always goes on does not end. -/
theorem run_eq_none_of_invariant {I : σ → Prop} (hnext : ∀ s, I s → ∃ t, step s = some t ∧ I t)
    (hs : I s) : run step fuel s = none := by
  induction fuel generalizing s with
  | zero => rfl
  | succ fuel ih =>
      obtain ⟨t, ht, hI⟩ := hnext s hs
      rw [run_succ_of_some ht]
      exact ih hI

/-- A counting loop that writes a buffer from its beginning and reads it no nearer to the beginning: what it reads
has not been written yet. -/
theorem foldl_set_ahead {α : Type*} (g : ℕ → α → α) (xs : List α) (d : α) {n offset : ℕ}
    (h : n + offset ≤ xs.length) :
    (List.range n).foldl (fun ys j => ys.set j (g j (ys.getD (j + offset) d))) xs =
      ((xs.drop offset).take n).mapIdx g ++ xs.drop n := by
  induction n with
  | zero => simp
  | succ n ih =>
      have hn : n < xs.length := by omega
      have hread : n < (xs.drop offset).length := by
        rw [List.length_drop]
        omega
      have hwritten : (((xs.drop offset).take n).mapIdx g).length = n := by
        rw [List.length_mapIdx, List.length_take_of_le hread.le]
      -- the position that is read lies behind those that have been written
      have hold : (((xs.drop offset).take n).mapIdx g ++ xs.drop n).getD (n + offset) d =
          (xs.drop offset)[n] := by
        have hin : offset < (xs.drop n).length := by
          rw [List.length_drop]
          omega
        rw [List.getD_eq_getElem?_getD, List.getElem?_append_right (by omega), hwritten, Nat.add_sub_cancel_left,
          List.getElem?_eq_getElem hin, Option.getD_some, List.getElem_drop, List.getElem_drop]
        simp only [Nat.add_comm]
      rw [List.range_succ, List.foldl_append, ih (by omega), List.foldl_cons, List.foldl_nil, hold,
        List.set_append_right _ _ hwritten.le, hwritten, Nat.sub_self, List.drop_eq_getElem_cons hn,
        List.set_cons_zero, List.take_succ_eq_append_getElem hread, List.mapIdx_append]
      have hmin : min n (xs.length - offset) = n := by omega
      simp [hmin]

end Loops
