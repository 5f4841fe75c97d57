import Mathlib.Data.List.Basic

/-! Runs of a partial deterministic step function: `none` is a step that is not defined. -/

namespace Runs

variable {σ ι ο : Type*}

/-- The state after a list of inputs and the outputs along the way. -/
def exec (step : σ → ι → Option (σ × ο)) : σ → List ι → Option (σ × List ο)
  | s, [] => some (s, [])
  | s, i :: is =>
      match step s i with
      | none => none
      | some (t, o) => (exec step t is).map fun r => (r.1, o :: r.2)

/-- Every step of the run, taken where the run takes it, satisfies `P`. -/
def Along (step : σ → ι → Option (σ × ο)) (P : σ → ι → Prop) : σ → List ι → Prop
  | _, [] => True
  | s, i :: is => P s i ∧ ∀ t o, step s i = some (t, o) → Along step P t is

/-- The run is defined to its end and every state of it, the first and the last included,
satisfies `Q`. -/
def Throughout (step : σ → ι → Option (σ × ο)) (Q : σ → Prop) : σ → List ι → Prop
  | s, [] => Q s
  | s, i :: is => Q s ∧ ∃ t o, step s i = some (t, o) ∧ Throughout step Q t is

variable {step : σ → ι → Option (σ × ο)} {P : σ → ι → Prop} {Q : σ → Prop}

/-- Whether every step of a run is admissible can be computed along the run. -/
instance decidableAlong [∀ s i, Decidable (P s i)] : ∀ s is, Decidable (Along step P s is)
  | _, [] => isTrue trivial
  | s, i :: is =>
      match h : step s i with
      | none => decidable_of_iff (P s i) (by simp [Along, h])
      | some (t, o) =>
          have := decidableAlong t is
          decidable_of_iff (P s i ∧ Along step P t is) (by simp [Along, h])

theorem along_of_forall (h : ∀ s i, P s i) {s : σ} {is : List ι} : Along step P s is := by
  induction is generalizing s with
  | nil => trivial
  | cons i is ih => exact ⟨h s i, fun t o _ => ih⟩

/-- What holds of every input holds along the run. -/
theorem along_of_mem {P : ι → Prop} {s : σ} {is : List ι} (h : ∀ i ∈ is, P i) :
    Along step (fun _ => P) s is := by
  induction is generalizing s with
  | nil => trivial
  | cons i is ih => exact ⟨h i (by simp), fun t o _ => ih fun j hj => h j (List.mem_cons_of_mem _ hj)⟩

theorem Along.imp {P' : σ → ι → Prop} (h : ∀ s i, P s i → P' s i) {s : σ} {is : List ι}
    (hP : Along step P s is) : Along step P' s is := by
  induction is generalizing s with
  | nil => trivial
  | cons i is ih => exact ⟨h s i hP.1, fun t o ht => ih (hP.2 t o ht)⟩

theorem Throughout.head {s : σ} {is : List ι} (h : Throughout step Q s is) : Q s := by
  cases is with
  | nil => exact h
  | cons i is => exact h.1

theorem Throughout.exec_last {s : σ} {is : List ι} (h : Throughout step Q s is) :
    ∃ t os, exec step s is = some (t, os) ∧ Q t := by
  induction is generalizing s with
  | nil => exact ⟨s, [], rfl, h⟩
  | cons i is ih =>
      obtain ⟨_, t, o, ht, hrest⟩ := h
      obtain ⟨u, os, hu, hQ⟩ := ih hrest
      exact ⟨u, o :: os, by simp [exec, ht, hu], hQ⟩

/-- An invariant that each admissible step keeps holds throughout an admissible run. -/
theorem throughout_of_along
    (hstep : ∀ s i, Q s → P s i → ∃ t o, step s i = some (t, o) ∧ Q t) {s : σ} {is : List ι}
    (hs : Q s) (h : Along step P s is) : Throughout step Q s is := by
  induction is generalizing s with
  | nil => exact hs
  | cons i is ih =>
      obtain ⟨t, o, ht, hQ⟩ := hstep s i hs h.1
      exact ⟨hs, t, o, ht, ih hQ (h.2 t o ht)⟩

/-- A run begins with a step, and goes on from where it leads. -/
theorem exec_cons {s u : σ} {i : ι} {is : List ι} {os : List ο} (h : exec step s (i :: is) = some (u, os)) :
    ∃ t o os', step s i = some (t, o) ∧ exec step t is = some (u, os') ∧ os = o :: os' := by
  cases hi : step s i with
  | none => simp [exec, hi] at h
  | some r =>
      obtain ⟨t, o⟩ := r
      simp only [exec, hi, Option.map_eq_some_iff, Prod.mk.injEq] at h
      obtain ⟨⟨v, os'⟩, hrest, rfl, rfl⟩ := h
      exact ⟨t, o, os', rfl, hrest, rfl⟩

/-- An invariant that each admissible step keeps, when it is defined, holds wherever an admissible run
leads. -/
theorem exec_invariant (hstep : ∀ s i t o, Q s → P s i → step s i = some (t, o) → Q t) {s t : σ}
    {is : List ι} {os : List ο} (hs : Q s) (h : Along step P s is)
    (hrun : exec step s is = some (t, os)) : Q t := by
  induction is generalizing s os with
  | nil =>
      obtain ⟨rfl, -⟩ : s = t ∧ _ := by simpa [exec] using hrun
      exact hs
  | cons i is ih =>
      obtain ⟨u, o, os', hi, hv, rfl⟩ := exec_cons hrun
      exact ih (hstep s i u o hs h.1 hi) (h.2 u o hi) hv

/-- An invariant of the state and of all outputs so far. -/
theorem exec_history {Q : σ → List ο → Prop}
    (hstep : ∀ s past i t o, Q s past → P s i → step s i = some (t, o) → Q t (past ++ [o])) {s t : σ}
    {past : List ο} {is : List ι} {os : List ο} (hs : Q s past) (h : Along step P s is)
    (hrun : exec step s is = some (t, os)) : Q t (past ++ os) := by
  induction is generalizing s past os with
  | nil =>
      obtain ⟨rfl, rfl⟩ : s = t ∧ [] = os := by simpa [exec] using hrun
      simpa using hs
  | cons i is ih =>
      obtain ⟨u, o, os', hi, hv, rfl⟩ := exec_cons hrun
      have hlater := ih (hstep s past i u o hs h.1 hi) (h.2 u o hi) hv
      simpa using hlater

/-- Each output of a run is the output of a step on one of its inputs. -/
theorem exec_mem_outputs {R : ι → ο → Prop} (hstep : ∀ s i t o, step s i = some (t, o) → R i o) {s t : σ}
    {is : List ι} {os : List ο} (hrun : exec step s is = some (t, os)) : ∀ o ∈ os, ∃ i ∈ is, R i o := by
  induction is generalizing s os with
  | nil =>
      obtain ⟨-, rfl⟩ : s = t ∧ [] = os := by simpa [exec] using hrun
      simp
  | cons i is ih =>
      obtain ⟨u, o, os', hi, hrest, rfl⟩ := exec_cons hrun
      intro o' ho'
      rcases List.mem_cons.mp ho' with rfl | ho'
      · exact ⟨i, List.mem_cons_self .., hstep s i u o' hi⟩
      · obtain ⟨j, hj, hR⟩ := ih hrest o' ho'
        exact ⟨j, List.mem_cons_of_mem _ hj, hR⟩

theorem exec_singleton {s t : σ} {i : ι} {o : ο} (h : step s i = some (t, o)) :
    exec step s [i] = some (t, [o]) := by simp [exec, h]

/-- Each input has an output. -/
theorem length_exec {s t : σ} {is : List ι} {os : List ο} (h : exec step s is = some (t, os)) :
    os.length = is.length := by
  induction is generalizing s os with
  | nil =>
      obtain ⟨-, rfl⟩ : s = t ∧ [] = os := by simpa [exec] using h
      rfl
  | cons i is ih =>
      obtain ⟨u, o, os', -, hrest, rfl⟩ := exec_cons h
      rw [List.length_cons, ih hrest, List.length_cons]

/-- A run is a run of its first part followed by a run of its second part. -/
theorem exec_append {s u : σ} {is is' : List ι} {os : List ο} :
    exec step s (is ++ is') = some (u, os) ↔
      ∃ t os₁ os₂, exec step s is = some (t, os₁) ∧ exec step t is' = some (u, os₂) ∧ os = os₁ ++ os₂ := by
  induction is generalizing s os with
  | nil => simp [exec]
  | cons i is ih =>
      cases hi : step s i with
      | none => simp [exec, hi]
      | some r =>
          simp only [List.cons_append, exec, hi, Option.map_eq_some_iff, Prod.mk.injEq, Prod.exists]
          constructor
          · rintro ⟨v, os', hv, rfl, rfl⟩
            obtain ⟨t, os₁, os₂, h₁, h₂, rfl⟩ := ih.mp hv
            exact ⟨t, r.2 :: os₁, os₂, ⟨t, os₁, h₁, rfl, rfl⟩, h₂, rfl⟩
          · rintro ⟨t, os₁, os₂, ⟨t', os', h₁, rfl, rfl⟩, h₂, rfl⟩
            exact ⟨u, os' ++ os₂, ih.mpr ⟨_, _, _, h₁, h₂, rfl⟩, rfl, rfl⟩

/-- A run is admissible if its first part is, and its second part from where the first one leads. -/
theorem along_append {s t : σ} {is is' : List ι} {os : List ο} (h : exec step s is = some (t, os)) :
    Along step P s (is ++ is') ↔ Along step P s is ∧ Along step P t is' := by
  induction is generalizing s os with
  | nil =>
      obtain ⟨rfl, -⟩ : s = t ∧ _ := by simpa [exec] using h
      simp [Along]
  | cons i is ih =>
      obtain ⟨u, o, os', hi, hv, -⟩ := exec_cons h
      have hrest := ih hv
      simp [Along, hi, hrest, and_assoc]

/-- When each step keeps the invariant exactly if it is admissible, a run keeps it throughout exactly
if all its steps are. -/
theorem throughout_iff_along
    (hstep : ∀ s i, Q s → (P s i ↔ ∃ t o, step s i = some (t, o) ∧ Q t)) {s : σ} {is : List ι}
    (hs : Q s) : Throughout step Q s is ↔ Along step P s is := by
  refine ⟨fun h => ?_, throughout_of_along (fun s i hQ hP => (hstep s i hQ).mp hP) hs⟩
  induction is generalizing s with
  | nil => trivial
  | cons i is ih =>
      obtain ⟨_, t, o, ht, hrest⟩ := h
      refine ⟨(hstep s i hs).mpr ⟨t, o, ht, hrest.head⟩, fun t' o' ht' => ?_⟩
      obtain ⟨rfl, rfl⟩ : t = t' ∧ o = o' := by simpa [ht] using ht'
      exact ih hrest.head hrest

/-- The same along a run that is defined to its end, beside an invariant that every step keeps, and with a
condition `U` on the steps themselves. -/
theorem throughout_and_along_iff {I : σ → Prop} {U : σ → ι → Prop}
    (hstep : ∀ s i t o, I s → Q s → step s i = some (t, o) → I t ∧ (P s i ↔ U s i ∧ Q t)) {s u : σ}
    {is : List ι} {os : List ο} (hI : I s) (hQ : Q s) (hrun : exec step s is = some (u, os)) :
    Throughout step Q s is ∧ Along step U s is ↔ Along step P s is := by
  induction is generalizing s os with
  | nil => exact iff_of_true ⟨hQ, trivial⟩ trivial
  | cons i is ih =>
      obtain ⟨t, o, os', hi, hrest, rfl⟩ := exec_cons hrun
      obtain ⟨hI', hkeeps⟩ := hstep s i t o hI hQ hi
      constructor
      · rintro ⟨⟨-, t', o', ht', hlater⟩, hU, hUs⟩
        obtain ⟨rfl, rfl⟩ : t = t' ∧ o = o' := by simpa [hi] using ht'
        refine ⟨hkeeps.mpr ⟨hU, hlater.head⟩, fun t' o' ht' => ?_⟩
        obtain ⟨rfl, rfl⟩ : t = t' ∧ o = o' := by simpa [hi] using ht'
        exact (ih hI' hlater.head hrest).mp ⟨hlater, hUs t o hi⟩
      · rintro ⟨hP, hlater⟩
        obtain ⟨hU, hQ'⟩ := hkeeps.mp hP
        obtain ⟨hQs, hUs⟩ := (ih hI' hQ' hrest).mpr (hlater t o hi)
        refine ⟨⟨hQ, t, o, hi, hQs⟩, hU, fun t' o' ht' => ?_⟩
        obtain ⟨rfl, rfl⟩ : t = t' ∧ o = o' := by simpa [hi] using ht'
        exact hUs

theorem throughout_iff_along_of_exec {I : σ → Prop}
    (hstep : ∀ s i t o, I s → Q s → step s i = some (t, o) → I t ∧ (P s i ↔ Q t)) {s u : σ} {is : List ι}
    {os : List ο} (hI : I s) (hQ : Q s) (hrun : exec step s is = some (u, os)) :
    Throughout step Q s is ↔ Along step P s is := by
  have hboth := throughout_and_along_iff (P := P) (U := fun _ _ => True)
    (fun s i t o hI hQ hi => by simpa using hstep s i t o hI hQ hi) hI hQ hrun
  rw [← hboth]
  exact ⟨fun h => ⟨h, along_of_forall fun _ _ => trivial⟩, And.left⟩

/-- When a step meets the condition exactly if its output has a property, a run that is defined to its end meets
it along the way exactly if all its outputs have the property. -/
theorem along_iff_forall_outputs {R : ο → Prop} (hstep : ∀ s i t o, step s i = some (t, o) → (P s i ↔ R o))
    {s u : σ} {is : List ι} {os : List ο} (hrun : exec step s is = some (u, os)) :
    Along step P s is ↔ ∀ o ∈ os, R o := by
  induction is generalizing s os with
  | nil =>
      obtain ⟨-, rfl⟩ : s = u ∧ [] = os := by simpa [exec] using hrun
      simp [Along]
  | cons i is ih =>
      obtain ⟨t, o, os', hi, hrest, rfl⟩ := exec_cons hrun
      have hlater := ih hrest
      simp [Along, hi, hstep s i t o hi, hlater]

/-- Two conditions on steps that agree wherever an invariant holds and a third condition is met agree along a run
that is defined to its end and meets it. -/
theorem along_iff_of_exec {I : σ → Prop} {H P' : σ → ι → Prop}
    (hstep : ∀ s i t o, I s → H s i → step s i = some (t, o) → I t ∧ (P s i ↔ P' s i)) {s u : σ} {is : List ι}
    {os : List ο} (hI : I s) (hH : Along step H s is) (hrun : exec step s is = some (u, os)) :
    Along step P s is ↔ Along step P' s is := by
  induction is generalizing s os with
  | nil => exact Iff.rfl
  | cons i is ih =>
      obtain ⟨t, o, os', hi, hrest, rfl⟩ := exec_cons hrun
      obtain ⟨hI', hagree⟩ := hstep s i t o hI hH.1 hi
      have hlater := ih hI' (hH.2 t o hi) hrest
      simp [Along, hi, hagree, hlater]

/-- Two conditions on steps that agree wherever an invariant holds, which the steps keep that meet them, agree along
every run. -/
theorem along_congr {I : σ → Prop} {H P' : σ → ι → Prop} (hagree : ∀ s i, I s → H s i → (P s i ↔ P' s i))
    (hkeeps : ∀ s i t o, I s → P' s i → step s i = some (t, o) → I t) {s : σ} {is : List ι} (hI : I s)
    (hH : Along step H s is) : Along step P s is ↔ Along step P' s is := by
  induction is generalizing s with
  | nil => exact Iff.rfl
  | cons i is ih =>
      obtain ⟨hi, hlater⟩ := hH
      have hhere := hagree s i hI hi
      constructor
      · rintro ⟨hP, hPs⟩
        have hP' := hhere.mp hP
        exact ⟨hP', fun t o ht => (ih (hkeeps s i t o hI hP' ht) (hlater t o ht)).mp (hPs t o ht)⟩
      · rintro ⟨hP', hPs⟩
        exact ⟨hhere.mpr hP', fun t o ht => (ih (hkeeps s i t o hI hP' ht) (hlater t o ht)).mpr (hPs t o ht)⟩

/-- What each round of a fold keeps, the fold keeps. -/
theorem foldlM_keeps {α β : Type*} {f : β → α → Option β} {R : β → Prop} {l : List α}
    (hf : ∀ b a b', a ∈ l → R b → f b a = some b' → R b') {b b' : β} (hb : R b)
    (h : l.foldlM f b = some b') : R b' := by
  induction l generalizing b with
  | nil =>
      obtain rfl : b = b' := by simpa using h
      exact hb
  | cons a l ih =>
      rw [List.foldlM_cons] at h
      cases hfa : f b a with
      | none => simp [hfa] at h
      | some c =>
          refine ih (fun b a b' ha => hf b a b' (List.mem_cons_of_mem _ ha)) (hf b a c (by simp) hb hfa) ?_
          simpa [hfa] using h

/-- What the rounds of a fold output, in their order. -/
def foldTrace {α β γ : Type*} (f : β → α → Option β) (g : β → α → List γ) : β → List α → List γ
  | _, [] => []
  | b, a :: l => g b a ++ match f b a with
    | none => []
    | some c => foldTrace f g c l

/-- A relation between states and the outputs between them that each round of a fold establishes. -/
theorem foldTrace_relates {α β γ : Type*} {f : β → α → Option β} {g : β → α → List γ} {R : β → List γ → β → Prop}
    {l : List α} (hrefl : ∀ b, R b [] b) (htrans : ∀ b c d os os', R b os c → R c os' d → R b (os ++ os') d)
    (hf : ∀ b a b', a ∈ l → f b a = some b' → R b (g b a) b') {b b' : β} (h : l.foldlM f b = some b') :
    R b (foldTrace f g b l) b' := by
  induction l generalizing b with
  | nil =>
      obtain rfl : b = b' := by simpa using h
      exact hrefl b
  | cons a l ih =>
      rw [List.foldlM_cons] at h
      obtain ⟨c, hc, h⟩ := Option.bind_eq_some_iff.mp h
      simp only [foldTrace, hc]
      exact htrans b c b' _ _ (hf b a c (by simp) hc) (ih (fun b a b' ha => hf b a b' (List.mem_cons_of_mem _ ha)) h)

/-! ### Simulation by a total specification -/

variable {τ κ α : Type*}

/-- The run of a specification whose steps are always defined. -/
def trace (spec : τ → κ → τ × α) : τ → List κ → τ × List α
  | a, [] => (a, [])
  | a, k :: ks => ((trace spec (spec a k).1 ks).1, (spec a k).2 :: (trace spec (spec a k).1 ks).2)

theorem trace_append (spec : τ → κ → τ × α) (a : τ) (ks ks' : List κ) : trace spec a (ks ++ ks') =
    ((trace spec (trace spec a ks).1 ks').1, (trace spec a ks).2 ++ (trace spec (trace spec a ks).1 ks').2) := by
  induction ks generalizing a with
  | nil => rfl
  | cons k ks ih => rw [List.cons_append, trace, ih, trace, List.cons_append]

/-- If each admissible step is matched by the step of the specification on the erased input, with the
same observation, then so is each admissible run. -/
theorem exec_simulates {R : σ → τ → Prop} {spec : τ → κ → τ × α} {erase : ι → Option κ} {obs : ο → α}
    (hstep : ∀ s a i, R s a → P s i → ∃ k t o, erase i = some k ∧ step s i = some (t, o) ∧
      R t (spec a k).1 ∧ obs o = (spec a k).2) {s : σ} {a : τ} {is : List ι} (hs : R s a)
    (h : Along step P s is) :
    ∃ t os, exec step s is = some (t, os) ∧ R t (trace spec a (is.filterMap erase)).1 ∧
      os.map obs = (trace spec a (is.filterMap erase)).2 := by
  induction is generalizing s a with
  | nil => exact ⟨s, [], rfl, hs, rfl⟩
  | cons i is ih =>
      obtain ⟨k, t, o, hk, ht, hR, ho⟩ := hstep s a i hs h.1
      obtain ⟨u, os, hu, hR', hos⟩ := ih hR (h.2 t o ht)
      rw [List.filterMap_cons_some hk]
      exact ⟨u, o :: os, by simp [exec, ht, hu], hR', by simp [trace, ho, hos]⟩

end Runs
