import Mathlib.Data.List.Infix

/-! A stream that is a concatenation of nonempty frames, and the places where reads cut it. -/

namespace Framing

variable {α : Type*}

/-- A prefix of the stream is some whole frames and the proper beginning of the next one. -/
theorem exists_cut {frames : List (List α)} {x y : List α} (h : x ++ y = frames.flatten) :
    ∃ done rest carry, frames = done ++ rest ∧ x = done.flatten ++ carry ∧ carry ++ y = rest.flatten ∧
      (carry ≠ [] → ∃ f later, rest = f :: later ∧ carry <+: f ∧ carry.length < f.length) := by
  induction frames generalizing x with
  | nil =>
      obtain ⟨rfl, rfl⟩ : x = [] ∧ y = [] := by simpa using h
      exact ⟨[], [], [], rfl, rfl, rfl, fun hne => absurd rfl hne⟩
  | cons f frames ih =>
      rw [List.flatten_cons] at h
      have hx : x <+: f ++ frames.flatten := ⟨y, h⟩
      have hf : f <+: f ++ frames.flatten := List.prefix_append _ _
      by_cases hlt : x.length < f.length
      · refine ⟨[], f :: frames, x, rfl, rfl, by rw [h, List.flatten_cons], fun _ => ?_⟩
        exact ⟨f, frames, rfl, List.prefix_of_prefix_length_le hx hf hlt.le, hlt⟩
      · obtain ⟨x', rfl⟩ := List.prefix_of_prefix_length_le hf hx (by omega)
        rw [List.append_assoc, List.append_cancel_left_eq] at h
        obtain ⟨done, rest, carry, rfl, rfl, hrest, hcarry⟩ := ih h
        exact ⟨f :: done, rest, carry, rfl, by simp, hrest, hcarry⟩

/-- Two ways to cut frames off the same stream: the one that leaves a proper beginning of its next frame
has cut off at least the frames of the one that ends no later. -/
theorem prefix_of_cut {done rest : List (List α)} {f : List α} {later emitted : List (List α)}
    {p z : List α} (hframes : done ++ f :: later = emitted ++ rest)
    (hstream : done.flatten ++ p = emitted.flatten ++ z) (hp : p.length < f.length) :
    ∃ done', done = emitted ++ done' ∧ rest = done' ++ f :: later ∧ done'.flatten ++ p = z := by
  rcases List.append_eq_append_iff.mp hframes with ⟨as, has, hrest⟩ | ⟨bs, hbs, hrest⟩
  · cases as with
    | nil =>
        obtain rfl : emitted = done := by simpa using has
        refine ⟨[], by simp, by simpa using hrest.symm, ?_⟩
        simpa using hstream
    | cons g as =>
        obtain ⟨rfl, rfl⟩ : f = g ∧ later = as ++ rest := by simpa using hrest
        have hlen := congrArg List.length hstream
        simp only [has, List.flatten_append, List.flatten_cons, List.length_append] at hlen
        omega
  · refine ⟨bs, hbs, hrest, ?_⟩
    rw [hbs, List.flatten_append, List.append_assoc, List.append_cancel_left_eq] at hstream
    exact hstream

end Framing
