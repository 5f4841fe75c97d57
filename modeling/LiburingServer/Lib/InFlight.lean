import Mathlib.Data.List.Basic

/-! A list of items in flight, of which any one may be completed next. -/

namespace InFlight

variable {α : Type*} {l : List α} {n : ℕ} {a b : α}

/-- The item at `n`, and those before and after it. -/
theorem exists_split (h : l[n]? = some a) : ∃ l₁ l₂, l = l₁ ++ a :: l₂ ∧ l.eraseIdx n = l₁ ++ l₂ := by
  obtain ⟨hn, rfl⟩ := List.getElem?_eq_some_iff.mp h
  refine ⟨l.take n, l.drop (n + 1), ?_, List.eraseIdx_eq_take_drop_succ l n⟩
  rw [← List.drop_eq_getElem_cons hn, List.take_append_drop]

theorem filter_eraseIdx_of_not {p : α → Bool} (h : l[n]? = some a) (ha : p a = false) :
    (l.eraseIdx n).filter p = l.filter p := by
  obtain ⟨l₁, l₂, hl, herase⟩ := exists_split h
  rw [herase, hl]
  simp [ha]

/-- The only item of a kind is completed. -/
theorem filter_eraseIdx_of_single {p : α → Bool} (h : l[n]? = some a) (ha : p a = true)
    (hl : l.filter p = [b]) : a = b ∧ (l.eraseIdx n).filter p = [] := by
  obtain ⟨l₁, l₂, hsplit, herase⟩ := exists_split h
  rw [hsplit, List.filter_append, List.filter_cons_of_pos ha] at hl
  have hlen := congrArg List.length hl
  simp only [List.length_append, List.length_cons, List.length_nil] at hlen
  have h₁ : l₁.filter p = [] := List.length_eq_zero_iff.mp (by omega)
  have h₂ : l₂.filter p = [] := List.length_eq_zero_iff.mp (by omega)
  refine ⟨by simpa [h₁, h₂] using hl, ?_⟩
  rw [herase, List.filter_append, h₁, h₂]
  rfl

/-- The items of a kind that are left, when the one at `n` is completed. -/
theorem length_filter_eraseIdx (p : α → Bool) (h : l[n]? = some a) :
    ((l.eraseIdx n).filter p).length + (if p a then 1 else 0) = (l.filter p).length := by
  obtain ⟨l₁, l₂, hl, herase⟩ := exists_split h
  rw [herase, hl, List.filter_append, List.filter_append, List.filter_cons]
  split
  · simp only [List.length_append, List.length_cons]
    omega
  · simp

end InFlight
