import Mathlib.Data.List.GetD

/-! Elements are removed from a buffer in place: every other one is moved towards the beginning by the number of
elements that have been removed before it. Behind those that are kept stands what the buffer held there. -/

namespace Compaction

variable {α : Type*} {p : α → Bool} {d : α} {xs : List α} {n : ℕ}

/-- One position of the loop; the counter is the number of elements that have been removed. -/
def step (p : α → Bool) (d : α) (s : List α × ℕ) (i : ℕ) : List α × ℕ :=
  if p (s.1.getD i d) then (s.1, s.2 + 1) else (s.1.set (i - s.2) (s.1.getD i d), s.2)

/-- The loop over the whole buffer. -/
def compact (p : α → Bool) (d : α) (xs : List α) : List α × ℕ := (List.range xs.length).foldl (step p d) (xs, 0)

/-- What is kept. -/
def kept (p : α → Bool) (xs : List α) : List α := xs.filter fun x => !p x

theorem length_kept_add_countP (p : α → Bool) (xs : List α) : (kept p xs).length + xs.countP p = xs.length := by
  have hsplit := List.length_eq_countP_add_countP p (l := xs)
  simp only [kept, ← List.countP_eq_length_filter, Bool.not_eq_true, Bool.decide_eq_false] at hsplit ⊢
  omega

theorem kept_concat_of_pos {x : α} (h : p x = true) (xs : List α) : kept p (xs ++ [x]) = kept p xs := by
  simp [kept, h]

theorem kept_concat_of_neg {x : α} (h : ¬p x = true) (xs : List α) : kept p (xs ++ [x]) = kept p xs ++ [x] := by
  simp [kept, h]

/-- The elements before `n` have been moved, and the others are where they were. -/
theorem foldl_step (p : α → Bool) (d : α) (hn : n ≤ xs.length) : (List.range n).foldl (step p d) (xs, 0) =
    (kept p (xs.take n) ++ xs.drop (kept p (xs.take n)).length, (xs.take n).countP p) := by
  induction n with
  | zero => simp [kept]
  | succ n ih =>
      have hlt : n < xs.length := hn
      have hcount := length_kept_add_countP p (xs.take n)
      rw [List.length_take_of_le (Nat.le_of_lt hlt)] at hcount
      -- the element at `n` has not been overwritten
      have hread : (kept p (xs.take n) ++ xs.drop (kept p (xs.take n)).length).getD n d = xs[n] := by
        rw [List.getD_append_right _ _ _ _ (by omega), List.getD_eq_getElem?_getD, List.getElem?_drop,
          Nat.add_sub_cancel' (by omega), List.getElem?_eq_getElem hlt, Option.getD_some]
      have htake : xs.take (n + 1) = xs.take n ++ [xs[n]] := List.take_succ_eq_append_getElem hlt
      rw [List.range_succ, List.foldl_append, ih (Nat.le_of_lt hlt), List.foldl_cons, List.foldl_nil, step, hread,
        htake]
      by_cases hremove : p xs[n]
      · rw [if_pos hremove, kept_concat_of_pos hremove, List.countP_append, List.countP_singleton, if_pos hremove]
      · have hplace : n - (xs.take n).countP p = (kept p (xs.take n)).length := by omega
        have hrest : (kept p (xs.take n)).length < xs.length := by omega
        rw [if_neg hremove, hplace, List.set_append_right _ _ (Nat.le_refl _), Nat.sub_self,
          List.drop_eq_getElem_cons hrest, List.set_cons_zero, kept_concat_of_neg hremove, List.countP_append,
          List.countP_singleton, if_neg hremove, List.append_assoc, List.length_append, List.length_singleton]
        rfl

/-- The loop moves the elements that are kept to the beginning, and counts the others. -/
theorem compact_eq (p : α → Bool) (d : α) (xs : List α) :
    compact p d xs = (kept p xs ++ xs.drop (kept p xs).length, xs.countP p) := by
  have hrun := foldl_step p d (Nat.le_refl xs.length)
  rwa [List.take_length] at hrun

end Compaction
