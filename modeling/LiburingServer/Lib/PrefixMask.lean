import Mathlib.Data.List.GetD
import Mathlib.Tactic.ByContra

/-! Several patterns are compared with the beginning of a text at once. Bit `j` of a mask stands for pattern `j`, and
is cleared at the first difference; the text is read only for patterns whose bits are set. -/

namespace PrefixMask

variable {α : Type*} {w : ℕ} {full mask : BitVec w} {patterns : List (List α)} {pattern text : List α} {i j k n : ℕ}

/-! ### Masks -/

theorem shiftRight_and_one_ne_zero : (mask >>> j) &&& 1#w ≠ 0 ↔ mask.getLsbD j = true := by
  rw [BitVec.and_one_eq_setWidth_ofBool_getLsbD, BitVec.getLsbD_ushiftRight, Nat.add_zero]
  cases h : mask.getLsbD j with
  | false => simp
  | true =>
      have hpos : 0 < w := Nat.zero_lt_of_lt (BitVec.lt_of_getLsbD h)
      have hone : BitVec.setWidth w 1#1 ≠ 0#w := by
        intro heq
        have hbit := congrArg (fun x => x.getLsbD 0) heq
        simp [hpos] at hbit
      simpa using hone

theorem ne_zero_iff : mask ≠ 0 ↔ ∃ j, mask.getLsbD j = true := by
  constructor
  · intro hne
    by_contra hnone
    apply hne
    apply BitVec.eq_of_getLsbD_eq
    intro j _
    simpa using not_exists.mp hnone j
  · rintro ⟨j, hj⟩ rfl
    simp at hj

/-- A bit is cleared by an exclusive or with all bits. -/
theorem getLsbD_clear (hmask : ∀ l, mask.getLsbD l = true → full.getLsbD l = true) (l : ℕ) :
    (mask &&& (full ^^^ (1#w <<< j))).getLsbD l = (mask.getLsbD l && decide (l ≠ j)) := by
  rw [BitVec.getLsbD_and, BitVec.getLsbD_xor, ← BitVec.twoPow_eq, BitVec.getLsbD_twoPow]
  cases h : mask.getLsbD l with
  | false => simp
  | true =>
      have hlt := BitVec.lt_of_getLsbD h
      by_cases hl : l = j
      · subst hl
        simp [hmask l h, hlt]
      · simp [hmask l h, hl, Ne.symm hl]

/-- The bits of the mask are those of the patterns. -/
def Full (full : BitVec w) (patterns : List (List α)) : Prop := ∀ j, full.getLsbD j = true ↔ j < patterns.length

/-- The bits that are left when all positions before `i` have been compared for all patterns, and position `i` for
the first `k` of them. -/
def Matched (patterns : List (List α)) (text : List α) (i k : ℕ) (mask : BitVec w) : Prop :=
  ∀ j, mask.getLsbD j = true ↔
    j < patterns.length ∧ (patterns.getD j []).take (if j < k then i + 1 else i) <+: text

theorem matched_full (h : Full full patterns) : Matched patterns text 0 0 full := by
  intro j
  simp [h j]

theorem take_succ_prefix_iff : pattern.take (i + 1) <+: text ↔
    pattern.take i <+: text ∧ ∀ a, pattern[i]? = some a → text[i]? = some a := by
  simp only [List.prefix_iff_getElem?, List.length_take, List.getElem_take]
  constructor
  · intro h
    refine ⟨fun l hl => h l (by omega), fun a ha => ?_⟩
    obtain ⟨hi, rfl⟩ := List.getElem?_eq_some_iff.mp ha
    exact h i (by omega)
  · rintro ⟨hbefore, hat⟩ l hl
    by_cases hli : l = i
    · subst hli
      exact hat _ (List.getElem?_eq_getElem (by omega))
    · exact hbefore l (by omega)

/-! ### Comparisons -/

section

variable [DecidableEq α]

/-- The comparison of position `i` of the text with that of pattern `j`. It is undefined behind the text. -/
def compare (full : BitVec w) (patterns : List (List α)) (text : List α) (i : ℕ) (mask : BitVec w) (j : ℕ) :
    Option (BitVec w) :=
  match (patterns.getD j [])[i]? with
  | none => some mask
  | some a =>
      if (mask >>> j) &&& 1#w ≠ 0 then
        text[i]?.map fun b => if a ≠ b then mask &&& (full ^^^ (1#w <<< j)) else mask
      else some mask

/-- All patterns at position `i`. -/
def round (full : BitVec w) (patterns : List (List α)) (text : List α) (mask : BitVec w) (i : ℕ) :
    Option (BitVec w) :=
  (List.range patterns.length).foldlM (compare full patterns text i) mask

/-- The first `n` positions. -/
def run (full : BitVec w) (patterns : List (List α)) (text : List α) (n : ℕ) : Option (BitVec w) :=
  (List.range n).foldlM (round full patterns text) full

/-- A comparison keeps the bits of the other patterns, and that of its own pattern if the elements agree. -/
theorem compare_eq_some (patterns : List (List α)) (k : ℕ) (hi : i < text.length)
    (hmask : ∀ l, mask.getLsbD l = true → full.getLsbD l = true) :
    ∃ mask', compare full patterns text i mask k = some mask' ∧ ∀ l, mask'.getLsbD l = true ↔
      mask.getLsbD l = true ∧ (l = k → ∀ a, (patterns.getD k [])[i]? = some a → text[i]? = some a) := by
  unfold compare
  cases ha : (patterns.getD k [])[i]? with
  | none => exact ⟨mask, rfl, fun l => by simp⟩
  | some a =>
      simp only [shiftRight_and_one_ne_zero, List.getElem?_eq_getElem hi, Option.map_some, Option.some.injEq]
      by_cases hbit : mask.getLsbD k = true
      · rw [if_pos hbit]
        by_cases hab : a = text[i]
        · rw [if_neg (not_not.mpr hab)]
          exact ⟨mask, rfl, fun l => by simp [hab]⟩
        · rw [if_pos hab]
          refine ⟨_, rfl, fun l => ?_⟩
          rw [getLsbD_clear hmask, Bool.and_eq_true, decide_eq_true_eq]
          apply and_congr_right'
          constructor
          · exact fun hl heq => absurd heq hl
          · intro h hl
            exact hab (h hl a rfl).symm
      · rw [if_neg hbit]
        refine ⟨mask, rfl, fun l => (and_iff_left_of_imp fun hl heq => ?_).symm⟩
        exact absurd (heq ▸ hl) hbit

theorem Matched.compare (h : Matched patterns text i k mask) (hfull : Full full patterns) (hi : i < text.length) :
    ∃ mask', PrefixMask.compare full patterns text i mask k = some mask' ∧ Matched patterns text i (k + 1) mask' := by
  obtain ⟨mask', hcompare, hbits⟩ := compare_eq_some patterns k hi fun l hl => (hfull l).mpr ((h l).mp hl).1
  refine ⟨mask', hcompare, fun j => ?_⟩
  rw [hbits j, h j, and_assoc]
  apply and_congr_right'
  rcases Nat.lt_trichotomy j k with hlt | rfl | hgt
  · have hne : j ≠ k := by omega
    simp [hlt, hne, Nat.lt_succ_of_lt hlt]
  · simp [take_succ_prefix_iff]
  · have hne : j ≠ k := by omega
    have hge : ¬j < k := by omega
    have hge' : ¬j < k + 1 := by omega
    simp [hne, hge, hge']

theorem Matched.round (h : Matched patterns text i 0 mask) (hfull : Full full patterns) (hi : i < text.length) :
    ∃ mask', PrefixMask.round full patterns text mask i = some mask' ∧ Matched patterns text (i + 1) 0 mask' := by
  have hcolumns : ∀ k, ∃ mask', (List.range k).foldlM (PrefixMask.compare full patterns text i) mask = some mask' ∧
      Matched patterns text i k mask' := by
    intro k
    induction k with
    | zero => exact ⟨mask, rfl, h⟩
    | succ k ih =>
        obtain ⟨mask₁, hbefore, hmatched⟩ := ih
        obtain ⟨mask₂, hcompare, hmatched'⟩ := hmatched.compare hfull hi
        refine ⟨mask₂, ?_, hmatched'⟩
        simp [List.range_succ, List.foldlM_append, hbefore, hcompare]
  obtain ⟨mask', hrun, hmatched⟩ := hcolumns patterns.length
  refine ⟨mask', hrun, fun j => ?_⟩
  rw [hmatched j]
  apply and_congr_right
  intro hj
  simp [hj]

/-- After `n` positions the bits that are left are those of the patterns whose first `n` elements begin the text. -/
theorem run_eq_some (hfull : Full full patterns) (hn : n ≤ text.length) :
    ∃ mask, run full patterns text n = some mask ∧ Matched patterns text n 0 mask := by
  induction n with
  | zero => exact ⟨full, rfl, matched_full hfull⟩
  | succ n ih =>
      obtain ⟨mask₁, hbefore, hmatched⟩ := ih (by omega)
      obtain ⟨mask₂, hround, hmatched'⟩ := hmatched.round hfull hn
      refine ⟨mask₂, ?_, hmatched'⟩
      unfold run at hbefore ⊢
      simp [List.range_succ, List.foldlM_append, hbefore, hround]

/-- A bit is left exactly if some pattern begins the text. -/
theorem run_ne_zero (hfull : Full full patterns) (hn : n ≤ text.length)
    (hlength : ∀ pattern ∈ patterns, pattern.length ≤ n) :
    ∃ mask, run full patterns text n = some mask ∧ (mask ≠ 0 ↔ ∃ pattern ∈ patterns, pattern <+: text) := by
  obtain ⟨mask, hrun, hmatched⟩ := run_eq_some hfull hn
  refine ⟨mask, hrun, ?_⟩
  rw [ne_zero_iff]
  constructor
  · rintro ⟨j, hj⟩
    obtain ⟨hlt, hprefix⟩ := (hmatched j).mp hj
    have hmem := List.getElem_mem hlt
    rw [List.getD_eq_getElem _ _ hlt, if_neg (Nat.not_lt_zero j), List.take_of_length_le (hlength _ hmem)] at hprefix
    exact ⟨patterns[j], hmem, hprefix⟩
  · rintro ⟨pattern, hpattern, hprefix⟩
    obtain ⟨j, hlt, rfl⟩ := List.getElem_of_mem hpattern
    refine ⟨j, (hmatched j).mpr ⟨hlt, ?_⟩⟩
    rw [List.getD_eq_getElem _ _ hlt]
    exact (List.take_prefix _ _).trans hprefix

end

end PrefixMask
