import Mathlib.Data.Finset.Card
import Mathlib.Data.Int.Order.Basic

/-! Leases. Parties hold items, and each item has a lock count. The counts cover the holders when no
item has more holders than locks; a lock that is lost track of does no harm then, a lock that is given
up twice does. -/

namespace Leases

variable {ι κ : Type*}

/-- Every item is locked at least once for each of its holders. -/
def Covered (locks : ι → ℤ) (holders : ι → Finset κ) : Prop := ∀ i, ((holders i).card : ℤ) ≤ locks i

namespace Covered

variable {locks locks' : ι → ℤ} {holders : ι → Finset κ} {i : ι} {k : κ}

theorem mono (h : Covered locks holders) (hle : ∀ i, locks i ≤ locks' i) : Covered locks' holders :=
  fun i => (h i).trans (hle i)

theorem pos (h : Covered locks holders) (hk : k ∈ holders i) : 0 < locks i := by
  have hcard := Finset.card_pos.mpr ⟨k, hk⟩
  have := h i
  omega

/-- Nobody holds an item that is not locked. -/
theorem notMem (h : Covered locks holders) (hzero : locks i = 0) : k ∉ holders i := by
  intro hk
  have := h.pos hk
  omega

variable [DecidableEq ι] [DecidableEq κ]

/-- A party takes a lock. -/
theorem lock (h : Covered locks holders) (i : ι) (k : κ) :
    Covered (Function.update locks i (locks i + 1)) (Function.update holders i (insert k (holders i))) := by
  intro j
  have := h j
  by_cases hj : j = i
  · subst hj
    have hcard := Finset.card_insert_le k (holders j)
    simp only [Function.update_self]
    omega
  · simpa [hj] using this

/-- A holder gives its lock up. -/
theorem unlock (h : Covered locks holders) (hk : k ∈ holders i) :
    Covered (Function.update locks i (locks i - 1)) (Function.update holders i ((holders i).erase k)) := by
  intro j
  have := h j
  by_cases hj : j = i
  · subst hj
    have hcard := Finset.card_erase_add_one hk
    simp only [Function.update_self]
    omega
  · simpa [hj] using this

end Covered

end Leases
