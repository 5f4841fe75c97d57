import LiburingServer.Common
import Mathlib.Algebra.BigOperators.Intervals
import Mathlib.Algebra.Order.BigOperators.Group.Finset
import Mathlib.Data.List.GetD

/-! How `start_server` loads the config file. Whatever a read of the loop returns is added to a counter, and what it
reads is stored at the beginning of the buffer: the buffer is right when a single read returns the whole file. -/

namespace LiburingServer

/-- `read_amount`, the buffer, and the position in the file that the kernel keeps. -/
structure ConfigLoad where
  readAmount : ℤ := 0
  config : Bytes
  position : ℕ := 0

namespace ConfigLoad

variable {contents : Bytes} {r : ℕ → ℤ} {s s' : ConfigLoad} {i j k : ℕ}

/-- The state in which the loop begins; the size of the file has been measured. -/
def start (contents : Bytes) : ConfigLoad := { config := List.replicate (contents.length + 1) 0 }

/-- The condition of the loop, in which `read_amount` is converted to 64 bits. -/
def GoesOn (contents : Bytes) (s : ConfigLoad) : Prop := s.readAmount % 2 ^ 64 ≠ contents.length

instance : DecidablePred (GoesOn contents) := fun _ => inferInstanceAs (Decidable (_ ≠ _))

/-- How much the next read asks for. -/
def asked (contents : Bytes) (s : ConfigLoad) : ℤ := (contents.length - s.readAmount) % 2 ^ 64

/-- A round, in which the read returns `res`; the sum is converted to an `int`. -/
def round (contents : Bytes) (s : ConfigLoad) (res : ℤ) : ConfigLoad :=
  let data := (contents.drop s.position).take res.toNat
  { readAmount := (s.readAmount + res).bmod (2 ^ 32)
    config := data ++ s.config.drop data.length
    position := s.position + data.length }

/-- The loop after `k` rounds, when the reads return what `r` says. There is none if it has ended before. -/
def after (contents : Bytes) (r : ℕ → ℤ) : ℕ → Option ConfigLoad
  | 0 => some (start contents)
  | k + 1 => (after contents r k).bind fun s => if s.GoesOn contents then some (s.round contents (r k)) else none

/-- The buffer with the zero byte that is put behind what was read. -/
def terminated (s : ConfigLoad) : Bytes := s.config.set s.readAmount.toNat 0

/-- What the kernel promises of `read`: `-1`, or no more than it was asked for. -/
def KernelReads (contents : Bytes) (r : ℕ → ℤ) : Prop :=
  ∀ k s, after contents r k = some s → s.GoesOn contents → -1 ≤ r k ∧ r k ≤ s.asked contents

/-- The loop ends, and with the file and a zero byte in the buffer if every read has returned something; the counter
is never negative. -/
structure Loads (contents : Bytes) (r : ℕ → ℤ) : Prop where
  ends : ∃ k s, after contents r k = some s ∧ ¬s.GoesOn contents ∧
    ((∀ j < k, 0 < r j) → s.terminated = contents ++ [0])
  counts : ∀ k s, after contents r k = some s → 0 ≤ s.readAmount

/-- What the first `k` reads have returned altogether. -/
def total (r : ℕ → ℤ) (k : ℕ) : ℤ := ∑ j ∈ Finset.range k, r j

@[simp] theorem total_zero (r : ℕ → ℤ) : total r 0 = 0 := rfl

theorem total_succ (r : ℕ → ℤ) (k : ℕ) : total r (k + 1) = total r k + r k := Finset.sum_range_succ r k

/-- The first `k` reads add up to the size of the file, and neither do fewer of them nor do they go below zero. -/
structure AddsUp (size : ℕ) (r : ℕ → ℤ) (k : ℕ) : Prop where
  all : total r k = size
  before : ∀ j < k, 0 ≤ total r j ∧ total r j ≠ size

/-- The byte at `i` of the last read that is longer than `i`, and zero if none is. -/
def lastRead (contents : Bytes) (r : ℕ → ℤ) (k i : ℕ) : UInt8 :=
  match ((List.range k).filter fun j => (i : ℤ) < r j).getLast? with
  | none => 0
  | some j => contents.getD ((total r j).toNat + i) 0

/-- Later reads leave at each place what the file has there. -/
def Overlaid (contents : Bytes) (r : ℕ → ℤ) (k : ℕ) : Prop :=
  ∀ i < contents.length, contents.getD i 0 = lastRead contents r k i

/-! ### The counter -/

theorem after_succ_eq_some (h : after contents r (k + 1) = some s') :
    ∃ s, after contents r k = some s ∧ s.GoesOn contents ∧ s' = s.round contents (r k) := by
  obtain ⟨s, hs, hround⟩ := Option.bind_eq_some_iff.mp h
  split at hround
  · exact ⟨s, hs, ‹_›, (Option.some.inj hround).symm⟩
  · cases hround

theorem after_succ (h : after contents r k = some s) (hgoes : s.GoesOn contents) :
    after contents r (k + 1) = some (s.round contents (r k)) := by
  rw [after, h, Option.bind_some, if_pos hgoes]

theorem goesOn_iff (hsize : contents.length < 2 ^ 31) (hcount : 0 ≤ s.readAmount)
    (hle : s.readAmount ≤ contents.length) : s.GoesOn contents ↔ s.readAmount ≠ contents.length := by
  unfold GoesOn
  omega

/-- A counter that is not negative counts what is read. -/
theorem round_readAmount (hsize : contents.length < 2 ^ 31) (hcount : 0 ≤ s.readAmount)
    (hle : s.readAmount ≤ contents.length) {res : ℤ} (hres : -1 ≤ res ∧ res ≤ s.asked contents) :
    (s.round contents res).readAmount = s.readAmount + res ∧
      (s.round contents res).readAmount ≤ contents.length := by
  have hasked : s.asked contents = contents.length - s.readAmount := by
    unfold asked
    omega
  have hsum : (s.round contents res).readAmount = s.readAmount + res := by
    apply Int.bmod_eq_of_le
    · omega
    · omega
  exact ⟨hsum, by omega⟩

/-- As long as what is read adds up to less than the file, the loop goes on. -/
theorem exists_after (hsize : contents.length < 2 ^ 31) (hr : KernelReads contents r)
    (hbefore : ∀ j < k, 0 ≤ total r j ∧ total r j ≠ contents.length) :
    ∃ s, after contents r k = some s ∧ s.readAmount = total r k ∧ s.readAmount ≤ contents.length := by
  induction k with
  | zero => exact ⟨start contents, rfl, rfl, Int.natCast_nonneg _⟩
  | succ k ih =>
      obtain ⟨s, hs, hcount, hle⟩ := ih fun j hj => hbefore j (Nat.lt_succ_of_lt hj)
      obtain ⟨hpos, hne⟩ := hbefore k (Nat.lt_succ_self k)
      rw [← hcount] at hpos hne
      have hgoes := (goesOn_iff hsize hpos hle).mpr hne
      obtain ⟨hsum, hle'⟩ := round_readAmount hsize hpos hle (hr k s hs hgoes)
      exact ⟨_, after_succ hs hgoes, by rw [hsum, hcount, total_succ], hle'⟩

/-- As long as the counter is not negative, it is what the reads add up to. -/
theorem readAmount_eq (hsize : contents.length < 2 ^ 31) (hr : KernelReads contents r)
    (hcounts : ∀ k s, after contents r k = some s → 0 ≤ s.readAmount) (h : after contents r k = some s) :
    s.readAmount = total r k ∧ s.readAmount ≤ contents.length ∧
      ∀ j < k, 0 ≤ total r j ∧ total r j ≠ contents.length := by
  induction k generalizing s with
  | zero =>
      obtain rfl : start contents = s := by simpa [after] using h
      exact ⟨rfl, Int.natCast_nonneg _, fun j hj => absurd hj (Nat.not_lt_zero j)⟩
  | succ k ih =>
      obtain ⟨s₁, hs₁, hgoes, rfl⟩ := after_succ_eq_some h
      obtain ⟨hcount, hle, hbefore⟩ := ih hs₁
      have hpos := hcounts k s₁ hs₁
      have hne := (goesOn_iff hsize hpos hle).mp hgoes
      obtain ⟨hsum, hle'⟩ := round_readAmount hsize hpos hle (hr k s₁ hs₁ hgoes)
      refine ⟨by rw [hsum, hcount, total_succ], hle', fun j hj => ?_⟩
      by_cases hjk : j = k
      · rw [hjk, ← hcount]
        exact ⟨hpos, hne⟩
      · exact hbefore j (by omega)

/-! ### The buffer -/

theorem lastRead_succ (contents : Bytes) (r : ℕ → ℤ) (k i : ℕ) : lastRead contents r (k + 1) i =
    if (i : ℤ) < r k then contents.getD ((total r k).toNat + i) 0 else lastRead contents r k i := by
  unfold lastRead
  rw [List.range_succ, List.filter_append]
  split_ifs with hlong
  · simp [hlong]
  · simp [hlong]

/-- While all reads return something, the buffer has at each place what was read last there. -/
theorem config_eq (hcontents : contents.length < 2 ^ 31) (hr : KernelReads contents r) (hpos : ∀ j < k, 0 < r j)
    (hbefore : ∀ j < k, 0 ≤ total r j ∧ total r j ≠ contents.length) (h : after contents r k = some s) :
    s.position = total r k ∧ s.config.length = contents.length + 1 ∧
      ∀ i, s.config.getD i 0 = lastRead contents r k i := by
  induction k generalizing s with
  | zero =>
      obtain rfl : start contents = s := by simpa [after] using h
      refine ⟨rfl, by simp [start], fun i => ?_⟩
      simp only [start, lastRead, List.getD_eq_getElem?_getD, List.getElem?_replicate]
      split_ifs <;> rfl
  | succ k ih =>
      obtain ⟨s₁, hs₁, hgoes, rfl⟩ := after_succ_eq_some h
      have hbefore' : ∀ j < k, 0 ≤ total r j ∧ total r j ≠ contents.length :=
        fun j hj => hbefore j (Nat.lt_succ_of_lt hj)
      obtain ⟨hposition, hlength, hconfig⟩ := ih (fun j hj => hpos j (Nat.lt_succ_of_lt hj)) hbefore' hs₁
      obtain ⟨s₂, hs₂, hcount, hle⟩ := exists_after hcontents hr hbefore'
      obtain rfl : s₁ = s₂ := Option.some.inj (hs₁.symm.trans hs₂)
      have hread := (hr k s₁ hs₁ hgoes).2
      have hsome := hpos k (Nat.lt_succ_self k)
      have hstart := (hbefore k (Nat.lt_succ_self k)).1
      have hdata : ((contents.drop s₁.position).take (r k).toNat).length = (r k).toNat := by
        rw [List.length_take, List.length_drop]
        unfold asked at hread
        omega
      refine ⟨?_, ?_, fun i => ?_⟩
      · simp only [round, hdata, total_succ]
        omega
      · simp only [round, List.length_append, List.length_drop, hdata]
        unfold asked at hread
        omega
      · rw [lastRead_succ, ← hconfig i]
        simp only [round, List.getD_eq_getElem?_getD]
        split_ifs with hi
        · have hplace : s₁.position + i = (total r k).toNat + i := by omega
          rw [List.getElem?_append_left (by omega), List.getElem?_take_of_lt (by omega), List.getElem?_drop, hplace]
        · rw [List.getElem?_append_right (by omega), List.getElem?_drop, hdata]
          congr 2
          omega

/-- The buffer is right exactly if no later read has changed what the file has. -/
theorem terminated_eq_iff (hcount : s.readAmount = contents.length) (hlength : s.config.length = contents.length + 1)
    (hconfig : ∀ i, s.config.getD i 0 = lastRead contents r k i) :
    s.terminated = contents ++ [0] ↔ Overlaid contents r k := by
  have hset : s.terminated = s.config.take contents.length ++ [0] := by
    rw [terminated, hcount, Int.toNat_natCast, List.set_eq_take_append_cons_drop, if_pos (by omega),
      List.drop_eq_nil_of_le (by omega)]
  rw [hset, List.append_left_inj]
  constructor
  · intro heq i hi
    rw [← hconfig i]
    conv_lhs => rw [← heq]
    rw [List.getD_eq_getElem?_getD, List.getElem?_take_of_lt hi, List.getD_eq_getElem?_getD]
  · intro hover
    apply List.ext_getElem
    · rw [List.length_take]
      omega
    · intro i hi hi'
      have hplace := (hover i hi').trans (hconfig i).symm
      rw [List.getD_eq_getElem _ _ hi', List.getD_eq_getElem _ _ (by omega)] at hplace
      rw [List.getElem_take, hplace]

/-! ### Reads that load the file -/

/-- Among reads that all return something and are more than one, none is as long as the file. -/
theorem lt_of_addsUp {size : ℕ} (h : AddsUp size r k) (hpos : ∀ j < k, 0 < r j) (hk : 1 < k) (hj : j < k) :
    r j < size := by
  have hone : ∀ l ∈ Finset.range k, 0 ≤ r l := fun l hl => (hpos l (Finset.mem_range.mp hl)).le
  obtain ⟨l, hl, hne⟩ : ∃ l < k, l ≠ j := by
    by_cases hzero : j = 0
    · exact ⟨1, hk, by omega⟩
    · exact ⟨0, by omega, Ne.symm hzero⟩
  have htwo : ∑ m ∈ {j, l}, r m ≤ total r k := by
    apply Finset.sum_le_sum_of_subset_of_nonneg
    · intro m hm
      rcases Finset.mem_insert.mp hm with rfl | hm
      · exact Finset.mem_range.mpr hj
      · exact Finset.mem_range.mpr ((Finset.mem_singleton.mp hm) ▸ hl)
    · exact fun m hm _ => hone m hm
  rw [Finset.sum_pair (Ne.symm hne), h.all] at htwo
  have hother := hpos l hl
  omega

/-- A file that does not end with a zero byte has to be returned by a single read. -/
theorem overlaid_iff (h : AddsUp contents.length r k) (hpos : ∀ j < k, 0 < r j) (hlast : contents.getLast? ≠ some 0) :
    Overlaid contents r k ↔ k ≤ 1 := by
  constructor
  · intro hover
    by_contra hk
    have hshort : ∀ j < k, r j < contents.length := fun j hj => lt_of_addsUp h hpos (by omega) hj
    have hnonempty : 0 < contents.length := by
      have hfirst := hshort 0 (by omega)
      have hsome := hpos 0 (by omega)
      omega
    have hend := hover (contents.length - 1) (by omega)
    have hnone : (List.range k).filter (fun j => ((contents.length - 1 : ℕ) : ℤ) < r j) = [] := by
      apply List.filter_eq_nil_iff.mpr
      intro j hj
      have hj' := hshort j (List.mem_range.mp hj)
      simp only [decide_eq_true_eq]
      omega
    rw [lastRead, hnone, List.getLast?_nil, List.getD_eq_getElem _ _ (by omega)] at hend
    apply hlast
    rw [List.getLast?_eq_getElem?, List.getElem?_eq_getElem (by omega), hend]
  · intro hk i hi
    obtain rfl | rfl : k = 0 ∨ k = 1 := by omega
    · have hempty : (0 : ℤ) = contents.length := h.all
      omega
    · have hone : (contents.length : ℤ) = r 0 := by rw [← h.all, total_succ, total_zero, zero_add]
      rw [lastRead_succ, if_pos (by omega), total_zero, Int.toNat_zero, Nat.zero_add]

theorem readAmount_lt (h : after contents r k = some s) : s.readAmount < 2 ^ 31 := by
  cases k with
  | zero =>
      obtain rfl : start contents = s := by simpa [after] using h
      exact (by decide : (0 : ℤ) < 2 ^ 31)
  | succ k =>
      obtain ⟨s₁, -, -, rfl⟩ := after_succ_eq_some h
      exact Int.bmod_lt (by decide)

theorem after_eq_none (h : after contents r k = some s) (hend : ¬s.GoesOn contents) (hlt : k < j) :
    after contents r j = none := by
  induction j with
  | zero => exact absurd hlt (Nat.not_lt_zero k)
  | succ j ih =>
      by_cases hkj : k = j
      · subst hkj
        rw [after, h, Option.bind_some, if_neg hend]
      · rw [after, ih (by omega), Option.bind_none]

/-- The loop ends once. -/
theorem ends_unique (h : after contents r k = some s) (hend : ¬s.GoesOn contents) (h' : after contents r j = some s')
    (hend' : ¬s'.GoesOn contents) : j = k ∧ s' = s := by
  rcases Nat.lt_trichotomy j k with hlt | rfl | hgt
  · cases (after_eq_none h' hend' hlt).symm.trans h
  · exact ⟨rfl, Option.some.inj (h'.symm.trans h)⟩
  · cases (after_eq_none h hend hgt).symm.trans h'

theorem loads_iff (hr : KernelReads contents r) :
    Loads contents r ↔ contents.length < 2 ^ 31 ∧
      ∃ k, AddsUp contents.length r k ∧ ((∀ j < k, 0 < r j) → Overlaid contents r k) := by
  constructor
  · rintro ⟨⟨k, s, hs, hend, hbuffer⟩, hcounts⟩
    have hpos := hcounts k s hs
    have hlt := readAmount_lt hs
    have hlength : s.readAmount = contents.length := by
      unfold GoesOn at hend
      omega
    have hsize : contents.length < 2 ^ 31 := by omega
    obtain ⟨hcount, -, hbefore⟩ := readAmount_eq hsize hr hcounts hs
    refine ⟨hsize, k, ⟨by rw [← hcount, hlength], hbefore⟩, fun hsome => ?_⟩
    obtain ⟨-, hconfig, hplaces⟩ := config_eq hsize hr hsome hbefore hs
    exact (terminated_eq_iff hlength hconfig hplaces).mp (hbuffer hsome)
  · rintro ⟨hsize, k, ⟨hall, hbefore⟩, hover⟩
    obtain ⟨s, hs, hcount, hle⟩ := exists_after hsize hr hbefore
    have hlength : s.readAmount = contents.length := hcount.trans hall
    have hend : ¬s.GoesOn contents := by
      unfold GoesOn
      omega
    refine ⟨⟨k, s, hs, hend, fun hsome => ?_⟩, fun j s' hs' => ?_⟩
    · obtain ⟨-, hconfig, hplaces⟩ := config_eq hsize hr hsome hbefore hs
      exact (terminated_eq_iff hlength hconfig hplaces).mpr (hover hsome)
    · rcases Nat.lt_trichotomy j k with hlt | rfl | hgt
      · obtain ⟨s₁, hs₁, hcount₁, -⟩ := exists_after hsize hr fun l hl => hbefore l (hl.trans hlt)
        obtain rfl : s' = s₁ := Option.some.inj (hs'.symm.trans hs₁)
        rw [hcount₁]
        exact (hbefore j hlt).1
      · obtain rfl : s' = s := Option.some.inj (hs'.symm.trans hs)
        omega
      · rw [after_eq_none hs hend hgt] at hs'
        cases hs'

end ConfigLoad

/-- **Loading of the config file.** For every file and whatever the reads return, the loop ends, without a negative
counter and with the file in the buffer if every read has returned something, exactly if the file has fewer than
`2 ^ 31` bytes, the reads add up to all of it and, where each of them has returned something, later ones leave in
their places what the file has there. When the file does not end with a zero byte this means that a single read has
returned all of it. -/
theorem config_loaded_iff (contents : Bytes) (r : ℕ → ℤ) (hr : ConfigLoad.KernelReads contents r) :
    (ConfigLoad.Loads contents r ↔ contents.length < 2 ^ 31 ∧ ∃ k, ConfigLoad.AddsUp contents.length r k ∧
      ((∀ j < k, 0 < r j) → ConfigLoad.Overlaid contents r k)) ∧
    (contents.getLast? ≠ some 0 → (ConfigLoad.Loads contents r ↔ contents.length < 2 ^ 31 ∧
      ∃ k, ConfigLoad.AddsUp contents.length r k ∧ ((∀ j < k, 0 < r j) → k ≤ 1))) := by
  have hloads := ConfigLoad.loads_iff hr
  refine ⟨hloads, fun hlast => hloads.trans (and_congr_right' ?_)⟩
  apply exists_congr
  intro k
  apply and_congr_right
  intro hadds
  exact forall_congr' fun hpos => ConfigLoad.overlaid_iff hadds hpos hlast

/-- A line of a config file. -/
def portLine : Bytes := ascii "PORT: 80\n"

theorem config_loaded_iff_single : ConfigLoad.Loads portLine fun _ => 9 := by
  have hreads : ConfigLoad.KernelReads portLine fun _ => 9 := by
    intro k s hs hgoes
    cases k with
    | zero =>
        obtain rfl : ConfigLoad.start portLine = s := by simpa [ConfigLoad.after] using hs
        decide
    | succ k =>
        obtain ⟨s₁, hs₁, hend⟩ : ∃ s₁, ConfigLoad.after portLine (fun _ => 9) 1 = some s₁ ∧ ¬s₁.GoesOn portLine :=
          ⟨_, rfl, by decide⟩
        by_cases hk : k = 0
        · subst hk
          obtain rfl : s₁ = s := Option.some.inj (hs₁.symm.trans hs)
          exact absurd hgoes hend
        · cases (ConfigLoad.after_eq_none hs₁ hend (by omega)).symm.trans hs
  refine ((config_loaded_iff portLine _ hreads).2 (by decide)).mpr ⟨by decide, 1, ⟨by decide, ?_⟩, fun _ => le_rfl⟩
  intro j hj
  obtain rfl : j = 0 := by omega
  decide

/-- Two reads return four and five bytes of the line, and the second one is stored over the first. Reads that return
nothing are repeated for ever, and a read that fails makes the counter negative. -/
theorem config_not_loaded :
    (∃ s, ConfigLoad.after portLine (fun k => if k = 0 then 4 else 5) 2 = some s ∧ ¬s.GoesOn portLine ∧
      s.terminated = ascii ": 80\n" ++ List.replicate 5 0) ∧
    ¬ConfigLoad.Loads portLine (fun k => if k = 0 then 4 else 5) ∧
    (∀ k, ∃ s, ConfigLoad.after portLine (fun _ => 0) k = some s ∧ s.GoesOn portLine) ∧
    ∃ s, ConfigLoad.after portLine (fun _ => -1) 1 = some s ∧ s.readAmount = -1 := by
  have hsome : (ConfigLoad.after portLine (fun k => if k = 0 then 4 else 5) 2).any (fun s =>
      ¬s.GoesOn portLine ∧ s.terminated = ascii ": 80\n" ++ List.replicate 5 0) = true := by decide
  simp only [Option.any_eq_true, decide_eq_true_eq] at hsome
  obtain ⟨s, hs, hend, hbuffer⟩ := hsome
  refine ⟨⟨s, hs, hend, hbuffer⟩, ?_, fun k => ⟨ConfigLoad.start portLine, ?_, by decide⟩, _, rfl, by decide⟩
  · rintro ⟨⟨k, s', hs', hend', hgood⟩, -⟩
    obtain ⟨rfl, rfl⟩ := ConfigLoad.ends_unique hs hend hs' hend'
    have hwrong := hgood (by decide)
    rw [hbuffer] at hwrong
    exact absurd hwrong (by decide)
  · induction k with
    | zero => rfl
    | succ k ih => exact ConfigLoad.after_succ ih (by decide)

end LiburingServer
