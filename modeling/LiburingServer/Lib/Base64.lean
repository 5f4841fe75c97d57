import Mathlib.Data.List.Basic

/-! Base64: three bytes are written as four characters, and one or two bytes at the end are padded with `=`. -/

namespace Base64

/-- The character for six bits. -/
def symbol (n : ℕ) : UInt8 :=
  if n < 26 then (65 + n).toUInt8
  else if n < 52 then (71 + n).toUInt8
  else if n < 62 then (n - 4).toUInt8
  else if n = 62 then 43
  else 47

/-- The padding. -/
def pad : UInt8 := 61

/-- The six bits that a character stands for. -/
def value (b : UInt8) : Option ℕ := (List.range 64).find? fun n => symbol n = b

theorem value_symbol {n : ℕ} (h : n < 64) : value (symbol n) = some n := by
  have hall : ∀ m : Fin 64, value (symbol m) = some m.val := by decide +kernel
  exact hall ⟨n, h⟩

theorem value_pad : value pad = none := by decide +kernel

/-! ### Encoding -/

/-- The first six bits of a group, and how the bits of two neighbours are joined. -/
def sextet₀ (a : UInt8) : ℕ := a.toNat / 4

def sextet₁ (a b : UInt8) : ℕ := a.toNat % 4 * 16 + b.toNat / 16

def sextet₂ (b c : UInt8) : ℕ := b.toNat % 16 * 4 + c.toNat / 64

def sextet₃ (c : UInt8) : ℕ := c.toNat % 64

def encode : List UInt8 → List UInt8
  | [] => []
  | [a] => [symbol (sextet₀ a), symbol (sextet₁ a 0), pad, pad]
  | [a, b] => [symbol (sextet₀ a), symbol (sextet₁ a b), symbol (sextet₂ b 0), pad]
  | a :: b :: c :: rest =>
      symbol (sextet₀ a) :: symbol (sextet₁ a b) :: symbol (sextet₂ b c) :: symbol (sextet₃ c) :: encode rest

section

variable (a b c : UInt8)

theorem sextet₀_lt : sextet₀ a < 64 := by
  have := a.toNat_lt
  unfold sextet₀
  omega

theorem sextet₁_lt : sextet₁ a b < 64 := by
  have := b.toNat_lt
  unfold sextet₁
  omega

theorem sextet₂_lt : sextet₂ b c < 64 := by
  have := c.toNat_lt
  unfold sextet₂
  omega

theorem sextet₃_lt : sextet₃ c < 64 := Nat.mod_lt _ (by decide)

end

theorem length_encode (s : List UInt8) : (encode s).length = (s.length + 2) / 3 * 4 := by
  induction s using encode.induct with
  | case1 => rfl
  | case2 a => simp [encode]
  | case3 a b => simp [encode]
  | case4 a b c rest ih =>
      rw [encode]
      simp only [List.length_cons, ih]
      omega

/-- The characters that are written. -/
theorem mem_encode {s : List UInt8} {x : UInt8} (h : x ∈ encode s) : x = pad ∨ ∃ n < 64, x = symbol n := by
  induction s using encode.induct with
  | case1 => cases h
  | case2 a =>
      simp only [encode, List.mem_cons, List.not_mem_nil, or_false] at h
      rcases h with rfl | rfl | rfl | rfl
      · exact Or.inr ⟨_, sextet₀_lt a, rfl⟩
      · exact Or.inr ⟨_, sextet₁_lt a 0, rfl⟩
      · exact Or.inl rfl
      · exact Or.inl rfl
  | case3 a b =>
      simp only [encode, List.mem_cons, List.not_mem_nil, or_false] at h
      rcases h with rfl | rfl | rfl | rfl
      · exact Or.inr ⟨_, sextet₀_lt a, rfl⟩
      · exact Or.inr ⟨_, sextet₁_lt a b, rfl⟩
      · exact Or.inr ⟨_, sextet₂_lt b 0, rfl⟩
      · exact Or.inl rfl
  | case4 a b c rest ih =>
      simp only [encode, List.mem_cons] at h
      rcases h with rfl | rfl | rfl | rfl | h
      · exact Or.inr ⟨_, sextet₀_lt a, rfl⟩
      · exact Or.inr ⟨_, sextet₁_lt a b, rfl⟩
      · exact Or.inr ⟨_, sextet₂_lt b c, rfl⟩
      · exact Or.inr ⟨_, sextet₃_lt c, rfl⟩
      · exact ih h

/-! ### Decoding -/

/-- The bytes of a group from its six-bit parts. -/
def byte₀ (w x : ℕ) : UInt8 := (w * 4 + x / 16).toUInt8

def byte₁ (x y : ℕ) : UInt8 := (x % 16 * 16 + y / 4).toUInt8

def byte₂ (y z : ℕ) : UInt8 := (y % 4 * 64 + z).toUInt8

def decode : List UInt8 → Option (List UInt8)
  | [] => some []
  | w :: x :: y :: z :: rest =>
      match value w, value x, value y, value z with
      | some w, some x, some y, some z => (decode rest).map fun s => byte₀ w x :: byte₁ x y :: byte₂ y z :: s
      | some w, some x, some y, none => if z = pad ∧ rest = [] then some [byte₀ w x, byte₁ x y] else none
      | some w, some x, none, none => if y = pad ∧ z = pad ∧ rest = [] then some [byte₀ w x] else none
      | _, _, _, _ => none
  | _ => none

theorem byte₀_sextets (a b : UInt8) : byte₀ (sextet₀ a) (sextet₁ a b) = a := by
  have hb := b.toNat_lt
  have hsum : sextet₀ a * 4 + sextet₁ a b / 16 = a.toNat := by
    unfold sextet₀ sextet₁
    omega
  rw [byte₀, hsum]
  exact UInt8.ofNat_toNat

theorem byte₁_sextets (a b c : UInt8) : byte₁ (sextet₁ a b) (sextet₂ b c) = b := by
  have hb := b.toNat_lt
  have hc := c.toNat_lt
  have hsum : sextet₁ a b % 16 * 16 + sextet₂ b c / 4 = b.toNat := by
    unfold sextet₁ sextet₂
    omega
  rw [byte₁, hsum]
  exact UInt8.ofNat_toNat

theorem byte₂_sextets (b c : UInt8) : byte₂ (sextet₂ b c) (sextet₃ c) = c := by
  have hc := c.toNat_lt
  have hsum : sextet₂ b c % 4 * 64 + sextet₃ c = c.toNat := by
    unfold sextet₂ sextet₃
    omega
  rw [byte₂, hsum]
  exact UInt8.ofNat_toNat

/-- **Round trip.** -/
theorem decode_encode (s : List UInt8) : decode (encode s) = some s := by
  induction s using encode.induct with
  | case1 => rfl
  | case2 a =>
      simp only [encode, decode, value_symbol (sextet₀_lt a), value_symbol (sextet₁_lt a 0), value_pad,
        byte₀_sextets, and_self, if_true]
  | case3 a b =>
      simp only [encode, decode, value_symbol (sextet₀_lt a), value_symbol (sextet₁_lt a b),
        value_symbol (sextet₂_lt b 0), value_pad, byte₀_sextets, byte₁_sextets, and_self, if_true]
  | case4 a b c rest ih =>
      simp only [encode, decode, value_symbol (sextet₀_lt a), value_symbol (sextet₁_lt a b),
        value_symbol (sextet₂_lt b c), value_symbol (sextet₃_lt c), byte₀_sextets, byte₁_sextets, byte₂_sextets, ih,
        Option.map_some]

end Base64
