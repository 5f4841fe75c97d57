import Mathlib.Data.Nat.Digits.Defs

/-! Numbers in a fixed count of bytes, in the byte order of a machine, and the conversion to and from the
big-endian order of a network. -/

inductive ByteOrder where
  | little
  | big
  deriving DecidableEq

namespace ByteOrder

/-- The `count` low bytes of a number, the least significant one first. -/
def lowBytes : ℕ → ℕ → List UInt8
  | 0, _ => []
  | count + 1, n => (n % 256).toUInt8 :: lowBytes count (n / 256)

/-- The bytes of a number in memory. -/
def store : ByteOrder → ℕ → ℕ → List UInt8
  | little, count, n => lowBytes count n
  | big, count, n => (lowBytes count n).reverse

/-- The number that stands in memory. -/
def load : ByteOrder → List UInt8 → ℕ
  | little, bytes => Nat.ofDigits 256 (bytes.map UInt8.toNat)
  | big, bytes => Nat.ofDigits 256 (bytes.reverse.map UInt8.toNat)

/-- `hton`: the number whose bytes in memory are in network order. -/
def toNetwork (order : ByteOrder) (count n : ℕ) : ℕ := order.load (big.store count n)

/-- `ntoh`: the number that the bytes of `n` in memory stand for in network order. -/
def ofNetwork (order : ByteOrder) (count n : ℕ) : ℕ := big.load (order.store count n)

@[simp] theorem length_lowBytes (count n : ℕ) : (lowBytes count n).length = count := by
  induction count generalizing n with
  | zero => rfl
  | succ count ih => rw [lowBytes, List.length_cons, ih]

@[simp] theorem length_store (order : ByteOrder) (count n : ℕ) : (order.store count n).length = count := by
  cases order <;> simp [store]

theorem ofDigits_lowBytes (count n : ℕ) :
    Nat.ofDigits 256 ((lowBytes count n).map UInt8.toNat) = n % 256 ^ count := by
  induction count generalizing n with
  | zero => simp [lowBytes, Nat.mod_one]
  | succ count ih =>
      have hlow : (n % 256).toUInt8.toNat = n % 256 := by
        rw [Nat.toUInt8_eq, UInt8.toNat_ofNat']
        omega
      rw [lowBytes, List.map_cons, Nat.ofDigits_cons, ih, hlow, Nat.pow_succ', Nat.mod_mul]

theorem lowBytes_ofDigits (bytes : List UInt8) :
    lowBytes bytes.length (Nat.ofDigits 256 (bytes.map UInt8.toNat)) = bytes := by
  induction bytes with
  | nil => rfl
  | cons b bytes ih =>
      have hb := b.toNat_lt
      rw [List.length_cons, List.map_cons, Nat.ofDigits_cons, lowBytes]
      congr 1
      · rw [Nat.add_mul_mod_self_left, Nat.mod_eq_of_lt hb]
        simp
      · rw [Nat.add_mul_div_left _ _ (by decide), Nat.div_eq_of_lt hb, Nat.zero_add, ih]

/-- What was stored is read back, as far as the bytes hold it. -/
theorem load_store (order : ByteOrder) (count n : ℕ) : order.load (order.store count n) = n % 256 ^ count := by
  cases order with
  | little => exact ofDigits_lowBytes count n
  | big => rw [store, load, List.reverse_reverse, ofDigits_lowBytes]

theorem store_load (order : ByteOrder) (bytes : List UInt8) :
    order.store bytes.length (order.load bytes) = bytes := by
  cases order with
  | little => exact lowBytes_ofDigits bytes
  | big =>
      have h := lowBytes_ofDigits bytes.reverse
      rw [List.length_reverse] at h
      rw [store, load, h, List.reverse_reverse]

theorem store_zero (order : ByteOrder) (count : ℕ) : order.store count 0 = List.replicate count 0 := by
  have hlow : lowBytes count 0 = List.replicate count 0 := by
    induction count with
    | zero => rfl
    | succ count ih => simp [lowBytes, ih, List.replicate_succ]
  cases order <;> simp [store, hlow]

/-- Whatever the order of the machine, a number that was converted lies in memory in network order. -/
theorem store_toNetwork (order : ByteOrder) (count n : ℕ) :
    order.store count (order.toNetwork count n) = big.store count n := by
  have h := order.store_load (big.store count n)
  rwa [length_store] at h

theorem ofNetwork_load (order : ByteOrder) (bytes : List UInt8) :
    order.ofNetwork bytes.length (order.load bytes) = big.load bytes := by
  rw [ofNetwork, store_load]

/-- The conversion does not make a number zero. -/
theorem toNetwork_eq_zero_iff (order : ByteOrder) (count n : ℕ) :
    order.toNetwork count n = 0 ↔ n % 256 ^ count = 0 := by
  constructor
  · intro h
    have hbytes : big.store count n = big.store count 0 := by
      rw [← order.store_toNetwork, h, store_zero, store_zero]
    have hload := congrArg big.load hbytes
    rwa [load_store, load_store, Nat.zero_mod] at hload
  · intro h
    have hbytes : big.store count n = order.store count 0 := by
      have hload := big.store_load (big.store count n)
      rw [length_store, load_store, h, store_zero] at hload
      rw [← hload, store_zero]
    rw [toNetwork, hbytes, load_store, Nat.zero_mod]

end ByteOrder
