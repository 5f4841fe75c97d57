import LiburingServer.Lib.ByteOrder
import Mathlib.Data.Fin.VecNotation
import Mathlib.Data.List.OfFn

/-! The frames of the websocket protocol: their fields, their bytes, and a decoder that reads the fields back. -/

namespace Websocket

abbrev MaskingKey : Type := Fin 4 → UInt8

/-- A length of `extended` extra bytes can express a payload of `n` bytes. The highest bit of the longest form
has to be zero. -/
def CanHold (extended n : ℕ) : Prop :=
  extended = 0 ∧ n < 126 ∨ extended = 2 ∧ n < 2 ^ 16 ∨ extended = 8 ∧ n < 2 ^ 63

instance (extended n : ℕ) : Decidable (CanHold extended n) :=
  inferInstanceAs (Decidable (_ ∨ _))

/-- A frame; the payload is what the sender meant, before it was masked. -/
structure Frame where
  fin : Bool
  reserved : Fin 8
  opcode : Fin 16
  maskingKey : Option MaskingKey
  extended : ℕ
  payload : List UInt8
  canHold : CanHold extended payload.length

/-- No shorter form of the length can express the payload of the frame. -/
def Frame.Shortest (f : Frame) : Prop := ∀ extended, CanHold extended f.payload.length → f.extended ≤ extended

/-- The XOR with the repeated key. -/
def mask (key : MaskingKey) (data : List UInt8) : List UInt8 :=
  data.mapIdx fun i b => b ^^^ key ⟨i % 4, Nat.mod_lt i (by decide)⟩

@[simp] theorem length_mask (key : MaskingKey) (data : List UInt8) : (mask key data).length = data.length :=
  List.length_mapIdx

theorem mask_mask (key : MaskingKey) (data : List UInt8) : mask key (mask key data) = data := by
  apply List.ext_getElem
  · rw [length_mask, length_mask]
  · intro i h h'
    simp only [mask, List.getElem_mapIdx]
    rw [UInt8.xor_assoc, UInt8.xor_self, UInt8.xor_zero]

/-! ### The bytes of a frame -/

def firstByte (fin : Bool) (reserved : Fin 8) (opcode : Fin 16) : UInt8 :=
  ((if fin then 128 else 0) + 16 * reserved.val + opcode.val).toUInt8

/-- The seven bits of the length. -/
def lengthField (extended n : ℕ) : ℕ := if extended = 0 then n else if extended = 2 then 126 else 127

def secondByte (masked : Bool) (field : ℕ) : UInt8 := ((if masked then 128 else 0) + field).toUInt8

def body (maskingKey : Option MaskingKey) (payload : List UInt8) : List UInt8 :=
  match maskingKey with
  | none => payload
  | some key => List.ofFn key ++ mask key payload

def Frame.encode (f : Frame) : List UInt8 :=
  firstByte f.fin f.reserved f.opcode ::
    secondByte f.maskingKey.isSome (lengthField f.extended f.payload.length) ::
      (ByteOrder.big.store f.extended f.payload.length ++ body f.maskingKey f.payload)

theorem Frame.length_encode (f : Frame) : f.encode.length =
    2 + f.extended + (if f.maskingKey.isSome then 4 else 0) + f.payload.length := by
  rw [Frame.encode, List.length_cons, List.length_cons, List.length_append, ByteOrder.length_store]
  cases f.maskingKey with
  | none =>
      simp only [body, Option.isSome_none, Bool.false_eq_true, if_false]
      omega
  | some key =>
      simp only [body, Option.isSome_some, if_true, List.length_append, List.length_ofFn, length_mask]
      omega

/-! ### The decoder -/

/-- How many bytes of extended length follow the second byte. -/
def extendedOf (second : UInt8) : ℕ :=
  if second.toNat % 128 = 126 then 2 else if second.toNat % 128 = 127 then 8 else 0

def readBytes (n : ℕ) (bytes : List UInt8) : Option (List UInt8 × List UInt8) :=
  if n ≤ bytes.length then some (bytes.take n, bytes.drop n) else none

def readKey (masked : Bool) (bytes : List UInt8) : Option (Option MaskingKey × List UInt8) :=
  if masked then
    match bytes with
    | a :: b :: c :: d :: bytes => some (some ![a, b, c, d], bytes)
    | _ => none
  else some (none, bytes)

def unmask (maskingKey : Option MaskingKey) (data : List UInt8) : List UInt8 :=
  match maskingKey with
  | none => data
  | some key => mask key data

/-- The frame with these parts; a length of the longest form is below `2 ^ 63`. -/
def frameOf (first : UInt8) (maskingKey : Option MaskingKey) (extended : ℕ) (payload : List UInt8) :
    Option Frame :=
  if h : CanHold extended payload.length then
    some ⟨128 ≤ first.toNat, ⟨first.toNat / 16 % 8, Nat.mod_lt _ (by decide)⟩,
      ⟨first.toNat % 16, Nat.mod_lt _ (by decide)⟩, maskingKey, extended, payload, h⟩
  else none

/-- The frame at the beginning of the bytes, and the bytes behind it. -/
def decode : List UInt8 → Option (Frame × List UInt8)
  | first :: second :: bytes => do
      let (extension, bytes) ← readBytes (extendedOf second) bytes
      let length := if extendedOf second = 0 then second.toNat % 128 else ByteOrder.big.load extension
      let (maskingKey, bytes) ← readKey (128 ≤ second.toNat) bytes
      let (data, bytes) ← readBytes length bytes
      let frame ← frameOf first maskingKey (extendedOf second) (unmask maskingKey data)
      return (frame, bytes)
  | _ => none

variable {extended n : ℕ} {key : MaskingKey} {f : Frame}

theorem lengthField_lt (h : CanHold extended n) : lengthField extended n < 128 := by
  unfold lengthField
  rcases h with ⟨rfl, h⟩ | ⟨rfl, -⟩ | ⟨rfl, -⟩
  · rw [if_pos rfl]
    omega
  · change 126 < 128
    decide
  · change 127 < 128
    decide

theorem toNat_secondByte (masked : Bool) {field : ℕ} (h : field < 128) :
    (secondByte masked field).toNat = (if masked then 128 else 0) + field := by
  rw [secondByte, Nat.toUInt8_eq, UInt8.toNat_ofNat']
  split <;> omega

theorem toNat_firstByte (fin : Bool) (reserved : Fin 8) (opcode : Fin 16) :
    (firstByte fin reserved opcode).toNat = (if fin then 128 else 0) + 16 * reserved.val + opcode.val := by
  rw [firstByte, Nat.toUInt8_eq, UInt8.toNat_ofNat']
  split <;> omega

theorem extendedOf_secondByte (masked : Bool) (h : CanHold extended n) :
    extendedOf (secondByte masked (lengthField extended n)) = extended := by
  have hsecond : (secondByte masked (lengthField extended n)).toNat % 128 = lengthField extended n := by
    have hlt := lengthField_lt h
    rw [toNat_secondByte masked hlt]
    split <;> omega
  unfold extendedOf
  rw [hsecond]
  rcases h with ⟨rfl, hlt⟩ | ⟨rfl, -⟩ | ⟨rfl, -⟩
  · have hfield : lengthField 0 n = n := rfl
    rw [hfield, if_neg (by omega), if_neg (by omega)]
  · rfl
  · rfl

/-- The length is read back from its field and its extension. -/
theorem length_of_fields (masked : Bool) (h : CanHold extended n) :
    (if extended = 0 then (secondByte masked (lengthField extended n)).toNat % 128
      else ByteOrder.big.load (ByteOrder.big.store extended n)) = n := by
  rw [toNat_secondByte masked (lengthField_lt h), ByteOrder.load_store]
  rcases h with ⟨rfl, hlt⟩ | ⟨rfl, hlt⟩ | ⟨rfl, hlt⟩
  · rw [if_pos rfl, lengthField, if_pos rfl]
    split <;> omega
  · rw [if_neg (by decide)]
    omega
  · rw [if_neg (by decide)]
    omega

theorem readBytes_append (bytes rest : List UInt8) :
    readBytes bytes.length (bytes ++ rest) = some (bytes, rest) := by
  rw [readBytes, if_pos (by simp), List.take_left, List.drop_left]

theorem readKey_ofFn (key : MaskingKey) (rest : List UInt8) :
    readKey true (List.ofFn key ++ rest) = some (some key, rest) := by
  have hkey : ![key 0, key 1, key 2, key 3] = key := by
    funext i
    match i with
    | 0 | 1 | 2 | 3 => rfl
  simp only [readKey, if_true, List.ofFn_succ, List.ofFn_zero, List.cons_append, List.nil_append]
  exact congrArg (fun k => some (some k, rest)) hkey

theorem frameOf_firstByte (f : Frame) :
    frameOf (firstByte f.fin f.reserved f.opcode) f.maskingKey f.extended f.payload = some f := by
  have hfirst := toNat_firstByte f.fin f.reserved f.opcode
  have hopcode := f.opcode.isLt
  have hreserved := f.reserved.isLt
  have hfin : decide (128 ≤ (firstByte f.fin f.reserved f.opcode).toNat) = f.fin := by
    rw [hfirst]
    cases f.fin
    · simp only [Bool.false_eq_true, if_false, decide_eq_false_iff_not]
      omega
    · simp only [if_true, decide_eq_true_eq]
      omega
  have hres : (firstByte f.fin f.reserved f.opcode).toNat / 16 % 8 = f.reserved.val := by
    rw [hfirst]
    split <;> omega
  have hop : (firstByte f.fin f.reserved f.opcode).toNat % 16 = f.opcode.val := by
    rw [hfirst]
    split <;> omega
  rw [frameOf, dif_pos f.canHold]
  simp only [hfin, hres, hop]

/-- The decoder reads back every frame, whatever follows it. -/
theorem decode_encode (f : Frame) (rest : List UInt8) : decode (f.encode ++ rest) = some (f, rest) := by
  have hextended := extendedOf_secondByte f.maskingKey.isSome f.canHold
  have hlength := length_of_fields f.maskingKey.isSome f.canHold
  have hextension := readBytes_append (ByteOrder.big.store f.extended f.payload.length)
    (body f.maskingKey f.payload ++ rest)
  rw [ByteOrder.length_store] at hextension
  have hmasked : (128 ≤ (secondByte f.maskingKey.isSome (lengthField f.extended f.payload.length)).toNat : Bool) =
      f.maskingKey.isSome := by
    have hlt := lengthField_lt f.canHold
    rw [toNat_secondByte _ hlt]
    cases f.maskingKey.isSome
    · simp only [Bool.false_eq_true, if_false, decide_eq_false_iff_not]
      omega
    · simp
  have hframe := frameOf_firstByte f
  simp only [Frame.encode, List.cons_append, List.append_assoc, decode, hextended, hextension, hlength, hmasked,
    Option.bind_eq_bind, Option.bind_some]
  cases hkey : f.maskingKey with
  | none =>
      rw [hkey] at hframe
      simp [readKey, body, readBytes_append, unmask, hframe]
  | some key =>
      have hdata := readBytes_append (mask key f.payload) rest
      rw [length_mask] at hdata
      rw [hkey] at hframe
      simp only [Option.isSome_some, body, List.append_assoc, readKey_ofFn, Option.bind_some, hdata, unmask,
        mask_mask, hframe]
      rfl

/-! ### Masking -/

/-- The same frame with a masking key. -/
def Frame.masked (f : Frame) (key : MaskingKey) : Frame := { f with maskingKey := some key }

/-- Masking on the bytes: the mask bit is set, the key inserted behind the header and the payload XORed. -/
def maskBytes (key : MaskingKey) : List UInt8 → List UInt8
  | first :: second :: bytes =>
      first :: (second ||| 128) ::
        (bytes.take (extendedOf second) ++ (List.ofFn key ++ mask key (bytes.drop (extendedOf second))))
  | bytes => bytes

theorem secondByte_or {field : ℕ} (h : field < 128) : secondByte false field ||| 128 = secondByte true field := by
  apply UInt8.toNat_inj.mp
  rw [UInt8.toNat_or, toNat_secondByte _ h, toNat_secondByte _ h]
  have hor := Nat.two_pow_add_eq_or_of_lt (i := 7) h 1
  simp only [Bool.false_eq_true, if_false, if_true, Nat.zero_add]
  rw [Nat.or_comm]
  exact hor.symm

theorem maskBytes_encode (hkey : f.maskingKey = none) : maskBytes key f.encode = (f.masked key).encode := by
  have hextended := extendedOf_secondByte false f.canHold
  have hor := secondByte_or (lengthField_lt f.canHold)
  have htake : (ByteOrder.big.store f.extended f.payload.length ++ f.payload).take f.extended =
      ByteOrder.big.store f.extended f.payload.length := List.take_left' (ByteOrder.length_store ..)
  have hdrop : (ByteOrder.big.store f.extended f.payload.length ++ f.payload).drop f.extended = f.payload :=
    List.drop_left' (ByteOrder.length_store ..)
  simp only [Frame.encode, Frame.masked, hkey, Option.isSome_none, Option.isSome_some, body, maskBytes, hextended,
    hor, htake, hdrop]

end Websocket
