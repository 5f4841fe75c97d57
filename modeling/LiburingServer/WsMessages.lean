import LiburingServer.Lib.Websocket
import LiburingServer.Lib.Loops
import LiburingServer.WsPending
import Mathlib.Data.Nat.Bitwise

/-! Single messages: the frames that `make_ws_frame` writes and those that `decode_websocket_frame` reads, down
to the vectors that both work on and the byte order of the machine. -/

namespace LiburingServer

/-! ### Network byte order -/

/-- The bytes from `start` on, as a machine reads them through a pointer. -/
def loadAt (order : ByteOrder) (buffer : ℕ → UInt8) (start count : ℕ) : ℕ :=
  order.load ((List.range count).map fun i => buffer (start + i))

/-- `get_ws_frame_length` with `ntohs` and `be64toh`. -/
def getWsFrameLengthOn (order : ByteOrder) (buffer : ℕ → UInt8) : ℕ :=
  let packetLength := (buffer 1 &&& 0x7f).toNat
  let packetLength :=
    if packetLength = 126 then order.ofNetwork 2 (loadAt order buffer 2 2) + 2
    else if packetLength = 127 then (order.ofNetwork 8 (loadAt order buffer 2 8) + 8) % 2 ^ 64
    else packetLength
  (packetLength + 6) % 2 ^ 64

theorem bigEndian_eq_load (buffer : ℕ → UInt8) (start count : ℕ) :
    bigEndian buffer start count = loadAt .big buffer start count := by
  induction count with
  | zero => rfl
  | succ count ih =>
      rw [bigEndian, ih, loadAt, loadAt, List.range_succ, List.map_append, List.map_singleton, ByteOrder.load,
        ByteOrder.load, List.reverse_append, List.reverse_singleton, List.singleton_append, List.map_cons,
        Nat.ofDigits_cons]
      ring

theorem ofNetwork_loadAt (order : ByteOrder) (buffer : ℕ → UInt8) (start count : ℕ) :
    order.ofNetwork count (loadAt order buffer start count) = bigEndian buffer start count := by
  have h := order.ofNetwork_load ((List.range count).map fun i => buffer (start + i))
  rw [List.length_map, List.length_range] at h
  rw [bigEndian_eq_load]
  exact h

/-- The length does not depend on the byte order of the machine. -/
theorem getWsFrameLengthOn_eq (order : ByteOrder) (buffer : ℕ → UInt8) :
    getWsFrameLengthOn order buffer = getWsFrameLength buffer := by
  unfold getWsFrameLengthOn getWsFrameLength
  rw [ofNetwork_loadAt, ofNetwork_loadAt, payloadLength_eq]

theorem bigEndianBytes_succ (n count : ℕ) :
    bigEndianBytes n (count + 1) = bigEndianBytes (n / 256) count ++ [(n % 256).toUInt8] := by
  induction count with
  | zero => simp [bigEndianBytes]
  | succ count ih =>
      rw [bigEndianBytes, ih, bigEndianBytes, Nat.div_div_eq_div_mul, Nat.pow_succ', List.cons_append]

theorem bigEndianBytes_eq_store (n count : ℕ) : bigEndianBytes n count = ByteOrder.big.store count n := by
  induction count generalizing n with
  | zero => rfl
  | succ count ih =>
      rw [bigEndianBytes_succ, ih, ByteOrder.store, ByteOrder.store, ByteOrder.lowBytes, List.reverse_cons]

/-! ### Writing a frame -/

/-- Bytes written into a vector from position `i` on; no result where they do not fit. -/
def overwrite (data : Bytes) (i : ℕ) (bytes : Bytes) : Option Bytes :=
  if i + bytes.length ≤ data.length then some (data.take i ++ (bytes ++ data.drop (i + bytes.length))) else none

/-- `make_ws_frame` with `htons` and `htobe64`. The length form is chosen by the size of the message, and once
more by whether the converted `ushort` is zero. -/
def makeWsFrameOn (order : ByteOrder) (packetMsg : Bytes) (opcode : UInt8) : Option Bytes := do
  let msgSize := packetMsg.length
  let offset := if msgSize < 126 then 2 else if msgSize < 65536 then 2 + 2 else 2 + 8
  let payloadLenChar := if msgSize < 126 then msgSize.toUInt8 else 0
  let payloadLenShort :=
    if msgSize < 126 then 0 else if msgSize < 65536 then order.toNetwork 2 msgSize else 0
  let payloadLenLong :=
    if msgSize < 126 then 0 else if msgSize < 65536 then 0 else order.toNetwork 8 msgSize
  let data ← overwrite (List.replicate ((offset + msgSize) % 2 ^ 64) 0) 0 [128 ||| opcode]
  let data ←
    if msgSize < 126 then overwrite data 1 [payloadLenChar]
    else if payloadLenShort ≠ 0 then
      (overwrite data 1 [126]).bind fun data => overwrite data 2 (order.store 2 payloadLenShort)
    else (overwrite data 1 [127]).bind fun data => overwrite data 2 (order.store 8 payloadLenLong)
  if data.length = 2 then some data else overwrite data offset packetMsg

theorem overwrite_append (before old bytes after : Bytes) {i : ℕ} (hi : before.length = i)
    (hold : old.length = bytes.length) :
    overwrite (before ++ (old ++ after)) i bytes = some (before ++ (bytes ++ after)) := by
  subst hi
  have hdrop : (before ++ (old ++ after)).drop (before.length + bytes.length) = after := by
    rw [List.drop_length_add_append, ← hold, List.drop_left]
  rw [overwrite, if_pos (by simp [hold]), List.take_left, hdrop]

/-- The first byte is written over a zero. -/
theorem overwrite_first (first : UInt8) (rest : Bytes) : overwrite (0 :: rest) 0 [first] = some (first :: rest) :=
  overwrite_append [] [0] [first] rest rfl rfl

theorem overwrite_second (first second : UInt8) (rest : Bytes) :
    overwrite (first :: 0 :: rest) 1 [second] = some (first :: second :: rest) :=
  overwrite_append [first] [0] [second] rest rfl rfl

/-- The extended length is written behind the two bytes of the header. -/
theorem overwrite_extension (first second : UInt8) (extension rest : Bytes) :
    overwrite (first :: second :: (List.replicate extension.length 0 ++ rest)) 2 extension =
      some (first :: second :: (extension ++ rest)) :=
  overwrite_append [first, second] _ extension rest rfl (List.length_replicate ..)

/-- The message is written behind the header. -/
theorem overwrite_message (header packetMsg : Bytes) {offset : ℕ} (hoffset : header.length = offset) :
    overwrite (header ++ List.replicate packetMsg.length 0) offset packetMsg = some (header ++ packetMsg) := by
  have h := overwrite_append header (List.replicate packetMsg.length 0) packetMsg [] hoffset
    (List.length_replicate ..)
  simpa only [List.append_nil] using h

variable {packetMsg : Bytes}

/-- The vector is created with zeros. -/
theorem zeros_eq (count : ℕ) {n : ℕ} (h : n < 2 ^ 63) (hcount : count < 10) :
    List.replicate ((2 + count + n) % 2 ^ 64) (0 : UInt8) =
      0 :: 0 :: (List.replicate count 0 ++ List.replicate n 0) := by
  rw [Nat.mod_eq_of_lt (by omega), List.replicate_append_replicate, ← List.replicate_succ, ← List.replicate_succ]
  congr 1
  omega

theorem makeWsFrameOn_of_short (order : ByteOrder) (opcode : UInt8) (h : packetMsg.length < 126) :
    makeWsFrameOn order packetMsg opcode = some (makeWsFrame packetMsg opcode) := by
  have hzeros := zeros_eq 0 (show packetMsg.length < 2 ^ 63 by omega) (by decide)
  have hmessage := overwrite_message [128 ||| opcode, packetMsg.length.toUInt8] packetMsg rfl
  simp only [List.replicate_zero, List.nil_append, Nat.add_zero] at hzeros
  simp only [makeWsFrameOn, makeWsFrame, h, if_true, hzeros, overwrite_first, overwrite_second,
    Option.bind_eq_bind, Option.bind_some, List.length_cons, List.length_replicate]
  split_ifs with hempty
  · obtain rfl : packetMsg = [] := List.eq_nil_of_length_eq_zero (by omega)
    rfl
  · exact hmessage

/-- Both longer forms: behind the second byte stands the extended length, in network order on every machine. -/
theorem write_extended (order : ByteOrder) (first second : UInt8) (count : ℕ) (hcount : 0 < count)
    (packetMsg : Bytes) :
    ((overwrite (first :: 0 :: (List.replicate count 0 ++ List.replicate packetMsg.length 0)) 1 [second]).bind
        fun data => overwrite data 2 (order.store count (order.toNetwork count packetMsg.length))).bind
        (fun data => if data.length = 2 then some data else overwrite data (2 + count) packetMsg) =
      some (first :: second :: (bigEndianBytes packetMsg.length count ++ packetMsg)) := by
  have hlength : (bigEndianBytes packetMsg.length count).length = count := by
    rw [bigEndianBytes_eq_store, ByteOrder.length_store]
  have hextension := overwrite_extension first second (bigEndianBytes packetMsg.length count)
    (List.replicate packetMsg.length 0)
  have hheader : (first :: second :: bigEndianBytes packetMsg.length count).length = 2 + count := by
    rw [List.length_cons, List.length_cons, hlength]
    omega
  have hmessage := overwrite_message _ packetMsg hheader
  have hlong : ¬(first :: second :: (bigEndianBytes packetMsg.length count ++
      List.replicate packetMsg.length 0)).length = 2 := by
    simp only [List.length_cons, List.length_append, hlength]
    omega
  rw [hlength] at hextension
  rw [overwrite_second, Option.bind_some, ByteOrder.store_toNetwork, ← bigEndianBytes_eq_store, hextension,
    Option.bind_some, if_neg hlong]
  exact hmessage

/-- On every machine the vector holds the frame: the two tests for the length form agree. -/
theorem makeWsFrameOn_eq (order : ByteOrder) (opcode : UInt8) (hsize : packetMsg.length < 2 ^ 63) :
    makeWsFrameOn order packetMsg opcode = some (makeWsFrame packetMsg opcode) := by
  by_cases hshort : packetMsg.length < 126
  · exact makeWsFrameOn_of_short order opcode hshort
  · by_cases hmedium : packetMsg.length < 65536
    · have hne : order.toNetwork 2 packetMsg.length ≠ 0 := by
        rw [ne_eq, ByteOrder.toNetwork_eq_zero_iff]
        omega
      have hwrite := write_extended order (128 ||| opcode) 126 2 (by decide) packetMsg
      simp only [makeWsFrameOn, makeWsFrame, if_neg hshort, if_pos hmedium, if_pos hne,
        zeros_eq 2 hsize (by decide), overwrite_first, Option.bind_eq_bind, Option.bind_some]
      exact hwrite
    · have hwrite := write_extended order (128 ||| opcode) 127 8 (by decide) packetMsg
      simp only [makeWsFrameOn, makeWsFrame, if_neg hshort, if_neg hmedium, ne_eq, not_true_eq_false, if_false,
        zeros_eq 8 hsize (by decide), overwrite_first, Option.bind_eq_bind, Option.bind_some]
      exact hwrite

/-- The frame that `make_ws_frame` writes. -/
def messageFrame (packetMsg : Bytes) (opcode : Fin 16) (h : packetMsg.length < 2 ^ 63) : Websocket.Frame where
  fin := true
  reserved := 0
  opcode
  maskingKey := none
  extended := if packetMsg.length < 126 then 0 else if packetMsg.length < 65536 then 2 else 8
  payload := packetMsg
  canHold := by
    unfold Websocket.CanHold
    split_ifs <;> omega

theorem messageFrame_shortest (opcode : Fin 16) (h : packetMsg.length < 2 ^ 63) :
    (messageFrame packetMsg opcode h).Shortest := by
  intro extended hholds
  have hpayload : (messageFrame packetMsg opcode h).payload = packetMsg := rfl
  rw [hpayload] at hholds
  simp only [messageFrame]
  rcases hholds with ⟨rfl, hlt⟩ | ⟨rfl, hlt⟩ | ⟨rfl, hlt⟩ <;> split_ifs <;> omega

theorem firstByte_final (opcode : Fin 16) :
    (128 : UInt8) ||| opcode.val.toUInt8 = Websocket.firstByte true 0 opcode := by
  have hopcode := opcode.isLt
  apply UInt8.toNat_inj.mp
  have hor := Nat.two_pow_add_eq_or_of_lt (i := 7) (b := opcode.val) (by omega) 1
  have hval : opcode.val.toUInt8.toNat = opcode.val := by
    rw [Nat.toUInt8_eq, UInt8.toNat_ofNat']
    omega
  rw [UInt8.toNat_or, Websocket.toNat_firstByte, hval]
  simpa using hor.symm

theorem makeWsFrame_eq_encode (opcode : Fin 16) (h : packetMsg.length < 2 ^ 63) :
    makeWsFrame packetMsg opcode.val.toUInt8 = (messageFrame packetMsg opcode h).encode := by
  unfold makeWsFrame Websocket.Frame.encode
  rw [firstByte_final]
  simp only [messageFrame, Websocket.body, Websocket.secondByte, Websocket.lengthField, bigEndianBytes_eq_store]
  split_ifs <;> simp_all [ByteOrder.store, ByteOrder.lowBytes]

/-- The bytes of a piece of a buffer are read through a pointer. -/
theorem map_peek (before bytes after : Bytes) (beyond : ℕ → UInt8) :
    (List.range bytes.length).map (fun i => peek (before ++ (bytes ++ after)) beyond (before.length + i)) = bytes := by
  apply List.ext_getElem
  · simp
  · intro i h h'
    simp [peek, List.getD_eq_getElem?_getD, List.getElem?_append_right, List.getElem?_append_left h', h']

/-- The size that is read off the header of a frame is that of the frame with a masking key. -/
theorem getWsFrameLength_encode (f : Websocket.Frame) (beyond : ℕ → UInt8) :
    getWsFrameLength (peek f.encode beyond) = 2 + f.extended + 4 + f.payload.length := by
  have hlt := Websocket.lengthField_lt f.canHold
  have hfield : (peek f.encode beyond 1).toNat % 128 = Websocket.lengthField f.extended f.payload.length := by
    have hsecond := Websocket.toNat_secondByte f.maskingKey.isSome hlt
    change (Websocket.secondByte _ _).toNat % 128 = _
    rw [hsecond]
    split <;> omega
  have hload : bigEndian (peek f.encode beyond) 2 f.extended = f.payload.length % 256 ^ f.extended := by
    have hmap := map_peek [Websocket.firstByte f.fin f.reserved f.opcode,
      Websocket.secondByte f.maskingKey.isSome (Websocket.lengthField f.extended f.payload.length)]
      (ByteOrder.big.store f.extended f.payload.length) (Websocket.body f.maskingKey f.payload) beyond
    rw [ByteOrder.length_store] at hmap
    rw [bigEndian_eq_load, ← ByteOrder.load_store .big, loadAt]
    exact congrArg (ByteOrder.load .big) hmap
  unfold getWsFrameLength
  simp only [hfield]
  rcases f.canHold with ⟨hext, hn⟩ | ⟨hext, hn⟩ | ⟨hext, hn⟩
  · rw [hext] at hfield ⊢
    have hshort : Websocket.lengthField 0 f.payload.length = f.payload.length := rfl
    rw [hshort, if_neg (by omega), if_neg (by omega)]
    omega
  · rw [hext] at hload ⊢
    change (bigEndian (peek f.encode beyond) 2 2 + 2 + 6) % 2 ^ 64 = _
    omega
  · rw [hext] at hload ⊢
    change ((bigEndian (peek f.encode beyond) 2 8 + 8) % 2 ^ 64 + 6) % 2 ^ 64 = _
    omega

/-- **Frames of the server.** On a machine of either byte order `make_ws_frame` writes one final unmasked frame
with the given opcode and exactly the message as its payload, in the shortest form of the length; the size that
`get_ws_frame_length` reads off it exceeds the size of the frame by the four bytes of a masking key. -/
theorem make_ws_frame_decodes (order : ByteOrder) (packetMsg : Bytes) (opcode : Fin 16)
    (hsize : packetMsg.length < 2 ^ 63) :
    ∃ data f, makeWsFrameOn order packetMsg opcode.val.toUInt8 = some data ∧
      makeWsFrame packetMsg opcode.val.toUInt8 = data ∧ Websocket.decode data = some (f, []) ∧
      f.fin = true ∧ f.reserved = 0 ∧ f.opcode = opcode ∧ f.maskingKey = none ∧ f.payload = packetMsg ∧
      f.Shortest ∧ ∀ beyond, getWsFrameLengthOn order (peek data beyond) = data.length + 4 := by
  have hdecode := Websocket.decode_encode (messageFrame packetMsg opcode hsize) []
  rw [List.append_nil, ← makeWsFrame_eq_encode] at hdecode
  refine ⟨makeWsFrame packetMsg opcode.val.toUInt8, messageFrame packetMsg opcode hsize,
    makeWsFrameOn_eq order _ hsize, rfl, hdecode, rfl, rfl, rfl, rfl, rfl, messageFrame_shortest opcode hsize, ?_⟩
  intro beyond
  rw [getWsFrameLengthOn_eq, makeWsFrame_eq_encode opcode hsize, getWsFrameLength_encode,
    Websocket.Frame.length_encode]
  have hkey : (messageFrame packetMsg opcode hsize).maskingKey.isSome = false := rfl
  rw [hkey, if_neg Bool.false_ne_true]
  omega

/-- The frame of the two bytes of a message. -/
theorem make_ws_frame_decodes_two :
    ∃ data f, makeWsFrameOn .little [104, 105] (1 : Fin 16).val.toUInt8 = some data ∧
      makeWsFrame [104, 105] (1 : Fin 16).val.toUInt8 = data ∧ Websocket.decode data = some (f, []) ∧
      f.fin = true ∧ f.reserved = 0 ∧ f.opcode = 1 ∧ f.maskingKey = none ∧ f.payload = [104, 105] ∧
      f.Shortest ∧ ∀ beyond, getWsFrameLengthOn .little (peek data beyond) = data.length + 4 :=
  make_ws_frame_decodes .little [104, 105] 1 (by decide)

/-! ### Reading a frame -/

/-- The unmasking loop of `decode_websocket_frame`, which reads through `data_ptr` the vector that it writes. -/
def unmaskInPlace (start : ℕ) (maskingKey data : Bytes) : Bytes :=
  (List.range' start (data.length - start)).foldl
    (fun data i => data.set (i - start) (data.getD i 0 ^^^ maskingKey.getD ((i - start) % 4) 0)) data

/-- `decode_websocket_frame` on the vector it is given. There is no result where it reads behind the vector, nor
where the `int` that counts its loop would overflow. -/
def decodeWebsocketFrameInPlace (data : Bytes) : Option (ℤ × Bytes) :=
  match data[0]?, data[1]? with
  | some first, some second =>
      let opcode := first &&& 0xf
      if second &&& 0x80 ≠ 0x80 then some (-1, [])
      else if opcode = 0x8 then some (-3, [])
      else if opcode = 0xA then some (3, [])
      else
        let length := second &&& 0x7f
        let offset := if length = 126 then 2 else if length = 127 then 8 else 0
        if data.length < 6 + offset ∨ 2 ^ 31 ≤ data.length then none
        else
          let maskingKey := [data.getD (2 + offset) 0, data.getD (3 + offset) 0, data.getD (4 + offset) 0,
            data.getD (5 + offset) 0]
          let data := (unmaskInPlace (6 + offset) maskingKey data).take (data.length - (6 + offset))
          if opcode = 0x9 then some (2, data)
          else if first &&& 0x80 ≠ 0x80 then some (-2, data)
          else some (1, data)
  | _, _ => none

/-- Every byte is read before the loop writes it. -/
theorem unmaskInPlace_take (maskingKey : Bytes) {start : ℕ} {data : Bytes} (h : start ≤ data.length) :
    (unmaskInPlace start maskingKey data).take (data.length - start) =
      (data.drop start).mapIdx fun i b => b ^^^ maskingKey.getD (i % 4) 0 := by
  have hloop := Loops.foldl_set_ahead (fun i b => b ^^^ maskingKey.getD (i % 4) 0) data 0
    (show data.length - start + start ≤ data.length by omega)
  have hrest : (data.drop start).length = data.length - start := List.length_drop
  rw [← hrest, List.take_length, hrest] at hloop
  rw [unmaskInPlace, List.range'_eq_map_range, List.foldl_map]
  simp only [Nat.add_comm start, Nat.add_sub_cancel]
  rw [hloop]
  exact List.take_left' (by rw [List.length_mapIdx, hrest])

theorem highBit_eq (b : UInt8) : b &&& 0x80 = if 128 ≤ b.toNat then 0x80 else 0 := by
  have hb := b.toNat_lt
  have hbit : b.toNat.testBit 7 = decide (128 ≤ b.toNat) := by
    rw [Nat.testBit_eq_decide_div_mod_eq]
    congr 1
    apply propext
    omega
  apply UInt8.toNat_inj.mp
  rw [UInt8.toNat_and]
  have hand := Nat.and_two_pow b.toNat 7
  rw [hbit] at hand
  apply hand.trans
  split_ifs with h <;> simp [h]

/-- The sign bit is clear or set. -/
theorem highBit_eq_zero_iff (b : UInt8) : b &&& 0x80 = 0 ↔ ¬b &&& 0x80 = 0x80 := by
  rw [highBit_eq]
  split_ifs <;> decide

theorem take_four {l : Bytes} (h : 4 ≤ l.length) :
    l.take 4 = [l.getD 0 0, l.getD 1 0, l.getD 2 0, l.getD 3 0] := by
  match l with
  | a :: b :: c :: d :: l => rfl

/-- In place or not, the decoder computes the same. -/
theorem decodeWebsocketFrameInPlace_eq {data : Bytes} (h : data.length < 2 ^ 31) :
    decodeWebsocketFrameInPlace data = decodeWebsocketFrame data := by
  match data with
  | [] => rfl
  | [_] => rfl
  | first :: second :: rest =>
      unfold decodeWebsocketFrameInPlace decodeWebsocketFrame
      simp only [List.getElem?_cons_zero, List.getElem?_cons_succ, ne_eq, ← highBit_eq_zero_iff]
      generalize hoffset : (if second &&& 0x7f = 126 then 2 else if second &&& 0x7f = 127 then 8 else 0) = offset
      rw [List.length_cons, List.length_cons] at h ⊢
      by_cases hshort : rest.length < offset + 4
      · rw [if_pos (show rest.length + 1 + 1 < 6 + offset ∨ 2 ^ 31 ≤ rest.length + 1 + 1 by omega), if_pos hshort]
      · have hkey : [(first :: second :: rest).getD (2 + offset) 0, (first :: second :: rest).getD (3 + offset) 0,
            (first :: second :: rest).getD (4 + offset) 0, (first :: second :: rest).getD (5 + offset) 0] =
            (rest.drop offset).take 4 := by
          rw [take_four (by rw [List.length_drop]; omega)]
          simp [List.getD_eq_getElem?_getD, Nat.add_comm _ offset]
        have henough : 6 + offset ≤ (first :: second :: rest).length := by
          rw [List.length_cons, List.length_cons]
          omega
        have hloop := unmaskInPlace_take ((rest.drop offset).take 4) henough
        have hdrop : (first :: second :: rest).drop (6 + offset) = rest.drop (offset + 4) := by
          rw [show 6 + offset = offset + 4 + 1 + 1 by omega, List.drop_succ_cons, List.drop_succ_cons]
        rw [List.length_cons, List.length_cons, hdrop] at hloop
        rw [if_neg (show ¬(rest.length + 1 + 1 < 6 + offset ∨ 2 ^ 31 ≤ rest.length + 1 + 1) by omega), if_neg hshort,
          hkey, hloop]

theorem offset_eq (second : UInt8) :
    (if second &&& 0x7f = 126 then 2 else if second &&& 0x7f = 127 then 8 else 0) = Websocket.extendedOf second := by
  have hlength (n : UInt8) : second &&& 0x7f = n ↔ second.toNat % 128 = n.toNat := by
    rw [← payloadLength_eq, UInt8.toNat_inj]
  simp only [hlength]
  rfl

/-- The repeated key, as the list of its bytes. -/
theorem mapIdx_ofFn (key : Websocket.MaskingKey) (data : Bytes) :
    (data.mapIdx fun i b => b ^^^ (List.ofFn key).getD (i % 4) 0) = Websocket.mask key data := by
  have hkey : ∀ i, (List.ofFn key).getD (i % 4) 0 = key ⟨i % 4, Nat.mod_lt i (by decide)⟩ := by
    intro i
    have hi : i % 4 < (List.ofFn key).length := by
      rw [List.length_ofFn]
      omega
    rw [List.getD_eq_getElem?_getD, List.getElem?_eq_getElem hi, Option.getD_some, List.getElem_ofFn]
  simp only [hkey, Websocket.mask]

/-- The decoder on a masked frame that is neither a close nor a pong. -/
theorem decodeWebsocketFrame_masked (key : Websocket.MaskingKey) {first second : UInt8}
    {extension : Bytes} (hmask : 128 ≤ second.toNat) (hextension : Websocket.extendedOf second = extension.length)
    (hclose : first &&& 0xf ≠ 0x8) (hpong : first &&& 0xf ≠ 0xA) (data : Bytes) :
    decodeWebsocketFrame (first :: second :: (extension ++ (List.ofFn key ++ data))) =
      some (if first &&& 0xf = 0x9 then 2 else if first &&& 0x80 = 0 then -2 else 1, Websocket.mask key data) := by
  have hmasked : ¬second &&& 0x80 = 0 := by
    rw [highBit_eq, if_pos hmask]
    decide
  have henough : ¬(extension ++ (List.ofFn key ++ data)).length < extension.length + 4 := by
    simp only [List.length_append, List.length_ofFn]
    omega
  have hkey : ((extension ++ (List.ofFn key ++ data)).drop extension.length).take 4 = List.ofFn key := by
    rw [List.drop_left]
    exact List.take_left' List.length_ofFn
  have hdata : (extension ++ (List.ofFn key ++ data)).drop (extension.length + 4) = data := by
    rw [List.drop_length_add_append]
    exact List.drop_left' List.length_ofFn
  simp only [decodeWebsocketFrame, offset_eq, hextension, if_neg hmasked, if_neg hclose, if_neg hpong,
    if_neg henough, hkey, hdata, mapIdx_ofFn]
  split_ifs <;> rfl

variable {f : Websocket.Frame} {key : Websocket.MaskingKey}

theorem opcode_eq (b : UInt8) : (b &&& 0xf).toNat = b.toNat % 16 := by
  rw [UInt8.toNat_and]
  exact Nat.and_two_pow_sub_one_eq_mod b.toNat 4

theorem firstByte_opcode_iff (f : Websocket.Frame) (opcode : Fin 16) :
    Websocket.firstByte f.fin f.reserved f.opcode &&& 0xf = opcode.val.toUInt8 ↔ f.opcode = opcode := by
  have hopcode := opcode.isLt
  have hcode := f.opcode.isLt
  have hval : opcode.val.toUInt8.toNat = opcode.val := by
    rw [Nat.toUInt8_eq, UInt8.toNat_ofNat']
    omega
  rw [← UInt8.toNat_inj, opcode_eq, Websocket.toNat_firstByte, hval, ← Fin.val_inj]
  split <;> omega

theorem firstByte_fin_iff (f : Websocket.Frame) :
    Websocket.firstByte f.fin f.reserved f.opcode &&& 0x80 = 0 ↔ f.fin = false := by
  have hopcode := f.opcode.isLt
  have hreserved := f.reserved.isLt
  rw [highBit_eq, Websocket.toNat_firstByte]
  cases f.fin
  · rw [if_neg (by simp only [Bool.false_eq_true, if_false]; omega)]
    simp
  · rw [if_pos (by simp only [if_true]; omega)]
    decide

/-- The code and the payload that the decoder returns for a frame with a key. -/
theorem decodeWebsocketFrame_encode (hkey : f.maskingKey = some key) (hclose : f.opcode ≠ 8)
    (hpong : f.opcode ≠ 10) : decodeWebsocketFrame f.encode =
      some (if f.opcode = 9 then 2 else if f.fin then 1 else -2, f.payload) := by
  have hext : Websocket.extendedOf (Websocket.secondByte true (Websocket.lengthField f.extended f.payload.length)) =
      (ByteOrder.big.store f.extended f.payload.length).length := by
    rw [Websocket.extendedOf_secondByte true f.canHold, ByteOrder.length_store]
  have hmask : 128 ≤ (Websocket.secondByte true (Websocket.lengthField f.extended f.payload.length)).toNat := by
    rw [Websocket.toNat_secondByte true (Websocket.lengthField_lt f.canHold)]
    exact Nat.le_add_right 128 _
  have h := decodeWebsocketFrame_masked key hmask hext (mt (firstByte_opcode_iff f 8).mp hclose)
    (mt (firstByte_opcode_iff f 10).mp hpong) (Websocket.mask key f.payload)
  have hping : Websocket.firstByte f.fin f.reserved f.opcode &&& 0xf = 0x9 ↔ f.opcode = 9 :=
    firstByte_opcode_iff f 9
  rw [Websocket.Frame.encode, hkey, Option.isSome_some, Websocket.body, h, Websocket.mask_mask]
  simp only [hping, firstByte_fin_iff]
  cases f.fin <;> rfl

/-- A frame of the server that a client masks is read back. -/
theorem decodeWebsocketFrame_maskBytes {opcode : Fin 16} (hopcode : opcode = 1 ∨ opcode = 2)
    (hsize : packetMsg.length < 2 ^ 63) (key : Websocket.MaskingKey) :
    decodeWebsocketFrame (Websocket.maskBytes key (makeWsFrame packetMsg opcode.val.toUInt8)) =
      some (1, packetMsg) := by
  rw [makeWsFrame_eq_encode opcode hsize, Websocket.maskBytes_encode rfl]
  have hcode : ((messageFrame packetMsg opcode hsize).masked key).opcode = opcode := rfl
  have hkey : ((messageFrame packetMsg opcode hsize).masked key).maskingKey = some key := rfl
  rw [decodeWebsocketFrame_encode hkey, hcode]
  · rcases hopcode with rfl | rfl <;> rfl
  · rw [hcode]
    rcases hopcode with rfl | rfl <;> decide
  · rw [hcode]
    rcases hopcode with rfl | rfl <;> decide

/-- **Frames of a client.** Decoding in place reads back the payload of every masked frame but a close and a pong,
whatever the form of its length, and tells apart a ping, a frame that is not the last and one that is. In
particular what `make_ws_frame` writes is read back once a client has masked it. -/
theorem decode_ws_frame_reads :
    (∀ (f : Websocket.Frame) (key : Websocket.MaskingKey), f.maskingKey = some key → f.opcode ≠ 8 →
      f.opcode ≠ 10 → f.encode.length < 2 ^ 31 → decodeWebsocketFrameInPlace f.encode =
        some (if f.opcode = 9 then 2 else if f.fin then 1 else -2, f.payload)) ∧
      ∀ (order : ByteOrder) (packetMsg : Bytes) (opcode : Fin 16) (key : Websocket.MaskingKey),
        opcode = 1 ∨ opcode = 2 → (makeWsFrame packetMsg opcode.val.toUInt8).length + 4 < 2 ^ 31 →
        ∃ data, makeWsFrameOn order packetMsg opcode.val.toUInt8 = some data ∧
          decodeWebsocketFrameInPlace (Websocket.maskBytes key data) = some (1, packetMsg) := by
  constructor
  · intro f key hkey hclose hpong hsize
    rw [decodeWebsocketFrameInPlace_eq hsize, decodeWebsocketFrame_encode hkey hclose hpong]
  · intro order packetMsg opcode key hopcode hlength
    have hsize : packetMsg.length < 2 ^ 63 := by
      simp only [makeWsFrame, List.length_cons, List.length_append] at hlength
      omega
    refine ⟨_, makeWsFrameOn_eq order _ hsize, ?_⟩
    rw [decodeWebsocketFrameInPlace_eq, decodeWebsocketFrame_maskBytes hopcode hsize]
    rw [makeWsFrame_eq_encode opcode hsize] at hlength ⊢
    rw [Websocket.maskBytes_encode rfl, Websocket.Frame.length_encode]
    rwa [Websocket.Frame.length_encode, Nat.add_right_comm] at hlength

/-- A ping with a length of two extra bytes, its final bit clear. -/
def pingFrame : Websocket.Frame where
  fin := false
  reserved := 0
  opcode := 9
  maskingKey := some fun i => 0x11 * (i.val.toUInt8 + 1)
  extended := 2
  payload := [1, 2, 3, 4, 5]
  canHold := by decide

/-- The ping is read back, and so is a short text that the client masks. -/
theorem decode_ws_frame_reads_ping :
    decodeWebsocketFrameInPlace pingFrame.encode = some (2, [1, 2, 3, 4, 5]) ∧
      ∃ data, makeWsFrameOn .big [104, 105] (1 : Fin 16).val.toUInt8 = some data ∧
        decodeWebsocketFrameInPlace (Websocket.maskBytes (fun _ => 7) data) = some (1, [104, 105]) :=
  ⟨decode_ws_frame_reads.1 pingFrame _ rfl (by decide) (by decide) (by decide),
    decode_ws_frame_reads.2 .big [104, 105] 1 (fun _ => 7) (Or.inl rfl) (by decide)⟩

end LiburingServer
