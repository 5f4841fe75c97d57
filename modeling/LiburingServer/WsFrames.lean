import LiburingServer.Common
import LiburingServer.Lib.Runs
import Mathlib.Data.List.Basic

/-! The reassembly of websocket frames of `websockets.tcc`. A read hands the server a chunk of the byte
stream; what stands in memory behind the chunk, and behind the copies the splitting loop makes of its
rest, is not under its control and is an argument. -/

namespace LiburingServer

/-- Bytes read through a pointer: the buffer, and behind its end whatever is there. -/
def peek (buffer : Bytes) (beyond : ℕ → UInt8) (i : ℕ) : UInt8 := buffer.getD i (beyond i)

/-- The big-endian number in `count` bytes from `start`. -/
def bigEndian (buffer : ℕ → UInt8) (start : ℕ) : ℕ → ℕ
  | 0 => 0
  | count + 1 => bigEndian buffer start count * 256 + (buffer (start + count)).toNat

/-- `get_ws_frame_length`, in the 64-bit arithmetic of `ulong`. -/
def getWsFrameLength (buffer : ℕ → UInt8) : ℕ :=
  let packetLength := (buffer 1).toNat % 128
  let packetLength :=
    if packetLength = 126 then bigEndian buffer 2 2 + 2
    else if packetLength = 127 then (bigEndian buffer 2 8 + 8) % 2 ^ 64
    else packetLength
  (packetLength + 6) % 2 ^ 64

/-- The value an `int` gets when it is assigned an unsigned number. -/
def toInt (n : ℕ) : ℤ := Int.bmod n (2 ^ 32)

/-- `receiving_data_info`: the beginning of a frame whose end has not been read yet. -/
structure ReceivingDataInfo where
  length : ℤ := -1
  buffer : Bytes := []
  deriving DecidableEq

/-- One read: the chunk, and the memory behind the buffer in each round of the splitting loop. -/
structure WsRead where
  chunk : Bytes
  beyond : ℕ → ℕ → UInt8

/-- The header that the unknown-length mode looks at: `pending` inserted at the front of ten zero
bytes, and then the first bytes of the chunk inserted at the front of that. -/
def tempBuffer (pending chunk : Bytes) : Bytes :=
  chunk.take (10 - pending.length) ++ (pending ++ List.replicate 10 0)

def headerLength (pending chunk : Bytes) : ℤ :=
  toInt (getWsFrameLength (peek (tempBuffer pending chunk) fun _ => 0))

/-- How a call with pending data begins: the length of the pending frame is known or is computed. With
more than ten pending bytes of unknown length the source forms a range that ends before it begins. -/
inductive PendingLength where
  | known (length : ℤ)
  | smallRead
  | invalidRange

def pendingLength (data : ReceivingDataInfo) (chunk : Bytes) : PendingLength :=
  if data.length = -1 then
    if data.buffer.length + chunk.length < 10 then .smallRead
    else if 10 < data.buffer.length then .invalidRange
    else .known (headerLength data.buffer chunk)
  else .known data.length

/-- `required_length`: an `int` less a `size_t`, in 64 bits. -/
def requiredLength (length : ℤ) (pending : Bytes) : ℕ := ((length - pending.length) % 2 ^ 64).toNat

/-- The pending frame takes what it needs of the chunk. The result is the frames completed, the rest of
the chunk and the pending data that remain. -/
def fillPending (length : ℤ) (pending chunk : Bytes) : List Bytes × Bytes × ReceivingDataInfo :=
  let required := requiredLength length pending
  if required < chunk.length then ([pending ++ chunk.take required], chunk.drop required, {})
  else if required = chunk.length then ([pending ++ chunk], [], {})
  else ([], [], ⟨length, pending ++ chunk⟩)

/-- The splitting loop; `fuel` bounds its rounds and `round` counts them. -/
def splitFrames (beyond : ℕ → ℕ → UInt8) : ℕ → ℕ → List Bytes → Bytes → Option (List Bytes × Bytes × ℕ)
  | 0, _, _, _ => none
  | fuel + 1, round, frames, buffer =>
      if 5 < buffer.length then
        let packetLength := getWsFrameLength (peek buffer (beyond round))
        if packetLength ≤ buffer.length then
          splitFrames beyond fuel (round + 1) (frames ++ [buffer.take packetLength])
            (buffer.drop packetLength)
        else some (frames, buffer, round)
      else some (frames, buffer, round)

/-- The beginning of a frame that is left becomes the pending data. -/
def keepRest (data : ReceivingDataInfo) (beyond : ℕ → UInt8) (rest : Bytes) : ReceivingDataInfo :=
  if 0 < rest.length then
    ⟨if 10 < rest.length then toInt (getWsFrameLength (peek rest beyond)) else -1, rest⟩
  else data

/-- The part of `get_ws_frames` after the pending data is dealt with. -/
def splitRest (fuel : ℕ) (read : WsRead) (frames : List Bytes) (buffer : Bytes)
    (data : ReceivingDataInfo) : Option (ReceivingDataInfo × ℤ × List Bytes) :=
  (splitFrames read.beyond fuel 0 frames buffer).map fun r =>
    (keepRest data (read.beyond r.2.2) r.2.1, 1, r.1)

/-- `get_ws_frames` on the pending data of one websocket client: the new pending data, the returned
code and the returned frames. -/
def getWsFrames (fuel : ℕ) (data : ReceivingDataInfo) (read : WsRead) :
    Option (ReceivingDataInfo × ℤ × List Bytes) :=
  if 0 < data.buffer.length then
    match pendingLength data read.chunk with
    | .smallRead => some (data, -1, [])
    | .invalidRange => none
    | .known length =>
        let r := fillPending length data.buffer read.chunk
        splitRest fuel read r.1 r.2.1 r.2.2
  else splitRest fuel read [] read.chunk data

/-! ### Frames of a client -/

inductive LengthForm where
  | bits7
  | bits16
  | bits64
  deriving DecidableEq

/-- How many payload lengths a form can express; the highest bit of a 64-bit length is zero. -/
def LengthForm.limit : LengthForm → ℕ
  | .bits7 => 126
  | .bits16 => 2 ^ 16
  | .bits64 => 2 ^ 63

/-- A complete masked frame. `first` holds the final bit, the reserved bits and the opcode. -/
structure ClientFrame where
  first : UInt8
  form : LengthForm
  maskingKey : Fin 4 → UInt8
  payload : Bytes
  fits : payload.length < form.limit

/-- The `count` low bytes of a number, the most significant one first. -/
def bigEndianBytes (n : ℕ) : ℕ → Bytes
  | 0 => []
  | count + 1 => (n / 256 ^ count % 256).toUInt8 :: bigEndianBytes n count

def LengthForm.header (n : ℕ) : LengthForm → Bytes
  | .bits7 => [(128 + n).toUInt8]
  | .bits16 => 254 :: bigEndianBytes n 2
  | .bits64 => 255 :: bigEndianBytes n 8

def ClientFrame.encode (f : ClientFrame) : Bytes :=
  f.first :: (f.form.header f.payload.length ++ (List.ofFn f.maskingKey ++ f.payload))

end LiburingServer
