import Mathlib.Algebra.Order.Ring.Int

/-! Byte strings and the structures of `common_structs_enums.h` and `server_metadata.h` that several
parts of the server share. -/

namespace LiburingServer

/-- The contents of a `std::vector<char>` or a `std::string`. -/
abbrev Bytes := List UInt8

/-- The bytes of a string literal of the source. -/
def ascii (s : String) : Bytes := s.toList.map fun c => c.toNat.toUInt8

/-- `READ_SIZE`: how much one read request reads. -/
def readSize : ℕ := 8192

inductive ServerType where
  | tls
  | nonTls
  deriving DecidableEq, Repr

inductive EventType where
  | accept
  | acceptRead
  | acceptWrite
  | read
  | write
  | notification
  | customRead
  | timerfd
  | kill
  deriving DecidableEq, Repr

/-- The requests that are checked against the present occupant of their slot. -/
def EventType.OfClient (event : EventType) : Prop :=
  event ∈ [.acceptRead, .acceptWrite, .read, .write]

instance : DecidablePred EventType.OfClient := fun event =>
  inferInstanceAs (Decidable (event ∈ [EventType.acceptRead, .acceptWrite, .read, .write]))

/-- What the web server keeps for a connection of the TCP layer. -/
structure TcpClient where
  lastRequestedReadFilepath : Bytes := []
  wsClientIdx : ℤ := -1
  usingFile : Bool := false
  deriving DecidableEq, Repr

end LiburingServer
