import LiburingServer.Http
import LiburingServer.Lib.PrefixMask
import LiburingServer.Lib.Websocket

/-! How `is_valid_http_req` recognises a request: the five methods are compared with the buffer at once, and a mask
says which of them it may still begin with. -/

namespace LiburingServer

/-- `types`. -/
def methodTypes : List Bytes := [ascii "GET ", ascii "POST ", ascii "PUT ", ascii "DELETE ", ascii "PATCH "]

/-- `is_valid_http_req` of a buffer and a length, position by position: `"DELETE "` has seven. It is undefined where
it reads behind the buffer. -/
def isValidHttpReqLoop (buff : Bytes) (length : ℤ) : Option Bool :=
  if length < 16 then some false
  else (PrefixMask.run (0x1f : BitVec 8) methodTypes buff 7).map fun valid => decide (valid ≠ 0)

theorem full_methodTypes : PrefixMask.Full (0x1f : BitVec 8) methodTypes := by
  intro j
  have hlength : methodTypes.length = 5 := rfl
  have hbits : ∀ j < 8, (0x1f : BitVec 8).getLsbD j = true ↔ j < 5 := by decide
  rw [hlength]
  by_cases hj : j < 8
  · exact hbits j hj
  · have hbit : (0x1f : BitVec 8).getLsbD j = false := BitVec.getLsbD_of_ge _ _ (by omega)
    rw [hbit]
    simp only [Bool.false_eq_true, false_iff]
    omega

theorem length_methodTypes : ∀ type ∈ methodTypes, type.length ≤ 7 := by decide

/-- The loop looks for a method at the front of the buffer. -/
theorem isValidHttpReqLoop_eq {buff : Bytes} {length : ℤ} (h : length ≤ buff.length) :
    isValidHttpReqLoop buff length = some (decide (16 ≤ length ∧ ∃ type ∈ methodTypes, type <+: buff)) := by
  unfold isValidHttpReqLoop
  by_cases hshort : length < 16
  · have hnot : ¬(16 ≤ length ∧ ∃ type ∈ methodTypes, type <+: buff) := fun hboth => absurd hboth.1 (by omega)
    rw [if_pos hshort, decide_eq_false hnot]
  · have hlong : 16 ≤ length := by omega
    have hfits : 7 ≤ buff.length := by omega
    obtain ⟨mask, hrun, hmask⟩ := PrefixMask.run_ne_zero full_methodTypes hfits length_methodTypes
    rw [if_neg hshort, hrun, Option.map_some]
    exact congrArg some (decide_eq_decide.mpr (hmask.trans (and_iff_right hlong).symm))

/-- What `isValidHttpReq` says of a buffer is what the loop finds. -/
theorem isValidHttpReqLoop_length (buff : Bytes) :
    isValidHttpReqLoop buff buff.length = some (isValidHttpReq buff) := by
  rw [isValidHttpReqLoop_eq le_rfl, isValidHttpReq]
  simp [methodTypes]

/-- The first byte of a method has a bit set that is reserved in a frame. -/
theorem methodTypes_head : ∀ type ∈ methodTypes, ∃ b rest, type = b :: rest ∧ b &&& 0x70 ≠ 0 := by
  intro type htype
  simp only [methodTypes, List.mem_cons, List.not_mem_nil, or_false] at htype
  rcases htype with rfl | rfl | rfl | rfl | rfl
  all_goals exact ⟨_, _, rfl, by decide⟩

theorem firstByte_reserved (fin : Bool) (opcode : Fin 16) : Websocket.firstByte fin 0 opcode &&& 0x70 = 0 := by
  revert fin opcode
  decide

/-- **Recognition of requests.** For every buffer of at least `length` bytes, it is taken for a request exactly if
there are at least 16 of them and the buffer begins with one of the methods and a space. So none is that begins with a
frame whose reserved bits are zero, or is the beginning of one. -/
theorem is_valid_http_req_iff (buff : Bytes) (length : ℤ) (h : length ≤ buff.length) :
    isValidHttpReqLoop buff length = some (decide (16 ≤ length ∧ ∃ type ∈ methodTypes, type <+: buff)) ∧
      ∀ f : Websocket.Frame, f.reserved = 0 → f.encode <+: buff ∨ buff <+: f.encode →
        isValidHttpReqLoop buff length = some false := by
  have hloop := isValidHttpReqLoop_eq h
  refine ⟨hloop, fun f hreserved hframe => ?_⟩
  rw [hloop, Option.some.injEq, decide_eq_false_iff_not]
  rintro ⟨-, type, htype, hprefix⟩
  obtain ⟨b, rest, rfl, hb⟩ := methodTypes_head type htype
  obtain ⟨after, rfl⟩ := hprefix
  have hfirst : b = Websocket.firstByte f.fin f.reserved f.opcode := by
    rcases hframe with hframe | hframe
    · exact (List.cons_prefix_cons.mp hframe).1.symm
    · exact (List.cons_prefix_cons.mp hframe).1
  rw [hfirst, hreserved] at hb
  exact hb (firstByte_reserved _ _)

theorem is_valid_http_req_iff_upgrade :
    isValidHttpReqLoop upgradeRequest 16 = some true ∧ isValidHttpReqLoop upgradeRequest 15 = some false := by
  have hvalid := (is_valid_http_req_iff upgradeRequest 16 (by decide)).1
  have hshort := (is_valid_http_req_iff upgradeRequest 15 (by decide)).1
  exact ⟨hvalid.trans (by decide), hshort.trans (by decide)⟩

end LiburingServer
