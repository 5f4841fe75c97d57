import Mathlib.Data.List.Basic

/-! A queue of buffers that is written to a stream from the front: how much of the front buffer has been
written is kept as an offset. -/

namespace OutQueue

variable {α : Type*}

/-- What is left to write. -/
def left (buffers : List (List α)) (offset : ℕ) : List α := buffers.flatten.drop offset

variable {buffers rest : List (List α)} {front : List α} {offset n : ℕ}

theorem left_nil : left ([] : List (List α)) offset = [] := by simp [left]

/-- A new buffer is written last. -/
theorem left_enqueue (h : offset ≤ buffers.flatten.length) (b : List α) :
    left (buffers ++ [b]) offset = left buffers offset ++ b := by
  rw [left, left, List.flatten_append, List.flatten_singleton, List.drop_append_of_le_length h]

/-- A part of the front buffer is written. -/
theorem left_advance (h : offset + n ≤ front.length) :
    (front.drop offset).take n ++ left (front :: rest) (offset + n) = left (front :: rest) offset := by
  have hlater : left (front :: rest) (offset + n) = (front.drop offset).drop n ++ rest.flatten := by
    rw [left, List.flatten_cons, List.drop_append_of_le_length h, List.drop_drop]
  have hnow : left (front :: rest) offset = front.drop offset ++ rest.flatten := by
    rw [left, List.flatten_cons, List.drop_append_of_le_length (Nat.le_of_add_right_le h)]
  rw [hlater, hnow, ← List.append_assoc, List.take_append_drop]

/-- The front buffer has been written. -/
theorem left_pop : left (front :: rest) front.length = left rest 0 := by
  simp [left]

end OutQueue
