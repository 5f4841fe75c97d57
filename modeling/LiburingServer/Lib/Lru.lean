import Mathlib.Data.List.Basic
import Mathlib.Logic.Function.Basic
import Mathlib.Data.Nat.Notation
import Mathlib.Data.Int.Notation

/-! A least-recently-used list of bounded capacity with locked entries. The list runs from the least to
the most recently used entry. An entry is locked by each lookup that finds it and released when the
reader that looked it up is finished; only an entry without locks is replaced. -/

namespace Lru

variable {κ β : Type*}

structure Entry (κ β : Type*) where
  key : κ
  value : β
  locks : ℤ

/-- `inUse` is the key each reader that is using an entry looked up last. -/
structure State (κ β : Type*) where
  entries : List (Entry κ β) := []
  inUse : ℕ → Option κ := fun _ => none

inductive Op (κ β : Type*) where
  | fetch (key : κ) (reader : ℕ)
  | insert (key : κ) (value : β)
  | finish (reader : ℕ)

inductive Result (β : Type*) where
  | fetched (value : Option β)
  | inserted (done : Bool)
  | done

/-- A new entry at the most recent end; a full list gives up its least recent entry for it, unless
that one is locked. -/
def insert (capacity : ℕ) (entries : List (Entry κ β)) (key : κ) (value : β) :
    Option (List (Entry κ β)) :=
  if entries.length < capacity then some (entries ++ [⟨key, value, 0⟩])
  else
    match entries with
    | [] => none
    | e :: rest => if e.locks = 0 then some (rest ++ [⟨key, value, 0⟩]) else none

theorem insert_of_full {capacity : ℕ} {e : Entry κ β} {rest : List (Entry κ β)} (key : κ) (value : β)
    (h : ¬(e :: rest).length < capacity) : insert capacity (e :: rest) key value =
      if e.locks = 0 then some (rest ++ [⟨key, value, 0⟩]) else none := by
  simp only [insert.eq_def, if_neg h]

variable [DecidableEq κ]

def find (entries : List (Entry κ β)) (key : κ) : Option (Entry κ β) :=
  entries.find? fun e => e.key = key

/-- The entry of `key` gets one more lock and moves to the most recent end. -/
def touch (entries : List (Entry κ β)) (key : κ) : List (Entry κ β) :=
  match find entries key with
  | none => entries
  | some e => entries.eraseP (fun e => e.key = key) ++ [{ e with locks := e.locks + 1 }]

def release (entries : List (Entry κ β)) (key : κ) : List (Entry κ β) :=
  entries.map fun e => if e.key = key then { e with locks := e.locks - 1 } else e

def step (capacity : ℕ) (s : State κ β) : Op κ β → State κ β × Result β
  | .fetch key reader =>
      match find s.entries key with
      | none => (s, .fetched none)
      | some e =>
          (⟨touch s.entries key, Function.update s.inUse reader (some key)⟩, .fetched (some e.value))
  | .insert key value =>
      match insert capacity s.entries key value with
      | none => (s, .inserted false)
      | some entries => ({ s with entries := entries }, .inserted true)
  | .finish reader =>
      match s.inUse reader with
      | none => (s, .done)
      | some key => (⟨release s.entries key, Function.update s.inUse reader none⟩, .done)

theorem find_append {l₁ l₂ : List (Entry κ β)} {e : Entry κ β} (h : ∀ e' ∈ l₁, e'.key ≠ e.key) :
    find (l₁ ++ e :: l₂) e.key = some e := by
  have hnone : l₁.find? (fun e' => decide (e'.key = e.key)) = none := by
    simpa using h
  simp [find, List.find?_append, hnone]

theorem touch_append {l₁ l₂ : List (Entry κ β)} {e : Entry κ β} (h : ∀ e' ∈ l₁, e'.key ≠ e.key) :
    touch (l₁ ++ e :: l₂) e.key = l₁ ++ l₂ ++ [{ e with locks := e.locks + 1 }] := by
  have herase : (l₁ ++ e :: l₂).eraseP (fun e' => decide (e'.key = e.key)) = l₁ ++ l₂ := by
    rw [List.eraseP_append_right _ (by simpa using h)]
    simp
  simp only [touch, find_append h, herase]

theorem find_eq_none {l : List (Entry κ β)} {key : κ} (h : ∀ e ∈ l, e.key ≠ key) :
    find l key = none := by
  simpa [find] using h

end Lru
