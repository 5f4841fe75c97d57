import LiburingServer.Lib.Lru
import LiburingServer.Lib.Runs
import Mathlib.Data.Finset.Dedup
import Mathlib.Data.Finset.Card
import Mathlib.Data.Finset.Option

/-! How long a least-recently-used list keeps an entry. The entries behind one are exactly those of the keys that
were found or inserted since it was, each once; so it is given up when there are as many of them as there is room
for, and no sooner. Locks only make insertions fail. -/

namespace Lru

variable {κ β : Type*}

/-- The key and the value that an operation finds or inserts. -/
def touched : Op κ β → Result β → Option (κ × β)
  | .fetch key _, .fetched (some value) => some (key, value)
  | .insert key value, .inserted true => some (key, value)
  | _, _ => none

/-- No key has two entries, and there are not too many of them. -/
structure Bounded (capacity : ℕ) (entries : List (Entry κ β)) : Prop where
  nodup : (entries.map Entry.key).Nodup
  length_le : entries.length ≤ capacity

/-- What an operation inserts has no entry. -/
def Fresh (entries : List (Entry κ β)) : Op κ β → Prop
  | .insert key _ => ∀ e ∈ entries, e.key ≠ key
  | _ => True

/-- What an operation does to the entries. -/
inductive Moves (capacity : ℕ) (entries : List (Entry κ β)) : Op κ β → Result β → List (Entry κ β) → Prop
  | keep {op : Op κ β} {o : Result β} (f : Entry κ β → Entry κ β) (hnone : touched op o = none)
      (hkey : ∀ e, (f e).key = e.key) (hvalue : ∀ e, (f e).value = e.value) :
      Moves capacity entries op o (entries.map f)
  | promote {l₁ l₂ : List (Entry κ β)} {e e' : Entry κ β} (reader : ℕ) (heq : entries = l₁ ++ e :: l₂)
      (hkey : e'.key = e.key) (hvalue : e'.value = e.value) :
      Moves capacity entries (.fetch e.key reader) (.fetched (some e.value)) (l₁ ++ l₂ ++ [e'])
  | append (e : Entry κ β) (hlt : entries.length < capacity) :
      Moves capacity entries (.insert e.key e.value) (.inserted true) (entries ++ [e])
  | replace {low : Entry κ β} {rest : List (Entry κ β)} (e : Entry κ β) (heq : entries = low :: rest)
      (hfull : capacity ≤ entries.length) :
      Moves capacity entries (.insert e.key e.value) (.inserted true) (rest ++ [e])

theorem Moves.same {capacity : ℕ} {entries : List (Entry κ β)} {op : Op κ β} {o : Result β} (h : touched op o = none) :
    Moves capacity entries op o entries := by
  simpa using Moves.keep id h (fun _ => rfl) fun _ => rfl

theorem insert_eq_some {capacity : ℕ} {entries entries' : List (Entry κ β)} {key : κ} {value : β}
    (h : insert capacity entries key value = some entries') :
    entries.length < capacity ∧ entries' = entries ++ [⟨key, value, 0⟩] ∨
      ∃ low rest, entries = low :: rest ∧ capacity ≤ entries.length ∧ entries' = rest ++ [⟨key, value, 0⟩] := by
  unfold insert at h
  split at h
  · next hlt => exact Or.inl ⟨hlt, (Option.some.inj h).symm⟩
  · next hfull =>
    split at h
    · cases h
    · next low rest =>
      split at h
      · exact Or.inr ⟨low, rest, rfl, Nat.le_of_not_lt hfull, (Option.some.inj h).symm⟩
      · cases h

theorem Moves.bounded {capacity : ℕ} {entries entries' : List (Entry κ β)} {op : Op κ β} {o : Result β}
    (h : Moves capacity entries op o entries') (hbounded : Bounded capacity entries) (hfresh : Fresh entries op) :
    Bounded capacity entries' := by
  cases h with
  | keep f hnone hkey hvalue =>
      have hkeys : Entry.key ∘ f = (Entry.key : Entry κ β → κ) := funext hkey
      exact ⟨by rw [List.map_map, hkeys]; exact hbounded.nodup, by simpa using hbounded.length_le⟩
  | @promote l₁ l₂ e e' reader heq hkey hvalue =>
      have hperm : ((l₁ ++ l₂ ++ [e']).map Entry.key).Perm (entries.map Entry.key) := by
        have hmiddle : ((l₁ ++ l₂).map Entry.key ++ [e.key]).Perm (l₁.map Entry.key ++ e.key :: l₂.map Entry.key) :=
          List.perm_append_comm.trans (by simpa using List.perm_middle.symm)
        simpa [heq, hkey] using hmiddle
      exact ⟨hperm.nodup_iff.mpr hbounded.nodup, by simpa using hperm.length_eq.trans_le (by simpa using hbounded.length_le)⟩
  | append e hlt =>
      have hnew : e.key ∉ entries.map Entry.key := by simpa [Fresh] using hfresh
      refine ⟨?_, by simpa using Nat.succ_le_of_lt hlt⟩
      rw [List.map_append, List.map_singleton, ← List.concat_eq_append]
      exact hbounded.nodup.concat hnew
  | @replace low rest e heq hfull =>
      subst heq
      have hrest : (rest.map Entry.key).Nodup := (List.nodup_cons.mp hbounded.nodup).2
      refine ⟨?_, by simpa using hbounded.length_le⟩
      rw [List.map_append, List.map_singleton, ← List.concat_eq_append]
      exact hrest.concat (by simpa using fun e' he' => hfresh e' (List.mem_cons_of_mem _ he'))

/-- The keys that are found or inserted. -/
def keysOf (o : Option (κ × β)) : Finset κ := (o.map Prod.fst).toFinset

@[simp] theorem keysOf_none : keysOf (none : Option (κ × β)) = ∅ := rfl

@[simp] theorem keysOf_some (key : κ) (value : β) : keysOf (some (key, value)) = {key} := rfl

theorem appended {entries : List (Entry κ β)} {key : κ} {e : Entry κ β} (hgone : ∀ e ∈ entries, e.key ≠ key) (hne : e.key ≠ key) :
    ∀ e' ∈ entries ++ [e], e'.key ≠ key := by
  intro e' he'
  rcases List.mem_append.mp he' with he' | he'
  · exact hgone e' he'
  · rwa [List.mem_singleton.mp he']

variable [DecidableEq κ]

/-- What became of an entry while those of the keys in `since` were found or inserted behind it. -/
structure Trails (capacity : ℕ) (entries : List (Entry κ β)) (key : κ) (value : β) (since : Finset κ) : Prop where
  bounded : Bounded capacity entries
  kept_or_gone : (∃ older e newer, entries = older ++ e :: newer ∧ e.key = key ∧ e.value = value ∧
      (newer.map Entry.key).toFinset = since) ∨
    (∀ e ∈ entries, e.key ≠ key) ∧ capacity ≤ since.card

namespace Trails

variable {capacity : ℕ} {entries entries' : List (Entry κ β)} {key : κ} {value : β} {since : Finset κ}

/-- A found entry moves behind `x`. -/
theorem promoted {l₁ l₂ older newer : List (Entry κ β)} {e e' x : Entry κ β}
    (h : l₁ ++ e :: l₂ = older ++ x :: newer) (hne : e ≠ x) (hkey : e'.key = e.key) :
    ∃ older' newer', l₁ ++ l₂ ++ [e'] = older' ++ x :: newer' ∧
      (newer'.map Entry.key).toFinset = (newer.map Entry.key).toFinset ∪ {e.key} := by
  rcases List.append_eq_append_iff.mp h with ⟨between, rfl, hrest⟩ | ⟨between, rfl, hrest⟩
  · obtain ⟨rfl, hx⟩ | ⟨between', rfl, rfl⟩ := List.cons_eq_append_iff.mp hrest
    · exact absurd (List.cons.inj hx).1.symm hne
    · refine ⟨l₁ ++ between', newer ++ [e'], by simp, ?_⟩
      ext k
      simp [hkey]
  · obtain ⟨rfl, hx⟩ | ⟨between', rfl, rfl⟩ := List.cons_eq_append_iff.mp hrest
    · exact absurd (List.cons.inj hx).1 hne
    · refine ⟨older, between' ++ l₂ ++ [e'], by simp, ?_⟩
      ext k
      simp only [List.map_append, List.map_cons, List.map_nil, hkey, List.mem_toFinset, List.mem_append,
        List.mem_cons, List.not_mem_nil, or_false, Finset.mem_union, Finset.mem_singleton]
      tauto

/-- One operation, unless it finds or inserts the key itself. -/
theorem moves {op : Op κ β} {o : Result β} (h : Trails capacity entries key value since)
    (hmoves : Moves capacity entries op o entries') (hfresh : Fresh entries op) (hother : key ∉ keysOf (touched op o)) :
    Trails capacity entries' key value (since ∪ keysOf (touched op o)) := by
  refine ⟨hmoves.bounded h.bounded hfresh, ?_⟩
  cases hmoves with
  | keep f hnone hkey hvalue =>
      rw [hnone, keysOf_none, Finset.union_empty]
      rcases h.kept_or_gone with ⟨older, e, newer, rfl, hk, hv, hsince⟩ | ⟨hgone, hcard⟩
      · refine Or.inl ⟨older.map f, f e, newer.map f, by simp, (hkey e).trans hk, (hvalue e).trans hv, ?_⟩
        rw [List.map_map, show Entry.key ∘ f = Entry.key from funext hkey, hsince]
      · exact Or.inr ⟨by simpa [hkey] using hgone, hcard⟩
  | @promote l₁ l₂ e e' reader heq hkey hvalue =>
      have hne : e.key ≠ key := by simpa [touched, eq_comm] using hother
      rcases h.kept_or_gone with ⟨older, x, newer, hx, hk, hv, rfl⟩ | ⟨hgone, hcard⟩
      · obtain ⟨older', newer', heq', hsince⟩ := promoted (heq.symm.trans hx) (fun hex => hne (hex ▸ hk)) hkey
        exact Or.inl ⟨older', x, newer', heq', hk, hv, hsince⟩
      · refine Or.inr ⟨fun x hx => ?_, hcard.trans (Finset.card_le_card Finset.subset_union_left)⟩
        rw [List.mem_append, List.mem_singleton] at hx
        rcases hx with hx | rfl
        · exact hgone x (by simp only [heq, List.mem_append, List.mem_cons] at hx ⊢; tauto)
        · exact hkey ▸ hne
  | append e hlt =>
      have hne : e.key ≠ key := by simpa [touched, eq_comm] using hother
      rcases h.kept_or_gone with ⟨older, x, newer, rfl, hk, hv, rfl⟩ | ⟨hgone, hcard⟩
      · exact Or.inl ⟨older, x, newer ++ [e], by simp, hk, hv, by simp [touched]⟩
      · exact Or.inr ⟨appended hgone hne, hcard.trans (Finset.card_le_card Finset.subset_union_left)⟩
  | @replace low rest e heq hfull =>
      have hne : e.key ≠ key := by simpa [touched, eq_comm] using hother
      subst heq
      rcases h.kept_or_gone with ⟨older, x, newer, hx, hk, hv, rfl⟩ | ⟨hgone, hcard⟩
      · rcases List.cons_eq_append_iff.mp hx with ⟨rfl, hlow⟩ | ⟨older', rfl, rfl⟩
        · -- The entry itself is the least recent one and makes room: everything behind it is in `since`.
          obtain ⟨rfl, rfl⟩ := List.cons.inj hlow
          have hkeys : x.key ∉ newer.map Entry.key ∧ (newer.map Entry.key).Nodup := List.nodup_cons.mp h.bounded.nodup
          refine Or.inr ⟨appended (fun y hy hyx => hkeys.1 ?_) hne, ?_⟩
          · exact List.mem_map.mpr ⟨y, hy, hyx.trans hk.symm⟩
          · have hnew : e.key ∉ (newer.map Entry.key).toFinset := by
              simpa using fun y hy => hfresh y (List.mem_cons_of_mem _ hy)
            have hcard : ((newer.map Entry.key).toFinset ∪ {e.key}).card = newer.length + 1 := by
              rw [Finset.union_comm, ← Finset.insert_eq, Finset.card_insert_of_notMem hnew,
                List.toFinset_card_of_nodup hkeys.2, List.length_map]
            exact hfull.trans hcard.ge
        · exact Or.inl ⟨older', x, newer ++ [e], by simp, hk, hv, by simp [touched]⟩
      · exact Or.inr ⟨appended (fun y hy => hgone y (List.mem_cons_of_mem _ hy)) hne,
          hcard.trans (Finset.card_le_card Finset.subset_union_left)⟩

/-- An operation that finds or inserts the key. -/
theorem begin {op : Op κ β} {o : Result β} (hbounded : Bounded capacity entries)
    (hmoves : Moves capacity entries op o entries') (hfresh : Fresh entries op) (htouched : touched op o = some (key, value)) :
    Trails capacity entries' key value ∅ := by
  refine ⟨hmoves.bounded hbounded hfresh, Or.inl ?_⟩
  cases hmoves with
  | keep f hnone hkey hvalue => simp [hnone] at htouched
  | @promote l₁ l₂ e e' reader heq hkey hvalue =>
      obtain ⟨rfl, rfl⟩ : e.key = key ∧ e.value = value := by simpa [touched] using htouched
      exact ⟨l₁ ++ l₂, e', [], rfl, hkey, hvalue, rfl⟩
  | append e hlt =>
      obtain ⟨rfl, rfl⟩ : e.key = key ∧ e.value = value := by simpa [touched] using htouched
      exact ⟨entries, e, [], rfl, rfl, rfl, rfl⟩
  | @replace low rest e heq hfull =>
      obtain ⟨rfl, rfl⟩ : e.key = key ∧ e.value = value := by simpa [touched] using htouched
      exact ⟨rest, e, [], rfl, rfl, rfl, rfl⟩

/-- The entry is there exactly if fewer keys than there is room for were found or inserted behind it. -/
theorem find_eq (h : Trails capacity entries key value since) :
    (find entries key).map Entry.value = if since.card < capacity then some value else none := by
  rcases h.kept_or_gone with ⟨older, e, newer, rfl, rfl, rfl, rfl⟩ | ⟨hgone, hcard⟩
  · have hkeys := List.nodup_append.mp (List.map_append ▸ h.bounded.nodup)
    have hfirst : ∀ e' ∈ older, e'.key ≠ e.key := fun e' he' =>
      hkeys.2.2 e'.key (List.mem_map_of_mem he') e.key (by simp)
    have hcard : (newer.map Entry.key).toFinset.card < capacity := by
      have hle : (newer.map Entry.key).toFinset.card ≤ newer.length := by
        simpa using List.toFinset_card_le (newer.map Entry.key)
      have hlength := h.bounded.length_le
      simp only [List.length_append, List.length_cons] at hlength
      omega
    rw [find_append hfirst, if_pos hcard, Option.map_some]
  · rw [find_eq_none hgone, if_neg (Nat.not_lt.mpr hcard), Option.map_none]

end Trails

theorem exists_of_find {entries : List (Entry κ β)} {key : κ} {e : Entry κ β} (h : find entries key = some e) :
    ∃ l₁ l₂, entries = l₁ ++ e :: l₂ ∧ e.key = key ∧ ∀ e' ∈ l₁, e'.key ≠ e.key := by
  obtain ⟨hkey, l₁, l₂, heq, hfirst⟩ := List.find?_eq_some_iff_append.mp h
  obtain rfl : e.key = key := by simpa using hkey
  exact ⟨l₁, l₂, heq, rfl, fun e' he' => by simpa using hfirst e' he'⟩

/-- Each operation does one of these. -/
theorem moves_step (capacity : ℕ) (s : State κ β) (op : Op κ β) :
    Moves capacity s.entries op (step capacity s op).2 (step capacity s op).1.entries := by
  cases op with
  | fetch key reader =>
      cases hfind : find s.entries key with
      | none =>
          simp only [step, hfind]
          exact .same rfl
      | some e =>
          obtain ⟨l₁, l₂, heq, rfl, hfirst⟩ := exists_of_find hfind
          have htouch : touch s.entries e.key = l₁ ++ l₂ ++ [{ e with locks := e.locks + 1 }] := by
            rw [heq, touch_append hfirst]
          simp only [step, hfind, htouch]
          exact .promote reader heq rfl rfl
  | insert key value =>
      cases hinsert : insert capacity s.entries key value with
      | none =>
          simp only [step, hinsert]
          exact .same rfl
      | some entries =>
          simp only [step, hinsert]
          rcases insert_eq_some hinsert with ⟨hlt, rfl⟩ | ⟨low, rest, heq, hfull, rfl⟩
          · exact .append ⟨key, value, 0⟩ hlt
          · exact .replace ⟨key, value, 0⟩ heq hfull
  | finish reader =>
      cases huse : s.inUse reader with
      | none =>
          simp only [step, huse]
          exact .same rfl
      | some key =>
          simp only [step, huse]
          exact .keep _ rfl (fun e => by split <;> rfl) fun e => by split <;> rfl

theorem step_fetch (capacity : ℕ) (s : State κ β) (key : κ) (reader : ℕ) :
    (step capacity s (.fetch key reader)).2 = .fetched ((find s.entries key).map Entry.value) := by
  cases h : find s.entries key <;> simp [step, h]

theorem Trails.step {capacity : ℕ} {s : State κ β} {op : Op κ β} {key : κ} {value : β} {since : Finset κ}
    (h : Trails capacity s.entries key value since) (hfresh : Fresh s.entries op)
    (hother : key ∉ keysOf (touched op (step capacity s op).2)) :
    Trails capacity (Lru.step capacity s op).1.entries key value (since ∪ keysOf (touched op (Lru.step capacity s op).2)) :=
  h.moves (moves_step capacity s op) hfresh hother

end Lru
