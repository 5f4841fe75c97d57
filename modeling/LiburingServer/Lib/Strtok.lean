import Mathlib.Data.List.TakeWhile

/-! Destructive tokenizing of terminated memory, call by call: the memory from a saved pointer on is a list, and a
scan that meets no terminator runs off its end. -/

namespace Strtok

variable {α ε β : Type*} {p : α → Bool} {stop : α}

/-! ### Tokens of a text -/

/-- The nonempty pieces between delimiters. -/
def tokens (delim : α → Bool) (text : List α) : List (List α) := (text.splitOnP delim).filter (· ≠ [])

@[simp] theorem tokens_nil : tokens p [] = [] := by simp [tokens]

theorem tokens_cons_of_delim {c : α} (h : p c = true) (text : List α) :
    tokens p (c :: text) = tokens p text := by
  simp [tokens, List.splitOnP_cons_eq_if_modifyHead, h]

theorem tokens_dropWhile (text : List α) : tokens p (text.dropWhile p) = tokens p text := by
  induction text with
  | nil => rfl
  | cons c text ih =>
      by_cases h : p c
      · rw [List.dropWhile_cons_of_pos h, ih, tokens_cons_of_delim h]
      · rw [List.dropWhile_cons_of_neg h]

/-- Where skipping delimiters ends, a token begins. -/
theorem not_delim_of_dropWhile {c : α} {text rest : List α} (h : text.dropWhile p = c :: rest) : ¬p c := by
  have hhead := List.head_dropWhile_not p (l := text) (by simp [h])
  simpa [h] using hhead

/-- A text that begins with a token is this token and the tokens of the rest. -/
theorem tokens_cons {c : α} (h : ¬p c) (text : List α) : tokens p (c :: text) =
    (c :: text.takeWhile fun b => !p b) :: tokens p (text.dropWhile fun b => !p b) := by
  have htoken : ∀ b ∈ c :: text.takeWhile (fun b => !p b), p b = false := by
    intro b hb
    rcases List.mem_cons.mp hb with rfl | hb
    · simpa using h
    · simpa using List.mem_takeWhile_imp hb
  have hsplit := List.takeWhile_append_dropWhile (p := fun b => !p b) (l := text)
  cases hrest : text.dropWhile fun b => !p b with
  | nil =>
      rw [hrest, List.append_nil] at hsplit
      rw [hsplit] at htoken ⊢
      rw [tokens, List.splitOnP_eq_singleton htoken]
      simp
  | cons e rest =>
      have he : p e = true := by simpa using not_delim_of_dropWhile (p := fun b => !p b) hrest
      have hcut : c :: text = (c :: text.takeWhile fun b => !p b) ++ e :: rest := by
        rw [List.cons_append, ← hrest, hsplit]
      rw [tokens_cons_of_delim he, hcut, tokens, List.splitOnP_append_cons_of_forall_mem htoken e he]
      simp [tokens]

/-- A piece without delimiters is a token, unless it is empty. -/
theorem tokens_append_cons {piece : List α} (h : ∀ b ∈ piece, p b = false) {e : α} (he : p e = true) (text : List α) :
    tokens p (piece ++ e :: text) = [piece].filter (· ≠ []) ++ tokens p text := by
  rw [tokens, List.splitOnP_append_cons_of_forall_mem h e he, ← List.singleton_append, List.filter_append, tokens]

theorem tokens_of_forall {piece : List α} (h : ∀ b ∈ piece, p b = false) :
    tokens p piece = [piece].filter (· ≠ []) := by
  rw [tokens, List.splitOnP_eq_singleton h]

theorem tokens_eq_nil_iff (text : List α) : tokens p text = [] ↔ ∀ b ∈ text, p b := by
  rw [← tokens_dropWhile, ← List.dropWhile_eq_nil_iff]
  cases htext : text.dropWhile p with
  | nil => simp
  | cons c rest => simp [tokens_cons (not_delim_of_dropWhile htext)]

theorem mem_of_mem_splitOnP {text piece : List α} (h : piece ∈ text.splitOnP p) {b : α} (hb : b ∈ piece) :
    b ∈ text := by
  induction text generalizing piece with
  | nil =>
      rw [List.splitOnP_nil, List.mem_singleton] at h
      rwa [h] at hb
  | cons c text ih =>
      rw [List.splitOnP_cons_eq_if_modifyHead] at h
      obtain ⟨first, rest, hsplit⟩ := List.exists_cons_of_ne_nil (List.splitOnP_ne_nil p text)
      rw [hsplit] at h ih
      split at h
      · rcases List.mem_cons.mp h with rfl | hpiece
        · cases hb
        · exact List.mem_cons_of_mem _ (ih hpiece hb)
      · rw [List.modifyHead_cons] at h
        rcases List.mem_cons.mp h with rfl | hpiece
        · rcases List.mem_cons.mp hb with rfl | hb
          · exact List.mem_cons_self ..
          · exact List.mem_cons_of_mem _ (ih (List.mem_cons_self ..) hb)
        · exact List.mem_cons_of_mem _ (ih (List.mem_cons_of_mem _ hpiece) hb)

theorem mem_of_mem_tokens {text token : List α} (h : token ∈ tokens p text) {b : α} (hb : b ∈ token) : b ∈ text :=
  mem_of_mem_splitOnP (List.mem_filter.mp h).1 hb

theorem length_dropWhile_le (p : α → Bool) (l : List α) : (l.dropWhile p).length ≤ l.length :=
  (List.dropWhile_suffix p).length_le

theorem dropWhile_append_stop (hstop : p stop = false) (text after : List α) :
    (text ++ stop :: after).dropWhile p = text.dropWhile p ++ stop :: after := by
  induction text with
  | nil => simp [hstop]
  | cons c text ih =>
      by_cases h : p c
      · simp [h, ih]
      · simp [h]

/-! ### Calls -/

variable [DecidableEq α]

inductive Result (α : Type*) where
  | ranOff
  | finished
  | token (token saved : List α)

/-- A call on the memory from the saved pointer on. It skips delimiters and looks for the end of the token; the
pointer is saved behind the delimiter there, or at the terminator. -/
def next (delim : α → Bool) (stop : α) (memory : List α) : Result α :=
  match memory.dropWhile delim with
  | [] => .ranOff
  | c :: rest =>
      if c = stop then .finished
      else
        match rest.dropWhile fun b => !delim b && b ≠ stop with
        | [] => .ranOff
        | e :: after =>
            .token (c :: rest.takeWhile fun b => !delim b && b ≠ stop) (if e = stop then e :: after else after)

/-- A call on memory that begins with a token, which a delimiter or the terminator ends. -/
theorem next_append {token : List α} (h : ∀ b ∈ token, p b = false ∧ b ≠ stop) (hne : token ≠ []) {e : α}
    (he : p e = true ∨ e = stop) (after : List α) : next p stop (token ++ e :: after) =
      .token token (if e = stop then e :: after else after) := by
  obtain ⟨c, rest, rfl⟩ := List.exists_cons_of_ne_nil hne
  obtain ⟨⟨hc, hstop⟩, hrest⟩ := List.forall_mem_cons.mp h
  have hgoes : ∀ b ∈ rest, (!p b && decide (b ≠ stop)) = true := by
    intro b hb
    simp [hrest b hb]
  have hends : ¬(!p e && decide (e ≠ stop)) = true := by
    rcases he with he | rfl
    · simp [he]
    · simp
  have hskip : (c :: rest ++ e :: after).dropWhile p = c :: (rest ++ e :: after) := by
    rw [List.cons_append, List.dropWhile_cons_of_neg (by simp [hc])]
  have hdrop : ((rest ++ e :: after).dropWhile fun b => !p b && b ≠ stop) = e :: after := by
    rw [List.dropWhile_append_of_pos hgoes, List.dropWhile_cons, if_neg hends]
  have htake : ((rest ++ e :: after).takeWhile fun b => !p b && b ≠ stop) = rest := by
    rw [List.takeWhile_append_of_pos hgoes, List.takeWhile_cons, if_neg hends, List.append_nil]
  simp only [next, hskip, if_neg hstop, hdrop, htake]

/-- A token that nothing ends. -/
theorem next_of_forall {memory : List α} (h : ∀ b ∈ memory, p b = false ∧ b ≠ stop) :
    next p stop memory = .ranOff := by
  cases memory with
  | nil => simp [next]
  | cons c rest =>
      obtain ⟨⟨hc, hstop⟩, hrest⟩ := List.forall_mem_cons.mp h
      have hend : (rest.dropWhile fun b => !p b && b ≠ stop) = [] := by
        apply List.dropWhile_eq_nil_iff.mpr
        intro b hb
        simp [hrest b hb]
      simp only [next, List.dropWhile_cons_of_neg (by simp [hc] : ¬p c = true), if_neg hstop, hend]

/-- Every token takes the saved pointer on. -/
theorem length_saved_lt {memory token saved : List α} (h : next p stop memory = .token token saved) :
    saved.length < memory.length := by
  unfold next at h
  split at h
  · cases h
  · rename_i c rest hskip
    have hle := length_dropWhile_le p memory
    rw [hskip, List.length_cons] at hle
    split at h
    · cases h
    · split at h
      · cases h
      · rename_i e after hend
        have hle' := length_dropWhile_le (fun b => !p b && b ≠ stop) rest
        rw [hend, List.length_cons] at hle'
        obtain ⟨-, rfl⟩ := by simpa only [Result.token.injEq] using h
        split
        · rw [List.length_cons]
          omega
        · omega

/-- The loop over all tokens; `off` is the fault of a scan that runs off the memory. -/
def loop (delim : α → Bool) (stop : α) (off : ε) (body : β → List α → Except ε β) (memory : List α) (b : β) :
    Except ε β :=
  match _h : next delim stop memory with
  | .ranOff => .error off
  | .finished => .ok b
  | .token token saved =>
      match body b token with
      | .error e => .error e
      | .ok b => loop delim stop off body saved b
termination_by memory.length
decreasing_by exact length_saved_lt _h

section Loop

variable {off : ε} {body : β → List α → Except ε β} {memory token saved : List α} {b : β}

theorem loop_of_ranOff (h : next p stop memory = .ranOff) :
    loop p stop off body memory b = .error off := by
  rw [loop]
  split
  · rfl
  · rename_i hnext
    cases h.symm.trans hnext
  · rename_i hnext
    cases h.symm.trans hnext

theorem loop_of_finished (h : next p stop memory = .finished) :
    loop p stop off body memory b = .ok b := by
  rw [loop]
  split
  · rename_i hnext
    cases h.symm.trans hnext
  · rfl
  · rename_i hnext
    cases h.symm.trans hnext

theorem loop_of_token (h : next p stop memory = .token token saved) :
    loop p stop off body memory b =
      (body b token).bind fun b => loop p stop off body saved b := by
  rw [loop]
  split
  · rename_i hnext
    cases h.symm.trans hnext
  · rename_i hnext
    cases h.symm.trans hnext
  · rename_i hnext
    obtain ⟨rfl, rfl⟩ := by simpa only [Result.token.injEq] using h.symm.trans hnext
    cases body b token <;> rfl

end Loop

/-! ### Memory with a terminator -/

/-- The scan for the end of a token stops at a delimiter or at the terminator. -/
theorem scan_append_stop (p : α → Bool) {text : List α} (hstop : stop ∉ text) (after : List α) :
    ((text ++ stop :: after).takeWhile fun b => !p b && b ≠ stop) = text.takeWhile (fun b => !p b) ∧
      ((text ++ stop :: after).dropWhile fun b => !p b && b ≠ stop) =
        text.dropWhile (fun b => !p b) ++ stop :: after := by
  induction text with
  | nil => simp
  | cons c text ih =>
      obtain ⟨hne, hrest⟩ := not_or.mp (mt List.mem_cons.mpr hstop)
      obtain ⟨htake, hdrop⟩ := ih hrest
      by_cases h : p c
      · simp [h]
      · have htoken : (!p c) = true := by simp [h]
        have hgoes : decide (c ≠ stop) = true := decide_eq_true (Ne.symm hne)
        simp only [List.cons_append, List.takeWhile_cons, List.dropWhile_cons, htoken, hgoes, Bool.and_self, if_true,
          htake, hdrop, and_self]

variable {text after : List α} {t : List α} {ts : List (List α)}

theorem next_of_tokens_eq_nil (hdelim : p stop = false) (h : tokens p text = []) :
    next p stop (text ++ stop :: after) = .finished := by
  have hskip := dropWhile_append_stop hdelim text after
  rw [← tokens_dropWhile] at h
  cases htext : text.dropWhile p with
  | nil =>
      rw [htext] at hskip
      simp [next, hskip]
  | cons c text' =>
      rw [htext, tokens_cons (not_delim_of_dropWhile htext)] at h
      cases h

/-- A call on a text with tokens returns the first one and leaves a text with the others. -/
theorem next_of_tokens_eq_cons (after : List α) (hdelim : p stop = false) (hstop : stop ∉ text)
    (h : tokens p text = t :: ts) : ∃ text', next p stop (text ++ stop :: after) =
      .token t (text' ++ stop :: after) ∧ stop ∉ text' ∧ tokens p text' = ts := by
  have hskip := dropWhile_append_stop hdelim text after
  have hstop' : stop ∉ text.dropWhile p := fun hmem => hstop ((List.dropWhile_suffix _).subset hmem)
  rw [← tokens_dropWhile] at h
  cases htext : text.dropWhile p with
  | nil => simp [htext] at h
  | cons c rest =>
      rw [htext, tokens_cons (not_delim_of_dropWhile htext), List.cons.injEq] at h
      obtain ⟨rfl, rfl⟩ := h
      rw [htext] at hskip hstop'
      obtain ⟨hne, hrest⟩ := not_or.mp (mt List.mem_cons.mpr hstop')
      obtain ⟨htake, hdrop⟩ := scan_append_stop p hrest after
      have hnext : next p stop (text ++ stop :: after) = match
          rest.dropWhile (fun b => !p b) ++ stop :: after with
        | [] => .ranOff
        | e :: after' => .token (c :: rest.takeWhile fun b => !p b) (if e = stop then e :: after' else after') := by
        simp only [next, hskip, List.cons_append, if_neg (Ne.symm hne), htake, hdrop]
      have hsub : ∀ b ∈ rest.dropWhile (fun b => !p b), b ∈ rest := fun b hb =>
        (List.dropWhile_suffix _).subset hb
      rw [hnext]
      cases hend : rest.dropWhile fun b => !p b with
      | nil => exact ⟨[], by simp, List.not_mem_nil, rfl⟩
      | cons e rest' =>
          have he : p e = true := by simpa using not_delim_of_dropWhile (p := fun b => !p b) hend
          rw [hend] at hsub
          have hes : e ≠ stop := by
            rintro rfl
            simp [he] at hdelim
          refine ⟨rest', by simp [hes], fun hmem => hrest (hsub stop (List.mem_cons_of_mem _ hmem)), ?_⟩
          exact (tokens_cons_of_delim he rest').symm

/-- The loop over a terminated text goes through its tokens. -/
theorem loop_of_terminated {off : ε} {body : β → List α → Except ε β} (hdelim : p stop = false)
    (hstop : stop ∉ text) (b : β) :
    loop p stop off body (text ++ stop :: after) b = (tokens p text).foldlM body b := by
  induction htokens : tokens p text generalizing text b with
  | nil =>
      rw [loop_of_finished (next_of_tokens_eq_nil hdelim htokens)]
      rfl
  | cons t ts ih =>
      obtain ⟨text', hnext, hstop', hrest⟩ := next_of_tokens_eq_cons after hdelim hstop htokens
      rw [loop_of_token hnext, List.foldlM_cons]
      exact congrArg _ (funext fun b' => ih hstop' b' hrest)

/-! ### Memory without a terminator -/

theorem next_of_unterminated (p : α → Bool) {memory : List α} (hstop : stop ∉ memory) :
    next p stop memory = .ranOff ∨
      ∃ token saved, next p stop memory = .token token saved ∧ stop ∉ saved := by
  unfold next
  cases hskip : memory.dropWhile p with
  | nil => exact Or.inl rfl
  | cons c rest =>
      have hsub : ∀ b ∈ c :: rest, b ∈ memory := fun b hb =>
        (List.dropWhile_suffix p).subset (by rwa [hskip])
      have hne : c ≠ stop := by
        rintro rfl
        exact hstop (hsub c (List.mem_cons_self ..))
      simp only [if_neg hne]
      cases hend : rest.dropWhile fun b => !p b && b ≠ stop with
      | nil => exact Or.inl rfl
      | cons e after =>
          have hafter : ∀ b ∈ e :: after, b ∈ memory := fun b hb =>
            hsub b (List.mem_cons_of_mem _ ((List.dropWhile_suffix _).subset (by rwa [hend])))
          refine Or.inr ⟨_, _, rfl, fun hmem => hstop ?_⟩
          split at hmem
          · exact hafter stop hmem
          · exact hafter stop (List.mem_cons_of_mem _ hmem)

/-- Without a terminator the loop runs off the memory, if nothing else fails before. -/
theorem loop_of_unterminated (off : ε) (body : β → List α → Except ε β) {memory : List α} (hstop : stop ∉ memory)
    (b : β) : ∃ e, loop p stop off body memory b = .error e := by
  induction hlength : memory.length using Nat.strong_induction_on generalizing memory b with
  | _ n ih =>
      rcases next_of_unterminated p hstop with hoff | ⟨token, saved, htoken, hstop'⟩
      · exact ⟨off, loop_of_ranOff hoff⟩
      · have hless := length_saved_lt htoken
        rw [loop_of_token htoken]
        cases hbody : body b token with
        | error e => exact ⟨e, rfl⟩
        | ok b' => exact ih saved.length (hlength ▸ hless) hstop' b' rfl

end Strtok
