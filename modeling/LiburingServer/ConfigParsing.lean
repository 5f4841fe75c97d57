import LiburingServer.ConfigLoading
import LiburingServer.HttpParsing
import LiburingServer.Lib.Compaction

/-! How `start_server` reads the settings in the config file. A line is copied without a terminator and gets one only
when spaces are removed from it: a setting without a space is scanned beyond its end, and a line that has only spaces
has no key. -/

namespace LiburingServer

/-! ### The parser -/

/-- The spaces are removed from a line, and a zero byte is put behind what is left if there were any. -/
def removeSpaces (line : Bytes) : Bytes :=
  let r := Compaction.compact (· = 32) 0 line
  if r.2 ≠ 0 then r.1.set (line.length - r.2) 0 else r.1

/-- A line of the config file; one that begins with `'#'` is ignored. -/
def configLine (map : Bytes → Option Bytes) (line : Bytes) : Except ParseFault (Bytes → Option Bytes) :=
  let line := removeSpaces line
  match line.head? with
  | none => .error .outOfRange
  | some c =>
      if c = 35 then .ok map
      else
        match Strtok.next (· ∈ ascii ":") 0 line with
        | .ranOff => .error .outOfRange
        | .finished => .error .nullToken
        | .token key saved =>
            match Strtok.next (· ∈ ascii ":") 0 saved with
            | .ranOff => .error .outOfRange
            | .finished => .error .nullToken
            | .token value _ => .ok (Function.update map key (some value))

/-- The part of `start_server` that fills `config_data_map` from the buffer: the buffer is cut into lines first. -/
def parseConfig (config : Bytes) : Except ParseFault (Bytes → Option Bytes) :=
  match Strtok.loop (· ∈ ascii "\n") 0 .outOfRange (fun lines line => .ok (lines ++ [line])) config [] with
  | .error e => .error e
  | .ok lines => lines.foldlM configLine fun _ => none

/-! ### Config files -/

/-- A key or a value: it has neither colons nor ends of lines nor zero bytes, and not only spaces. -/
structure IsField (field : Bytes) : Prop where
  bytes : ∀ b ∈ field, b ≠ 58 ∧ b ≠ 10 ∧ b ≠ 0
  some : ∃ b ∈ field, b ≠ 32

instance : DecidablePred IsField := fun field =>
  decidable_of_iff ((field.all fun b => b ≠ 58 ∧ b ≠ 10 ∧ b ≠ 0) = true ∧ (field.any fun b => b ≠ 32) = true)
    ⟨fun h => ⟨by simpa using h.1, by simpa using h.2⟩, fun h => ⟨by simpa using h.bytes, by simpa using h.some⟩⟩

/-- A field without its spaces. -/
def trimmed (field : Bytes) : Bytes := Compaction.kept (· = 32) field

/-- The lines of a config file: only spaces, or none; a comment, with spaces before it or not; a key and a value. -/
inductive ConfigLine where
  | blank (spaces : ℕ)
  | comment (spaces : ℕ) (text : Bytes) (h : 10 ∉ text)
  | setting (key value : Bytes) (hkey : IsField key) (hvalue : IsField value) (h : (trimmed key).head? ≠ some 35)

namespace ConfigLine

def bytes : ConfigLine → Bytes
  | .blank spaces => List.replicate spaces 32
  | .comment spaces text _ => List.replicate spaces 32 ++ 35 :: text
  | .setting key value _ _ _ => key ++ 58 :: value

/-- The key and the value of a line that has them. -/
def entry : ConfigLine → Option (Bytes × Bytes)
  | .setting key value _ _ _ => some (trimmed key, trimmed value)
  | _ => none

/-- A setting has a space somewhere, and any other line without a comment has none. -/
def Spaced : ConfigLine → Prop
  | .blank spaces => spaces = 0
  | .comment _ _ _ => True
  | .setting key value _ _ _ => 32 ∈ key ++ value

instance : DecidablePred Spaced
  | .blank spaces => inferInstanceAs (Decidable (spaces = 0))
  | .comment _ _ _ => isTrue trivial
  | .setting key value _ _ _ => inferInstanceAs (Decidable (32 ∈ key ++ value))

end ConfigLine

/-- The text of a config file. -/
def configText (lines : List ConfigLine) : Bytes := [10].intercalate (lines.map ConfigLine.bytes)

/-- Every key has the value of its last occurrence. -/
def settings (lines : List ConfigLine) (key : Bytes) : Option Bytes :=
  (lines.filterMap ConfigLine.entry).reverse.lookup key

theorem newline_notMem_cString {text : Bytes} (h : 10 ∉ text) : 10 ∉ cString text :=
  fun hmem => h ((List.takeWhile_prefix _).subset hmem)

/-- The lines as far as a string goes: it ends with the first zero byte, which only a comment can have. -/
def visible : List ConfigLine → List ConfigLine
  | [] => []
  | .comment spaces text h :: lines =>
      if 0 ∈ text then [.comment spaces (cString text) (newline_notMem_cString h)]
      else .comment spaces text h :: visible lines
  | line :: lines => line :: visible lines

/-! ### Lines -/

theorem removeSpaces_of_mem {line : Bytes} (h : 32 ∈ line) :
    ∃ after, removeSpaces line = trimmed line ++ 0 :: after := by
  have hcount : line.countP (· = 32) ≠ 0 := by
    have hpos : 0 < line.countP (· = 32) := List.countP_pos_iff.mpr ⟨32, h, by simp⟩
    omega
  have hlength := Compaction.length_kept_add_countP (· = 32) line
  have hplace : line.length - line.countP (· = 32) = (trimmed line).length := by
    unfold trimmed
    omega
  have hrest : (trimmed line).length < line.length := by
    unfold trimmed
    omega
  refine ⟨line.drop ((trimmed line).length + 1), ?_⟩
  unfold removeSpaces
  rw [Compaction.compact_eq]
  dsimp only
  rw [if_pos hcount, hplace, ← trimmed, List.set_append_right _ _ le_rfl, Nat.sub_self,
    List.drop_eq_getElem_cons hrest, List.set_cons_zero]

theorem trimmed_of_notMem {line : Bytes} (h : 32 ∉ line) : trimmed line = line := by
  apply List.filter_eq_self.mpr
  intro b hb
  have hne : b ≠ 32 := fun heq => h (heq ▸ hb)
  simpa using hne

theorem removeSpaces_of_notMem {line : Bytes} (h : 32 ∉ line) : removeSpaces line = line := by
  have hcount : line.countP (· = 32) = 0 := by
    apply List.countP_eq_zero.mpr
    intro b hb
    have hne : b ≠ 32 := fun heq => h (heq ▸ hb)
    simpa using hne
  unfold removeSpaces
  rw [Compaction.compact_eq]
  dsimp only
  rw [if_neg (not_not.mpr hcount), ← trimmed, trimmed_of_notMem h, List.drop_length, List.append_nil]

/-- What is left of a line stands at its beginning. -/
theorem exists_removeSpaces (line : Bytes) : ∃ after, removeSpaces line = trimmed line ++ after := by
  by_cases h : 32 ∈ line
  · obtain ⟨after, hafter⟩ := removeSpaces_of_mem h
    exact ⟨0 :: after, hafter⟩
  · exact ⟨[], by rw [removeSpaces_of_notMem h, trimmed_of_notMem h, List.append_nil]⟩

theorem trimmed_append (line line' : Bytes) : trimmed (line ++ line') = trimmed line ++ trimmed line' :=
  List.filter_append ..

theorem trimmed_cons {b : UInt8} (h : b ≠ 32) (line : Bytes) : trimmed (b :: line) = b :: trimmed line := by
  simp [trimmed, Compaction.kept, h]

theorem trimmed_replicate (spaces : ℕ) : trimmed (List.replicate spaces 32) = [] := by
  simp [trimmed, Compaction.kept]

theorem configLine_comment (map : Bytes → Option Bytes) (spaces : ℕ) (text : Bytes) :
    configLine map (List.replicate spaces 32 ++ 35 :: text) = .ok map := by
  obtain ⟨after, hafter⟩ := exists_removeSpaces (List.replicate spaces 32 ++ 35 :: text)
  rw [trimmed_append, trimmed_replicate, trimmed_cons (by decide)] at hafter
  simp [configLine, hafter]

/-- A line that has only spaces begins with the terminator when they are removed. -/
theorem configLine_spaces (map : Bytes → Option Bytes) {spaces : ℕ} (h : spaces ≠ 0) :
    configLine map (List.replicate spaces 32) = .error .nullToken := by
  have hspace : 32 ∈ List.replicate spaces (32 : UInt8) := List.mem_replicate.mpr ⟨h, rfl⟩
  obtain ⟨after, hafter⟩ := removeSpaces_of_mem hspace
  rw [trimmed_replicate, List.nil_append] at hafter
  have hnone : Strtok.next (· ∈ ascii ":") 0 (0 :: after) = .finished := by
    have hdelim : (fun b : UInt8 => decide (b ∈ ascii ":")) 0 = false := by decide
    exact Strtok.next_of_tokens_eq_nil (p := (· ∈ ascii ":")) hdelim Strtok.tokens_nil
  unfold configLine
  dsimp only
  rw [hafter]
  simp only [List.head?_cons, hnone]
  rfl

theorem IsField.trimmed_ne_nil {field : Bytes} (h : IsField field) : trimmed field ≠ [] := by
  obtain ⟨b, hb, hne⟩ := h.some
  apply List.ne_nil_of_mem
  exact List.mem_filter.mpr ⟨hb, by simpa using hne⟩

/-- Neither a colon nor a zero byte ends a field inside. -/
theorem IsField.not_delimiter {field : Bytes} (h : IsField field) :
    ∀ b ∈ trimmed field, (fun b : UInt8 => decide (b ∈ ascii ":")) b = false ∧ b ≠ 0 := by
  intro b hb
  obtain ⟨hcolon, -, hzero⟩ := h.bytes b (List.mem_of_mem_filter hb)
  have hascii : ascii ":" = [58] := by decide
  simp [hascii, hcolon, hzero]

/-- A setting is read if it has a space, and scanned beyond its end if it has none. -/
theorem configLine_setting (map : Bytes → Option Bytes) {key value : Bytes} (hkey : IsField key)
    (hvalue : IsField value) (h : (trimmed key).head? ≠ some 35) : configLine map (key ++ 58 :: value) =
      if 32 ∈ key ++ value then .ok (Function.update map (trimmed key) (some (trimmed value)))
      else .error .outOfRange := by
  obtain ⟨after, hafter⟩ := exists_removeSpaces (key ++ 58 :: value)
  obtain ⟨c, rest, hc⟩ := List.exists_cons_of_ne_nil hkey.trimmed_ne_nil
  have hline : trimmed (key ++ 58 :: value) = trimmed key ++ 58 :: trimmed value := by
    rw [trimmed_append, trimmed_cons (by decide)]
  have hhead : (removeSpaces (key ++ 58 :: value)).head? = some c := by rw [hafter, hline, hc]; rfl
  have hcomment : c ≠ 35 := fun heq => h (by rw [hc, heq]; rfl)
  have hcolon : (fun b : UInt8 => decide (b ∈ ascii ":")) 58 = true := by decide
  have hfirst := fun after => Strtok.next_append (p := (· ∈ ascii ":")) hkey.not_delimiter hkey.trimmed_ne_nil
    (Or.inl hcolon) after
  have hmem : 32 ∈ key ++ 58 :: value ↔ 32 ∈ key ++ value := by simp
  unfold configLine
  dsimp only
  rw [hhead]
  simp only [if_neg hcomment]
  split_ifs with hspace
  · obtain ⟨after', hafter'⟩ := removeSpaces_of_mem (hmem.mpr hspace)
    have hsecond := Strtok.next_append (p := (· ∈ ascii ":")) hvalue.not_delimiter hvalue.trimmed_ne_nil
      (Or.inr rfl) after'
    rw [hafter', hline, List.append_assoc, List.cons_append]
    simp only [hfirst, if_neg (by decide : (58 : UInt8) ≠ 0), hsecond]
  · have hnone := mt hmem.mp hspace
    have hsecond := Strtok.next_of_forall (p := (· ∈ ascii ":")) hvalue.not_delimiter
    rw [removeSpaces_of_notMem hnone, ← trimmed_of_notMem hnone, hline]
    simp only [hfirst, if_neg (by decide : (58 : UInt8) ≠ 0), hsecond]

/-! ### The whole file -/

variable {lines : List ConfigLine} {map : Bytes → Option Bytes}

namespace ConfigLine

/-- The map when the line has been read. -/
def apply (map : Bytes → Option Bytes) (line : ConfigLine) : Bytes → Option Bytes :=
  match line.entry with
  | none => map
  | some (key, value) => Function.update map key (some value)

theorem newline_notMem_bytes (line : ConfigLine) : 10 ∉ line.bytes := by
  cases line with
  | blank spaces => simp [bytes]
  | comment spaces text h => simp [bytes, h]
  | setting key value hkey hvalue h =>
      have hkey' : 10 ∉ key := fun hmem => (hkey.bytes 10 hmem).2.1 rfl
      have hvalue' : 10 ∉ value := fun hmem => (hvalue.bytes 10 hmem).2.1 rfl
      simp [bytes, hkey', hvalue']

theorem configLine_of_spaced {line : ConfigLine} (h : line.Spaced) (hbytes : line.bytes ≠ []) :
    configLine map line.bytes = .ok (line.apply map) := by
  cases line with
  | blank spaces =>
      obtain rfl : spaces = 0 := h
      exact absurd rfl hbytes
  | comment spaces text _ => exact configLine_comment map spaces text
  | setting key value hkey hvalue hhead =>
      have hspace : 32 ∈ key ++ value := h
      rw [bytes, configLine_setting map hkey hvalue hhead, if_pos hspace]
      rfl

theorem configLine_of_not_spaced {line : ConfigLine} (h : ¬line.Spaced) :
    line.bytes ≠ [] ∧ ∃ e, configLine map line.bytes = .error e := by
  cases line with
  | blank spaces =>
      have hspaces : spaces ≠ 0 := h
      exact ⟨by simpa [bytes] using hspaces, _, configLine_spaces map hspaces⟩
  | comment spaces text _ => exact absurd trivial h
  | setting key value hkey hvalue hhead =>
      have hspace : 32 ∉ key ++ value := h
      refine ⟨by simp [bytes], .outOfRange, ?_⟩
      rw [bytes, configLine_setting map hkey hvalue hhead, if_neg hspace]

end ConfigLine

/-- All lines are read exactly if each of them is. -/
theorem foldlM_configLine_eq_ok_iff {map' : Bytes → Option Bytes} :
    ((lines.map ConfigLine.bytes).filter (· ≠ [])).foldlM configLine map = .ok map' ↔
      (∀ line ∈ lines, line.Spaced) ∧ map' = lines.foldl ConfigLine.apply map := by
  induction lines generalizing map with
  | nil =>
      simp only [List.map_nil, List.filter_nil, List.foldlM_nil, List.foldl_nil, List.not_mem_nil, false_implies,
        implies_true, true_and]
      exact ⟨fun h => (Except.ok.inj h).symm, fun h => congrArg Except.ok h.symm⟩
  | cons line lines ih =>
      rw [List.map_cons, List.forall_mem_cons, List.foldl_cons]
      by_cases hspaced : line.Spaced
      · by_cases hbytes : line.bytes = []
        · -- an empty line is skipped
          have hsame : line.apply map = map := by
            cases line with
            | blank spaces => rfl
            | comment spaces text _ => simp [ConfigLine.bytes] at hbytes
            | setting key value _ _ _ => simp [ConfigLine.bytes] at hbytes
          rw [List.filter_cons_of_neg (by simp [hbytes]), ih, hsame, and_iff_right hspaced]
        · rw [List.filter_cons_of_pos (by simpa using hbytes), List.foldlM_cons,
            ConfigLine.configLine_of_spaced hspaced hbytes, and_iff_right hspaced]
          exact ih
      · obtain ⟨hbytes, e, he⟩ : line.bytes ≠ [] ∧ ∃ e, configLine map line.bytes = .error e :=
          ConfigLine.configLine_of_not_spaced hspaced
        rw [List.filter_cons_of_pos (by simpa using hbytes), List.foldlM_cons, he]
        refine iff_of_false (fun heq => ?_) fun h => hspaced h.1.1
        cases (show (Except.error e : Except ParseFault (Bytes → Option Bytes)) = .ok map' from heq)

/-- Reading the lines one after the other leaves the last value of each key. -/
theorem foldl_apply (lines : List ConfigLine) (map : Bytes → Option Bytes) (key : Bytes) :
    lines.foldl ConfigLine.apply map key = (settings lines key).or (map key) := by
  induction lines generalizing map with
  | nil => simp [settings]
  | cons line lines ih =>
      rw [List.foldl_cons, ih]
      unfold settings ConfigLine.apply
      cases hentry : line.entry with
      | none => simp [hentry]
      | some entry =>
          obtain ⟨key', value⟩ := entry
          simp only [List.filterMap_cons_some hentry, List.reverse_cons, List.lookup_append, List.lookup_singleton,
            Option.or_assoc, Function.update_apply, beq_iff_eq]
          congr 1
          split_ifs <;> rfl

theorem configText_cons {line : ConfigLine} (h : lines ≠ []) :
    configText (line :: lines) = line.bytes ++ 10 :: configText lines := by
  obtain ⟨line', lines', rfl⟩ := List.exists_cons_of_ne_nil h
  simp [configText, List.intercalate_cons_cons]

theorem configText_singleton (line : ConfigLine) : configText [line] = line.bytes := by simp [configText]

/-- The lines of the text that are not empty. -/
theorem tokens_configText (lines : List ConfigLine) : Strtok.tokens (· ∈ ascii "\n") (configText lines) =
    (lines.map ConfigLine.bytes).filter (· ≠ []) := by
  have hascii : ascii "\n" = [10] := by decide
  have hline : ∀ line : ConfigLine, ∀ b ∈ line.bytes, decide (b ∈ ascii "\n") = false := by
    intro line b hb
    have hne : b ≠ 10 := fun heq => line.newline_notMem_bytes (heq ▸ hb)
    simp [hascii, hne]
  induction lines with
  | nil => simp [configText]
  | cons line lines ih =>
      by_cases hlines : lines = []
      · subst hlines
        rw [configText_singleton, Strtok.tokens_of_forall (hline line), List.map_cons, List.map_nil]
      · rw [configText_cons hlines, Strtok.tokens_append_cons (hline line) (by decide), ih, List.map_cons]
        exact (List.filter_append [line.bytes] _).symm

/-- Only a comment can have a zero byte, and then it is the last line that is visible. -/
theorem visible_cons (line : ConfigLine) (lines : List ConfigLine) :
    0 ∉ line.bytes ∧ visible (line :: lines) = line :: visible lines ∨
      0 ∈ line.bytes ∧ ∃ line', visible (line :: lines) = [line'] ∧ line'.bytes = cString line.bytes := by
  cases line with
  | blank spaces => exact Or.inl ⟨by simp [ConfigLine.bytes], rfl⟩
  | comment spaces text h =>
      by_cases hzero : 0 ∈ text
      · refine Or.inr ⟨by simp [ConfigLine.bytes, hzero], _, if_pos hzero, ?_⟩
        simp [ConfigLine.bytes, cString]
      · exact Or.inl ⟨by simp [ConfigLine.bytes, hzero], if_neg hzero⟩
  | setting key value hkey hvalue h =>
      have hkey' : 0 ∉ key := fun hmem => (hkey.bytes 0 hmem).2.2 rfl
      have hvalue' : 0 ∉ value := fun hmem => (hvalue.bytes 0 hmem).2.2 rfl
      exact Or.inl ⟨by simp [ConfigLine.bytes, hkey', hvalue'], rfl⟩

theorem visible_ne_nil (h : lines ≠ []) : visible lines ≠ [] := by
  obtain ⟨line, lines', rfl⟩ := List.exists_cons_of_ne_nil h
  rcases visible_cons line lines' with ⟨-, hvisible⟩ | ⟨-, line', hvisible, -⟩
  · simp [hvisible]
  · simp [hvisible]

theorem cString_append_of_notMem {text : Bytes} (h : 0 ∉ text) (more : Bytes) :
    cString (text ++ more) = text ++ cString more := by
  apply List.takeWhile_append_of_pos
  intro b hb
  have hne : b ≠ 0 := fun heq => h (heq ▸ hb)
  simpa using hne

theorem cString_append_of_mem {text : Bytes} (h : 0 ∈ text) (more : Bytes) : cString (text ++ more) = cString text := by
  obtain ⟨after, hafter⟩ := exists_after_of_mem h
  conv_lhs => rw [hafter]
  rw [List.append_assoc, cString_append_of_notMem (zero_notMem_cString text)]
  simp [cString]

/-- The string in the buffer is the text of the lines that are visible. -/
theorem cString_configText (lines : List ConfigLine) : cString (configText lines) = configText (visible lines) := by
  induction lines with
  | nil => rfl
  | cons line lines ih =>
      by_cases hlines : lines = []
      · subst hlines
        rw [configText_singleton]
        rcases visible_cons line [] with ⟨hzero, hvisible⟩ | ⟨hzero, line', hvisible, hbytes⟩
        · have hall := cString_append_of_notMem hzero []
          rw [List.append_nil] at hall
          rw [hvisible, visible, configText_singleton, hall]
          exact List.append_nil _
        · rw [hvisible, configText_singleton, hbytes]
      · rw [configText_cons hlines]
        rcases visible_cons line lines with ⟨hzero, hvisible⟩ | ⟨hzero, line', hvisible, hbytes⟩
        · rw [hvisible, configText_cons (visible_ne_nil hlines), ← ih, cString_append_of_notMem hzero]
          simp [cString]
        · rw [hvisible, configText_singleton, hbytes, cString_append_of_mem hzero]

/-- The lines are collected in their order. -/
theorem foldlM_concat (lines collected : List Bytes) :
    lines.foldlM (fun lines line => (.ok (lines ++ [line]) : Except ParseFault (List Bytes))) collected =
      .ok (collected ++ lines) := by
  induction lines generalizing collected with
  | nil => simp [pure, Except.pure]
  | cons line lines ih =>
      rw [List.foldlM_cons]
      refine (ih (collected ++ [line])).trans ?_
      simp

/-- The map is filled from the lines that are visible, if each of them is read. -/
theorem parseConfig_eq_ok_iff {map' : Bytes → Option Bytes} : parseConfig (configText lines ++ [0]) = .ok map' ↔
    (∀ line ∈ visible lines, line.Spaced) ∧ map' = settings (visible lines) := by
  have hstring : cString (configText lines ++ [0]) = configText (visible lines) := by
    rw [← cString_configText]
    exact cString_append (configText lines) 1
  have hterminated : 0 ∈ configText lines ++ [0] := List.mem_append_right _ (List.mem_singleton_self 0)
  obtain ⟨after, hafter⟩ := exists_after_of_mem hterminated
  have hzero := zero_notMem_cString (configText lines ++ [0])
  rw [hstring] at hafter hzero
  have hdelim : (fun b : UInt8 => decide (b ∈ ascii "\n")) 0 = false := by decide
  have hloop : Strtok.loop (· ∈ ascii "\n") 0 ParseFault.outOfRange (fun lines line => .ok (lines ++ [line]))
      (configText (visible lines) ++ 0 :: after) [] =
      (Strtok.tokens (· ∈ ascii "\n") (configText (visible lines))).foldlM
        (fun lines line => .ok (lines ++ [line])) [] :=
    Strtok.loop_of_terminated (p := (· ∈ ascii "\n")) hdelim hzero []
  rw [← hafter, foldlM_concat, tokens_configText, List.nil_append] at hloop
  have hmap : (visible lines).foldl ConfigLine.apply (fun _ => none) = settings (visible lines) := by
    funext key
    rw [foldl_apply, Option.or_none]
  unfold parseConfig
  rw [hloop]
  dsimp only
  rw [foldlM_configLine_eq_ok_iff, hmap]

/-- A text without zero bytes is visible as a whole. -/
theorem visible_eq_self (h : ∀ line ∈ lines, 0 ∉ line.bytes) : visible lines = lines := by
  induction lines with
  | nil => rfl
  | cons line lines ih =>
      obtain ⟨hline, hlines⟩ := List.forall_mem_cons.mp h
      rcases visible_cons line lines with ⟨-, hvisible⟩ | ⟨hzero, -⟩
      · rw [hvisible, ih hlines]
      · exact absurd hzero hline

/-- **The settings in the config file.** For every config file, reading it stays inside its lines, finds a key and a
value in each setting, and leaves the last value of each key in the map, exactly if every line that is visible has a
space somewhere when it is a setting and none when it is blank, and the lines behind a zero byte in a comment would
not change the map. In a text without zero bytes all lines are visible. -/
theorem config_parsed_iff (lines : List ConfigLine) :
    (parseConfig (configText lines ++ [0]) = .ok (settings lines) ↔
      (∀ line ∈ visible lines, line.Spaced) ∧ settings lines = settings (visible lines)) ∧
    ((∀ line ∈ lines, 0 ∉ line.bytes) →
      (parseConfig (configText lines ++ [0]) = .ok (settings lines) ↔ ∀ line ∈ lines, line.Spaced)) := by
  refine ⟨parseConfig_eq_ok_iff, fun hzero => ?_⟩
  rw [parseConfig_eq_ok_iff, visible_eq_self hzero]
  exact and_iff_left rfl

/-- A setting with a space and one without. -/
def spacedPort : ConfigLine :=
  .setting (ascii "PORT") (ascii " 80") (by decide) (by decide) (by decide)

def plainPort : ConfigLine :=
  .setting (ascii "PORT") (ascii "80") (by decide) (by decide) (by decide)

theorem config_parsed_iff_port :
    ∃ map, parseConfig (ascii "# ports\n\nPORT: 80\n" ++ [0]) = .ok map ∧ map (ascii "PORT") = some (ascii "80") := by
  have hparsed := (config_parsed_iff
    [.comment 0 (ascii " ports") (by decide), .blank 0, spacedPort, .blank 0]).2 (by decide)
  exact ⟨_, hparsed.mpr (by decide), by decide⟩

/-- The second field of a setting without a space is scanned beyond the line, and a line of spaces has no first
field. -/
theorem config_not_parsed :
    configText [plainPort] = ascii "PORT:80" ∧ (∀ map, parseConfig (ascii "PORT:80" ++ [0]) ≠ .ok map) ∧
      (∀ map, configLine map (ascii "PORT:80") = .error .outOfRange) ∧
      configText [.blank 2] = ascii "  " ∧ (∀ map, parseConfig (ascii "  " ++ [0]) ≠ .ok map) ∧
      ∀ map, configLine map (ascii "  ") = .error .nullToken := by
  refine ⟨by decide, fun map hparsed => ?_, fun map => ?_, by decide, fun map hparsed => ?_, fun map => ?_⟩
  · have hlines : configText [plainPort] ++ [0] = ascii "PORT:80" ++ [0] := by decide
    rw [← hlines] at hparsed
    have hspaced := (parseConfig_eq_ok_iff.mp hparsed).1
    exact absurd hspaced (by decide)
  · have hkey : IsField (ascii "PORT") := by decide
    have hvalue : IsField (ascii "80") := by decide
    exact configLine_setting map hkey hvalue (by decide)
  · have hlines : configText [.blank 2] ++ [0] = ascii "  " ++ [0] := by decide
    rw [← hlines] at hparsed
    have hspaced := (parseConfig_eq_ok_iff.mp hparsed).1
    exact absurd hspaced (by decide)
  · have hspaces : 2 ≠ 0 := by decide
    exact configLine_spaces map hspaces

end LiburingServer
