import Mathlib.Data.List.DropRight

/-! The messages of HTTP/1: a start line of three parts, fields, and a body as long as the fields say. They are written
as bytes, and read back from the front of a stream. -/

namespace HttpMessage

/-- CR and LF, the end of a line. -/
def crlf : List UInt8 := [13, 10]

/-- A byte of a line: visible, a blank, or above the ASCII characters. -/
def IsText (b : UInt8) : Prop := b = 9 ∨ 32 ≤ b ∧ b ≠ 127

instance : DecidablePred IsText := fun _ => inferInstanceAs (Decidable (_ ∨ _))

/-- The blanks around the value of a field. -/
def IsBlank (b : UInt8) : Prop := b = 32 ∨ b = 9

instance : DecidablePred IsBlank := fun _ => inferInstanceAs (Decidable (_ ∨ _))

/-- A byte of a token: visible, and none of the delimiters. -/
def IsToken (b : UInt8) : Prop :=
  33 ≤ b ∧ b ≤ 126 ∧ b ∉ [34, 40, 41, 44, 47, 58, 59, 60, 61, 62, 63, 64, 91, 92, 93, 123, 125]

instance : DecidablePred IsToken := fun _ => inferInstanceAs (Decidable (_ ∧ _))

theorem IsToken.isText {b : UInt8} (h : IsToken b) : IsText b := by
  obtain ⟨hlow, hhigh, -⟩ := h
  have hblank : (32 : UInt8) ≤ 33 := by decide
  refine Or.inr ⟨UInt8.le_trans hblank hlow, ?_⟩
  rintro rfl
  exact absurd hhigh (by decide)

theorem IsText.ne_newline {b : UInt8} (h : IsText b) : b ≠ 10 := by
  rintro rfl
  revert h
  decide

/-! ### Fields -/

/-- A name can be written. -/
def ValidName (name : List UInt8) : Prop := name ≠ [] ∧ ∀ b ∈ name, IsToken b

instance : DecidablePred ValidName := fun _ => inferInstanceAs (Decidable (_ ∧ _))

/-- A value can be written, and no blanks are around it. -/
def ValidValue (value : List UInt8) : Prop :=
  (∀ b ∈ value, IsText b) ∧ (∀ b ∈ value.head?, ¬IsBlank b) ∧ ∀ b ∈ value.getLast?, ¬IsBlank b

instance : DecidablePred ValidValue := fun _ => inferInstanceAs (Decidable (_ ∧ _))

structure Field where
  name : List UInt8
  value : List UInt8
  validName : ValidName name
  validValue : ValidValue value
  deriving DecidableEq

/-- Name, colon, one blank and value. -/
def Field.encode (f : Field) : List UInt8 := f.name ++ [58, 32] ++ f.value

def trim (s : List UInt8) : List UInt8 := (s.dropWhile (IsBlank ·)).rdropWhile (IsBlank ·)

/-- The field on a line. -/
def parseField (line : List UInt8) : Option Field :=
  let name := line.takeWhile (· ≠ 58)
  let value := trim (line.drop (name.length + 1))
  if h : name.length < line.length ∧ ValidName name ∧ ValidValue value then some ⟨name, value, h.2.1, h.2.2⟩ else none

theorem trim_blank {value : List UInt8} (h : ValidValue value) : trim (32 :: value) = value := by
  obtain ⟨-, hhead, hlast⟩ := h
  have hfront : (32 :: value).dropWhile (IsBlank ·) = value := by
    rw [List.dropWhile_cons_of_pos (by decide)]
    cases value with
    | nil => rfl
    | cons b value => exact List.dropWhile_cons_of_neg (by simpa using hhead)
  rw [trim, hfront, List.rdropWhile_eq_self_iff]
  intro hne
  simpa using hlast _ (List.getLast?_eq_some_getLast hne)

theorem parseField_encode (f : Field) : parseField f.encode = some f := by
  have hcolon : ∀ b ∈ f.name, decide (b ≠ 58) = true := by
    intro b hb
    have htoken := (f.validName.2 b hb).2.2
    simp only [List.mem_cons, not_or] at htoken
    simpa using htoken.2.2.2.2.2.1
  have hname : f.encode.takeWhile (· ≠ 58) = f.name := by
    rw [Field.encode, List.append_assoc, List.takeWhile_append_of_pos hcolon]
    simp
  have hvalue : trim (f.encode.drop (f.name.length + 1)) = f.value := by
    rw [Field.encode, List.append_assoc, ← List.drop_drop, List.drop_left]
    exact trim_blank f.validValue
  have hlength : f.name.length < f.encode.length := by simp [Field.encode]
  unfold parseField
  simp only [hname, hvalue]
  rw [dif_pos ⟨hlength, f.validName, f.validValue⟩]

theorem Field.encode_text (f : Field) : ∀ b ∈ f.encode, IsText b := by
  intro b hb
  simp only [Field.encode, List.mem_append, List.mem_cons, List.not_mem_nil, or_false] at hb
  rcases hb with (hname | rfl | rfl) | hvalue
  · exact (f.validName.2 b hname).isText
  · decide
  · decide
  · exact f.validValue.1 b hvalue

/-! ### Lines -/

/-- The lines up to the empty one, and what follows it; `line` is the beginning of the current one, backwards. -/
def readLines (line : List UInt8) : List UInt8 → Option (List (List UInt8) × List UInt8)
  | [] => none
  | b :: rest =>
      if b = 10 ∧ line.head? = some 13 then
        if line.tail = [] then some ([], rest)
        else (readLines [] rest).map fun r => (line.tail.reverse :: r.1, r.2)
      else readLines (b :: line) rest

/-- A line is read to its end. -/
theorem readLines_text {text : List UInt8} (htext : ∀ b ∈ text, IsText b) (line rest : List UInt8) :
    readLines line (text ++ crlf ++ rest) =
      if line = [] ∧ text = [] then some ([], rest)
      else (readLines [] rest).map fun r => ((line.reverse ++ text) :: r.1, r.2) := by
  induction text generalizing line with
  | nil =>
      have hread : readLines line ([] ++ crlf ++ rest) = readLines (13 :: line) (10 :: rest) := by
        show readLines line (13 :: 10 :: rest) = _
        rw [readLines, if_neg fun h => absurd h.1 (by decide)]
      rw [hread, readLines, if_pos ⟨rfl, rfl⟩]
      by_cases hline : line = [] <;> simp [hline]
  | cons b text ih =>
      have hb : b ≠ 10 := (htext b (by simp)).ne_newline
      have hlater := ih (fun b hb => htext b (List.mem_cons_of_mem _ hb)) (b :: line)
      rw [if_neg fun h => List.cons_ne_nil _ _ h.1] at hlater
      rw [List.cons_append, List.cons_append, readLines, if_neg fun h => hb h.1, hlater,
        if_neg fun h => List.cons_ne_nil _ _ h.2]
      simp

/-- Lines that are not empty, and the empty one. -/
theorem readLines_append {lines : List (List UInt8)} (htext : ∀ line ∈ lines, line ≠ [] ∧ ∀ b ∈ line, IsText b)
    (rest : List UInt8) :
    readLines [] (lines.flatMap (fun line => line ++ crlf) ++ crlf ++ rest) = some (lines, rest) := by
  induction lines with
  | nil =>
      have hblank : ∀ b ∈ ([] : List UInt8), IsText b := by simp
      exact (readLines_text hblank [] rest).trans (if_pos ⟨rfl, rfl⟩)
  | cons line lines ih =>
      obtain ⟨hne, hline⟩ := htext line (by simp)
      have hrest := ih fun line hline => htext line (List.mem_cons_of_mem _ hline)
      rw [List.flatMap_cons, List.append_assoc, List.append_assoc (line ++ crlf), ← List.append_assoc _ crlf rest,
        readLines_text hline, if_neg fun h => hne h.2, hrest]
      rfl

/-! ### Heads -/

/-- A part of the start line that a blank ends. -/
def ValidPart (part : List UInt8) : Prop := part ≠ [] ∧ ∀ b ∈ part, IsText b ∧ b ≠ 32

instance : DecidablePred ValidPart := fun _ => inferInstanceAs (Decidable (_ ∧ _))

/-- The last part, which may be empty and have blanks. -/
def ValidLast (part : List UInt8) : Prop := ∀ b ∈ part, IsText b

instance : DecidablePred ValidLast := List.decidableBAll IsText

/-- The start line and the fields. A request has its method, its target and the version on the start line, and a
response the version, the status code and the reason. -/
structure Head where
  first : List UInt8
  second : List UInt8
  third : List UInt8
  fields : List Field
  validFirst : ValidPart first
  validSecond : ValidPart second
  validThird : ValidLast third
  deriving DecidableEq

namespace Head

def startLine (h : Head) : List UInt8 := h.first ++ 32 :: (h.second ++ 32 :: h.third)

def lines (h : Head) : List (List UInt8) := h.startLine :: h.fields.map Field.encode

def encode (h : Head) : List UInt8 := h.lines.flatMap (fun line => line ++ crlf) ++ crlf

theorem lines_text (h : Head) : ∀ line ∈ h.lines, line ≠ [] ∧ ∀ b ∈ line, IsText b := by
  intro line hline
  rcases List.mem_cons.mp hline with rfl | hline
  · refine ⟨by simp [startLine], fun b hb => ?_⟩
    simp only [startLine, List.mem_append, List.mem_cons] at hb
    rcases hb with hb | rfl | hb | rfl | hb
    · exact (h.validFirst.2 b hb).1
    · decide
    · exact (h.validSecond.2 b hb).1
    · decide
    · exact h.validThird b hb
  · obtain ⟨f, -, rfl⟩ := List.mem_map.mp hline
    exact ⟨by simp [Field.encode], f.encode_text⟩

end Head

/-- The part up to the next blank, and what follows it. -/
def takePart (s : List UInt8) : List UInt8 × List UInt8 :=
  (s.takeWhile (· ≠ 32), s.drop ((s.takeWhile (· ≠ 32)).length + 1))

theorem takePart_append {part : List UInt8} (h : ValidPart part) (s : List UInt8) :
    takePart (part ++ 32 :: s) = (part, s) := by
  have htake : (part ++ 32 :: s).takeWhile (· ≠ 32) = part := by
    rw [List.takeWhile_append_of_pos fun b hb => by simpa using (h.2 b hb).2]
    simp
  rw [takePart, htake, ← List.drop_drop, List.drop_left]
  rfl

def parseHead (lines : List (List UInt8)) : Option Head :=
  match lines with
  | [] => none
  | start :: lines =>
      let first := takePart start
      let second := takePart first.2
      if h : ValidPart first.1 ∧ ValidPart second.1 ∧ ValidLast second.2 then
        (lines.mapM parseField).map fun fields => ⟨first.1, second.1, second.2, fields, h.1, h.2.1, h.2.2⟩
      else none

theorem mapM_parseField (fields : List Field) : (fields.map Field.encode).mapM parseField = some fields := by
  induction fields with
  | nil => rfl
  | cons f fields ih => simp [List.mapM_cons, parseField_encode, ih]

theorem parseHead_lines (h : Head) : parseHead h.lines = some h := by
  have hfirst : takePart h.startLine = (h.first, h.second ++ 32 :: h.third) := takePart_append h.validFirst _
  have hsecond : takePart (h.second ++ 32 :: h.third) = (h.second, h.third) := takePart_append h.validSecond _
  unfold parseHead Head.lines
  simp only [hfirst, hsecond, mapM_parseField]
  rw [dif_pos ⟨h.validFirst, h.validSecond, h.validThird⟩]
  rfl

/-- The head at the front of a stream. -/
def readHead (s : List UInt8) : Option (Head × List UInt8) :=
  (readLines [] s).bind fun r => (parseHead r.1).map fun h => (h, r.2)

theorem readHead_encode (h : Head) (rest : List UInt8) : readHead (h.encode ++ rest) = some (h, rest) := by
  rw [readHead, Head.encode, readLines_append h.lines_text]
  simp [parseHead_lines]

/-! ### Bodies -/

/-- A number in decimal digits. -/
def decimal (n : ℕ) : List UInt8 := (Nat.toDigits 10 n).map fun c => c.toNat.toUInt8

def IsDigit (b : UInt8) : Prop := 48 ≤ b ∧ b ≤ 57

instance : DecidablePred IsDigit := fun _ => inferInstanceAs (Decidable (_ ∧ _))

/-- A number in decimal. -/
def ValidNumber (s : List UInt8) : Prop := s ≠ [] ∧ ∀ b ∈ s, IsDigit b

instance : DecidablePred ValidNumber := fun s =>
  haveI : Decidable (∀ b ∈ s, IsDigit b) := List.decidableBAll IsDigit s
  inferInstanceAs (Decidable (_ ∧ _))

def ofDecimal (s : List UInt8) : Option ℕ :=
  if ValidNumber s then some (Nat.ofDigitChars 10 (s.map fun b => Char.ofNat b.toNat) 0) else none

/-- The digits are ASCII characters. -/
theorem digit_of_mem_toDigits {n : ℕ} {c : Char} (hc : c ∈ Nat.toDigits 10 n) :
    IsDigit c.toNat.toUInt8 ∧ Char.ofNat c.toNat.toUInt8.toNat = c := by
  have hdigit : c.isDigit = true := Nat.isDigit_of_mem_toDigits (by decide) (by decide) hc
  obtain ⟨hlow, hhigh⟩ : 48 ≤ c.toNat ∧ c.toNat ≤ 57 := by
    rw [Char.isDigit, Bool.and_eq_true, decide_eq_true_eq, decide_eq_true_eq] at hdigit
    exact ⟨UInt32.le_iff_toNat_le.mp hdigit.1, UInt32.le_iff_toNat_le.mp hdigit.2⟩
  have hbyte : c.toNat.toUInt8.toNat = c.toNat := by
    rw [UInt8.toNat_ofNat']
    omega
  refine ⟨?_, by rw [hbyte, Char.ofNat_toNat]⟩
  constructor
  · rw [UInt8.le_iff_toNat_le, hbyte]
    exact hlow
  · rw [UInt8.le_iff_toNat_le, hbyte]
    exact hhigh

theorem mem_decimal {n : ℕ} {b : UInt8} (hb : b ∈ decimal n) : IsDigit b := by
  obtain ⟨c, hc, rfl⟩ := List.mem_map.mp hb
  exact (digit_of_mem_toDigits hc).1

theorem decimal_ne_nil (n : ℕ) : decimal n ≠ [] := by
  simp [decimal]

theorem ofDecimal_decimal (n : ℕ) : ofDecimal (decimal n) = some n := by
  have hchars : (decimal n).map (fun b => Char.ofNat b.toNat) = Nat.toDigits 10 n := by
    rw [decimal, List.map_map]
    exact (List.map_congr_left fun c hc => (digit_of_mem_toDigits hc).2).trans (List.map_id _)
  rw [ofDecimal, if_pos ⟨decimal_ne_nil n, fun b => mem_decimal⟩, hchars, Nat.ofDigitChars_ten_toDigits]

/-- Digits are a value that a field can have. -/
theorem validValue_of_text {value : List UInt8} (h : ∀ b ∈ value, IsText b ∧ ¬IsBlank b) : ValidValue value :=
  ⟨fun b hb => (h b hb).1, fun b hb => (h b (List.mem_of_mem_head? hb)).2,
    fun b hb => (h b (List.mem_of_mem_getLast? hb)).2⟩

def lowercase (b : UInt8) : UInt8 := if 65 ≤ b ∧ b ≤ 90 then b + 32 else b

/-- The values of the fields of a name, whose letters match in either case. -/
def Head.values (h : Head) (name : List UInt8) : List (List UInt8) :=
  (h.fields.filter fun f => f.name.map lowercase = name.map lowercase).map Field.value

/-- `Content-Length`. -/
def lengthName : List UInt8 := [67, 111, 110, 116, 101, 110, 116, 45, 76, 101, 110, 103, 116, 104]

/-- How long the body is: what the only field that says it says, and zero without one. -/
def Head.contentLength (h : Head) : Option ℕ :=
  match h.values lengthName with
  | [] => some 0
  | [value] => ofDecimal value
  | _ => none

/-- A message; its head says how long its body is. -/
structure Message where
  head : Head
  body : List UInt8
  delimited : head.contentLength = some body.length
  deriving DecidableEq

def Message.encode (m : Message) : List UInt8 := m.head.encode ++ m.body

/-- The message at the front of a stream, and what follows it. -/
def receive (s : List UInt8) : Option (Message × List UInt8) :=
  match readHead s with
  | none => none
  | some (head, rest) =>
      match hlength : head.contentLength with
      | none => none
      | some n =>
          if h : n ≤ rest.length then
            some (⟨head, rest.take n, by rw [hlength, List.length_take, Nat.min_eq_left h]⟩, rest.drop n)
          else none

/-- **Round trip.** A message is received as it was written, whatever follows it. -/
theorem receive_encode (m : Message) (rest : List UInt8) : receive (m.encode ++ rest) = some (m, rest) := by
  obtain ⟨head, body, hbody⟩ := m
  unfold receive
  rw [Message.encode, List.append_assoc, readHead_encode]
  dsimp only
  split
  · rename_i hnone
    simp [hbody] at hnone
  · rename_i n hlength
    obtain rfl : n = body.length := Option.some.inj (hlength.symm.trans hbody)
    rw [dif_pos (by simp)]
    simp

end HttpMessage
