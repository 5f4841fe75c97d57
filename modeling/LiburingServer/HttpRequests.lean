import LiburingServer.HttpParsing
import LiburingServer.Lib.HttpMessage
import Mathlib.Data.List.Infix

/-! Requests as messages of HTTP. Whatever request without a body a client writes, the parser finds in it what it looks
for: the method, the target, a range and the websocket key. -/

namespace LiburingServer

open HttpMessage

/-- What a request says to the server. The key is behind the name on the last line that has the name somewhere. -/
def requestOf (h : Head) : HttpRequest where
  isGet := h.first = ascii "GET"
  path := h.second.drop 1
  acceptBytes := h.lines.any (occurs (ascii "Range: bytes="))
  secWebsocketKey := (((h.lines.filter (occurs (ascii "Sec-WebSocket-Key"))).getLast?).map
    (·.drop (ascii "Sec-WebSocket-Key: ").length)).getD []

theorem occurs_iff {pattern s : Bytes} : occurs pattern s = true ↔ pattern <:+: s := by
  unfold occurs
  rw [List.any_eq_true, List.infix_iff_prefix_suffix]
  simp only [List.mem_tails, List.isPrefixOf_iff_prefix]
  exact ⟨fun ⟨t, hsuffix, hprefix⟩ => ⟨t, hprefix, hsuffix⟩, fun ⟨t, hprefix, hsuffix⟩ => ⟨t, hsuffix, hprefix⟩⟩

/-- What occurs in a text does so before or behind each byte that it does not have itself. -/
theorem infix_of_infix_append_cons {pattern x y : Bytes} {b : UInt8} (hb : b ∉ pattern)
    (h : pattern <:+: x ++ b :: y) : pattern <:+: x ∨ pattern <:+: y := by
  have hfront : ∀ l, l <+: b :: y → b ∉ l → l = [] := by
    intro l hl hnot
    rcases l with - | ⟨c, l⟩
    · rfl
    · obtain ⟨rfl, -⟩ := List.cons_prefix_cons.mp hl
      simp at hnot
  rcases List.infix_append_iff.mp h with hx | hy | ⟨l₁, l₂, rfl, hx, hy⟩
  · exact Or.inl hx
  · rcases List.infix_cons_iff.mp hy with hy | hy
    · rw [hfront pattern hy hb]
      exact Or.inl (List.nil_infix)
    · exact Or.inr hy
  · rw [hfront l₂ hy fun hmem => hb (List.mem_append_right _ hmem), List.append_nil]
    exact Or.inl hx.isInfix

/-- The name of the key has no colon and no blank, so that it leaves room for them on a line. -/
theorem keyLine_length {h : Head} {line : Bytes} (hline : line ∈ h.lines)
    (hkey : occurs (ascii "Sec-WebSocket-Key") line = true) : (ascii "Sec-WebSocket-Key: ").length ≤ line.length := by
  have hlength : (ascii "Sec-WebSocket-Key: ").length = (ascii "Sec-WebSocket-Key").length + 2 := by decide
  have hcolon : 58 ∉ ascii "Sec-WebSocket-Key" := by decide
  have hblank : 32 ∉ ascii "Sec-WebSocket-Key" := by decide
  have hpattern := occurs_iff.mp hkey
  rw [hlength]
  rcases List.mem_cons.mp hline with rfl | hline
  · have hfirst := List.length_pos_iff.mpr h.validFirst.1
    have hsecond := List.length_pos_iff.mpr h.validSecond.1
    simp only [Head.startLine, List.length_append, List.length_cons]
    rcases infix_of_infix_append_cons hblank hpattern with hpart | hpart
    · have := hpart.length_le
      omega
    · rcases infix_of_infix_append_cons hblank hpart with hpart | hpart
      · have := hpart.length_le
        omega
      · have := hpart.length_le
        omega
  · obtain ⟨f, -, rfl⟩ := List.mem_map.mp hline
    have hencode : f.encode = f.name ++ 58 :: (32 :: f.value) := by simp [Field.encode]
    rw [hencode] at hpattern ⊢
    simp only [List.length_append, List.length_cons]
    rcases infix_of_infix_append_cons hcolon hpattern with hpart | hpart
    · have := hpart.length_le
      omega
    · rcases infix_of_infix_append_cons (x := []) hblank hpart with hpart | hpart
      · have := hpart.length_le
        simp only [List.length_nil] at this
        omega
      · have := hpart.length_le
        omega

/-- The loop over the headers when every line is long enough. -/
theorem foldlM_headerLine_eq (lines : List Bytes) (hlong : ∀ line ∈ lines, occurs (ascii "Sec-WebSocket-Key") line →
    (ascii "Sec-WebSocket-Key: ").length ≤ line.length) (found : Bool × Bytes) :
    lines.foldlM headerLine found = some (found.1 || lines.any (occurs (ascii "Range: bytes=")),
      (((lines.filter (occurs (ascii "Sec-WebSocket-Key"))).getLast?).map
        (·.drop (ascii "Sec-WebSocket-Key: ").length)).getD found.2) := by
  induction lines generalizing found with
  | nil => simp [pure]
  | cons line lines ih =>
      obtain ⟨hline, hlater⟩ := List.forall_mem_cons.mp hlong
      have hstep : headerLine found line = some (found.1 || occurs (ascii "Range: bytes=") line,
          if occurs (ascii "Sec-WebSocket-Key") line then line.drop (ascii "Sec-WebSocket-Key: ").length
          else found.2) := by
        unfold headerLine
        dsimp only
        split_ifs with hkey hshort
        · exact absurd (hline hkey) (Nat.not_le.mpr hshort)
        · rfl
        · rfl
      rw [List.foldlM_cons, hstep]
      refine (ih hlater _).trans ?_
      rw [List.any_cons, Bool.or_assoc, List.filter_cons]
      by_cases hkey : occurs (ascii "Sec-WebSocket-Key") line = true
      · rw [if_pos hkey, if_pos hkey]
        cases hlast : lines.filter (occurs (ascii "Sec-WebSocket-Key")) with
        | nil => simp
        | cons first rest => simp [List.getLast?_cons]
      · rw [if_neg hkey, if_neg hkey]

/-- The lines of a head are the tokens of its bytes. -/
theorem strtok_encode (h : Head) : strtok [13, 10] h.encode = h.lines := by
  have hend : Strtok.tokens (· ∈ ([13, 10] : Bytes)) crlf = [] := by decide
  suffices hlines : ∀ lines : List Bytes, (∀ line ∈ lines, line ≠ [] ∧ ∀ b ∈ line, IsText b) →
      Strtok.tokens (· ∈ ([13, 10] : Bytes)) (lines.flatMap (fun line => line ++ crlf) ++ crlf) = lines from
    hlines h.lines h.lines_text
  intro lines hlines
  induction lines with
  | nil => simpa using hend
  | cons line lines ih =>
      obtain ⟨hne, htext⟩ := hlines line (by simp)
      have hpiece : ∀ b ∈ line, decide (b ∈ ([13, 10] : Bytes)) = false := by
        intro b hb
        have hb' := htext b hb
        rw [decide_eq_false_iff_not]
        intro hmem
        rcases List.mem_cons.mp hmem with rfl | hmem
        · exact absurd hb' (by decide)
        · exact hb'.ne_newline (List.mem_singleton.mp hmem)
      have hcut : (line :: lines).flatMap (fun line => line ++ crlf) ++ crlf =
          line ++ 13 :: 10 :: (lines.flatMap (fun line => line ++ crlf) ++ crlf) := by simp [crlf]
      rw [hcut, Strtok.tokens_append_cons hpiece (by decide), Strtok.tokens_cons_of_delim (by decide),
        ih fun line hline => hlines line (List.mem_cons_of_mem _ hline)]
      simp [hne]

theorem cString_encode (h : Head) : cString h.encode = h.encode := by
  have hnonzero : ∀ b ∈ h.encode, b ≠ 0 := by
    intro b hb
    rw [Head.encode, List.mem_append, List.mem_flatMap] at hb
    have hends : ∀ b ∈ crlf, b ≠ 0 := by decide +kernel
    rcases hb with ⟨line, hline, hb⟩ | hb
    · rcases List.mem_append.mp hb with hb | hb
      · rintro rfl
        exact absurd ((h.lines_text line hline).2 0 hb) (by decide)
      · exact hends b hb
    · exact hends b hb
  exact List.takeWhile_eq_self_iff.mpr fun b hb => by simpa using hnonzero b hb

/-- The words of the request line. -/
theorem strtok_startLine (h : Head) : ∃ more, strtok (ascii " ") h.startLine = h.first :: h.second :: more := by
  have hblank : ascii " " = [32] := by decide
  have hpart : ∀ {part : Bytes}, ValidPart part → (∀ b ∈ part, decide (b ∈ ([32] : Bytes)) = false) ∧ part ≠ [] :=
    fun hpart => ⟨fun b hb => by simpa using (hpart.2 b hb).2, hpart.1⟩
  obtain ⟨hfirst, hfirst'⟩ := hpart h.validFirst
  obtain ⟨hsecond, hsecond'⟩ := hpart h.validSecond
  refine ⟨Strtok.tokens (· ∈ ([32] : Bytes)) h.third, ?_⟩
  rw [strtok_eq_tokens, hblank, Head.startLine, Strtok.tokens_append_cons hfirst (by decide),
    Strtok.tokens_append_cons hsecond (by decide)]
  simp [hfirst', hsecond']

theorem parseRequest_encode (h : Head) : parseRequest h.encode = some (requestOf h) := by
  obtain ⟨more, hwords⟩ := strtok_startLine h
  have hfound := foldlM_headerLine_eq h.lines (fun line hline => keyLine_length hline) (false, [])
  unfold parseRequest
  dsimp only
  rw [cString_encode, strtok_encode, hfound]
  simp only [Head.lines, hwords]
  rfl

/-- **Requests.** Whatever request without a body a client writes, with any method, target, version and fields, and
with a zero byte behind it in the buffer, the parser stays inside the buffer and finds what the request says. -/
theorem request_parsed (h : Head) (beyond : Bytes) :
    readRequest (h.encode ++ 0 :: beyond) = .ok (requestOf h) := by
  have hzero : (0 : UInt8) ∈ h.encode ++ 0 :: beyond := by simp
  have hstring : cString (h.encode ++ 0 :: beyond) = cString h.encode := by
    have hall : ∀ b ∈ h.encode, decide (b ≠ 0) = true := List.takeWhile_eq_self_iff.mp (cString_encode h)
    rw [cString_encode, cString, List.takeWhile_append_of_pos hall]
    simp
  refine (readRequest_of_mem hzero).mpr ?_
  have hsame : parseRequest (h.encode ++ 0 :: beyond) = parseRequest h.encode := by
    unfold parseRequest
    rw [hstring]
  rw [hsame, parseRequest_encode]

end LiburingServer
