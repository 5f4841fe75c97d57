import LiburingServer.Lib.Strtok
import LiburingServer.Http

/-! How `read_cb` reads a request, call by call: what it takes for the parsing neither to leave the buffer nor to
throw. -/

namespace LiburingServer

/-! ### The parser -/

/-- How the parser can fail: `strtok_r` scans behind the buffer, `substr` throws, or a token that is not there is
dereferenced. -/
inductive ParseFault where
  | outOfRange
  | substr
  | nullToken
  deriving DecidableEq

/-- One line in the loop over the headers: the headers so far, whether bytes are accepted, the websocket key. -/
def headerStep (found : List Bytes × Bool × Bytes) (line : Bytes) : Except ParseFault (List Bytes × Bool × Bytes) :=
  let acceptBytes := found.2.1 || occurs (ascii "Range: bytes=") line
  if occurs (ascii "Sec-WebSocket-Key") line then
    if line.length < (ascii "Sec-WebSocket-Key: ").length then .error .substr
    else .ok (found.1 ++ [line], acceptBytes, line.drop (ascii "Sec-WebSocket-Key: ").length)
  else .ok (found.1 ++ [line], acceptBytes, found.2.2)

/-- The method and the path of the request line, which is a terminated string of its own. -/
def requestLine (line : Bytes) : Except ParseFault (Bytes × Bytes) :=
  match Strtok.next (· ∈ ascii " ") 0 (line ++ [0]) with
  | .ranOff => .error .outOfRange
  | .finished => .error .nullToken
  | .token method saved =>
      match Strtok.next (· ∈ ascii " ") 0 saved with
      | .ranOff => .error .outOfRange
      | .finished => .error .nullToken
      | .token path _ => .ok (method, path.drop 1)

/-- The part of `read_cb` that reads a request from the buffer. -/
def readRequest (buffer : Bytes) : Except ParseFault HttpRequest :=
  match Strtok.loop (· ∈ ascii "\r\n") 0 .outOfRange headerStep buffer ([], false, []) with
  | .error e => .error e
  | .ok ([], _) => .error .outOfRange
  | .ok (first :: _, acceptBytes, secWebsocketKey) =>
      match requestLine first with
      | .error e => .error e
      | .ok (method, path) => .ok { isGet := method = ascii "GET", path, acceptBytes, secWebsocketKey }

/-! ### The parser and the request that is in the buffer -/

theorem strtok_eq_tokens (delimiters s : Bytes) : strtok delimiters s = Strtok.tokens (· ∈ delimiters) s := rfl

theorem headerStep_eq (headers : List Bytes) (found : Bool × Bytes) (line : Bytes) :
    headerStep (headers, found) line = match headerLine found line with
      | none => .error .substr
      | some found' => .ok (headers ++ [line], found') := by
  unfold headerStep headerLine
  dsimp only
  split_ifs <;> rfl

/-- The loop over the headers finds what `headerLine` finds. -/
theorem foldlM_headerStep (lines headers : List Bytes) (found : Bool × Bytes) :
    lines.foldlM headerStep (headers, found) = match lines.foldlM headerLine found with
      | none => .error .substr
      | some found' => .ok (headers ++ lines, found') := by
  induction lines generalizing headers found with
  | nil => simp [pure, Except.pure]
  | cons line lines ih =>
      rw [List.foldlM_cons, List.foldlM_cons, headerStep_eq]
      cases headerLine found line with
      | none => rfl
      | some found' =>
          refine (ih (headers ++ [line]) found').trans ?_
          simp

theorem cString_append (received : Bytes) (zeros : ℕ) :
    cString (received ++ List.replicate zeros 0) = cString received := by
  unfold cString
  induction received with
  | nil => cases zeros <;> simp [List.replicate_succ]
  | cons b received ih =>
      by_cases hb : b = 0
      · simp [hb]
      · rw [List.cons_append, List.takeWhile_cons, List.takeWhile_cons, ih]

theorem zero_notMem_cString (buffer : Bytes) : 0 ∉ cString buffer := by
  intro hmem
  simpa using List.mem_takeWhile_imp hmem

/-- A buffer with a zero byte is a terminated string and what is behind it. -/
theorem exists_after_of_mem {buffer : Bytes} (h : 0 ∈ buffer) : ∃ after, buffer = cString buffer ++ 0 :: after := by
  induction buffer with
  | nil => cases h
  | cons b buffer ih =>
      by_cases hb : b = 0
      · exact ⟨buffer, by simp [cString, hb]⟩
      · obtain ⟨after, hafter⟩ := ih ((List.mem_cons.mp h).resolve_left (Ne.symm hb))
        refine ⟨after, ?_⟩
        have hcons : cString (b :: buffer) = b :: cString buffer := by simp [cString, hb]
        rw [hcons, List.cons_append, ← hafter]

/-- Spaces end a token, and so do the ends of lines; a zero byte ends the string. -/
theorem zero_not_delimiter : (fun b : UInt8 => decide (b ∈ ascii " ")) 0 = false ∧
    (fun b : UInt8 => decide (b ∈ ascii "\r\n")) 0 = false := by decide

theorem requestLine_eq {line : Bytes} (hzero : 0 ∉ line) : requestLine line =
    match strtok (ascii " ") line with
      | method :: path :: _ => .ok (method, path.drop 1)
      | _ => .error .nullToken := by
  have hdelim := zero_not_delimiter.1
  rw [strtok_eq_tokens]
  unfold requestLine
  cases htokens : Strtok.tokens (· ∈ ascii " ") line with
  | nil => rw [Strtok.next_of_tokens_eq_nil (p := (· ∈ ascii " ")) hdelim htokens]
  | cons method rest =>
      obtain ⟨line', hnext, hzero', hrest⟩ :=
        Strtok.next_of_tokens_eq_cons (p := (· ∈ ascii " ")) [] hdelim hzero htokens
      rw [hnext]
      cases rest with
      | nil => simp only [Strtok.next_of_tokens_eq_nil (p := (· ∈ ascii " ")) hdelim hrest]
      | cons path more =>
          obtain ⟨line'', hnext', -, -⟩ :=
            Strtok.next_of_tokens_eq_cons (p := (· ∈ ascii " ")) [] hdelim hzero' hrest
          simp only [hnext']

/-- In a buffer with a zero byte the parser finds the request that is there, or fails. -/
theorem readRequest_of_mem {buffer : Bytes} (h : 0 ∈ buffer) {req : HttpRequest} :
    readRequest buffer = .ok req ↔ parseRequest buffer = some req := by
  obtain ⟨after, hafter⟩ := exists_after_of_mem h
  have hzero := zero_notMem_cString buffer
  have hloop : Strtok.loop (· ∈ ascii "\r\n") 0 ParseFault.outOfRange headerStep buffer ([], false, []) =
      (strtok [13, 10] (cString buffer)).foldlM headerStep ([], false, []) := by
    conv_lhs => rw [hafter]
    exact Strtok.loop_of_terminated (p := (· ∈ ascii "\r\n")) zero_not_delimiter.2 hzero _
  have hlines : ∀ line ∈ strtok [13, 10] (cString buffer), 0 ∉ line := fun line hline hmem =>
    hzero (Strtok.mem_of_mem_tokens hline hmem)
  unfold readRequest parseRequest
  dsimp only
  rw [hloop, foldlM_headerStep]
  generalize strtok [13, 10] (cString buffer) = lines at hlines
  generalize lines.foldlM headerLine (false, []) = found
  cases found with
  | none => simp
  | some found =>
      cases lines with
      | nil => simp
      | cons first lines =>
          simp only [List.nil_append, requestLine_eq (hlines first (List.mem_cons_self ..))]
          rcases strtok (ascii " ") first with - | ⟨method, - | ⟨path, more⟩⟩
          · simp
          · simp
          · simp

/-- Without a zero byte in the buffer the parser fails. -/
theorem readRequest_of_notMem {buffer : Bytes} (h : 0 ∉ buffer) (req : HttpRequest) : readRequest buffer ≠ .ok req := by
  obtain ⟨e, he⟩ := Strtok.loop_of_unterminated (p := (· ∈ ascii "\r\n")) ParseFault.outOfRange headerStep h
    ([], false, [])
  unfold readRequest
  rw [he]
  simp

/-- The parser succeeds exactly on a buffer with a zero byte in which there is a request. -/
theorem readRequest_eq_ok_iff {buffer : Bytes} {req : HttpRequest} :
    readRequest buffer = .ok req ↔ 0 ∈ buffer ∧ parseRequest buffer = some req := by
  by_cases h : 0 ∈ buffer
  · simp [readRequest_of_mem h, h]
  · simp [readRequest_of_notMem h req, h]

/-! ### Requests that can be parsed -/

/-- The request line: the bytes before the first end of a line. -/
def firstLine (received : Bytes) : Bytes := (cString received).takeWhile (· ∉ [13, 10])

/-- After the first space of the request line there is something else than spaces. -/
def HasPath (received : Bytes) : Prop := ∃ b ∈ (firstLine received).dropWhile (· ≠ 32), b ≠ 32

instance : DecidablePred HasPath := fun received =>
  inferInstanceAs (Decidable (∃ b ∈ (firstLine received).dropWhile (· ≠ 32), b ≠ 32))

/-- Every line that names the websocket key is as long as the name with a colon and a space. -/
def KeyLinesLong (received : Bytes) : Prop :=
  ∀ line ∈ strtok [13, 10] (cString received), occurs (ascii "Sec-WebSocket-Key") line →
    (ascii "Sec-WebSocket-Key: ").length ≤ line.length

instance : DecidablePred KeyLinesLong := fun received =>
  inferInstanceAs (Decidable (∀ line ∈ strtok [13, 10] (cString received), _ → _))

theorem headerLine_eq_none_iff (found : Bool × Bytes) (line : Bytes) : headerLine found line = none ↔
    occurs (ascii "Sec-WebSocket-Key") line ∧ line.length < (ascii "Sec-WebSocket-Key: ").length := by
  unfold headerLine
  dsimp only
  split_ifs with hkey hshort
  · simp [hkey, hshort]
  · simp [hkey, hshort]
  · simp [hkey]

theorem foldlM_headerLine_ne_none_iff (lines : List Bytes) (found : Bool × Bytes) :
    lines.foldlM headerLine found ≠ none ↔ ∀ line ∈ lines, occurs (ascii "Sec-WebSocket-Key") line →
      (ascii "Sec-WebSocket-Key: ").length ≤ line.length := by
  induction lines generalizing found with
  | nil => simp
  | cons line lines ih =>
      have hline := headerLine_eq_none_iff found line
      rw [List.foldlM_cons, List.forall_mem_cons]
      cases hfound : headerLine found line with
      | none =>
          obtain ⟨hkey, hshort⟩ := hline.mp hfound
          refine iff_of_false (fun h => h rfl) fun h => ?_
          exact absurd (h.1 hkey) (Nat.not_le.mpr hshort)
      | some found' =>
          have hlong : occurs (ascii "Sec-WebSocket-Key") line →
              (ascii "Sec-WebSocket-Key: ").length ≤ line.length := by
            intro hkey
            by_contra hshort
            rw [hline.mpr ⟨hkey, Nat.lt_of_not_le hshort⟩] at hfound
            cases hfound
          exact (ih found').trans (iff_and_self.mpr fun _ => hlong)

/-- A request begins with a letter of its method. -/
theorem exists_cons_of_isValidHttpReq {received : Bytes} (h : isValidHttpReq received = true) :
    ∃ c rest, received = c :: rest ∧ c ≠ 0 ∧ c ∉ [13, 10] ∧ c ≠ 32 := by
  cases received with
  | nil => simp [isValidHttpReq] at h
  | cons c rest =>
      refine ⟨c, rest, rfl, ?_⟩
      have hc : c = 71 ∨ c = 80 ∨ c = 68 := by
        have hg : ascii "GET " = [71, 69, 84, 32] := by decide
        have hp : ascii "POST " = [80, 79, 83, 84, 32] := by decide
        have hu : ascii "PUT " = [80, 85, 84, 32] := by decide
        have hd : ascii "DELETE " = [68, 69, 76, 69, 84, 69, 32] := by decide
        have ha : ascii "PATCH " = [80, 65, 84, 67, 72, 32] := by decide
        simp only [isValidHttpReq, hg, hp, hu, hd, ha, List.any_cons, List.isPrefixOf, List.any_nil, Bool.or_false,
          decide_eq_true_eq, Bool.and_eq_true, Bool.or_eq_true, beq_iff_eq] at h
        obtain ⟨-, ⟨hc, -⟩ | ⟨hc, -⟩ | ⟨hc, -⟩ | ⟨hc, -⟩ | ⟨hc, -⟩⟩ := h <;> simp [← hc]
      rcases hc with rfl | rfl | rfl <;> decide

/-- The lines of a request begin with the request line. -/
theorem strtok_lines {received : Bytes} (h : isValidHttpReq received = true) :
    ∃ lines, strtok [13, 10] (cString received) = firstLine received :: lines := by
  obtain ⟨c, rest, rfl, hzero, hline, -⟩ := exists_cons_of_isValidHttpReq h
  have hcons : cString (c :: rest) = c :: cString rest := by simp [cString, hzero]
  have htokens := Strtok.tokens_cons (p := (· ∈ [13, 10])) (c := c) (by simpa using hline) (cString rest)
  have hfirst : firstLine (c :: rest) = c :: (cString rest).takeWhile fun b => !decide (b ∈ [13, 10]) := by
    rw [firstLine, hcons, List.takeWhile_cons_of_pos (by simpa using hline)]
    simp
  rw [hcons, strtok_eq_tokens, htokens, hfirst]
  exact ⟨_, rfl⟩

/-- The request line has a second token exactly if something follows the spaces after the method. -/
theorem strtok_path {received : Bytes} (h : isValidHttpReq received = true) :
    (∃ method path more, strtok (ascii " ") (firstLine received) = method :: path :: more) ↔ HasPath received := by
  obtain ⟨c, rest, rfl, hzero, hline, hspace⟩ := exists_cons_of_isValidHttpReq h
  have hascii : ascii " " = [32] := by decide
  have hfirst : firstLine (c :: rest) = c :: (cString rest).takeWhile (· ∉ [13, 10]) := by
    have hcons : cString (c :: rest) = c :: cString rest := by simp [cString, hzero]
    rw [firstLine, hcons, List.takeWhile_cons_of_pos (by simpa using hline)]
  unfold HasPath
  rw [hascii, hfirst, List.dropWhile_cons_of_pos (by simpa using hspace)]
  generalize (cString rest).takeWhile (· ∉ [13, 10]) = line
  have htokens := Strtok.tokens_cons (p := (· ∈ [32])) (c := c) (by simpa using hspace) line
  have hafter : line.dropWhile (fun b => !decide (b ∈ [32])) = line.dropWhile (· ≠ 32) := by simp
  rw [hafter] at htokens
  have hpath := Strtok.tokens_eq_nil_iff (p := (· ∈ [32])) (line.dropWhile (· ≠ 32))
  rw [strtok_eq_tokens, htokens]
  constructor
  · rintro ⟨method, path, more, heq⟩
    by_contra hnone
    have hnil := hpath.mpr fun b hb => by
      by_contra hb'
      exact hnone ⟨b, hb, by simpa using hb'⟩
    rw [hnil] at heq
    cases heq
  · rintro ⟨b, hb, hne⟩
    obtain ⟨path, more, hcons⟩ := List.exists_cons_of_ne_nil (mt hpath.mp fun hall => hne (by simpa using hall b hb))
    exact ⟨_, path, more, by rw [hcons]⟩

/-- There is a request in what a client sent exactly if its first line has a path and no line names the key too
shortly. -/
theorem parseRequest_ne_none_iff {received : Bytes} (h : isValidHttpReq received = true) :
    parseRequest received ≠ none ↔ HasPath received ∧ KeyLinesLong received := by
  obtain ⟨lines, hlines⟩ := strtok_lines h
  have hkeys := foldlM_headerLine_ne_none_iff (firstLine received :: lines) (false, [])
  rw [← strtok_path h, KeyLinesLong, hlines, ← hkeys]
  unfold parseRequest
  dsimp only
  rw [hlines]
  cases (firstLine received :: lines).foldlM headerLine (false, []) with
  | none => simp
  | some found =>
      dsimp only
      generalize strtok (ascii " ") (firstLine received) = words
      match words with
      | [] => simp
      | [_] => simp
      | _ :: _ :: _ => simp

theorem parseRequest_append (received : Bytes) (zeros : ℕ) :
    parseRequest (received ++ List.replicate zeros 0) = parseRequest received := by
  unfold parseRequest
  rw [cString_append]

/-- **Parsing of requests.** For whatever a client sent that begins like a request, with zero bytes behind it as far
as the buffer goes, the parser stays inside the buffer, finds its tokens and does not throw exactly if there is a
zero byte, the request line has a path and no line names the websocket key without room for its colon and space. -/
theorem http_parsing_total_iff (received : Bytes) (zeros : ℕ) (hvalid : isValidHttpReq received = true) :
    (∃ req, readRequest (received ++ List.replicate zeros 0) = .ok req) ↔
      (0 < zeros ∨ 0 ∈ received) ∧ HasPath received ∧ KeyLinesLong received := by
  have hzero : 0 ∈ received ++ List.replicate zeros 0 ↔ 0 < zeros ∨ 0 ∈ received := by
    rw [List.mem_append, List.mem_replicate, or_comm, Nat.pos_iff_ne_zero]
    simp
  rw [← parseRequest_ne_none_iff hvalid, ← hzero, Option.ne_none_iff_exists']
  simp only [readRequest_eq_ok_iff, parseRequest_append, exists_and_left]

theorem isValidHttpReq_append {received : Bytes} (h : isValidHttpReq received = true) (more : Bytes) :
    isValidHttpReq (received ++ more) = true := by
  simp only [isValidHttpReq, decide_eq_true_eq, List.any_eq_true, List.isPrefixOf_iff_prefix, List.length_append] at h ⊢
  obtain ⟨hlength, type, htype, hpre⟩ := h
  exact ⟨by omega, type, htype, hpre.trans (List.prefix_append ..)⟩

/-- A request without a path, in the buffer of the plain server. -/
def pathlessRequest : Bytes := ascii "GET             "

/-- A request that names the websocket key and ends the line there. -/
def keylessRequest : Bytes := ascii "GET / HTTP/1.1\r\nSec-WebSocket-Key\r\n\r\n"

/-- A request that fills the buffer of the plain server. -/
def fullRequest : Bytes := ascii "GET / HTTP/1.1\r\n" ++ List.replicate (readSize - 16) 97

theorem http_parsing_total_upgrade :
    ∃ req, readRequest (upgradeRequest ++ List.replicate (readSize - upgradeRequest.length) 0) = .ok req :=
  (http_parsing_total_iff upgradeRequest _ (by decide)).mpr ⟨Or.inl (by decide), by decide, by decide⟩

/-- The second token of the request line is not there, `substr` throws, or `strtok_r` scans behind the buffer. -/
theorem http_parsing_fails :
    (isValidHttpReq pathlessRequest = true ∧ ∀ req,
        readRequest (pathlessRequest ++ List.replicate (readSize - pathlessRequest.length) 0) ≠ .ok req) ∧
      (isValidHttpReq keylessRequest = true ∧ ∀ req,
        readRequest (keylessRequest ++ List.replicate (readSize - keylessRequest.length) 0) ≠ .ok req) ∧
      isValidHttpReq fullRequest = true ∧ fullRequest.length = readSize ∧ ∀ req, readRequest fullRequest ≠ .ok req := by
  refine ⟨⟨by decide, fun req => ?_⟩, ⟨by decide, fun req => ?_⟩, ?_, ?_, fun req => ?_⟩
  · rw [ne_eq, readRequest_eq_ok_iff, parseRequest_append]
    have hnone : parseRequest pathlessRequest = none := by decide
    simp [hnone]
  · rw [ne_eq, readRequest_eq_ok_iff, parseRequest_append]
    have hnone : parseRequest keylessRequest = none := by decide
    simp [hnone]
  · exact isValidHttpReq_append (by decide) _
  · rw [fullRequest, List.length_append, List.length_replicate]
    decide
  · refine readRequest_of_notMem ?_ req
    have hbegin : 0 ∉ ascii "GET / HTTP/1.1\r\n" := by decide
    simp [fullRequest, hbegin]

end LiburingServer
