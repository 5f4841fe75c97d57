import LiburingServer.WebServer
import LiburingServer.Lib.Base64
import LiburingServer.Lib.HttpMessage

/-! The responses as messages of HTTP: a file behind the headers of `send_file_request`, and the answer to a websocket
request. What a client receives is read from the front of its stream. -/

namespace LiburingServer

open HttpMessage

/-! ### Files -/

theorem ascii_toString (n : ℕ) : ascii (toString n) = decimal n := by
  rw [ascii, decimal, show toString n = n.repr from rfl, Nat.toList_repr]

/-- A field whose name and value are fixed. -/
def textField (name value : String) (h : ValidName (ascii name) ∧ ValidValue (ascii value)) : Field :=
  ⟨ascii name, ascii value, h.1, h.2⟩

/-- The field on a line and its end. -/
def lineField (line : Bytes) : Option Field := (parseField line.dropLast.dropLast).filter fun f => f.encode ++ crlf = line

theorem lineField_eq_some {line : Bytes} {f : Field} (h : lineField line = some f) : line = f.encode ++ crlf := by
  obtain ⟨-, heq⟩ := Option.filter_eq_some_iff.mp h
  exact (of_decide_eq_true heq).symm

/-- The line is a field that says what the type of the contents is. -/
def IsContentType (line : Bytes) : Prop := ∃ f ∈ lineField line, f.name = ascii "Content-Type"

instance (line : Bytes) : Decidable (IsContentType line) :=
  inferInstanceAs (Decidable (∃ f ∈ lineField line, f.name = ascii "Content-Type"))

theorem isContentType_ite {c : Prop} [Decidable c] {line line' : Bytes} (h : IsContentType line)
    (h' : IsContentType line') : IsContentType (if c then line else line') := by
  split
  · exact h
  · exact h'

theorem isContentType_getContentType (p : Bytes) : IsContentType (getContentType p) := by
  unfold getContentType
  dsimp only
  iterate 11 refine isContentType_ite (by decide +kernel) ?_
  decide +kernel

theorem decimal_text {n : ℕ} {b : UInt8} (hb : b ∈ decimal n) : IsText b ∧ ¬IsBlank b := by
  obtain ⟨hlow, hhigh⟩ := mem_decimal hb
  have hall : ∀ b : Fin 256, 48 ≤ b.val → b.val ≤ 57 → IsText b.val.toUInt8 ∧ ¬IsBlank b.val.toUInt8 := by
    decide +kernel
  have hb := hall ⟨b.toNat, b.toNat_lt⟩ (UInt8.le_iff_toNat_le.mp hlow) (UInt8.le_iff_toNat_le.mp hhigh)
  simpa using hb

/-- `Content-Length`. -/
def lengthField (size : ℕ) : Field :=
  ⟨lengthName, decimal size, by decide +kernel, validValue_of_text fun _ => decimal_text⟩

/-- `Range`, which names the size twice. -/
def rangeField (size : ℕ) : Field :=
  ⟨ascii "Range", ascii "bytes=0-" ++ decimal size ++ ascii "/" ++ decimal size, by decide +kernel,
    validValue_of_text fun b hb => by
      have hfixed : ∀ b ∈ ascii "bytes=0-" ++ ascii "/", IsText b ∧ ¬IsBlank b := by decide +kernel
      simp only [List.mem_append] at hb
      rcases hb with ((hb | hb) | hb) | hb
      · exact hfixed b (List.mem_append_left _ hb)
      · exact decimal_text hb
      · exact hfixed b (List.mem_append_right _ hb)
      · exact decimal_text hb⟩

def acceptRanges : Field := textField "Accept-Ranges" "bytes" (by decide +kernel)

/-- What forbids to cache a file that the server itself has not cached. -/
def noCache : List Field :=
  [textField "Cache-Control" "no-cache, no-store, must-revalidate" (by decide +kernel),
    textField "Pragma" "no-cache" (by decide +kernel), textField "Expires" "0" (by decide +kernel)]

/-- The head of the response with a file. -/
def fileHead (type : Field) (size : ℕ) (acceptBytes cached : Bool) (responseCode : ℕ) : Head where
  first := ascii "HTTP/1.0"
  second := if responseCode = 200 then ascii "200" else ascii "404"
  third := if responseCode = 200 then ascii "OK" else ascii "Not Found"
  fields := type :: ((if acceptBytes then [acceptRanges, lengthField size, rangeField size] else [lengthField size]) ++
    if cached then [] else noCache)
  validFirst := by decide +kernel
  validSecond := by split <;> decide +kernel
  validThird := by split <;> decide +kernel

/-- The headers are the head of a message. -/
theorem fileHeaders_eq_encode (p : Bytes) (size : ℕ) (acceptBytes cached : Bool) (responseCode : ℕ) :
    ∃ type : Field, type.name = ascii "Content-Type" ∧ getContentType p = type.encode ++ crlf ∧
      fileHeaders p size acceptBytes cached responseCode =
        (fileHead type size acceptBytes cached responseCode).encode := by
  obtain ⟨type, htype, hname⟩ := isContentType_getContentType p
  have hline := lineField_eq_some htype
  refine ⟨type, hname, hline, ?_⟩
  have hstart : (if responseCode = 200 then ascii "HTTP/1.0 200 OK\r\n" else ascii "HTTP/1.0 404 Not Found\r\n") =
      (fileHead type size acceptBytes cached responseCode).startLine ++ crlf := by
    unfold Head.startLine fileHead
    dsimp only
    split <;> decide +kernel
  have hranges : ascii "Accept-Ranges: bytes\r\nContent-Length: " =
      acceptRanges.encode ++ (crlf ++ (lengthName ++ [58, 32])) := by decide +kernel
  have hrange : ascii "\r\nRange: bytes=0-" = crlf ++ (ascii "Range" ++ ([58, 32] ++ ascii "bytes=0-")) := by
    decide +kernel
  have hlength : ascii "Content-Length: " = lengthName ++ [58, 32] := by decide +kernel
  have hend : ascii "\r\n" = crlf := by decide +kernel
  have hcache : ascii "Cache-Control: no-cache, no-store, must-revalidate\r\nPragma: no-cache\r\nExpires: 0\r\n" =
      (noCache.map Field.encode).flatMap fun line => line ++ crlf := by decide +kernel
  unfold fileHeaders
  rw [hstart, hline, hend, hcache, ascii_toString, hranges, hrange, hlength]
  cases acceptBytes <;> cases cached <;>
    simp [Head.encode, Head.lines, fileHead, Field.encode, lengthField, rangeField]

theorem fileHead_contentLength {type : Field} (hname : type.name = ascii "Content-Type") (size : ℕ)
    (acceptBytes cached : Bool) (responseCode : ℕ) :
    (fileHead type size acceptBytes cached responseCode).contentLength = some size := by
  have hother : ∀ f ∈ [acceptRanges, rangeField size] ++ noCache,
      ¬f.name.map lowercase = lengthName.map lowercase := by
    intro f hf
    have hnames : ([acceptRanges, rangeField size] ++ noCache).map Field.name =
        [ascii "Accept-Ranges", ascii "Range", ascii "Cache-Control", ascii "Pragma", ascii "Expires"] := rfl
    have hmem : f.name ∈ [ascii "Accept-Ranges", ascii "Range", ascii "Cache-Control", ascii "Pragma",
        ascii "Expires"] := hnames ▸ List.mem_map_of_mem hf
    have hnot : ∀ name ∈ [ascii "Accept-Ranges", ascii "Range", ascii "Cache-Control", ascii "Pragma",
        ascii "Expires"], ¬name.map lowercase = lengthName.map lowercase := by decide +kernel
    exact hnot _ hmem
  have htype : ¬type.name.map lowercase = lengthName.map lowercase := by
    rw [hname]
    decide +kernel
  have hranges := hother acceptRanges (by simp)
  have hrange := hother (rangeField size) (by simp)
  have hcache : noCache.filter (fun f => f.name.map lowercase = lengthName.map lowercase) = [] :=
    List.filter_eq_nil_iff.mpr fun f hf => by simpa using hother f (List.mem_append_right _ hf)
  have hvalues : (fileHead type size acceptBytes cached responseCode).values lengthName = [decimal size] := by
    unfold Head.values fileHead
    cases acceptBytes <;> cases cached <;> simp [htype, hranges, hrange, hcache, lengthField]
  rw [Head.contentLength, hvalues]
  exact ofDecimal_decimal size

/-- The response with a file. -/
def fileMessage (type : Field) (hname : type.name = ascii "Content-Type") (contents : Bytes)
    (acceptBytes cached : Bool) (responseCode : ℕ) : Message :=
  ⟨fileHead type contents.length acceptBytes cached responseCode, contents, fileHead_contentLength hname ..⟩

/-- The headers and the file are a message. -/
theorem fileHeaders_append_eq_encode (p contents : Bytes) (acceptBytes cached : Bool) (responseCode : ℕ) :
    ∃ type hname, getContentType p = type.encode ++ crlf ∧
      fileHeaders p contents.length acceptBytes cached responseCode ++ contents =
        (fileMessage type hname contents acceptBytes cached responseCode).encode := by
  obtain ⟨type, hname, hline, hheaders⟩ := fileHeaders_eq_encode p contents.length acceptBytes cached responseCode
  refine ⟨type, hname, hline, ?_⟩
  rw [hheaders]
  rfl

/-! ### Websockets -/

/-- `get_accept_header_value`; `sha1` is what `SHA1` of OpenSSL writes to `hash`. -/
def getAcceptHeaderValue (sha1 : Bytes → Bytes) (input : Bytes) : Bytes :=
  Base64.encode (sha1 (input ++ ascii "258EAFA5-E914-47DA-95CA-C5AB0DC85B11"))

/-- The digest of the key `dGhlIHNhbXBsZSBub25jZQ==` and the fixed text behind it. -/
def sampleDigest : Bytes :=
  [0xb3, 0x7a, 0x4f, 0x2c, 0xc0, 0x62, 0x4f, 0x16, 0x90, 0xf6, 0x46, 0x06, 0xcf, 0x38, 0x59, 0x45, 0xb2, 0xbe, 0xc4,
    0xea]

example : getAcceptHeaderValue (fun _ => sampleDigest) (ascii "dGhlIHNhbXBsZSBub25jZQ==") =
    ascii "s3pPLMBiTxaQ9kYGzzhZRbK+xOo=" := by decide +kernel

/-- The characters of Base64 can stand in a field. -/
theorem validValue_encode (s : Bytes) : ValidValue (Base64.encode s) := by
  refine validValue_of_text fun b hb => ?_
  rcases Base64.mem_encode hb with rfl | ⟨n, hn, rfl⟩
  · decide
  · have hall : ∀ n : Fin 64, IsText (Base64.symbol n) ∧ ¬IsBlank (Base64.symbol n) := by decide +kernel
    exact hall ⟨n, hn⟩

/-- The text of `websocket_accept_read_cb`. -/
def upgradeResponse (value : Bytes) : Bytes :=
  ascii "HTTP/1.1 101 Switching Protocols\r\nUpgrade: websocket\r\nConnection: Upgrade\r\n" ++
    ascii "Sec-WebSocket-Accept: " ++ value ++ ascii "\r\n\r\n"

theorem websocketAcceptReadCb_answers {N : ℕ} {env : WebEnv} {w w' : WebServer N} {i : ℕ} {key : Bytes}
    {calls : List TcpCall} (h : w.websocketAcceptReadCb env i key = some (w', calls)) :
    calls = [.writeConnection i (upgradeResponse (env.acceptHeaderValue key))] := by
  unfold WebServer.websocketAcceptReadCb at h
  dsimp only at h
  split at h
  · cases h
  · split at h
    · cases h
    · obtain ⟨-, rfl⟩ := Prod.mk.inj (Option.some.inj h)
      rfl

/-- The head of the answer to a websocket request. -/
def upgradeHead (value : Bytes) (h : ValidValue value) : Head where
  first := ascii "HTTP/1.1"
  second := ascii "101"
  third := ascii "Switching Protocols"
  fields := [textField "Upgrade" "websocket" (by decide +kernel), textField "Connection" "Upgrade" (by decide +kernel),
    ⟨ascii "Sec-WebSocket-Accept", value, by decide +kernel, h⟩]
  validFirst := by decide +kernel
  validSecond := by decide +kernel
  validThird := by decide +kernel

theorem upgradeHead_values {value : Bytes} (h : ValidValue value) (name : Bytes) : (upgradeHead value h).values name =
    (if (ascii "Upgrade").map lowercase = name.map lowercase then [ascii "websocket"] else []) ++
      ((if (ascii "Connection").map lowercase = name.map lowercase then [ascii "Upgrade"] else []) ++
        if (ascii "Sec-WebSocket-Accept").map lowercase = name.map lowercase then [value] else []) := by
  unfold Head.values upgradeHead textField
  simp only [List.filter_cons, decide_eq_true_eq, List.filter_nil]
  split_ifs <;> rfl

theorem upgradeHead_contentLength {value : Bytes} (h : ValidValue value) :
    (upgradeHead value h).contentLength = some 0 := by
  have hvalues : (upgradeHead value h).values lengthName = [] := by
    rw [upgradeHead_values, if_neg (by decide +kernel), if_neg (by decide +kernel), if_neg (by decide +kernel)]
    rfl
  rw [Head.contentLength, hvalues]

/-- The answer to a websocket request; frames follow it. -/
def upgradeMessage (value : Bytes) (h : ValidValue value) : Message :=
  ⟨upgradeHead value h, [], upgradeHead_contentLength h⟩

theorem upgradeResponse_eq_encode {value : Bytes} (h : ValidValue value) :
    upgradeResponse value = (upgradeMessage value h).encode := by
  have hfront : ascii "HTTP/1.1 101 Switching Protocols\r\nUpgrade: websocket\r\nConnection: Upgrade\r\n" ++
      ascii "Sec-WebSocket-Accept: " = ((upgradeHead value h).startLine ++ crlf) ++
        ((textField "Upgrade" "websocket" (by decide +kernel)).encode ++ crlf) ++
        ((textField "Connection" "Upgrade" (by decide +kernel)).encode ++ crlf) ++
        (ascii "Sec-WebSocket-Accept" ++ [58, 32]) := by
    dsimp only [Head.startLine, upgradeHead]
    decide +kernel
  have hend : ascii "\r\n\r\n" = crlf ++ crlf := by decide +kernel
  rw [upgradeResponse, hfront, hend]
  simp [upgradeMessage, Message.encode, Head.encode, Head.lines, upgradeHead, Field.encode]

end LiburingServer
