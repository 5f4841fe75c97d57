import LiburingServer.WebReads
import LiburingServer.WebResponses

/-! The delivery of files. A regular file that does not change is delivered as it is, behind headers that say how long
it is, however few bytes each read of it returns. The size of the buffer is computed from that of the file, and is
right for files that have one. -/

namespace LiburingServer

/-! ### Reads of a file -/

/-- A short line of a header. -/
def ShortLine (line : Bytes) : Prop := ascii "\r\n" <:+ line ∧ line.length ≤ 40

instance (line : Bytes) : Decidable (ShortLine line) := inferInstanceAs (Decidable (_ ∧ _))

theorem shortLine_ite {c : Prop} [Decidable c] {line line' : Bytes} (h : ShortLine line) (h' : ShortLine line') :
    ShortLine (if c then line else line') := by
  split
  · exact h
  · exact h'

theorem shortLine_getContentType (p : Bytes) : ShortLine (getContentType p) := by
  unfold getContentType
  dsimp only
  iterate 11 refine shortLine_ite (by decide +kernel) ?_
  decide +kernel

/-- Headers have a line that says how long the file is. -/
theorem fileHeaders_contentLength (p : Bytes) (size : ℕ) (accept cached : Bool) (code : ℕ) :
    ascii "\r\nContent-Length: " ++ ascii (toString size) ++ ascii "\r\n" <:+:
      fileHeaders p size accept cached code := by
  obtain ⟨type, htype⟩ := (shortLine_getContentType p).1
  have hname : ascii "\r\nContent-Length: " = ascii "\r\n" ++ ascii "Content-Length: " := by decide +kernel
  cases accept with
  | true =>
      have hranges : ascii "Accept-Ranges: bytes\r\nContent-Length: " =
          ascii "Accept-Ranges: bytes" ++ ascii "\r\nContent-Length: " := by decide +kernel
      have hrange : ascii "\r\nRange: bytes=0-" = ascii "\r\n" ++ ascii "Range: bytes=0-" := by decide +kernel
      simp only [fileHeaders, if_true, hranges, hrange, List.append_assoc]
      apply List.infix_append_of_infix_right
      apply List.infix_append_of_infix_right
      apply List.infix_append_of_infix_right
      apply List.IsPrefix.isInfix
      rw [List.prefix_append_right_inj, List.prefix_append_right_inj]
      exact List.prefix_append _ _
  | false =>
      simp only [fileHeaders, Bool.false_eq_true, if_false, ← htype, hname, List.append_assoc]
      apply List.infix_append_of_infix_right
      apply List.infix_append_of_infix_right
      apply List.IsPrefix.isInfix
      rw [List.prefix_append_right_inj, List.prefix_append_right_inj, List.prefix_append_right_inj]
      exact List.prefix_append _ _

namespace RegularFile

variable {f : RegularFile} {accept : Bool} {code : ℕ} {fd : ℤ} {i amount n : ℕ} {req : Request}

/-- The completion of a read of the file in which `n` bytes are read. -/
def readAt (f : RegularFile) (read : KernelRead) (n : ℕ) : ℤ × Bytes := (n, (f.contents.drop read.offset).take n)

/-- A read of `n` bytes of the file after which its request goes on. -/
def next (f : RegularFile) (req : Request) (n : ℕ) : Option (Request × KernelRead) :=
  req.next (f.readAt req.continuedRead n)

/-- The request when `n` more bytes of the file have been read. -/
def advance (f : RegularFile) (req : Request) (n : ℕ) : Request :=
  { req with
    readData := Machine.stored req n (f.readAt req.continuedRead n).2
    readAmount := req.readAmount + n }

/-- What the reads of the file can return one after the other: something, no more than they ask for and no more than
what is left, or nothing once of an empty file. -/
def Readable (f : RegularFile) (amounts : List ℕ) : Prop :=
  ((∀ n ∈ amounts, 0 < n ∧ n ≤ readSize) ∧ amounts.sum ≤ f.contents.length) ∨ (f.contents = [] ∧ amounts = [0])

/-- The read of the file for a request of slot `i`, when `amount` bytes of the contents have been read. -/
structure Reading (f : RegularFile) (accept : Bool) (code : ℕ) (fd : ℤ) (i amount : ℕ) (req : Request) : Prop where
  filling : f.Filling accept code req
  readAmount : req.readAmount =
    (fileHeaders f.filepath f.contents.length accept false code).length + amount
  clientIdx : req.clientIdx = some i
  customInfo : req.customInfo = fd

theorem response_length (f : RegularFile) (accept : Bool) (code : ℕ) : (f.response accept code).length =
    (fileHeaders f.filepath f.contents.length accept false code).length + f.contents.length := by
  simp [response]

/-- The offset in the file is the number of bytes that have been read. -/
theorem Reading.continuedRead (h : f.Reading accept code fd i amount req) : req.continuedRead =
    ⟨fd, (fileHeaders f.filepath f.contents.length accept false code).length + amount, readSize, amount⟩ := by
  obtain ⟨hfilling, hamount, -, hfd⟩ := h
  have hlength := hfilling.length
  have hbound := hfilling.amount
  have hlt := hfilling.length_lt
  rw [f.response_length] at hlength hlt
  have hoffset : ((req.readAmount - ((req.readData.length : ℤ) - req.totalLength)) % 2 ^ 64).toNat = amount := by
    rw [hlength, hfilling.total]
    omega
  simp only [Request.continuedRead, hoffset, hfd]
  rw [hamount]

/-- A read of no more than what is left fills the buffer further, and does not change the request otherwise. -/
theorem Reading.advance (h : f.Reading accept code fd i amount req) (hn : amount + n ≤ f.contents.length) :
    f.Reading accept code fd i (amount + n) (f.advance req n) := by
  obtain ⟨hfilling, hamount, hidx, hfd⟩ := id h
  have hdelivers : f.Delivers req
      { index := 0, res := n, data := (f.readAt req.continuedRead n).2, env := {} } := by
    have hlength := hfilling.length
    have hbound := hfilling.amount
    rw [f.response_length] at hlength
    have hoffset : req.readAmount - (req.readData.length - req.totalLength) = amount := by
      rw [hlength, hfilling.total]
      omega
    simp only [Delivers, hoffset, readAt, h.continuedRead]
    constructor
    · simp only [List.length_take, List.length_drop]
      omega
    · exact List.take_prefix _ _
  obtain ⟨total, htotal, -, hfilled⟩ := hfilling.deliver hdelivers
  have hsum : (req.readAmount : ℤ) + n = total := htotal
  obtain rfl : req.readAmount + n = total := by exact_mod_cast hsum
  refine ⟨hfilled, ?_, hidx, hfd⟩
  simp only [RegularFile.advance, hamount]
  omega

/-- A completion with no more than what is left ends the request exactly when nothing is left after it. -/
theorem Reading.complete_eq (h : f.Reading accept code fd i amount req) (hn : amount + n ≤ f.contents.length) :
    req.complete n (f.readAt req.continuedRead n).2 =
      if amount + n = f.contents.length then .finished (f.response accept code)
      else .continued (f.advance req n) := by
  have hstored := h.advance hn
  have hlength := hstored.filling.length
  have hlt := hstored.filling.length_lt
  have hamount := h.readAmount
  have hbound := hstored.filling.amount
  rw [f.response_length] at hlength hlt
  simp only [RegularFile.advance] at hlength hbound
  have htaken : ((f.readAt req.continuedRead n).2.take (n : ℤ).toNat).length ≤ n := by simp
  have hsize := h.filling.length
  rw [f.response_length] at hsize
  have hfull : (((Machine.stored req n (f.readAt req.continuedRead n).2).length : ℕ) : ℤ) =
      (n + req.readAmount) % 2 ^ 64 ↔ amount + n = f.contents.length := by
    rw [hlength]
    omega
  have hnext : (((req.readAmount : ℤ) + n) % 2 ^ 64).toNat = req.readAmount + n := by omega
  unfold Request.complete
  dsimp only
  rw [if_neg (by omega), hnext]
  by_cases hlast : amount + n = f.contents.length
  · have hresponse := hstored.filling.full (by simp only [RegularFile.advance]; omega)
    rw [if_pos (hfull.mpr hlast), if_pos hlast]
    exact congrArg _ hresponse
  · rw [if_neg fun heq => hlast (hfull.mp heq), if_neg hlast, RegularFile.advance]

theorem Reading.next_eq (h : f.Reading accept code fd i amount req) (hn : amount + n < f.contents.length) :
    f.next req n = some (f.advance req n, (f.advance req n).continuedRead) := by
  have hcomplete := h.complete_eq hn.le
  rw [if_neg hn.ne] at hcomplete
  unfold RegularFile.next Request.next
  rw [show (f.readAt req.continuedRead n).1 = n from rfl, hcomplete]

/-- Reads after which something is left. -/
theorem Reading.exec (h : f.Reading accept code fd i amount req) {amounts : List ℕ}
    (hleft : amounts = [] ∨ amount + amounts.sum < f.contents.length) :
    ∃ r, Runs.exec f.next req amounts = some r ∧ f.Reading accept code fd i (amount + amounts.sum) r.1 := by
  induction amounts generalizing req amount with
  | nil => exact ⟨_, rfl, h⟩
  | cons n amounts ih =>
      have hsum : amount + (n + amounts.sum) < f.contents.length := by simpa using hleft
      have hn : amount + n < f.contents.length := by omega
      obtain ⟨r, hrun, hlast⟩ := ih (h.advance hn.le) (Or.inr (by omega))
      refine ⟨(r.1, (f.advance req n).continuedRead :: r.2), ?_, ?_⟩
      · simp only [Runs.exec, h.next_eq hn, hrun, Option.map_some]
      · rwa [List.sum_cons, ← Nat.add_assoc]

end RegularFile

variable {N : ℕ}

/-- The request that a file request of the file makes when the cache does not serve it. -/
theorem WebServer.reading_sendFileRequest {w w' : WebServer N} {env : WebEnv} {k i code : ℕ} {f : RegularFile}
    {accept : Bool} {calls : List TcpCall} (hsize : (env.files k).2 = f.contents.length)
    (hmiss : w.webCache.serves f.filepath = false)
    (hsend : w.sendFileRequest env k i f.filepath accept code = some (w', calls, true)) :
    let headers := fileHeaders f.filepath f.contents.length accept false code
    let req := Request.customRead (env.files k).1 f.contents.length (some i)
      (headers ++ List.replicate f.contents.length 0) headers.length
    calls.filterMap TcpCall.read = [(req, some f.filepath)] ∧
      f.Reading accept code (env.files k).1 i 0 req := by
  intro headers req
  obtain ⟨client, client', item, hfetch, hcs⟩ := sendFileRequest_opened hsend
  have hfound := (Cache.fetchItem_found hfetch).1
  rw [hmiss] at hfound
  rcases hcs with ⟨hhit, -⟩ | ⟨-, hfits, rfl⟩
  · simp [hfound] at hhit
  · rw [hsize] at hfits ⊢
    exact ⟨rfl, filling_start hfits rfl, rfl, rfl, rfl⟩

/-- **Delivery of a file.** When the cache does not serve a regular file that can be opened, its contents are read
behind headers that say how long it is. However few bytes each read returns, the next one begins where it ended, and
the read that returns the last byte, and no other, ends the request: the callback is given the headers and the
contents. -/
theorem file_read_delivered {N : ℕ} (w w' : WebServer N) (env : WebEnv) (k i : ℕ) (f : RegularFile) (accept : Bool)
    (code : ℕ) (calls : List TcpCall) (hsize : (env.files k).2 = f.contents.length)
    (hmiss : w.webCache.serves f.filepath = false)
    (hsend : w.sendFileRequest env k i f.filepath accept code = some (w', calls, true)) :
    let fd := (env.files k).1
    let headers := fileHeaders f.filepath f.contents.length accept false code
    ascii "\r\nContent-Length: " ++ ascii (toString f.contents.length) ++ ascii "\r\n" <:+: headers ∧
      ∃ req, calls.filterMap TcpCall.read = [(req, some f.filepath)] ∧
        req.continuedRead = Request.firstRead fd headers.length ∧
        ∀ amounts n, f.Readable (amounts ++ [n]) →
          ∃ r, Runs.exec f.next req amounts = some r ∧
            r.1.continuedRead = ⟨fd, headers.length + amounts.sum, readSize, amounts.sum⟩ ∧
            (amounts.sum + n < f.contents.length → ∃ req', f.next r.1 n = some (req', req'.continuedRead) ∧
              ∀ T env' (m : Machine (WebServer N)) sub, sub.req = r.1 →
                m.customRead T (webApp N) env' sub n (f.readAt r.1.continuedRead n).2 =
                  some (m.onTcp fun s => s.submit { sub with req := req' })) ∧
            (amounts.sum + n = f.contents.length → ∀ T env' (m : Machine (WebServer N)) sub, sub.req = r.1 →
              m.customRead T (webApp N) env' sub n (f.readAt r.1.continuedRead n).2 =
                (m.onTcp fun s => { s with
                  finishedReads := s.finishedReads ++ [(sub.file, headers ++ f.contents)] }).callback T
                  (.customRead (some i) fd (headers ++ f.contents))
                  (m.app.customReadCb env' (some i) fd (headers ++ f.contents))) := by
  intro fd headers
  obtain ⟨hreads, hreading⟩ := WebServer.reading_sendFileRequest hsize hmiss hsend
  refine ⟨fileHeaders_contentLength .., _, hreads, Request.continuedRead_customRead .., fun amounts n hreadable => ?_⟩
  have hleft : amounts = [] ∨ 0 + amounts.sum < f.contents.length := by
    rcases hreadable with ⟨hpos, hsum⟩ | ⟨-, hzero⟩
    · have hn := (hpos n (by simp)).1
      rw [List.sum_append, List.sum_singleton] at hsum
      omega
    · have hlength := congrArg List.length hzero
      rw [List.length_append, List.length_singleton, List.length_singleton] at hlength
      exact Or.inl (List.length_eq_zero_iff.mp (by omega))
  obtain ⟨r, hrun, hlast⟩ := hreading.exec hleft
  rw [Nat.zero_add] at hlast
  refine ⟨r, hrun, hlast.continuedRead, fun hn => ?_, fun hn T env' m sub hsub => ?_⟩
  · have hcomplete := hlast.complete_eq hn.le
    rw [if_neg hn.ne] at hcomplete
    refine ⟨_, hlast.next_eq hn, fun T env' m sub hsub => ?_⟩
    rw [Machine.customRead_eq, hsub, hcomplete]
  · have hcomplete := hlast.complete_eq hn.le
    rw [if_pos hn] at hcomplete
    rw [Machine.customRead_eq, hsub, hcomplete, hlast.clientIdx, hlast.customInfo]
    rfl

theorem file_read_delivered_two :
    let w : WebServer 2 := { inotifyFd := 7, tcpClients := [{}] }
    let env : WebEnv := { files := fun _ => (20, 3) }
    let f := threeBytes (ascii "public/a")
    ∃ w' calls req r, w.sendFileRequest env 0 0 f.filepath false 200 = some (w', calls, true) ∧
      calls.filterMap TcpCall.read = [(req, some f.filepath)] ∧ Runs.exec f.next req [1] = some r ∧
      r.1.continuedRead.offset = 1 ∧ ∀ m : Machine (WebServer 2), ∀ sub, sub.req = r.1 →
        m.customRead .nonTls (webApp 2) env sub 2 (f.readAt r.1.continuedRead 2).2 =
          (m.onTcp fun s => { s with
            finishedReads := s.finishedReads ++ [(sub.file, f.response false 200)] }).callback .nonTls
            (.customRead (some 0) 20 (f.response false 200))
            (m.app.customReadCb env (some 0) 20 (f.response false 200)) := by
  intro w env f
  have hsent : (w.sendFileRequest env 0 0 f.filepath false 200).any (fun r => r.2.2) = true := by decide +kernel
  simp only [Option.any_eq_true] at hsent
  obtain ⟨⟨w', calls, sent⟩, hsend, rfl⟩ := hsent
  obtain ⟨-, req, hreads, -, hall⟩ := file_read_delivered w w' env 0 0 f false 200 calls rfl (by decide +kernel) hsend
  obtain ⟨r, hrun, hread, -, hdone⟩ := hall [1] 2 (Or.inl (by decide))
  exact ⟨w', calls, req, r, hsend, hreads, hrun, congrArg KernelRead.offset hread,
    fun m sub hsub => hdone rfl .nonTls env m sub hsub⟩

/-! ### Sizes -/

/-- What an opened path is found to be: the size of a regular file is an `off_t`, that of a block device a
`uint64_t`. -/
inductive FileKind where
  | regular (size : ℕ) (h : size < 2 ^ 63)
  | blockDevice (size : ℕ) (h : size < 2 ^ 64)
  | other

namespace FileKind

/-- `get_file_size`; its `-1` is returned as a `uint64_t`. -/
def getFileSize : FileKind → ℕ
  | .regular size _ => size
  | .blockDevice size _ => size
  | .other => 2 ^ 64 - 1

/-- A regular file, or a block device whose size and headers of this length are less than 64 bits can hold. -/
def Measured (headers : ℕ) : FileKind → Prop
  | .regular _ _ => True
  | .blockDevice size _ => size + headers < 2 ^ 64
  | .other => False

theorem getFileSize_lt (kind : FileKind) : kind.getFileSize < 2 ^ 64 := by
  cases kind with
  | regular size h => exact h.trans (by decide)
  | blockDevice size h => exact h
  | other => decide

end FileKind

/-- Headers are neither empty nor long. -/
theorem fileHeaders_length (p : Bytes) {size : ℕ} (hsize : size < 2 ^ 64) (accept cached : Bool) (code : ℕ) :
    0 < (fileHeaders p size accept cached code).length ∧ (fileHeaders p size accept cached code).length < 512 := by
  have hfirst : (if code = 200 then ascii "HTTP/1.0 200 OK\r\n" else ascii "HTTP/1.0 404 Not Found\r\n").length ≤
      24 := by split <;> decide +kernel
  have htype := (shortLine_getContentType p).2
  have hdigits : (ascii (toString size)).length ≤ 20 := by
    have hrepr : (Nat.repr size).length ≤ 20 := (Nat.length_repr_le_iff (by decide)).mpr (hsize.trans (by decide))
    rw [ascii, List.length_map, String.length_toList]
    exact hrepr
  have hends : (ascii "\r\n").length = 2 := by decide +kernel
  have hcache : (if cached then ([] : Bytes) else
      ascii "Cache-Control: no-cache, no-store, must-revalidate\r\nPragma: no-cache\r\nExpires: 0\r\n").length ≤
      100 := by split <;> decide +kernel
  have hrange : (if accept then
      ascii "Accept-Ranges: bytes\r\nContent-Length: " ++ ascii (toString size) ++ ascii "\r\nRange: bytes=0-" ++
        ascii (toString size) ++ ascii "/"
      else ascii "Content-Length: ").length ≤ 120 := by
    split
    · have hranges : (ascii "Accept-Ranges: bytes\r\nContent-Length: ").length = 38 := by decide +kernel
      have hline : (ascii "\r\nRange: bytes=0-").length = 17 := by decide +kernel
      have hslash : (ascii "/").length = 1 := by decide +kernel
      simp only [List.length_append]
      omega
    · decide +kernel
  simp only [fileHeaders, List.length_append]
  omega

/-- The request for a file of this size that has its headers in the buffer when it is made. -/
theorem customRead_holds_iff (fd : ℤ) {size headers : ℕ} (hsize : size < 2 ^ 64) (clientIdx : Option ℕ) (buff : Bytes)
    (hheaders : headers < 2 ^ 64) :
    headers ≤ (Request.customRead fd size clientIdx buff headers).readData.length ↔ size + headers < 2 ^ 64 := by
  rw [Request.customRead_length]
  omega

/-- Whether a file request gets as far as the cache or the read is decided by the size of its buffer. -/
theorem WebServer.sendFileRequest_isSome {w : WebServer N} {env : WebEnv} {k i : ℕ} {p : Bytes} {accept : Bool}
    {code : ℕ} (hopen : 0 ≤ (env.files k).1) {client client' : TcpClient} {cache : Cache N} {item : CacheFetchItem N}
    (hclient : w.tcpClients[i]? = some client)
    (hfetch : w.webCache.fetchItem p i client = some (cache, client', item)) :
    (w.sendFileRequest env k i p accept code).isSome = true ↔
      (fileHeaders p (env.files k).2 accept item.found code).length ≤
        ((env.files k).2 + (fileHeaders p (env.files k).2 accept item.found code).length) % 2 ^ 64 := by
  unfold sendFileRequest
  dsimp only
  rw [if_neg (not_lt.mpr hopen), hclient]
  dsimp only
  rw [hfetch]
  dsimp only
  split_ifs with hsize hfound
  · simp only [Option.isSome_none, Bool.false_eq_true, false_iff, not_le]
    exact hsize
  · simp only [Option.isSome_some, true_iff]
    exact not_lt.mp hsize
  · simp only [Option.isSome_some, true_iff]
    exact not_lt.mp hsize

/-- **Sizes of file requests.** For a path that could be opened, the size of the buffer does not wrap, the headers fit
into the buffer, and the request that reads the file has them in its buffer, exactly if the path is a regular file, or
a block device that is not too large. -/
theorem file_request_sizes_iff {N : ℕ} (w : WebServer N) (env : WebEnv) (k i : ℕ) (p : Bytes) (accept : Bool)
    (code : ℕ) (kind : FileKind) (hopen : 0 ≤ (env.files k).1) (hsize : (env.files k).2 = kind.getFileSize)
    (client client' : TcpClient) (cache : Cache N) (item : CacheFetchItem N)
    (hclient : w.tcpClients[i]? = some client)
    (hfetch : w.webCache.fetchItem p i client = some (cache, client', item)) :
    let size := (env.files k).2
    let headers := (fileHeaders p size accept item.found code).length
    ((size + headers) % 2 ^ 64 = size + headers ∧ (w.sendFileRequest env k i p accept code).isSome = true ∧
      ∀ buff, headers ≤ (Request.customRead (env.files k).1 size (some i) buff headers).readData.length) ↔
      kind.Measured headers := by
  intro size headers
  have hlt : size < 2 ^ 64 := by
    show (env.files k).2 < 2 ^ 64
    rw [hsize]
    exact kind.getFileSize_lt
  obtain ⟨hpos, hshort⟩ : 0 < headers ∧ headers < 512 := fileHeaders_length p hlt accept item.found code
  have hsmall : headers < 2 ^ 64 := by omega
  have hheld := fun buff => customRead_holds_iff (env.files k).1 hlt (some i) buff hsmall
  have hwraps : ((size + headers) % 2 ^ 64 = size + headers ∧
      (w.sendFileRequest env k i p accept code).isSome = true ∧
      ∀ buff, headers ≤ (Request.customRead (env.files k).1 size (some i) buff headers).readData.length) ↔
      size + headers < 2 ^ 64 := by
    rw [WebServer.sendFileRequest_isSome hopen hclient hfetch, forall_congr' hheld]
    show _ ∧ headers ≤ (size + headers) % 2 ^ 64 ∧ _ ↔ _
    constructor
    · rintro ⟨-, -, hfits⟩
      exact hfits []
    · intro hfits
      exact ⟨Nat.mod_eq_of_lt hfits, by omega, fun _ => hfits⟩
  rw [hwraps]
  have hkind : size = kind.getFileSize := hsize
  cases kind with
  | regular n h =>
      have hn : size = n := hkind
      simp only [FileKind.Measured, iff_true]
      omega
  | blockDevice n h =>
      have hn : size = n := hkind
      rw [FileKind.Measured, hn]
  | other =>
      have hn : size = 2 ^ 64 - 1 := hkind
      simp only [FileKind.Measured, iff_false]
      omega

theorem file_request_sizes_iff_regular :
    let w : WebServer 2 := { inotifyFd := 7, tcpClients := [{}] }
    let env : WebEnv := { files := fun _ => (20, 3) }
    let headers := (fileHeaders (ascii "public/a") 3 false false 200).length
    (3 + headers) % 2 ^ 64 = 3 + headers ∧ (w.sendFileRequest env 0 0 (ascii "public/a") false 200).isSome = true ∧
      ∀ buff, headers ≤ (Request.customRead 20 3 (some 0) buff headers).readData.length := by
  intro w env headers
  exact (file_request_sizes_iff w env 0 0 (ascii "public/a") false 200 (.regular 3 (by decide)) (by decide) rfl {} _ _ _
    rfl rfl).mpr trivial

/-- A client asks for a directory. Its size is taken to be the largest there is, and the size of the buffer wraps to
less than the headers, which are copied into it all the same. -/
theorem file_request_of_directory :
    let env : WebEnv := { files := fun _ => (20, FileKind.getFileSize .other) }
    let headers := (fileHeaders (ascii "public/images") (FileKind.getFileSize .other) false false 200).length
    (FileKind.getFileSize .other + headers) % 2 ^ 64 = headers - 1 ∧ 0 < headers ∧
      (∀ buff, (Request.customRead 20 (FileKind.getFileSize .other) (some 0) buff headers).readData.length < headers) ∧
      ∃ m logs, Runs.exec (Machine.step .nonTls (webApp 2)) (webStart 2 7) [{ index := 4, res := 10, env }] =
          some (m, logs) ∧
        Machine.step .nonTls (webApp 2) m
          { index := 5
            res := (ascii "GET /images HTTP/1.0\r\n").length
            data := ascii "GET /images HTTP/1.0\r\n"
            env } = none := by
  intro env headers
  refine ⟨by decide +kernel, by decide +kernel, fun buff => ?_, ?_⟩
  · rw [Request.customRead_length]
    decide +kernel
  · have hsome : (Runs.exec (Machine.step .nonTls (webApp 2)) (webStart 2 7) [{ index := 4, res := 10, env }]).any
        (fun r => (Machine.step .nonTls (webApp 2) r.1
          { index := 5
            res := (ascii "GET /images HTTP/1.0\r\n").length
            data := ascii "GET /images HTTP/1.0\r\n"
            env }).isNone) = true := by decide +kernel
    simp only [Option.any_eq_true, Option.isNone_iff_eq_none] at hsome
    obtain ⟨⟨m, logs⟩, hrun, hnone⟩ := hsome
    exact ⟨m, logs, hrun, hnone⟩

end LiburingServer
