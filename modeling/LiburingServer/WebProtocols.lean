import LiburingServer.WebServer

/-! Which protocol a read is taken for. A read of an upgraded connection that begins like a request is
answered as one: the bytes decide before the state of the connection is looked at. Frames with zero
reserved bits never begin like a request, so only a read that begins inside a frame can. -/

namespace LiburingServer

/-- How many bytes of its frame stand before the byte at `n` of a stream of frames. -/
def offsetInFrame : List ClientFrame → ℕ → ℕ
  | [], n => n
  | f :: frames, n => if n < f.encode.length then n else offsetInFrame frames (n - f.encode.length)

/-- At least 16 bytes that begin with the name of a method and a space. -/
def BeginsLikeRequest (chunk : Bytes) : Prop :=
  16 ≤ chunk.length ∧ ∃ method ∈ ["GET ", "POST ", "PUT ", "DELETE ", "PATCH "], ascii method <+: chunk

instance : DecidablePred BeginsLikeRequest := fun chunk =>
  inferInstanceAs (Decidable (16 ≤ chunk.length ∧
    ∃ method ∈ ["GET ", "POST ", "PUT ", "DELETE ", "PATCH "], ascii method <+: chunk))

/-- No read that begins two or more bytes into a frame begins like a request. -/
def NoRequestInside (frames : List ClientFrame) (chunks : List Bytes) : Prop :=
  ∀ k (hk : k < chunks.length),
    2 ≤ offsetInFrame frames (chunks.take k).flatten.length → ¬BeginsLikeRequest chunks[k]

instance (frames : List ClientFrame) (chunks : List Bytes) : Decidable (NoRequestInside frames chunks) :=
  inferInstanceAs (Decidable (∀ k (hk : k < chunks.length),
    2 ≤ offsetInFrame frames (chunks.take k).flatten.length → ¬BeginsLikeRequest chunks[k]))

/-- The read callback passes the bytes to the websocket, whatever active connection they were read from. -/
def HandedToWebsocket (N : ℕ) (chunk : Bytes) : Prop :=
  ∀ (env : WebEnv) (w : WebServer N) (i : ℕ), i ∈ w.activeWebsocketConnectionsClientIdxs →
    w.readCb env i chunk =
      (w.websocketProcessReadCb env i chunk).map fun r => (r.1, r.2 ++ [.readConnection i])

theorem isValidHttpReq_eq_true {chunk : Bytes} : isValidHttpReq chunk = true ↔ BeginsLikeRequest chunk := by
  simp [isValidHttpReq, BeginsLikeRequest]

theorem handedToWebsocket_of_not_request {N : ℕ} {chunk : Bytes} (h : ¬BeginsLikeRequest chunk) :
    HandedToWebsocket N chunk := by
  intro env w i hi
  have hinvalid : ¬isValidHttpReq chunk = true := fun hvalid => h (isValidHttpReq_eq_true.mp hvalid)
  rw [WebServer.readCb, if_neg hinvalid, if_pos hi]

/-! ### The first bytes of a frame -/

/-- The first byte of a method's name has a reserved bit of a frame set and the masking bit not set. -/
theorem BeginsLikeRequest.head {chunk : Bytes} (h : BeginsLikeRequest chunk) :
    ∃ b rest, chunk = b :: rest ∧ b &&& 0x70 ≠ 0 ∧ b &&& 0x80 = 0 := by
  obtain ⟨-, method, hmethod, rest, rfl⟩ := h
  simp only [List.mem_cons, List.not_mem_nil, or_false] at hmethod
  rcases hmethod with rfl | rfl | rfl | rfl | rfl
  all_goals exact ⟨_, _, rfl, by decide, by decide⟩

/-- The second byte of a frame has the masking bit set. -/
theorem ClientFrame.encode_eq_cons (f : ClientFrame) :
    ∃ b rest, f.encode = f.first :: b :: rest ∧ b &&& 0x80 ≠ 0 := by
  have hfits := f.fits
  cases hform : f.form with
  | bits7 =>
      refine ⟨(128 + f.payload.length).toUInt8, List.ofFn f.maskingKey ++ f.payload, ?_, ?_⟩
      · simp [ClientFrame.encode, hform, LengthForm.header]
      · rw [hform] at hfits
        have hmasked : ∀ n < 126, (128 + n).toUInt8 &&& 0x80 ≠ 0 := by decide
        exact hmasked _ hfits
  | bits16 =>
      refine ⟨254, bigEndianBytes f.payload.length 2 ++ (List.ofFn f.maskingKey ++ f.payload), ?_, by decide⟩
      simp [ClientFrame.encode, hform, LengthForm.header]
  | bits64 =>
      refine ⟨255, bigEndianBytes f.payload.length 8 ++ (List.ofFn f.maskingKey ++ f.payload), ?_, by decide⟩
      simp [ClientFrame.encode, hform, LengthForm.header]

/-- What stands at the start of a frame, or one byte behind it, does not begin like a request. -/
theorem not_request_of_offset {frames : List ClientFrame} (hrsv : ∀ f ∈ frames, f.first &&& 0x70 = 0) {n : ℕ}
    (hn : offsetInFrame frames n < 2) {chunk : Bytes}
    (hchunk : chunk <+: ((frames.map ClientFrame.encode).flatten).drop n) : ¬BeginsLikeRequest chunk := by
  intro hrequest
  obtain ⟨b, rest, rfl, hreserved, hmask⟩ := hrequest.head
  obtain ⟨after, hafter⟩ := hchunk
  induction frames generalizing n with
  | nil => simp at hafter
  | cons f frames ih =>
      rw [List.map_cons, List.flatten_cons] at hafter
      simp only [offsetInFrame] at hn
      split at hn
      · obtain ⟨second, tail, hencode, hmasked⟩ := f.encode_eq_cons
        rw [hencode] at hafter
        obtain rfl | rfl : n = 0 ∨ n = 1 := by omega
        · obtain ⟨rfl, -⟩ : b = f.first ∧ _ := by simpa using hafter
          exact hreserved (hrsv f (by simp))
        · obtain ⟨rfl, -⟩ : b = second ∧ _ := by simpa using hafter
          exact hmasked hmask
      · rename_i hpast
        have hpast : f.encode.length ≤ n := Nat.le_of_not_lt hpast
        rw [List.drop_append, List.drop_eq_nil_of_le hpast, List.nil_append] at hafter
        exact ih (fun g hg => hrsv g (List.mem_cons_of_mem _ hg)) hn hafter

/-- **The protocol of an upgraded connection.** However much of a stream of masked frames with zero reserved
bits is cut into reads, every read is passed to the websocket, and none is taken for a request, exactly if no
read that begins two or more bytes into a frame begins like a request. -/
theorem chunks_handed_iff (N : ℕ) (frames : List ClientFrame) (hrsv : ∀ f ∈ frames, f.first &&& 0x70 = 0)
    (chunks : List Bytes) (hsplit : chunks.flatten <+: (frames.map ClientFrame.encode).flatten) :
    (∀ chunk ∈ chunks, HandedToWebsocket N chunk ∧ isValidHttpReq chunk = false) ↔
      NoRequestInside frames chunks := by
  constructor
  · intro h k hk _ hrequest
    have hvalid : isValidHttpReq chunks[k] = true := isValidHttpReq_eq_true.mpr hrequest
    have hinvalid : isValidHttpReq chunks[k] = false := (h _ (List.getElem_mem hk)).2
    rw [hvalid] at hinvalid
    cases hinvalid
  · intro h chunk hmem
    obtain ⟨k, hk, rfl⟩ := List.mem_iff_getElem.mp hmem
    have hrequest : ¬BeginsLikeRequest chunks[k] := by
      by_cases hoffset : 2 ≤ offsetInFrame frames (chunks.take k).flatten.length
      · exact h k hk hoffset
      · -- the read is what stands behind the reads before it
        have hparts : chunks.flatten = (chunks.take k).flatten ++ (chunks[k] ++ (chunks.drop (k + 1)).flatten) := by
          calc chunks.flatten = (chunks.take k ++ chunks.drop k).flatten := by rw [List.take_append_drop]
            _ = (chunks.take k).flatten ++ (chunks.drop k).flatten := List.flatten_append
            _ = (chunks.take k).flatten ++ (chunks[k] ++ (chunks.drop (k + 1)).flatten) := by
                rw [List.drop_eq_getElem_cons hk, List.flatten_cons]
        obtain ⟨rest, hrest⟩ := hsplit
        rw [hparts, List.append_assoc, List.append_assoc] at hrest
        refine not_request_of_offset hrsv (Nat.lt_of_not_le hoffset) ⟨(chunks.drop (k + 1)).flatten ++ rest, ?_⟩
        rw [← hrest, List.drop_left]
    refine ⟨handedToWebsocket_of_not_request hrequest, ?_⟩
    rw [Bool.eq_false_iff]
    exact fun hvalid => hrequest (isValidHttpReq_eq_true.mp hvalid)

/-- A final text frame that is masked with zeros. -/
def requestFrame : ClientFrame where
  first := 0x81
  form := .bits7
  maskingKey := fun _ => 0
  payload := ascii "GET / HTTP/1.1\r\n"
  fits := by decide

/-- The frame in two reads, cut after `n` bytes. -/
def requestReads (n : ℕ) : List Bytes := [requestFrame.encode.take n, requestFrame.encode.drop n]

/-- The request is cut after its first byte. -/
theorem chunks_handed_seven :
    (requestReads 7).flatten = requestFrame.encode ∧
      ∀ chunk ∈ requestReads 7, HandedToWebsocket 1 chunk ∧ isValidHttpReq chunk = false := by
  have hsplit : (requestReads 7).flatten = requestFrame.encode := by decide
  refine ⟨hsplit, (chunks_handed_iff 1 [requestFrame] (by decide) (requestReads 7) ?_).mpr (by decide)⟩
  rw [hsplit]
  exact ⟨[], by simp⟩

/-- A client upgrades its connection and sends the frame, cut behind its header. What is read then is answered
with a file, which is read for the websocket. -/
theorem chunk_taken_for_request :
    (requestReads 6).flatten = requestFrame.encode ∧ requestFrame.first &&& 0x70 = 0 ∧
      (¬∀ chunk ∈ requestReads 6, HandedToWebsocket 1 chunk ∧ isValidHttpReq chunk = false) ∧
      ∃ m logs, Runs.exec (Machine.step .nonTls (webApp 1)) (webStart 1 9)
          [{ index := 4, res := 10, env := {} },
            { index := 5, res := upgradeRequest.length, data := upgradeRequest, env := {} },
            { index := 5, res := 101, env := {} },
            { index := 5, res := 6, data := requestFrame.encode.take 6, env := {} },
            { index := 5, res := 16, data := requestFrame.encode.drop 6,
              env := { files := fun _ => (20, 3) } }] = some (m, logs) ∧
        0 ∈ m.app.activeWebsocketConnectionsClientIdxs ∧
        ∃ sub ∈ m.tcp.inflight, sub.req.clientIdx = some 0 ∧ sub.file = some (ascii "public/index.html") := by
  have hsome : (Runs.exec (Machine.step .nonTls (webApp 1)) (webStart 1 9)
          [{ index := 4, res := 10, env := {} },
            { index := 5, res := upgradeRequest.length, data := upgradeRequest, env := {} },
            { index := 5, res := 101, env := {} },
            { index := 5, res := 6, data := requestFrame.encode.take 6, env := {} },
            { index := 5, res := 16, data := requestFrame.encode.drop 6,
              env := { files := fun _ => (20, 3) } }]).any
      (fun r => 0 ∈ r.1.app.activeWebsocketConnectionsClientIdxs ∧
        ∃ sub ∈ r.1.tcp.inflight, sub.req.clientIdx = some 0 ∧ sub.file = some (ascii "public/index.html")) =
      true := by decide +kernel
  simp only [Option.any_eq_true, decide_eq_true_eq] at hsome
  obtain ⟨⟨m, logs⟩, hrun, hactive, hfile⟩ := hsome
  have hvalid : ¬isValidHttpReq (requestFrame.encode.drop 6) = false := by decide
  refine ⟨by decide, by decide, fun h => hvalid (h _ ?_).2, m, logs, hrun, hactive, hfile⟩
  simp [requestReads]

end LiburingServer
