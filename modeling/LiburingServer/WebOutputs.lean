import LiburingServer.HttpResponses
import LiburingServer.WebReads
import LiburingServer.WebResponses
import LiburingServer.WsMessages

/-! What the web server writes. Every buffer that its callbacks hand to `write_connection` is a whole message: a
response of HTTP whose fields say how long it is, or a final frame without a mask. -/

namespace LiburingServer

open HttpMessage

variable {N : ℕ}

/-- A response that a client receives from the front of its stream, with nothing left of it. -/
def IsResponse (b : Bytes) : Prop :=
  ∃ m : Message, m.head.second ∈ [ascii "200", ascii "404", ascii "101"] ∧ ∀ rest, receive (b ++ rest) = some (m, rest)

/-- A final frame without a mask that answers a ping or closes the websocket. -/
def IsReply (b : Bytes) : Prop :=
  ∃ f : Websocket.Frame, f.fin = true ∧ f.maskingKey = none ∧
    (f.opcode.val = 0xA ∨ f.opcode.val = 0x8 ∧ f.payload = []) ∧ ∀ rest, Websocket.decode (b ++ rest) = some (f, rest)

theorem isResponse_file {p b : Bytes} {size : ℕ} {accept : Bool} {code : ℕ}
    (hlength : b.length = (fileHeaders p size accept false code).length + size)
    (hheaders : b.take (fileHeaders p size accept false code).length = fileHeaders p size accept false code) :
    IsResponse b := by
  set headers := fileHeaders p size accept false code with hset
  have hsize : (b.drop headers.length).length = size := by
    rw [List.length_drop]
    omega
  have hb : b = headers ++ b.drop headers.length := by
    calc b = b.take headers.length ++ b.drop headers.length := (List.take_append_drop _ _).symm
      _ = headers ++ b.drop headers.length := by rw [hheaders]
  obtain ⟨type, hname, -, heq⟩ := fileHeaders_append_eq_encode p (b.drop headers.length) accept false code
  rw [hsize, ← hset, ← hb] at heq
  refine ⟨_, ?_, fun rest => heq ▸ receive_encode _ rest⟩
  unfold fileMessage fileHead
  dsimp only
  split <;> simp

theorem isResponse_upgrade {value : Bytes} (h : ValidValue value) : IsResponse (upgradeResponse value) :=
  ⟨upgradeMessage value h, by simp [upgradeMessage, upgradeHead],
    fun rest => upgradeResponse_eq_encode h ▸ receive_encode _ rest⟩

theorem isReply_makeWsFrame {payload : Bytes} {opcode : Fin 16}
    (hopcode : opcode.val = 0xA ∨ opcode.val = 0x8 ∧ payload = [])
    (hsize : (makeWsFrame payload opcode.val.toUInt8).length < 2 ^ 63) :
    IsReply (makeWsFrame payload opcode.val.toUInt8) := by
  have hpayload : payload.length < 2 ^ 63 := by
    refine lt_of_le_of_lt ?_ hsize
    simp only [makeWsFrame, List.length_cons, List.length_append]
    omega
  refine ⟨messageFrame payload opcode hpayload, rfl, rfl, hopcode, fun rest => ?_⟩
  rw [makeWsFrame_eq_encode opcode hpayload]
  exact Websocket.decode_encode _ rest

/-! ### Reads of files -/

/-- A read whose buffer has the headers of a response at its front, and room for the file behind them. -/
structure Request.Framed (req : Request) (headers size : ℕ) : Prop where
  length : req.readData.length = headers + size
  amount : headers ≤ req.readAmount ∧ req.readAmount ≤ req.readData.length
  length_lt : req.readData.length < 2 ^ 64

/-- The buffer of a file read becomes a response. A read for no file is for no client. -/
def ReadsResponse (x : Request × Option Bytes) : Prop :=
  (x.2 = none → x.1.clientIdx = none) ∧
    (x.2 ≠ none → ∃ p size accept code, x.1.Framed (fileHeaders p size accept false code).length size ∧
      x.1.readData.take (fileHeaders p size accept false code).length = fileHeaders p size accept false code)

/-- What a read stores goes behind the headers. -/
theorem Request.Framed.stored {req : Request} {headers size : ℕ} {res : ℤ} {data : Bytes} (h : req.Framed headers size)
    (hres : res = data.length)
    (hfits : ¬(data.take res.toNat ≠ [] ∧ req.readData.length < req.readAmount + (data.take res.toNat).length)) :
    (Machine.stored req res data).take headers = req.readData.take headers ∧
      Request.Framed { req with
        readData := Machine.stored req res data
        readAmount := ((req.readAmount + res) % 2 ^ 64).toNat } headers size := by
  obtain ⟨hlength, ⟨hlow, hhigh⟩, hlt⟩ := h
  have hstored := Request.stored_length hfits
  have htaken : data.take res.toNat = data := by simp [hres]
  rw [htaken] at hfits
  have hamount : req.readAmount + data.length ≤ req.readData.length := by
    by_cases hnone : data = []
    · simpa [hnone] using hhigh
    · exact not_lt.mp fun hover => hfits ⟨hnone, hover⟩
  have hnext : ((req.readAmount + res) % 2 ^ 64).toNat = req.readAmount + data.length := by omega
  refine ⟨?_, ⟨hstored.trans hlength, ?_, hstored ▸ hlt⟩⟩
  · unfold Machine.stored
    rw [List.append_assoc, List.take_append_of_le_length (by rw [List.length_take]; omega), List.take_take,
      Nat.min_eq_left hlow]
  · simp only [hnext, hstored]
    omega

/-! ### The cache -/

namespace Cache

/-- Every buffer of the cache is empty or has the property `good`. -/
def Stocks (c : Cache N) (good : Bytes → Prop) : Prop := ∀ slot, (c.data slot).buffer = [] ∨ good (c.data slot).buffer

variable {c c' : Cache N} {good : Bytes → Prop} {p buff : Bytes} {k : ℕ} {client client' : TcpClient}

theorem Stocks.update (h : c.Stocks good) {slot : Fin N} {d : ItemData}
    (hdata : c'.data = Function.update c.data slot d) (hd : d.buffer = [] ∨ good d.buffer) : c'.Stocks good := by
  intro i
  rw [hdata]
  by_cases hi : i = slot
  · subst hi
    simpa using hd
  · simpa [hi] using h i

theorem Stocks.fetchItem (h : c.Stocks good) {item : CacheFetchItem N}
    (hfetch : c.fetchItem p k client = some (c', client', item)) : c'.Stocks good := by
  rcases fetchItem_cases hfetch with ⟨-, rfl, -⟩ | ⟨i, -, -, -, ⟨-, -, -, hdata⟩ | ⟨-, -, hdata, -⟩⟩
  · exact h
  · exact h.update hdata (h i)
  · exact h.update hdata (Or.inl rfl)

theorem Stocks.finishedWithItem (h : c.Stocks good) (hdone : c.finishedWithItem k client = some (c', client')) :
    c'.Stocks good := by
  rcases finishedWithItem_cases hdone with ⟨-, rfl, -⟩ | ⟨-, -, i, -, -, -, hdata⟩
  · exact h
  · exact h.update hdata (h i)

theorem Stocks.inotifyEventHandler (h : c.Stocks good) (watch : ℤ) : (c.inotifyEventHandler watch).Stocks good := by
  cases hslot : c.watchToCacheIdx watch with
  | none =>
      have hsame : c.inotifyEventHandler watch = c := by simp [Cache.inotifyEventHandler, hslot]
      rw [hsame]
      exact h
  | some i => exact h.update (inotifyEventHandler_data c hslot) (h i)

theorem Stocks.tryInsertItem (h : c.Stocks good) (hbuff : good buff) {first : ℕ} {wd : ℤ} {done : Bool}
    (hinsert : c.tryInsertItem p buff first wd = some (c', done)) : c'.Stocks good := by
  rcases tryInsertItem_cases hinsert with ⟨-, i, -, rfl⟩ | ⟨-, -, low, newLow, -, rfl⟩ | ⟨-, rfl⟩
  · have htaken : (c.takeFree i).Stocks good := h
    exact htaken.update (insertAt_data ..) (Or.inr hbuff)
  · have hevicted : (c.evictLowest low newLow).Stocks good := h.update (evictLowest_data ..) (Or.inl rfl)
    exact hevicted.update (insertAt_data ..) (Or.inr hbuff)
  · exact h

end Cache

/-! ### The callbacks -/

/-- What the environment contributes: sizes of files are numbers of 64 bits, and a websocket key is answered with what
OpenSSL makes of it. -/
structure WebEnv.Regular (sha1 : Bytes → Bytes) (env : WebEnv) : Prop where
  sizes : ∀ n, (env.files n).2 < 2 ^ 64
  acceptHeaderValue : env.acceptHeaderValue = getAcceptHeaderValue sha1

namespace WebServer

variable {sha1 : Bytes → Bytes} {w w' : WebServer N} {env : WebEnv} {i : ℕ} {cs : List TcpCall}
  {r : WebServer N × List TcpCall}

/-- What a call hands over is a whole message. A pointer can also lead to nothing, as an item that was removed does. -/
def Sends (w : WebServer N) : TcpCall → Prop
  | .writeConnection _ buff => buff.length < 2 ^ 63 → IsResponse buff ∨ IsReply buff
  | .writeConnectionPtr _ buff length => (w.pointee buff).length = length ∧ (length = 0 ∨ IsResponse (w.pointee buff))
  | _ => True

/-- The cache holds responses, or nothing where an item was removed. -/
structure HoldsResponses (w : WebServer N) : Prop where
  tracked : w.webCache.Tracked
  stocks : w.webCache.Stocks IsResponse

/-- What a callback leaves the cache with, the reads that it starts, and what it writes. -/
structure Outputs (r : WebServer N × List TcpCall) : Prop where
  holds : r.1.HoldsResponses
  reads : ∀ x ∈ r.2.filterMap TcpCall.read, ReadsResponse x
  calls : ∀ c ∈ r.2, r.1.Sends c

theorem HoldsResponses.congr (h : w.HoldsResponses) (hcache : w'.webCache = w.webCache) : w'.HoldsResponses :=
  ⟨hcache ▸ h.tracked, hcache ▸ h.stocks⟩

theorem HoldsResponses.killClient (h : w.HoldsResponses) (hkill : w.killClient i = some w') : w'.HoldsResponses := by
  obtain ⟨client, client', hdone⟩ := killClient_cache hkill
  exact ⟨h.tracked.finishedWithItem hdone, h.stocks.finishedWithItem hdone⟩

/-- A callback that starts no read. -/
theorem HoldsResponses.outputs (h : w.HoldsResponses) (hcs : ∀ c ∈ cs, c.read = none ∧ w.Sends c) : Outputs (w, cs) := by
  refine ⟨h, fun x hx => ?_, fun c hc => (hcs c hc).2⟩
  obtain ⟨c, hc, hread⟩ := List.mem_filterMap.mp hx
  simp [(hcs c hc).1] at hread

/-- The connection is read from afterwards. -/
theorem Outputs.andRead (h : Outputs (w, cs)) {again : List TcpCall} (hagain : ∀ c ∈ again, c = .readConnection i) :
    Outputs (w, cs ++ again) := by
  refine ⟨h.holds, fun x hx => h.reads x ?_, fun c hc => ?_⟩
  · simpa [filterMap_read_mild (mild_again hagain)] using hx
  · rcases List.mem_append.mp hc with hc | hc
    · exact h.calls c hc
    · rw [hagain c hc]
      trivial

/-- A hit sends the buffer of its slot. -/
theorem sends_foundItem (h : w.webCache.Stocks IsResponse) (slot : Fin N) :
    w.Sends (.writeConnectionPtr i (w.webCache.foundItem slot).ptr (w.webCache.foundItem slot).size) := by
  have hstock := h slot
  by_cases hempty : (w.webCache.cacheBuffer slot).buffer = []
  · simp [Sends, CacheFetchItem.ptr, Cache.foundItem, pointee, hempty]
  · have hresponse : IsResponse (w.webCache.cacheBuffer slot).buffer := hstock.resolve_left hempty
    simp [Sends, CacheFetchItem.ptr, Cache.foundItem, pointee, hempty, hresponse]

theorem outputs_sendFileRequest (h : w.HoldsResponses) (henv : env.Regular sha1) {n code : ℕ} {p : Bytes} {accept : Bool}
    (hsend : w.sendFileRequest env n i p accept code = some (w', cs, true)) : Outputs (w', cs) := by
  obtain ⟨client, client', item, hfetch, hcs⟩ := sendFileRequest_opened hsend
  have hholds : w'.HoldsResponses := ⟨h.tracked.fetchItem hfetch, h.stocks.fetchItem hfetch⟩
  rcases hcs with ⟨hfound, rfl⟩ | ⟨-, hfits, rfl⟩
  · rcases Cache.fetchItem_cases hfetch with ⟨-, -, -, rfl⟩ | ⟨slot, -, -, -, ⟨-, rfl, -⟩ | ⟨-, rfl, -⟩⟩
    · simp at hfound
    · exact hholds.outputs (by simpa [TcpCall.read] using sends_foundItem hholds.stocks slot)
    · simp at hfound
  · refine ⟨hholds, fun x hx => ?_, by simp [Sends]⟩
    set headers := fileHeaders p (env.files n).2 accept false code with hheaders
    have hsize := henv.sizes n
    have hsum : (env.files n).2 + headers.length < 2 ^ 64 := by omega
    simp only [List.filterMap_cons, List.filterMap_nil, TcpCall.read, List.mem_singleton] at hx
    subst hx
    have hdata : (Request.customRead (env.files n).1 (env.files n).2 (some i)
        (headers ++ List.replicate (env.files n).2 0) headers.length).readData =
          headers ++ List.replicate (env.files n).2 0 :=
      Request.customRead_readData _ (some i) (by simp [Nat.add_comm]) hsum
    refine ⟨by simp, fun _ => ⟨p, (env.files n).2, accept, code, ⟨?_, ⟨le_refl _, ?_⟩, ?_⟩, ?_⟩⟩
    · simp [hdata, ← hheaders]
    · simp [hdata]
    · rw [hdata, List.length_append, List.length_replicate]
      omega
    · rw [hdata, List.take_left]

theorem outputs_websocketAcceptReadCb (h : w.HoldsResponses) (henv : env.Regular sha1) {key : Bytes}
    (hr : w.websocketAcceptReadCb env i key = some (w', cs)) : Outputs (w', cs) := by
  have hholds : w'.HoldsResponses := h.congr (websocketAcceptReadCb_files hr).files.cache
  rw [websocketAcceptReadCb_answers hr, henv.acceptHeaderValue]
  have hresponse : IsResponse (upgradeResponse (getAcceptHeaderValue sha1 key)) :=
    isResponse_upgrade (validValue_encode _)
  exact hholds.outputs (by simpa [TcpCall.read, Sends] using fun _ => Or.inl hresponse)

theorem outputs_respond (h : w.HoldsResponses) (henv : env.Regular sha1) {req : HttpRequest}
    (hr : w.respond env i req = some r) : Outputs r := by
  rcases respond_eq_some hr with ⟨⟨w₁, cs₁⟩, again, -, hr₁, rfl, hagain⟩ |
    ⟨-, ⟨q, w₁, cs₁, again, hq, hsent, rfl, hagain⟩ | ⟨-, rfl⟩⟩
  · exact (outputs_websocketAcceptReadCb h henv hr₁).andRead hagain
  · exact (outputs_sendFileRequest h henv hsent).andRead hagain
  · exact h.outputs (by simp)

/-! ### Websockets -/

/-- A read of slot `i`, or a frame that answers a ping or closes a websocket. -/
def Replies (i : ℕ) (c : TcpCall) : Prop := c = .readConnection i ∨ ∃ j payload, ∃ opcode : Fin 16,
  c = .writeConnection j (makeWsFrame payload opcode.val.toUInt8) ∧
    (opcode.val = 0xA ∨ opcode.val = 0x8 ∧ payload = [])

theorem Replies.sends {c : TcpCall} (h : Replies i c) : c.read = none ∧ w.Sends c := by
  rcases h with rfl | ⟨j, payload, opcode, rfl, hopcode⟩
  · exact ⟨rfl, trivial⟩
  · exact ⟨rfl, fun hsize => Or.inr (isReply_makeWsFrame hopcode hsize)⟩

theorem replies_closeWsConnectionReq {idx : ℤ} {already : Bool}
    (h : w.closeWsConnectionReq idx already = some (w', cs)) : ∀ c ∈ cs, Replies i c := by
  obtain ⟨client, -, heq⟩ := Option.map_eq_some_iff.mp h
  obtain ⟨-, rfl⟩ := Prod.mk.inj heq
  cases already with
  | true => simp
  | false =>
      intro c hc
      obtain rfl := List.mem_singleton.mp hc
      exact Or.inr ⟨_, [], 0x8, rfl, Or.inr ⟨rfl, rfl⟩⟩

theorem replies_processFrame {idx : ℤ} {frame : Bytes} {closed : Bool}
    (h : w.processFrame idx frame = some (w', cs, closed)) : ∀ c ∈ cs, Replies i c := by
  unfold processFrame at h
  split at h
  · obtain ⟨-, rfl, -⟩ := by simpa using h
    simp
  · split at h
    · rename_i code data client _ hclient
      split_ifs at h with hdone hfragment hclose hping
      · obtain ⟨-, rfl, -⟩ := by simpa using h
        simp
      · obtain ⟨-, rfl, -⟩ := by simpa using h
        simp
      · obtain ⟨⟨w₁, cs₁⟩, hreq, heq⟩ := Option.map_eq_some_iff.mp h
        obtain ⟨-, rfl, -⟩ := by simpa using heq
        exact replies_closeWsConnectionReq hreq
      · obtain ⟨-, rfl, -⟩ := by simpa using h
        intro c hc
        obtain rfl := List.mem_singleton.mp hc
        exact Or.inr ⟨_, data, 0xA, rfl, Or.inl rfl⟩
      · obtain ⟨-, rfl, -⟩ := by simpa using h
        simp
    · cases h

theorem replies_processFrames {idx : ℤ} {frames : List Bytes} {closed : Bool}
    (h : processFrames idx frames w = some (w', cs, closed)) : ∀ c ∈ cs, Replies i c := by
  induction frames generalizing w w' cs closed with
  | nil =>
      obtain ⟨-, rfl, -⟩ := by simpa [processFrames] using h
      simp
  | cons frame frames ih =>
      unfold processFrames at h
      split at h
      · cases h
      · rename_i w₁ cs₁ hframe
        obtain ⟨-, rfl, -⟩ := by simpa using h
        exact replies_processFrame hframe
      · rename_i w₁ cs₁ hframe
        obtain ⟨⟨w₂, cs₂, closed₂⟩, hrest, heq⟩ := Option.map_eq_some_iff.mp h
        obtain ⟨-, rfl, -⟩ := by simpa using heq
        intro c hc
        rcases List.mem_append.mp hc with hc | hc
        · exact replies_processFrame hframe c hc
        · exact ih hrest c hc

theorem replies_websocketProcessReadCb {buffer : Bytes} (h : w.websocketProcessReadCb env i buffer = some r) :
    ∀ c ∈ r.2, Replies i c := by
  have hread : Replies i (.readConnection i) := Or.inl rfl
  unfold websocketProcessReadCb at h
  dsimp only at h
  split at h
  · cases h
  · split at h
    · cases h
    · split at h
      · cases h
      · split at h
        · obtain ⟨⟨w₁, cs₁, closed⟩, hframes, rfl⟩ := Option.map_eq_some_iff.mp h
          intro c hc
          rcases List.mem_append.mp hc with hc | hc
          · exact replies_processFrames hframes c hc
          · cases closed with
            | true => cases hc
            | false => exact List.mem_singleton.mp hc ▸ hread
        · obtain ⟨⟨w₁, cs₁⟩, hclose, rfl⟩ := Option.map_eq_some_iff.mp h
          intro c hc
          rcases List.mem_append.mp hc with hc | hc
          · exact replies_closeWsConnectionReq hclose c hc
          · exact List.mem_singleton.mp hc ▸ hread

/-! ### The other callbacks -/

theorem outputs_closeConnection (h : w.HoldsResponses) (hclose : w.closeConnection i = some r) : Outputs r := by
  obtain ⟨w₁, hkill, rfl⟩ := Option.map_eq_some_iff.mp hclose
  exact (h.killClient hkill).outputs (by simp [TcpCall.read, Sends])

theorem outputs_readCb (h : w.HoldsResponses) (henv : env.Regular sha1) {buffer : Bytes}
    (hr : w.readCb env i buffer = some r) : Outputs r := by
  unfold readCb at hr
  split at hr
  · split at hr
    · cases hr
    · exact outputs_respond h henv hr
  · split at hr
    · obtain ⟨⟨w₁, cs₁⟩, hws, rfl⟩ := Option.map_eq_some_iff.mp hr
      have hholds : w₁.HoldsResponses := h.congr (websocketProcessReadCb_files hws).files.cache
      have houtputs : Outputs (w₁, cs₁) :=
        hholds.outputs fun c hc => (replies_websocketProcessReadCb hws c hc).sends
      exact houtputs.andRead (i := i) (by simp)
    · exact outputs_closeConnection h hr

theorem outputs_writeCb (h : w.HoldsResponses) {info : ℤ} (hr : w.writeCb i info = some r) : Outputs r := by
  unfold writeCb at hr
  split at hr
  · cases hr
  · rename_i w₁ hused
    have hholds : w₁.HoldsResponses := h.congr (sameFiles_broadcastUsed hused).cache
    split at hr
    · cases hr
    · split at hr
      · unfold closeWsConnectionPotentialConfirm at hr
        split at hr
        · cases hr
        · split at hr
          · split at hr
            · obtain ⟨r₁, hclose, rfl⟩ := Option.map_eq_some_iff.mp hr
              obtain ⟨hclosed, hreads, hcalls⟩ := outputs_closeConnection hholds hclose
              exact ⟨hclosed.congr rfl, hreads, hcalls⟩
            · obtain rfl := Option.some.inj hr
              exact hholds.outputs (by simp)
          · obtain rfl := Option.some.inj hr
            exact HoldsResponses.outputs (hholds.congr rfl) (by simp)
      · exact outputs_closeConnection hholds hr

/-- The end of a custom read, which is for no client, or has read a response. -/
theorem outputs_customReadCb (h : w.HoldsResponses) {idx : Option ℕ} {fd : ℤ} {buff : Bytes}
    (hbuff : idx = none ∨ IsResponse buff) (hr : w.customReadCb env idx fd buff = some r) : Outputs r := by
  unfold customReadCb at hr
  split at hr
  · obtain rfl := Option.some.inj hr
    refine ⟨⟨h.tracked.inotifyEventHandler _, h.stocks.inotifyEventHandler _⟩, fun x hx => ?_, by simp [Sends]⟩
    simp only [List.filterMap_cons, List.filterMap_nil, TcpCall.read, List.mem_singleton] at hx
    subst hx
    exact ⟨fun _ => rfl, by simp⟩
  · split at hr
    · cases hr
    · rename_i k
      have hresponse : IsResponse buff := hbuff.resolve_left (by simp)
      split at hr
      · cases hr
      · dsimp only at hr
        split at hr
        · cases hr
        · rename_i cache hinsert
          obtain ⟨⟨cache', client', item⟩, hfetch, rfl⟩ := Option.map_eq_some_iff.mp hr
          have htracked := h.tracked.tryInsertItem hinsert
          have hstocks := h.stocks.tryInsertItem hresponse hinsert
          have hstocks' := hstocks.fetchItem hfetch
          refine HoldsResponses.outputs ⟨htracked.fetchItem hfetch, hstocks'⟩ ?_
          simp only [List.mem_singleton, forall_eq, TcpCall.read, true_and]
          -- what has just been inserted is found
          obtain ⟨slot, hslot, hout, -⟩ := h.tracked.inserted hinsert
          rcases Cache.fetchItem_cases hfetch with ⟨hnone, -⟩ | ⟨j, hj, -, -, ⟨-, rfl, -⟩ | ⟨hold, -⟩⟩
          · simp [hslot] at hnone
          · exact sends_foundItem hstocks' j
          · obtain rfl : slot = j := Option.some.inj (hslot.symm.trans hj)
            simp [hout] at hold
        · obtain rfl := Option.some.inj hr
          exact h.outputs (by simpa [TcpCall.read, Sends] using fun _ => Or.inl hresponse)

/-- Any callback but the end of a custom read. -/
theorem outputs_invoke (h : w.HoldsResponses) {e : WebEnv × Callback} (henv : e.1.Regular sha1)
    (hkind : ∀ idx fd buff, e.2 ≠ .customRead idx fd buff) (hcb : (webApp N).invoke w e = some r) : Outputs r := by
  obtain ⟨env, cb⟩ := e
  cases cb with
  | accept i =>
      obtain rfl : (w.newTcpClient i, []) = r := by simpa [App.invoke, webApp] using hcb
      exact HoldsResponses.outputs (h.congr rfl) (by simp)
  | close i info =>
      obtain ⟨w₁, hclose, rfl⟩ := Option.map_eq_some_iff.mp
        (show (w.closeCb i info).map (fun w => (w, [])) = some r from hcb)
      obtain ⟨w₂, hused, hkill⟩ := Option.bind_eq_some_iff.mp hclose
      have hholds : w₂.HoldsResponses := h.congr (sameFiles_broadcastUsed hused).cache
      exact (hholds.killClient hkill).outputs (by simp)
  | read i buffer => exact outputs_readCb h henv hcb
  | write i info => exact outputs_writeCb h hcb
  | event =>
      obtain rfl : w.eventCb env = r := Option.some.inj hcb
      have hholds : (w.eventCb env).1.HoldsResponses := h.congr (sameFiles_eventCb env w).cache
      have hcalls : ∀ c ∈ (w.eventCb env).2, c.read = none ∧ (w.eventCb env).1.Sends c := by
        unfold eventCb
        dsimp only
        split <;> simp [TcpCall.read, Sends]
      exact hholds.outputs hcalls
  | customRead idx fd buff => exact absurd rfl (hkind idx fd buff)

/-- Callbacks of which none is the end of a custom read. -/
theorem outputs_exec {es : List (WebEnv × Callback)} {calls : List (List TcpCall)} (h : w.HoldsResponses)
    (henv : ∀ e ∈ es, e.1.Regular sha1) (hkind : ∀ e ∈ es, ∀ idx fd buff, e.2 ≠ .customRead idx fd buff)
    (hrun : Runs.exec (webApp N).invoke w es = some (w', calls)) :
    w'.HoldsResponses ∧ ∀ x ∈ calls.flatten.filterMap TcpCall.read, ReadsResponse x := by
  induction es generalizing w calls with
  | nil =>
      obtain ⟨rfl, rfl⟩ : w = w' ∧ [] = calls := by simpa [Runs.exec] using hrun
      exact ⟨h, by simp⟩
  | cons e es ih =>
      obtain ⟨w₁, cs₁, calls₂, hcb, hrest, rfl⟩ := Runs.exec_cons hrun
      have hmem : ∀ e' ∈ es, e' ∈ e :: es := fun e' => List.mem_cons_of_mem e
      have hfirst := outputs_invoke h (henv e (by simp)) (hkind e (by simp)) hcb
      obtain ⟨hholds, hreads⟩ :=
        ih hfirst.holds (fun e' he => henv e' (hmem e' he)) (fun e' he => hkind e' (hmem e' he)) hrest
      refine ⟨hholds, fun x hx => ?_⟩
      rw [List.flatten_cons, List.filterMap_append] at hx
      rcases List.mem_append.mp hx with hx | hx
      · exact hfirst.reads x hx
      · exact hreads x hx

end WebServer

namespace Machine

variable {sha1 : Bytes → Bytes} {T : ServerType} {m m' : Machine (WebServer N)} {c : Completion WebEnv}
  {log : List Callback}

/-- A file read that completes has read as much as it reports. -/
def ReadsFiles (m : Machine (WebServer N)) (c : Completion WebEnv) : Prop :=
  ∀ sub ∈ m.tcp.inflight[c.index]?, sub.req.event = .customRead → sub.file ≠ none → c.res = c.data.length

instance (m : Machine (WebServer N)) (c : Completion WebEnv) : Decidable (m.ReadsFiles c) :=
  inferInstanceAs (Decidable (∀ sub ∈ m.tcp.inflight[c.index]?, _))

/-- The cache holds responses, and file reads fill them. -/
structure Prepared (m : Machine (WebServer N)) : Prop where
  holds : m.app.HoldsResponses
  reads : ∀ x ∈ m.tcp.reads, ReadsResponse x

/-- A step is only defined when a custom read stays in its buffer. -/
theorem customRead_fits {sub : Submission} (hstep : step T (webApp N) m c = some (m', log))
    (hsub : m.tcp.inflight[c.index]? = some sub) (hevent : sub.req.event = .customRead) :
    ¬(c.data.take c.res.toNat ≠ [] ∧
      sub.req.readData.length < sub.req.readAmount + (c.data.take c.res.toNat).length) := by
  obtain ⟨sub', hsub', hhandled, -⟩ := step_eq_some hstep
  obtain rfl : sub = sub' := Option.some.inj (hsub.symm.trans hsub')
  have hread : (m.take c).customRead T (webApp N) c.env sub c.res c.data = some m' := by
    simpa [dispatch, hevent] using hhandled
  intro hover
  rw [Machine.customRead_eq, Request.complete, if_pos hover] at hread
  cases hread

/-- What a completed custom read has stored: it is for no client, or fills a response. -/
theorem Prepared.stored (h : m.Prepared) (hok : m.ReadsFiles c) (hstep : step T (webApp N) m c = some (m', log))
    {sub : Submission} (hsub : m.tcp.inflight[c.index]? = some sub) (hevent : sub.req.event = .customRead) :
    (((Machine.stored sub.req c.res c.data).length : ℤ) = (c.res + sub.req.readAmount) % 2 ^ 64 →
      sub.req.clientIdx = none ∨ IsResponse (Machine.stored sub.req c.res c.data)) ∧
    ReadsResponse ({ sub.req with
      readData := Machine.stored sub.req c.res c.data
      readAmount := ((sub.req.readAmount + c.res) % 2 ^ 64).toNat }, sub.file) := by
  have hmem : (sub.req, sub.file) ∈ m.tcp.reads :=
    List.mem_map_of_mem (List.mem_filter.mpr ⟨List.mem_of_getElem? hsub, by simpa using hevent⟩)
  obtain ⟨hnone, hfile⟩ : ReadsResponse (sub.req, sub.file) := h.reads _ hmem
  by_cases hpath : sub.file = none
  · exact ⟨fun _ => Or.inl (hnone hpath), hnone, fun hsome => absurd hpath hsome⟩
  · obtain ⟨p, size, accept, code, hframed, hheaders⟩ := hfile hpath
    obtain ⟨hkept, hframed'⟩ := hframed.stored (hok sub hsub hevent hpath) (customRead_fits hstep hsub hevent)
    refine ⟨fun _ => Or.inr ?_, fun hsome => absurd hsome hpath, fun _ => ⟨p, size, accept, code, hframed', ?_⟩⟩
    · exact isResponse_file hframed'.length (hkept.trans hheaders)
    · exact hkept.trans hheaders

/-- **One round of the loop.** -/
theorem outputs_step (h : m.Prepared) (henv : c.env.Regular sha1) (hok : m.ReadsFiles c)
    (hstep : step T (webApp N) m c = some (m', log)) :
    m'.Prepared ∧ ∀ es e, es ++ [e] <+: log.map (fun cb => (c.env, cb)) → ∀ w calls r,
      Runs.exec (webApp N).invoke m.app es = some (w, calls) → (webApp N).invoke w e = some r →
        ∀ call ∈ r.2, r.1.Sends call := by
  have hall : ∀ es, es <+: log.map (fun cb => (c.env, cb)) → ∀ e ∈ es, e.1.Regular sha1 ∧ e.2 ∈ log := by
    intro es hes e he
    obtain ⟨cb, hcb, rfl⟩ := List.mem_map.mp (hes.subset he)
    exact ⟨henv, hcb⟩
  obtain ⟨sub, stepCalls, hsub, hinvoked, hreads⟩ := replays_step hstep
  by_cases hevent : sub.req.event = .customRead
  · rw [if_pos hevent] at hreads
    obtain ⟨others, hperm, hafter⟩ := hreads
    obtain ⟨hfinished, hcontinued⟩ := h.stored hok hstep hsub hevent
    have hothers : ∀ x ∈ others, ReadsResponse x := fun x hx => h.reads x (hperm.mem_iff.mpr (List.mem_cons_of_mem _ hx))
    rcases hafter with ⟨hfull, rfl, hafter⟩ | ⟨rfl, hafter⟩
    · -- the callback for its end is the only one
      have hends : ∀ r, (webApp N).invoke m.app (c.env, .customRead sub.req.clientIdx sub.req.customInfo
          (Machine.stored sub.req c.res c.data)) = some r → WebServer.Outputs r :=
        fun r hr => WebServer.outputs_customReadCb h.holds (hfinished hfull) hr
      obtain ⟨w₁, cs₁, calls₁, hcb, hnone, rfl⟩ := Runs.exec_cons hinvoked
      obtain ⟨rfl, rfl⟩ : w₁ = m'.app ∧ [] = calls₁ := by simpa [Runs.exec] using hnone
      have houtputs := hends _ hcb
      refine ⟨⟨houtputs.holds, fun x hx => ?_⟩, fun es e hes w calls r hw hr => ?_⟩
      · rw [hafter] at hx
        rcases List.mem_append.mp hx with hx | hx
        · exact hothers x hx
        · exact houtputs.reads x (by simpa using hx)
      · obtain rfl : es = [] := by
          have hle := hes.length_le
          simp only [List.length_append, List.length_map, List.length_singleton] at hle
          exact List.length_eq_zero_iff.mp (by omega)
        obtain rfl : e = (c.env, .customRead sub.req.clientIdx sub.req.customInfo
            (Machine.stored sub.req c.res c.data)) := by simpa using hes
        obtain ⟨rfl, -⟩ : m.app = w ∧ [] = calls := by simpa [Runs.exec] using hw
        exact (hends r hr).calls
    · obtain ⟨happ, -⟩ : m.app = m'.app ∧ [] = stepCalls := by simpa [Runs.exec] using hinvoked
      refine ⟨⟨happ ▸ h.holds, fun x hx => ?_⟩, fun es e hes => ?_⟩
      · rw [hafter] at hx
        rcases List.mem_append.mp hx with hx | hx
        · exact hothers x hx
        · exact List.mem_singleton.mp hx ▸ hcontinued
      · simp at hes
  · rw [if_neg hevent] at hreads
    obtain ⟨hafter, hkind⟩ := hreads
    have hnone : ∀ e : WebEnv × Callback, e.2 ∈ log → ∀ idx fd buff, e.2 ≠ .customRead idx fd buff := by
      rintro ⟨env, cb⟩ hcb idx fd buff rfl
      exact hkind idx fd buff hcb
    have hexec : ∀ es, es <+: log.map (fun cb => (c.env, cb)) → ∀ w calls,
        Runs.exec (webApp N).invoke m.app es = some (w, calls) →
          w.HoldsResponses ∧ ∀ x ∈ calls.flatten.filterMap TcpCall.read, ReadsResponse x :=
      fun es hes w calls hw => WebServer.outputs_exec h.holds (fun e he => (hall es hes e he).1)
        (fun e he => hnone e (hall es hes e he).2) hw
    obtain ⟨hholds, hnew⟩ := hexec _ (List.prefix_refl _) _ _ hinvoked
    refine ⟨⟨hholds, fun x hx => ?_⟩, fun es e hes w calls r hw hr => ?_⟩
    · rw [hafter] at hx
      rcases List.mem_append.mp hx with hx | hx
      · exact h.reads x hx
      · exact hnew x hx
    · obtain ⟨hregular, hcb⟩ := hall _ hes e (by simp)
      have hbefore := (hexec es ((List.prefix_append es [e]).trans hes) w calls hw).1
      exact (WebServer.outputs_invoke hbefore hregular (hnone e hcb) hr).calls

theorem prepared_start (N : ℕ) (inotifyFd : ℤ) : (webStart N inotifyFd).Prepared := by
  refine ⟨⟨Cache.Tracked.empty, fun slot => Or.inl rfl⟩, fun x hx => ?_⟩
  have hx' : x = (.customRead inotifyFd inotifyEventSize none [] 0, none) := by
    simpa [webStart, start, TcpServer.reads, TcpServer.customReads, TcpServer.addEventReq,
      TcpServer.customReadReq] using hx
  subst hx'
  exact ⟨fun _ => rfl, by simp⟩

/-- What the callbacks of a run write. -/
theorem outputs_run {cs : List (Completion WebEnv)} {logs : List (List Callback)} (h : m.Prepared)
    (henv : ∀ c ∈ cs, c.env.Regular sha1) (hok : Runs.Along (step T (webApp N)) ReadsFiles m cs)
    (hrun : Runs.exec (step T (webApp N)) m cs = some (m', logs)) {es : List (WebEnv × Callback)}
    {e : WebEnv × Callback} (hes : es ++ [e] <+: invoked cs logs) {w : WebServer N} {calls : List (List TcpCall)}
    {r : WebServer N × List TcpCall} (hw : Runs.exec (webApp N).invoke m.app es = some (w, calls))
    (hr : (webApp N).invoke w e = some r) : ∀ call ∈ r.2, r.1.Sends call := by
  induction cs generalizing m logs es calls with
  | nil => simp [invoked] at hes
  | cons c cs ih =>
      obtain ⟨hread, hlater⟩ := hok
      obtain ⟨m₁, log, logs₁, hstep, hrest, rfl⟩ := Runs.exec_cons hrun
      obtain ⟨hprepared, hround⟩ := outputs_step h (henv c (by simp)) hread hstep
      rw [invoked_cons] at hes
      by_cases hshort : (es ++ [e]).length ≤ (log.map fun cb => (c.env, cb)).length
      · exact hround es e (List.prefix_of_prefix_length_le hes (List.prefix_append ..) hshort) w calls r hw hr
      · have hfront : log.map (fun cb => (c.env, cb)) <+: es := by
          refine List.prefix_of_prefix_length_le (List.prefix_append ..)
            ((List.prefix_append es [e]).trans hes) ?_
          simp only [List.length_append, List.length_singleton] at hshort
          omega
        obtain ⟨es', rfl⟩ := hfront
        obtain ⟨-, stepCalls, -, hinvoked, -⟩ := replays_step hstep
        obtain ⟨w₁, calls₁, calls₂, hfirst, hsecond, -⟩ := Runs.exec_append.mp hw
        obtain ⟨rfl, -⟩ : m₁.app = w₁ ∧ stepCalls = calls₁ := by simpa [hinvoked] using hfirst
        rw [List.append_assoc] at hes
        exact ih hprepared (fun c' hc' => henv c' (List.mem_cons_of_mem _ hc')) (hlater _ _ hstep) hrest
          ((List.prefix_append_right_inj _).mp hes) hsecond

end Machine

/-- **Whole messages.** In every run of the web server of either type in which no read of a file fails, every buffer
that a callback hands to `write_connection` is a whole message: a client that reads it from the front of its stream
receives a response whose body is as long as its fields say, or an unmasked frame that answers a ping or closes the
websocket, and nothing is left of it. A hit of the cache sends such a response, too, or nothing. -/
theorem outputs_whole (T : ServerType) (N : ℕ) (inotifyFd : ℤ) (sha1 : Bytes → Bytes) (cs : List (Completion WebEnv))
    (henv : ∀ c ∈ cs, c.env.Regular sha1)
    (hok : Runs.Along (Machine.step T (webApp N)) Machine.ReadsFiles (webStart N inotifyFd) cs)
    (m : Machine (WebServer N)) (logs : List (List Callback))
    (hrun : Runs.exec (Machine.step T (webApp N)) (webStart N inotifyFd) cs = some (m, logs))
    (es : List (WebEnv × Callback)) (e : WebEnv × Callback) (hes : es ++ [e] <+: invoked cs logs) :
    ∃ w calls r, Runs.exec (webApp N).invoke { inotifyFd } es = some (w, calls) ∧
      (webApp N).invoke w e = some r ∧ ∀ call ∈ r.2, r.1.Sends call := by
  obtain ⟨allCalls, hall⟩ := Machine.replays_run hrun
  obtain ⟨es', hes'⟩ := hes
  rw [← hes'] at hall
  obtain ⟨w₁, calls₁, calls₂, hfirst, -, -⟩ := Runs.exec_append.mp hall
  obtain ⟨w, calls, calls₃, hbefore, hlast, -⟩ := Runs.exec_append.mp hfirst
  obtain ⟨w₂, out, calls₄, hcb, -, -⟩ := Runs.exec_cons hlast
  exact ⟨w, calls, (w₂, out), hbefore, hcb,
    Machine.outputs_run (Machine.prepared_start N inotifyFd) henv hok hrun ⟨es', hes'⟩ hbefore hcb⟩

/-- A file of three bytes. -/
def sampleEnv : WebEnv :=
  { files := fun _ => (9, 3), acceptHeaderValue := getAcceptHeaderValue fun _ => sampleDigest }

theorem sampleEnv_regular : sampleEnv.Regular fun _ => sampleDigest := ⟨fun _ => by simp [sampleEnv], rfl⟩

/-- A client asks for a file, which is read, stored in the cache and sent from there. -/
theorem outputs_whole_file :
    ∃ m logs, Runs.exec (Machine.step .nonTls (webApp 2)) (webStart 2 7)
        [{ index := 4, res := 10, env := sampleEnv },
          { index := 5, res := 19, data := ascii "GET /a HTTP/1.1\r\n\r\n", env := sampleEnv },
          { index := 5, res := 3, data := [1, 2, 3], env := sampleEnv }] = some (m, logs) ∧
      logs = [[.accept 0], [.read 0 (ascii "GET /a HTTP/1.1\r\n\r\n")],
        [.customRead (some 0) 9 (fileHeaders (ascii "public/a") 3 false false 200 ++ [1, 2, 3])]] ∧
      ∃ w calls r, Runs.exec (webApp 2).invoke { inotifyFd := 7 }
          [(sampleEnv, .accept 0), (sampleEnv, .read 0 (ascii "GET /a HTTP/1.1\r\n\r\n"))] = some (w, calls) ∧
        (webApp 2).invoke w (sampleEnv,
          .customRead (some 0) 9 (fileHeaders (ascii "public/a") 3 false false 200 ++ [1, 2, 3])) = some r ∧
        ∀ call ∈ r.2, r.1.Sends call := by
  set cs : List (Completion WebEnv) := [{ index := 4, res := 10, env := sampleEnv },
    { index := 5, res := 19, data := ascii "GET /a HTTP/1.1\r\n\r\n", env := sampleEnv },
    { index := 5, res := 3, data := [1, 2, 3], env := sampleEnv }] with hcs
  have hok : Runs.Along (Machine.step .nonTls (webApp 2)) Machine.ReadsFiles (webStart 2 7) cs := by decide +kernel
  have hsome : (Runs.exec (Machine.step .nonTls (webApp 2)) (webStart 2 7) cs).any
      (fun r => r.2 = [[.accept 0], [.read 0 (ascii "GET /a HTTP/1.1\r\n\r\n")],
        [.customRead (some 0) 9 (fileHeaders (ascii "public/a") 3 false false 200 ++ [1, 2, 3])]]) = true := by
    decide +kernel
  simp only [Option.any_eq_true, decide_eq_true_eq] at hsome
  obtain ⟨⟨m, logs⟩, hrun, hlogs⟩ := hsome
  have henv : ∀ c ∈ cs, c.env.Regular fun _ => sampleDigest := by
    simpa [hcs] using sampleEnv_regular
  refine ⟨m, logs, hrun, hlogs, outputs_whole .nonTls 2 7 _ cs henv hok m logs hrun _ _ ?_⟩
  simp only at hlogs
  rw [hlogs]
  exact List.prefix_refl _

end LiburingServer
