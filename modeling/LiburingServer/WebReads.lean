import LiburingServer.TcpCallbacks
import LiburingServer.WebServer

/-! Custom reads, from the request that `custom_read_req` makes to its last completion. Every read that is
submitted for one asks for `READ_SIZE` bytes, whatever is left of its buffer, and the request ends when what is read
and the size of the buffer are equal: some results let a request go on for ever, or store bytes behind its buffer. -/

namespace LiburingServer

/-- A read that the kernel is asked for: `length` bytes from `offset` on, to be stored behind the first `position`
bytes of the buffer. -/
structure KernelRead where
  fd : ℤ
  position : ℕ
  length : ℕ
  offset : ℕ
  deriving DecidableEq

/-- What becomes of a custom read when a read of it completes. In an `overrun` the kernel stored bytes behind the
buffer. -/
inductive ReadOutcome where
  | overrun
  | finished (readData : Bytes)
  | continued (req : Request)

/-- The request has ended, or it goes on with more read than before and no more than its buffer holds. -/
def ReadOutcome.Progress (req : Request) : ReadOutcome → Prop
  | .overrun => False
  | .finished _ => True
  | .continued req' => req.readAmount < req'.readAmount ∧ req'.readAmount ≤ req'.readData.length

instance (req : Request) : DecidablePred (ReadOutcome.Progress req)
  | .overrun => isFalse id
  | .finished _ => isTrue trivial
  | .continued req' =>
      inferInstanceAs (Decidable (req.readAmount < req'.readAmount ∧ req'.readAmount ≤ req'.readData.length))

namespace Request

/-- The read that `custom_read_req` submits. -/
def firstRead (fd : ℤ) (readAmount : ℕ) : KernelRead := ⟨fd, readAmount, readSize, 0⟩

/-- The read that `custom_read_req_continued` submits. Where the contents of the file begin in the buffer is computed
from its size. -/
def continuedRead (req : Request) : KernelRead :=
  let initialOffset : ℤ := req.readData.length - req.totalLength
  ⟨req.customInfo, req.readAmount, readSize, ((req.readAmount - initialOffset) % 2 ^ 64).toNat⟩

/-- What a completion makes of a custom read, as `start` and `custom_read_req_continued` do. -/
def complete (req : Request) (res : ℤ) (data : Bytes) : ReadOutcome :=
  let readData := Machine.stored req res data
  if data.take res.toNat ≠ [] ∧ req.readData.length < req.readAmount + (data.take res.toNat).length then .overrun
  else if (readData.length : ℤ) = (res + req.readAmount) % 2 ^ 64 then .finished readData
  else .continued { req with readData, readAmount := ((req.readAmount + res) % 2 ^ 64).toNat }

/-- A completion after which the request goes on, with the read that is submitted then. -/
def next (req : Request) (x : ℤ × Bytes) : Option (Request × KernelRead) :=
  match req.complete x.1 x.2 with
  | .continued req' => some (req', req'.continuedRead)
  | _ => none

/-- The first read is the one that a continuation would submit. -/
theorem continuedRead_customRead (fd : ℤ) (toRead : ℕ) (clientIdx : Option ℕ) (buff : Bytes) (readAmount : ℕ) :
    (customRead fd toRead clientIdx buff readAmount).continuedRead = firstRead fd readAmount := by
  have hoffset : ((readAmount : ℤ) - (((toRead + readAmount) % 2 ^ 64 : ℕ) - toRead)) % 2 ^ 64 = 0 := by omega
  simp only [continuedRead, customRead_length, customRead_totalLength, customRead_readAmount, hoffset]
  rfl

end Request

/-- A completed custom read of the event loop does what its request does. -/
theorem Machine.customRead_eq {σ ε : Type*} (T : ServerType) (app : App σ ε) (env : ε) (m : Machine σ)
    (sub : Submission) (res : ℤ) (data : Bytes) :
    m.customRead T app env sub res data = match sub.req.complete res data with
      | .overrun => none
      | .finished readData =>
          (m.onTcp fun s => { s with finishedReads := s.finishedReads ++ [(sub.file, readData)] }).callback T
            (.customRead sub.req.clientIdx sub.req.customInfo readData)
            (app.customReadCb env m.app sub.req.clientIdx sub.req.customInfo readData)
      | .continued req => some (m.onTcp fun s => s.submit { sub with req }) := by
  unfold customRead Request.complete stored
  dsimp only
  split_ifs with hfits hfull
  · rfl
  · rfl
  · rfl

namespace Request

variable {req req' : Request} {x : ℤ × Bytes} {read : KernelRead}

/-- What a custom read stores does not change the size of its buffer. -/
theorem stored_length {res : ℤ} {data : Bytes}
    (h : ¬(data.take res.toNat ≠ [] ∧ req.readData.length < req.readAmount + (data.take res.toNat).length)) :
    (Machine.stored req res data).length = req.readData.length := by
  simp only [Machine.stored, List.length_append, List.length_drop, List.length_take] at h ⊢
  by_cases hnone : data.take res.toNat = []
  · have hzero : min res.toNat data.length = 0 := by rw [← List.length_take, hnone, List.length_nil]
    omega
  · have hfits := not_lt.mp fun hover => h ⟨hnone, hover⟩
    omega

/-- A request goes on with a buffer of the same size and with an amount that is computed in 64 bits. -/
theorem next_eq_some (h : req.next x = some (req', read)) :
    req'.readData.length = req.readData.length ∧ req'.totalLength = req.totalLength ∧
      req'.readAmount = ((req.readAmount + x.1) % 2 ^ 64).toNat ∧
      (req.readData.length : ℤ) ≠ (x.1 + req.readAmount) % 2 ^ 64 ∧ read = req'.continuedRead := by
  unfold next complete at h
  dsimp only at h
  split_ifs at h with hover hfull
  obtain ⟨rfl, rfl⟩ : _ ∧ _ := by simpa using h
  rw [stored_length hover] at hfull
  exact ⟨stored_length hover, rfl, rfl, hfull, rfl⟩

/-! ### Progress -/

/-- What is left of the buffer. -/
def left (req : Request) : ℤ := req.readData.length - req.readAmount

/-- The completion ends the request, or the amount read grows and stays within the buffer. -/
def Progresses (req : Request) (x : ℤ × Bytes) : Prop := (req.complete x.1 x.2).Progress req

instance (req : Request) (x : ℤ × Bytes) : Decidable (req.Progresses x) :=
  inferInstanceAs (Decidable (ReadOutcome.Progress req _))

/-- The result is what is left of the buffer, or some of it. -/
def Fits (req : Request) (x : ℤ × Bytes) : Prop := x.1 = req.left ∨ 0 < x.1 ∧ x.1 < req.left

instance (req : Request) (x : ℤ × Bytes) : Decidable (req.Fits x) := inferInstanceAs (Decidable (_ ∨ _))

/-- The numbers of a request whose buffer is a vector, which has fewer than `2 ^ 63` bytes. -/
structure Bounded (req : Request) : Prop where
  length : req.readData.length < 2 ^ 63
  amount : req.readAmount < 2 ^ 63

theorem progresses_iff_fits (h : req.Bounded) (hres : -2 ^ 31 ≤ x.1 ∧ x.1 < 2 ^ 31) :
    req.Progresses x ↔ req.Fits x := by
  obtain ⟨hlength, hamount⟩ := h
  unfold Progresses Fits left complete ReadOutcome.Progress
  dsimp only
  split_ifs with hover hfull
  · -- the kernel has stored more than what is left
    obtain ⟨hsome, hmore⟩ := hover
    have htaken : (x.2.take x.1.toNat).length ≤ x.1.toNat := by simp
    have hpos := List.length_pos_of_ne_nil hsome
    simp only [false_iff]
    omega
  · rw [stored_length hover] at hfull
    simp only [true_iff]
    omega
  · simp only [stored_length hover] at hfull ⊢
    omega

theorem bounded_customRead {fd : ℤ} {toRead : ℕ} {clientIdx : Option ℕ} {buff : Bytes} {readAmount : ℕ}
    (hamount : readAmount < 2 ^ 63) (hsize : (toRead + readAmount) % 2 ^ 64 < 2 ^ 63) :
    (customRead fd toRead clientIdx buff readAmount).Bounded := by
  constructor
  · rw [customRead_length]
    exact hsize
  · exact hamount

theorem Bounded.next (h : req.Bounded) (hfits : req.Fits x) (hnext : req.next x = some (req', read)) :
    req'.Bounded ∧ req'.readAmount = req.readAmount + x.1 ∧ 0 < x.1 := by
  obtain ⟨hlength, hamount⟩ := h
  obtain ⟨hsame, -, hnew, hfull, -⟩ := next_eq_some hnext
  simp only [Fits, left] at hfits
  refine ⟨⟨by omega, by omega⟩, by omega, by omega⟩

/-- A request whose results all fit is submitted again for each result, with less than one of them for each byte that
is left. -/
theorem length_lt_of_fits {xs : List (ℤ × Bytes)} {r : Request × List KernelRead} (h : req.Bounded)
    (hfits : Runs.Along next Fits req xs) (hrun : Runs.exec next req xs = some r) (hxs : xs ≠ []) :
    xs.length + req.readAmount < req.readData.length := by
  induction xs generalizing req r with
  | nil => exact absurd rfl hxs
  | cons x xs ih =>
      obtain ⟨req₁, read, _, hnext, hrest, -⟩ := Runs.exec_cons hrun
      obtain ⟨hbounded, hamount, hpos⟩ := h.next hfits.1 hnext
      obtain ⟨hlength, -, -, hfull, -⟩ := next_eq_some hnext
      rw [List.length_cons]
      by_cases hlast : xs = []
      · -- a result that fits and does not end the request leaves something
        have hlt : x.1 < req.left := by
          rcases hfits.1 with heq | ⟨-, hlt⟩
          · have hlen := h.length
            simp only [left] at heq
            omega
          · exact hlt
        simp only [left] at hlt
        simp only [hlast, List.length_nil]
        omega
      · have hlater := ih hbounded (hfits.2 _ _ hnext) hrest hlast
        omega

end Request

/-- **Progress of custom reads.** Along every sequence of completions of a custom read, each completion ends the
request or lets the amount read grow within the buffer, exactly if each result is what is left of the buffer or a
positive part of it. Then the request is submitted again at most once for each byte that was asked for. -/
theorem custom_read_progress_iff (fd : ℤ) (toRead : ℕ) (clientIdx : Option ℕ) (buff : Bytes) (readAmount : ℕ)
    (hamount : readAmount < 2 ^ 63) (hsize : (toRead + readAmount) % 2 ^ 64 < 2 ^ 63) (xs : List (ℤ × Bytes))
    (hres : ∀ x ∈ xs, -2 ^ 31 ≤ x.1 ∧ x.1 < 2 ^ 31) :
    let req := Request.customRead fd toRead clientIdx buff readAmount
    (Runs.Along Request.next Request.Progresses req xs ↔ Runs.Along Request.next Request.Fits req xs) ∧
      (Runs.Along Request.next Request.Fits req xs →
        ∀ r, Runs.exec Request.next req xs = some r → xs.length ≤ toRead) := by
  intro req
  have hbounded : req.Bounded := Request.bounded_customRead hamount hsize
  constructor
  · refine Runs.along_congr (I := Request.Bounded) (H := fun _ x => -2 ^ 31 ≤ x.1 ∧ x.1 < 2 ^ 31)
      (fun _ _ => Request.progresses_iff_fits) (fun _ _ _ _ hI hfits hnext => (hI.next hfits hnext).1) hbounded
      (Runs.along_of_mem hres)
  · intro hfits r hrun
    by_cases hxs : xs = []
    · simp [hxs]
    · have hlt := Request.length_lt_of_fits hbounded hfits hrun hxs
      simp only [req, Request.customRead_length, Request.customRead_readAmount] at hlt
      omega

theorem custom_read_progress_iff_short :
    let req := Request.customRead 20 3 (some 0) [1, 2, 0, 0, 0] 2
    Runs.Along Request.next Request.Progresses req [(1, [7]), (2, [8, 9])] ∧
      ∃ r, Runs.exec Request.next req [(1, [7])] = some r := by
  intro req
  have hiff := fun xs hres => custom_read_progress_iff 20 3 (some 0) [1, 2, 0, 0, 0] 2 (by decide) (by decide) xs hres
  constructor
  · exact (hiff [(1, [7]), (2, [8, 9])] (by decide)).1.mpr (by decide +kernel)
  · exact ⟨_, rfl⟩

/-- Reads of a descriptor that is not open. -/
def failedReads : List (Completion WebEnv) :=
  [{ index := 3, res := -9, env := {} }, { index := 4, res := -9, env := {} }, { index := 4, res := -9, env := {} }]

/-- When `inotify_init` has failed, each read of its descriptor fails, and is submitted again with an amount that
wraps and goes down. A file that has become shorter is read for ever, with nothing read. -/
theorem custom_read_not_progressing :
    (∃ m logs, Runs.exec (Machine.step .nonTls (webApp 2)) (webStart 2 (-1)) failedReads = some (m, logs) ∧
      m.tcp.reads.map (fun x => (x.1.customInfo, x.1.readAmount)) = [(-1, 2 ^ 64 - 27)] ∧ logs = [[], [], []]) ∧
    ¬(Request.customRead (-1) inotifyEventSize none [] 0).Progresses (-9, []) ∧
    ∀ n, let req := Request.customRead 20 3 (some 0) [1, 2, 0, 0, 0] 2
      ¬req.Progresses (0, []) ∧
        Runs.exec Request.next req (List.replicate n (0, [])) = some (req, List.replicate n req.continuedRead) := by
  refine ⟨?_, by decide +kernel, fun n => ⟨by decide +kernel, ?_⟩⟩
  · have hsome : (Runs.exec (Machine.step .nonTls (webApp 2)) (webStart 2 (-1)) failedReads).any (fun r =>
        r.1.tcp.reads.map (fun x => (x.1.customInfo, x.1.readAmount)) = [(-1, 2 ^ 64 - 27)] ∧
          r.2 = [[], [], []]) = true := by decide +kernel
    simp only [Option.any_eq_true, decide_eq_true_eq] at hsome
    obtain ⟨⟨m, logs⟩, hrun, hreads, hlogs⟩ := hsome
    exact ⟨m, logs, hrun, hreads, hlogs⟩
  · induction n with
    | zero => rfl
    | succ n ih =>
        have hnext : (Request.customRead 20 3 (some 0) [1, 2, 0, 0, 0] 2).next (0, []) =
            some (Request.customRead 20 3 (some 0) [1, 2, 0, 0, 0] 2,
              (Request.customRead 20 3 (some 0) [1, 2, 0, 0, 0] 2).continuedRead) := by rfl
        simp only [List.replicate_succ, Runs.exec, hnext, ih, Option.map_some]

/-! ### Containment -/

namespace Request

variable {req req' : Request} {x : ℤ × Bytes} {read : KernelRead}

/-- The read that is in flight asks for no more than what is left of the buffer, and so none of the results that the
kernel may return for it is more than that. -/
structure Contained (req : Request) : Prop where
  asked : req.readAmount + req.continuedRead.length ≤ req.readData.length
  stored : ∀ (res : ℤ) data, res ≤ req.continuedRead.length →
    req.complete res data ≠ .overrun ∧ res + req.readAmount ≤ req.readData.length

theorem contained_iff : req.Contained ↔ req.readAmount + readSize ≤ req.readData.length := by
  refine ⟨Contained.asked, fun h => ⟨h, fun res data hres => ?_⟩⟩
  have hlength : (req.continuedRead.length : ℤ) = readSize := rfl
  have htaken : (data.take res.toNat).length ≤ res.toNat := by simp
  constructor
  · unfold complete
    dsimp only
    split_ifs with hover hfull
    · omega
    · exact ReadOutcome.noConfusion
    · exact ReadOutcome.noConfusion
  · omega

/-- The reads of a request are contained as long as the results leave room for one more of them. -/
theorem throughout_contained_iff (h : req.Bounded) {xs : List (ℤ × Bytes)}
    (hallowed : ∀ x ∈ xs, -2 ^ 31 ≤ x.1 ∧ x.1 ≤ readSize) {r : Request × List KernelRead}
    (hrun : Runs.exec next req xs = some r) :
    Runs.Throughout next Contained req xs ↔ ∀ results, results <+: xs.map Prod.fst →
      0 ≤ req.readAmount + results.sum ∧ req.readAmount + results.sum + readSize ≤ req.readData.length := by
  obtain ⟨hlen, hamount⟩ := h
  have hsize : readSize = 8192 := rfl
  induction xs generalizing req r with
  | nil =>
      simp only [Runs.Throughout, contained_iff, List.map_nil, List.prefix_nil, forall_eq, List.sum_nil]
      omega
  | cons x xs ih =>
      obtain ⟨req₁, read, _, hnext, hrest, -⟩ := Runs.exec_cons hrun
      obtain ⟨hsame, -, hnew, -, -⟩ := next_eq_some hnext
      obtain ⟨hlow, hhigh⟩ := hallowed x (List.mem_cons_self ..)
      have hlater : Runs.Throughout next Contained req (x :: xs) ↔
          req.Contained ∧ Runs.Throughout next Contained req₁ xs := by simp [Runs.Throughout, hnext]
      rw [hlater, contained_iff]
      by_cases hroom : 0 ≤ req.readAmount + x.1 ∧ req.readAmount + x.1 + readSize ≤ req.readData.length
      · have hamount₁ : (req₁.readAmount : ℤ) = req.readAmount + x.1 := by omega
        have hthere := ih (fun y hy => hallowed y (List.mem_cons_of_mem _ hy)) hrest (by omega) (by omega)
        rw [hamount₁, hsame] at hthere
        refine (and_congr_right' hthere).trans ?_
        constructor
        · rintro ⟨hhere, hrest'⟩ results hresults
          rcases List.prefix_cons_iff.mp hresults with rfl | ⟨results₁, rfl, hprefix⟩
          · simp only [List.sum_nil]
            omega
          · rw [List.sum_cons, ← add_assoc]
            exact hrest' results₁ hprefix
        · intro hall
          have hnil := hall [] List.nil_prefix
          simp only [List.sum_nil] at hnil
          refine ⟨by omega, fun results hresults => ?_⟩
          have hcons := hall (x.1 :: results) (List.cons_prefix_cons.mpr ⟨rfl, hresults⟩)
          rwa [List.sum_cons, ← add_assoc] at hcons
      · -- the amount has wrapped, or there is no room for the next read
        refine iff_of_false (fun hboth => hroom ?_) fun hall => hroom ?_
        · have hhere := hboth.1
          have hthere := contained_iff.mp hboth.2.head
          omega
        · have hone := hall [x.1] (by simp [List.prefix_cons_iff])
          simpa using hone

end Request

/-- **Reads within their buffer.** Every read that is submitted for a custom read asks for no more than what is left
of its buffer exactly if the size of the buffer does not wrap, and before each read the results so far have neither
gone below what was there at the beginning nor left less than `READ_SIZE` of what was asked for. -/
theorem custom_read_contained_iff (fd : ℤ) (toRead : ℕ) (clientIdx : Option ℕ) (buff : Bytes) (readAmount : ℕ)
    (htoRead : toRead < 2 ^ 64) (hamount : readAmount < 2 ^ 63) (hsize : (toRead + readAmount) % 2 ^ 64 < 2 ^ 63)
    (xs : List (ℤ × Bytes)) (hallowed : ∀ x ∈ xs, -2 ^ 31 ≤ x.1 ∧ x.1 ≤ readSize)
    (r : Request × List KernelRead)
    (hrun : Runs.exec Request.next (Request.customRead fd toRead clientIdx buff readAmount) xs = some r) :
    Runs.Throughout Request.next Request.Contained (Request.customRead fd toRead clientIdx buff readAmount) xs ↔
      toRead + readAmount < 2 ^ 64 ∧ ∀ results, results <+: xs.map Prod.fst →
        -readAmount ≤ results.sum ∧ results.sum + readSize ≤ toRead := by
  rw [Request.throughout_contained_iff (Request.bounded_customRead hamount hsize) hallowed hrun,
    Request.customRead_readAmount, Request.customRead_length]
  constructor
  · intro hall
    have hnil := hall [] List.nil_prefix
    simp only [List.sum_nil] at hnil
    have hlt : toRead + readAmount < 2 ^ 64 := by omega
    refine ⟨hlt, fun results hresults => ?_⟩
    have hhere := hall results hresults
    omega
  · rintro ⟨hlt, hall⟩ results hresults
    have hhere := hall results hresults
    omega

theorem custom_read_contained_iff_one :
    Runs.Throughout Request.next Request.Contained (Request.customRead 20 (readSize + 1) (some 0) [] 0) [(1, [7])] := by
  have hrun : (Runs.exec Request.next (Request.customRead 20 (readSize + 1) (some 0) [] 0) [(1, [7])]).isSome =
      true := by decide +kernel
  obtain ⟨r, hr⟩ := Option.isSome_iff_exists.mp hrun
  refine (custom_read_contained_iff 20 (readSize + 1) (some 0) [] 0 (by decide) (by decide) (by decide) [(1, [7])]
    (by decide) r hr).mpr ⟨by decide, fun results hresults => ?_⟩
  rcases List.prefix_cons_iff.mp hresults with rfl | ⟨results₁, rfl, hprefix⟩
  · decide
  · obtain rfl := List.prefix_nil.mp hprefix
    decide

/-- The read of the inotify descriptor that every server starts with asks for more than the one event that its buffer
holds. When two events are there, the second one is stored behind the buffer. -/
theorem custom_read_not_contained :
    ∃ sub, (webStart 2 7).tcp.inflight[3]? = some sub ∧
      sub.req = Request.customRead 7 inotifyEventSize none [] 0 ∧ ¬sub.req.Contained ∧
      (2 * inotifyEventSize : ℤ) ≤ sub.req.continuedRead.length ∧
      sub.req.readData.length < 2 * inotifyEventSize + sub.req.readAmount ∧
      Machine.step .nonTls (webApp 2) (webStart 2 7)
        { index := 3
          res := 2 * inotifyEventSize
          data := List.replicate (2 * inotifyEventSize) 1
          env := {} } = none := by
  refine ⟨⟨Request.customRead 7 inotifyEventSize none [] 0, .null, 0, none⟩, rfl, rfl, ?_, by decide, by decide, ?_⟩
  · rw [Request.contained_iff]
    decide
  · have hnone : (Machine.step .nonTls (webApp 2) (webStart 2 7)
        { index := 3
          res := 2 * inotifyEventSize
          data := List.replicate (2 * inotifyEventSize) 1
          env := {} }).isNone = true := by decide +kernel
    exact Option.isNone_iff_eq_none.mp hnone

end LiburingServer
