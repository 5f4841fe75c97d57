import LiburingServer.TcpRequests

/-! The requests of the central thread and the objects behind them. As in the loop of a server, the object of a
request that has completed is deleted unless `req` is null then; a read that goes on sets it to null, a write that
goes on does not. -/

namespace LiburingServer

open Ownership

/-- `central_web_server_event`. -/
inductive CentralEvent where
  | timerfd
  | read
  | write
  | serverThreadCommunication
  | killServer
  deriving DecidableEq, Repr

/-- `central_web_server_req`. Nothing looks at the contents of `buff`; `buffSize` is its size. -/
structure CentralReq where
  event : CentralEvent
  buffSize : ℕ := 0
  buffPtr : Ptr := .null
  size : ℕ := 2 ^ 64 - 1
  progressBytes : ℕ := 0
  fd : ℤ := -1
  customInfo : ℕ := 2 ^ 64 - 1
  deriving DecidableEq

/-- A request that the kernel has not completed: `length` bytes, an `unsigned`, are transferred between the file from
`offset` on and the buffer of the request from `position` on. -/
structure CentralSubmission where
  req : CentralReq
  position : ℕ := 0
  length : ℕ
  offset : ℕ := 0
  deriving DecidableEq

/-- What the central thread does beside its requests: it broadcasts a frame, or collects a report of a server thread. -/
inductive CentralWork (n : ℕ) where
  | broadcast
  | collect (w : Fin n)
  deriving DecidableEq

namespace CentralSubmission

/-- `add_event_read_req`. -/
def eventReadReq (eventFd : ℤ) (event : CentralEvent) (customInfo : ℕ) : CentralSubmission where
  req := { event, buffSize := 8, fd := eventFd, customInfo := customInfo % 2 ^ 64 }
  length := 8

/-- `add_read_req`. -/
def readReq (fd : ℤ) (size : ℕ) : CentralSubmission where
  req := { event := .read, buffSize := size, fd }
  length := size % 2 ^ 32

/-- `add_timer_read_req`. -/
def timerReadReq (timerFd : ℤ) : CentralSubmission where
  req := { event := .timerfd, buffSize := 8, fd := timerFd }
  length := 8

/-- `add_write_req`. -/
def writeReq (fd : ℤ) (buffPtr : Ptr) (size : ℕ) : CentralSubmission where
  req := { event := .write, buffPtr, size := size % 2 ^ 64, fd }
  length := size % 2 ^ 64 % 2 ^ 32

end CentralSubmission

/-- What a branch of the event switch of `run` does: `again` is the request submitted again, `added` is submitted for
new ones, and `isNull` says whether `req` is null at the end. -/
structure CentralHandled (n : ℕ) where
  again : Option CentralSubmission := none
  added : List CentralSubmission := []
  isNull : Bool := false
  runServer : Bool := true
  work : Option (CentralWork n) := none

/-- `delete req` does nothing when `req` is null. -/
def CentralHandled.use {n : ℕ} (h : CentralHandled n) : Use := { resubmits := h.again.isSome, deletes := !h.isNull }

namespace CentralReq

open CentralSubmission

/-- `read_req_continued`. There is nothing to store to behind the end of the buffer. -/
def readReqContinued (req : CentralReq) (lastRead : ℤ) : Option CentralSubmission :=
  let progressBytes := ((req.progressBytes + lastRead) % 2 ^ 64).toNat
  if progressBytes < req.buffSize then
    some
      { req := { req with progressBytes }
        position := progressBytes
        length := (req.buffSize - progressBytes) % 2 ^ 32
        offset := progressBytes }
  else none

/-- `write_req_continued`. -/
def writeReqContinued (req : CentralReq) (written : ℤ) : CentralSubmission :=
  let progressBytes := ((req.progressBytes + written) % 2 ^ 64).toNat
  { req := { req with progressBytes }
    position := progressBytes
    length := (req.size - progressBytes) % 2 ^ 32 }

/-- A write of which `res` bytes were written now has more to write. -/
def Unwritten (req : CentralReq) (res : ℤ) : Prop := (res + req.progressBytes) % 2 ^ 64 < req.size

instance (req : CentralReq) (res : ℤ) : Decidable (req.Unwritten res) :=
  inferInstanceAs (Decidable ((res + req.progressBytes) % 2 ^ 64 < (req.size : ℤ)))

/-- The event switch. A thread that does not exist has no queue to collect from. -/
def handle (n : ℕ) (timerFd : ℤ) (req : CentralReq) (res : ℤ) : Option (CentralHandled n) :=
  match req.event with
  | .killServer => some { runServer := false }
  | .timerfd => some { added := [timerReadReq timerFd], work := some .broadcast }
  | .serverThreadCommunication =>
      if req.customInfo = 2 ^ 64 - 1 then some {}
      else if h : req.customInfo < n then
        some
          { added := [eventReadReq req.fd .serverThreadCommunication req.customInfo]
            work := some (.collect ⟨req.customInfo, h⟩) }
      else none
  | .read =>
      if (req.buffSize : ℤ) = (res + req.progressBytes) % 2 ^ 64 then some {}
      else (req.readReqContinued res).map fun again => { again := some again, isNull := true }
  | .write => if req.Unwritten res then some { again := some (req.writeReqContinued res) } else some {}

variable {n : ℕ} {timerFd res : ℤ} {req : CentralReq} {h : CentralHandled n}

/-- Only a write that goes on is submitted again and deleted. -/
theorem handle_use (hhandled : req.handle n timerFd res = some h) :
    h.use.resubmits ∧ h.use.deletes ↔ req.event = .write ∧ req.Unwritten res := by
  unfold handle at hhandled
  split at hhandled
  · rename_i hevent
    obtain rfl := Option.some.inj hhandled
    simp [CentralHandled.use, hevent]
  · rename_i hevent
    obtain rfl := Option.some.inj hhandled
    simp [CentralHandled.use, hevent]
  · rename_i hevent
    split_ifs at hhandled
    all_goals
      obtain rfl := Option.some.inj hhandled
      simp [CentralHandled.use, hevent]
  · rename_i hevent
    split at hhandled
    · obtain rfl := Option.some.inj hhandled
      simp [CentralHandled.use, hevent]
    · obtain ⟨again, -, rfl⟩ := Option.map_eq_some_iff.mp hhandled
      simp [CentralHandled.use, hevent]
  · rename_i hevent
    split at hhandled
    · rename_i hmore
      obtain rfl := Option.some.inj hhandled
      simp [CentralHandled.use, hevent, hmore]
    · rename_i hdone
      obtain rfl := Option.some.inj hhandled
      simp [CentralHandled.use, hdone]

end CentralReq

/-- The loop of `run`: the submissions that are not completed, the objects they refer to, and the local variables. -/
structure CentralLoop where
  inflight : List CentralSubmission := []
  objects : Objects := {}
  timerFd : ℤ
  runServer : Bool := true

/-- A request may be added at any time; `completion` is the kernel's result for the request at `index`. -/
inductive CentralInput where
  | addEventReadReq (eventFd : ℤ) (event : CentralEvent) (customInfo : ℕ)
  | addReadReq (fd : ℤ) (size : ℕ)
  | addTimerReadReq (timerFd : ℤ)
  | addWriteReq (fd : ℤ) (buffPtr : Ptr) (size : ℕ)
  | completion (index : ℕ) (res : ℤ)

namespace CentralLoop

open CentralSubmission

variable {n : ℕ}

/-- Submissions for new requests. -/
def submit (s : CentralLoop) (subs : List CentralSubmission) : CentralLoop :=
  { s with inflight := s.inflight ++ subs, objects := s.objects.create subs.length }

/-- The submission at `index` is completed, and its request is submitted again if there is such a submission. -/
def complete (s : CentralLoop) (index : ℕ) (use : Use) (again : Option CentralSubmission) : Option CentralLoop :=
  (s.objects.complete index use).map fun objects =>
    { s with inflight := s.inflight.eraseIdx index ++ again.toList, objects }

/-- A round of the loop; one for a negative result ends without `delete`. -/
def completion (n : ℕ) (s : CentralLoop) (index : ℕ) (res : ℤ) : Option (CentralLoop × Option (CentralWork n)) :=
  match s.inflight[index]? with
  | none => none
  | some sub =>
      if res < 0 then (s.complete index {} none).map fun s => (s, none)
      else
        (sub.req.handle n s.timerFd res).bind fun h =>
          (s.complete index h.use h.again).map fun s => ({ s.submit h.added with runServer := h.runServer }, h.work)

/-- A vector cannot have `2 ^ 63` bytes. Nothing happens any more once the loop was left. -/
def step (n : ℕ) (s : CentralLoop) (i : CentralInput) : Option (CentralLoop × Option (CentralWork n)) :=
  if s.runServer then
    match i with
    | .addEventReadReq eventFd event customInfo => some (s.submit [eventReadReq eventFd event customInfo], none)
    | .addReadReq fd size => if size < 2 ^ 63 then some (s.submit [readReq fd size], none) else none
    | .addTimerReadReq timerFd => some (s.submit [timerReadReq timerFd], none)
    | .addWriteReq fd buffPtr size => some (s.submit [writeReq fd buffPtr size], none)
    | .completion index res => s.completion n index res
  else none

/-- The loop when it begins, with a read of the eventfd of each server thread. -/
def start (communicationEfd : Fin n → ℤ) (killServerEfd timerFd : ℤ) : CentralLoop :=
  submit { timerFd } ((List.finRange n).map
      (fun w => eventReadReq (communicationEfd w) .serverThreadCommunication w) ++
    [eventReadReq killServerEfd .killServer 0, timerReadReq timerFd])

/-- Every submission has its object, no object is deleted twice, and none is deleted while it is in flight. -/
structure Sound (s : CentralLoop) : Prop where
  paired : s.objects.inflight.length = s.inflight.length
  safe : s.objects.Safe

/-- A write that is completed leaves nothing to be written. -/
def WritesAll (s : CentralLoop) : CentralInput → Prop
  | .completion index res => ∀ sub ∈ s.inflight[index]?, sub.req.event = .write → 0 ≤ res → ¬sub.req.Unwritten res
  | _ => True

instance (s : CentralLoop) : DecidablePred s.WritesAll
  | .completion index res => inferInstanceAs
      (Decidable (∀ sub ∈ s.inflight[index]?, sub.req.event = .write → 0 ≤ res → ¬sub.req.Unwritten res))
  | .addEventReadReq _ _ _ | .addReadReq _ _ | .addTimerReadReq _ | .addWriteReq _ _ _ => isTrue trivial

variable {s t : CentralLoop} {index : ℕ} {res : ℤ} {use : Use} {again : Option CentralSubmission}
  {subs : List CentralSubmission} {o : Option (CentralWork n)}

theorem submit_sound_iff (hw : s.objects.Wf) : (s.submit subs).Sound ↔ s.Sound := by
  have hlength : (s.submit subs).objects.inflight.length = s.objects.inflight.length + subs.length :=
    Objects.length_create
  have hinflight : (s.submit subs).inflight.length = s.inflight.length + subs.length := List.length_append
  constructor
  · rintro ⟨hpaired, hsafe⟩
    exact ⟨by omega, (Objects.safe_create_iff hw).mp hsafe⟩
  · rintro ⟨hpaired, hsafe⟩
    exact ⟨by omega, (Objects.safe_create_iff hw).mpr hsafe⟩

/-- The loop stays sound when a submission is completed, unless its object is in flight again and deleted. -/
theorem complete_sound_iff (hw : s.objects.Wf) (hs : s.Sound) (hindex : index < s.inflight.length)
    (hagain : use.resubmits = again.isSome) (hcomplete : s.complete index use again = some t) :
    t.objects.Wf ∧ (t.Sound ↔ ¬(use.resubmits ∧ use.deletes)) := by
  obtain ⟨objects, hobjects, rfl⟩ := Option.map_eq_some_iff.mp hcomplete
  have hpaired : objects.inflight.length = (s.inflight.eraseIdx index ++ again.toList).length := by
    have hlength := Objects.length_complete hobjects
    have hbefore := hs.paired
    rw [List.length_append, List.length_eraseIdx_of_lt hindex]
    cases again with
    | none =>
        rw [hagain] at hlength
        simp only [Option.isSome_none, Bool.false_eq_true, if_false, Option.toList_none, List.length_nil] at hlength ⊢
        omega
    | some sub =>
        rw [hagain] at hlength
        simp only [Option.isSome_some, if_true, Option.toList_some, List.length_singleton] at hlength ⊢
        omega
  have hiff := Objects.safe_complete_iff hw hs.safe hobjects
  exact ⟨hw.complete hobjects, fun ht => hiff.mp ht.safe, fun hnot => ⟨hpaired, hiff.mpr hnot⟩⟩

theorem completion_sound_iff (hw : s.objects.Wf) (hs : s.Sound) (hstep : s.completion n index res = some (t, o)) :
    t.objects.Wf ∧ (s.WritesAll (.completion index res) ↔ t.Sound) := by
  unfold completion at hstep
  split at hstep
  · cases hstep
  · rename_i sub hsub
    have hindex : index < s.inflight.length := (List.getElem?_eq_some_iff.mp hsub).1
    have hwrites : s.WritesAll (.completion index res) ↔
        ¬(0 ≤ res ∧ sub.req.event = .write ∧ sub.req.Unwritten res) := by
      simp only [WritesAll, hsub, Option.mem_some_iff, forall_eq']
      tauto
    rw [hwrites]
    split at hstep
    · rename_i hnegative
      obtain ⟨s₁, hs₁, heq⟩ := Option.map_eq_some_iff.mp hstep
      obtain ⟨rfl, -⟩ := Prod.mk.inj heq
      obtain ⟨hwf, hsound⟩ := complete_sound_iff hw hs hindex rfl hs₁
      refine ⟨hwf, iff_of_true (fun h => ?_) (hsound.mpr (by simp))⟩
      omega
    · rename_i hres
      obtain ⟨h, hhandled, hstep⟩ := Option.bind_eq_some_iff.mp hstep
      obtain ⟨s₁, hs₁, heq⟩ := Option.map_eq_some_iff.mp hstep
      obtain ⟨rfl, -⟩ := Prod.mk.inj heq
      obtain ⟨hwf, hsound⟩ := complete_sound_iff hw hs hindex rfl hs₁
      refine ⟨hwf.create _, ?_⟩
      have hadded : CentralLoop.Sound { s₁.submit h.added with runServer := h.runServer } ↔ (s₁.submit h.added).Sound :=
        ⟨fun ht => ⟨ht.paired, ht.safe⟩, fun ht => ⟨ht.paired, ht.safe⟩⟩
      rw [hadded, submit_sound_iff hwf, hsound, CentralReq.handle_use hhandled]
      have hnonneg : 0 ≤ res := not_lt.mp hres
      tauto

/-- One step, from a sound state. -/
theorem step_sound_iff (s : CentralLoop) (i : CentralInput) (t : CentralLoop) (o : Option (CentralWork n))
    (hw : s.objects.Wf) (hs : s.Sound) (hstep : s.step n i = some (t, o)) :
    t.objects.Wf ∧ (s.WritesAll i ↔ t.Sound) := by
  have hadded : ∀ sub, t = s.submit [sub] → t.objects.Wf ∧ (True ↔ t.Sound) := by
    rintro sub rfl
    exact ⟨hw.create _, iff_of_true trivial ((submit_sound_iff hw).mpr hs)⟩
  unfold step at hstep
  split at hstep
  · cases i with
    | addEventReadReq eventFd event customInfo => exact hadded _ (Prod.mk.inj (Option.some.inj hstep)).1.symm
    | addReadReq fd size =>
        dsimp only at hstep
        split_ifs at hstep
        exact hadded _ (Prod.mk.inj (Option.some.inj hstep)).1.symm
    | addTimerReadReq timerFd => exact hadded _ (Prod.mk.inj (Option.some.inj hstep)).1.symm
    | addWriteReq fd buffPtr size => exact hadded _ (Prod.mk.inj (Option.some.inj hstep)).1.symm
    | completion index res => exact completion_sound_iff hw hs hstep
  · cases hstep

theorem start_sound (communicationEfd : Fin n → ℤ) (killServerEfd timerFd : ℤ) :
    (start communicationEfd killServerEfd timerFd).objects.Wf ∧ (start communicationEfd killServerEfd timerFd).Sound :=
  ⟨Objects.wf_empty.create _, (submit_sound_iff Objects.wf_empty).mpr ⟨rfl, Objects.safe_empty⟩⟩

/-- A run is sound throughout exactly if it leaves nothing to be written wherever a write is completed. -/
theorem run_sound_iff {is : List CentralInput} {os : List (Option (CentralWork n))} (hw : s.objects.Wf) (hs : s.Sound)
    (hrun : Runs.exec (step n) s is = some (t, os)) :
    Runs.Throughout (step n) Sound s is ↔ Runs.Along (step n) WritesAll s is :=
  Runs.throughout_iff_along_of_exec (I := fun s => s.objects.Wf) step_sound_iff hw hs hrun

end CentralLoop

/-- **Objects of requests.** In a run of the event loop of a server and a run of the central thread, every object is
deleted at most once and none while a submission refers to it, exactly if no write that is completed in the central
thread leaves something to be written. -/
theorem requests_deleted_once_iff {σ ε : Type*} (T : ServerType) (app : App σ ε) (a : σ) (reads : List (ℤ × ℕ)) {n : ℕ}
    (communicationEfd : Fin n → ℤ) (killServerEfd timerFd : ℤ) (cs : List (Completion ε)) (is : List CentralInput)
    {m : Machine σ} {logs : List (List Callback)} {s : CentralLoop} {os : List (Option (CentralWork n))}
    (hserver : Runs.exec (Machine.step T app) (Machine.start a reads) cs = some (m, logs))
    (hcentral : Runs.exec (CentralLoop.step n) (CentralLoop.start communicationEfd killServerEfd timerFd) is =
      some (s, os)) :
    (Runs.Throughout (Machine.ownedStep T app) Machine.WithObjects.Sound (Machine.ownedStart a reads) cs ∧
      Runs.Throughout (CentralLoop.step n) CentralLoop.Sound
        (CentralLoop.start communicationEfd killServerEfd timerFd) is) ↔
      Runs.Along (CentralLoop.step n) CentralLoop.WritesAll
        (CentralLoop.start communicationEfd killServerEfd timerFd) is := by
  obtain ⟨hownedStart, hownedWf⟩ := Machine.ownedStart_sound a reads
  obtain ⟨hwf, hstart⟩ := CentralLoop.start_sound communicationEfd killServerEfd timerFd
  rw [← CentralLoop.run_sound_iff hwf hstart hcentral]
  exact ⟨And.right, fun h => ⟨Machine.owned_run hownedStart hownedWf hserver, h⟩⟩

/-- A server answers in two parts; the central thread reads in two parts and writes at once. -/
theorem requests_deleted_once_iff_short :
    Runs.Throughout (Machine.ownedStep .nonTls replyApp) Machine.WithObjects.Sound (Machine.ownedStart () [])
        [{ index := 3, res := 10, env := () }, { index := 4, res := 5, data := [1, 2, 3, 4, 5], env := () },
          { index := 4, res := 2, env := () }, { index := 4, res := 3, env := () }] ∧
      Runs.Throughout (CentralLoop.step 1) CentralLoop.Sound (CentralLoop.start (fun _ : Fin 1 => 3) 4 5)
        [.addReadReq 6 10, .completion 3 4, .completion 3 6, .addWriteReq 7 (.item 0) 10, .completion 3 10] := by
  have hwrites : Runs.Along (CentralLoop.step 1) CentralLoop.WritesAll (CentralLoop.start (fun _ : Fin 1 => 3) 4 5)
      [.addReadReq 6 10, .completion 3 4, .completion 3 6, .addWriteReq 7 (.item 0) 10, .completion 3 10] := by
    decide +kernel
  have hserver : (Runs.exec (Machine.step .nonTls replyApp) (Machine.start () [])
      [{ index := 3, res := 10, env := () }, { index := 4, res := 5, data := [1, 2, 3, 4, 5], env := () },
        { index := 4, res := 2, env := () }, { index := 4, res := 3, env := () }]).isSome := by decide +kernel
  have hcentral : (Runs.exec (CentralLoop.step 1) (CentralLoop.start (fun _ : Fin 1 => 3) 4 5)
      [.addReadReq 6 10, .completion 3 4, .completion 3 6, .addWriteReq 7 (.item 0) 10, .completion 3 10]).isSome := by
    decide +kernel
  obtain ⟨⟨m, logs⟩, hm⟩ := Option.isSome_iff_exists.mp hserver
  obtain ⟨⟨s, os⟩, hs⟩ := Option.isSome_iff_exists.mp hcentral
  exact (requests_deleted_once_iff .nonTls replyApp () [] (fun _ => 3) 4 5 _ _ hm hs).mpr hwrites

/-- Four of ten bytes are written. The object `3` of the request is deleted and in flight again, and nothing is
defined when the rest is written. -/
theorem central_write_deleted : ∃ s os,
    Runs.exec (CentralLoop.step 1) (CentralLoop.start (fun _ : Fin 1 => 3) 4 5)
        [.addWriteReq 6 (.item 0) 10, .completion 3 4] = some (s, os) ∧
      s.objects.inflight = [0, 1, 2, 3] ∧ s.objects.deleted = [3] ∧ ¬s.Sound ∧
      s.step 1 (.completion 3 6) = none := by
  have hsome : (Runs.exec (CentralLoop.step 1) (CentralLoop.start (fun _ : Fin 1 => 3) 4 5)
      [.addWriteReq 6 (.item 0) 10, .completion 3 4]).any
      (fun r => r.1.objects.inflight = [0, 1, 2, 3] ∧ r.1.objects.deleted = [3] ∧
        (r.1.step 1 (.completion 3 6)).isNone) = true := by decide +kernel
  simp only [Option.any_eq_true, decide_eq_true_eq, Option.isNone_iff_eq_none] at hsome
  obtain ⟨⟨s, os⟩, hrun, hinflight, hdeleted, hnone⟩ := hsome
  refine ⟨s, os, hrun, hinflight, hdeleted, fun hsound => ?_, hnone⟩
  have halive := hsound.safe.alive 3
  rw [hinflight, hdeleted] at halive
  exact halive (by decide) (by decide)

end LiburingServer
