import LiburingServer.CentralRequests

/-! What the central thread listens to: the eventfd of each server thread, its timer and the eventfd that ends it. The
round that handles a completion reads the eventfd or the timer again, unless the completion failed. -/

namespace LiburingServer

variable {n : ℕ}

/-- What a read of the central thread waits for. -/
inductive CentralSource (n : ℕ) where
  | serverThread (w : Fin n)
  | timer
  | kill
  deriving DecidableEq

/-- The request waits for the source. -/
def CentralReq.ListensTo (req : CentralReq) : CentralSource n → Prop
  | .serverThread w => req.event = .serverThreadCommunication ∧ req.customInfo = w
  | .timer => req.event = .timerfd
  | .kill => req.event = .killServer

instance (req : CentralReq) : (source : CentralSource n) → Decidable (req.ListensTo source)
  | .serverThread w => inferInstanceAs (Decidable (req.event = .serverThreadCommunication ∧ req.customInfo = w))
  | .timer => inferInstanceAs (Decidable (req.event = .timerfd))
  | .kill => inferInstanceAs (Decidable (req.event = .killServer))

/-- Inputs that `run` gives itself: completions, and requests to read or write. -/
def CentralInput.OfRun : CentralInput → Prop
  | .completion _ _ | .addReadReq _ _ | .addWriteReq _ _ _ => True
  | .addEventReadReq _ _ _ | .addTimerReadReq _ => False

namespace CentralLoop

open CentralSubmission

variable {s t : CentralLoop} {source : CentralSource n} {index : ℕ} {res : ℤ} {o : Option (CentralWork n)}

/-- How many requests in flight wait for the source. -/
def listening (s : CentralLoop) (source : CentralSource n) : ℕ :=
  (s.inflight.filter fun sub => sub.req.ListensTo source).length

/-- The thread has ended, or one request waits for the source. -/
def Listens (source : CentralSource n) (s : CentralLoop) : Prop := s.runServer = true → s.listening source = 1

/-- The completion of a request that waits for the source is an error. -/
def Fails (s : CentralLoop) (source : CentralSource n) : CentralInput → Prop
  | .completion index res => res < 0 ∧ ∃ sub ∈ s.inflight[index]?, sub.req.ListensTo source
  | _ => False

instance (s : CentralLoop) (source : CentralSource n) : DecidablePred (s.Fails source)
  | .completion index res => inferInstanceAs
      (Decidable (res < 0 ∧ ∃ sub ∈ s.inflight[index]?, sub.req.ListensTo source))
  | .addEventReadReq _ _ _ | .addReadReq _ _ | .addTimerReadReq _ | .addWriteReq _ _ _ => isFalse id

theorem listening_submit (source : CentralSource n) (subs : List CentralSubmission) : (s.submit subs).listening source =
    s.listening source + (subs.filter fun sub => sub.req.ListensTo source).length := by
  simp [listening, submit]

/-- The request that is completed is no longer in flight, and the one submitted again is. -/
theorem complete_listening (source : CentralSource n) {sub : CentralSubmission} {use : Ownership.Use}
    {again : Option CentralSubmission} (hsub : s.inflight[index]? = some sub) (h : s.complete index use again = some t) :
    (∀ sub' ∈ t.inflight, sub' ∈ s.inflight ++ again.toList) ∧ t.runServer = s.runServer ∧
      t.listening source + (if sub.req.ListensTo source then 1 else 0) =
        s.listening source + (again.toList.filter fun sub => sub.req.ListensTo source).length := by
  obtain ⟨objects, -, rfl⟩ := Option.map_eq_some_iff.mp h
  have hlength := InFlight.length_filter_eraseIdx
    (fun sub : CentralSubmission => decide (sub.req.ListensTo source)) hsub
  simp only [decide_eq_true_eq] at hlength
  refine ⟨fun sub' hsub' => ?_, rfl, ?_⟩
  · rw [List.mem_append] at hsub' ⊢
    exact hsub'.imp_left List.mem_of_mem_eraseIdx
  · simp only [listening, List.filter_append, List.length_append]
    omega

/-- Requests that wait for a server thread wait for one that exists. -/
def OwnThreads (n : ℕ) (subs : List CentralSubmission) : Prop :=
  ∀ sub ∈ subs, sub.req.event = .serverThreadCommunication → sub.req.customInfo < n

/-- What the event switch submits waits for what the request has waited for, unless it ends the thread. -/
theorem listening_handle {req : CentralReq} {timerFd : ℤ} {h : CentralHandled n} (hn : n < 2 ^ 31)
    (hhandled : req.handle n timerFd res = some h)
    (hcustom : req.event = .serverThreadCommunication → req.customInfo < n) :
    OwnThreads n (h.again.toList ++ h.added) ∧
      (h.runServer = true → ∀ source : CentralSource n,
        ((h.again.toList ++ h.added).filter fun sub => sub.req.ListensTo source).length =
          if req.ListensTo source then 1 else 0) := by
  unfold CentralReq.handle at hhandled
  split at hhandled
  · obtain rfl := Option.some.inj hhandled
    exact ⟨by simp [OwnThreads], fun hrun => absurd hrun (by simp)⟩
  · rename_i hevent
    obtain rfl := Option.some.inj hhandled
    refine ⟨by simp [OwnThreads, timerReadReq], fun _ source => ?_⟩
    cases source <;> simp [CentralReq.ListensTo, timerReadReq, hevent]
  · rename_i hevent
    have hlt : req.customInfo < n := hcustom hevent
    rw [if_neg (by omega), dif_pos hlt] at hhandled
    obtain rfl := Option.some.inj hhandled
    set again := eventReadReq req.fd .serverThreadCommunication req.customInfo
    have hinfo : again.req.customInfo = req.customInfo := Nat.mod_eq_of_lt (by omega)
    have hagain : again.req.event = .serverThreadCommunication := rfl
    refine ⟨by simpa [OwnThreads, hinfo] using fun _ => hlt, fun _ source => ?_⟩
    cases source with
    | serverThread w => by_cases hw : req.customInfo = w <;> simp [CentralReq.ListensTo, hagain, hinfo, hevent, hw]
    | timer => simp [CentralReq.ListensTo, hagain, hevent]
    | kill => simp [CentralReq.ListensTo, hagain, hevent]
  · rename_i hevent
    split_ifs at hhandled
    · obtain rfl := Option.some.inj hhandled
      refine ⟨by simp [OwnThreads], fun _ source => ?_⟩
      cases source <;> simp [CentralReq.ListensTo, hevent]
    · obtain ⟨again, hagain, rfl⟩ := Option.map_eq_some_iff.mp hhandled
      unfold CentralReq.readReqContinued at hagain
      dsimp only at hagain
      split_ifs at hagain
      obtain rfl := Option.some.inj hagain
      refine ⟨by simp [OwnThreads, hevent], fun _ source => ?_⟩
      cases source <;> simp [CentralReq.ListensTo, hevent]
  · rename_i hevent
    split_ifs at hhandled
    · obtain rfl := Option.some.inj hhandled
      refine ⟨by simp [OwnThreads, CentralReq.writeReqContinued, hevent], fun _ source => ?_⟩
      cases source <;> simp [CentralReq.ListensTo, CentralReq.writeReqContinued, hevent]
    · obtain rfl := Option.some.inj hhandled
      refine ⟨by simp [OwnThreads], fun _ source => ?_⟩
      cases source <;> simp [CentralReq.ListensTo, hevent]

theorem completion_eq_some (h : s.completion n index res = some (t, o)) :
    ∃ sub, s.inflight[index]? = some sub ∧
      (res < 0 ∧ s.complete index {} none = some t ∨
        0 ≤ res ∧ ∃ handled s₁, sub.req.handle n s.timerFd res = some handled ∧
          s.complete index handled.use handled.again = some s₁ ∧
          t = { s₁.submit handled.added with runServer := handled.runServer }) := by
  unfold completion at h
  split at h
  · cases h
  · rename_i sub hsub
    refine ⟨sub, hsub, ?_⟩
    split at h
    · rename_i hres
      obtain ⟨s₁, hs₁, heq⟩ := Option.map_eq_some_iff.mp h
      obtain ⟨rfl, -⟩ := Prod.mk.inj heq
      exact Or.inl ⟨hres, hs₁⟩
    · rename_i hres
      obtain ⟨handled, hhandled, h⟩ := Option.bind_eq_some_iff.mp h
      obtain ⟨s₁, hs₁, heq⟩ := Option.map_eq_some_iff.mp h
      obtain ⟨rfl, -⟩ := Prod.mk.inj heq
      exact Or.inr ⟨not_lt.mp hres, handled, s₁, hhandled, hs₁, rfl⟩

/-- **One round of the loop.** The thread goes on listening to a source exactly if the round is not for a failed
completion of its request. -/
theorem listens_step {i : CentralInput} (hn : n < 2 ^ 31) (hi : i.OfRun) (hown : OwnThreads n s.inflight)
    (hs : s.Listens source) (hstep : s.step n i = some (t, o)) :
    OwnThreads n t.inflight ∧ (¬s.Fails source i ↔ t.Listens source) := by
  unfold step at hstep
  split at hstep
  · rename_i hrun
    have hone := hs hrun
    have hadded : ∀ sub : CentralSubmission, sub.req.event = .read ∨ sub.req.event = .write → t = s.submit [sub] →
        OwnThreads n t.inflight ∧ t.listening source = 1 := by
      rintro sub hevent rfl
      refine ⟨fun sub' hsub' hthread => ?_, ?_⟩
      · rcases List.mem_append.mp hsub' with hsub' | hsub'
        · exact hown sub' hsub' hthread
        · obtain rfl := List.mem_singleton.mp hsub'
          rcases hevent with hevent | hevent <;> simp [hevent] at hthread
      · have hnot : ¬sub.req.ListensTo source := by
          cases source <;> rcases hevent with hevent | hevent <;> simp [CentralReq.ListensTo, hevent]
        simp [listening_submit, hone, hnot]
    cases i with
    | addEventReadReq eventFd event customInfo => exact hi.elim
    | addTimerReadReq timerFd => exact hi.elim
    | addReadReq fd size =>
        dsimp only at hstep
        split_ifs at hstep
        obtain ⟨hthreads, hkept⟩ := hadded _ (Or.inl rfl) (Prod.mk.inj (Option.some.inj hstep)).1.symm
        exact ⟨hthreads, iff_of_true id fun _ => hkept⟩
    | addWriteReq fd buffPtr size =>
        obtain ⟨hthreads, hkept⟩ := hadded _ (Or.inr rfl) (Prod.mk.inj (Option.some.inj hstep)).1.symm
        exact ⟨hthreads, iff_of_true id fun _ => hkept⟩
    | completion index res =>
        obtain ⟨sub, hsub, ⟨hres, hcomplete⟩ | ⟨hres, handled, s₁, hhandled, hcomplete, rfl⟩⟩ :=
          completion_eq_some hstep
        · obtain ⟨hmem, hruns, hcount⟩ := complete_listening source hsub hcomplete
          refine ⟨fun sub' hsub' => hown sub' (by simpa using hmem sub' hsub'), ?_⟩
          have hfails : s.Fails source (.completion index res) ↔ sub.req.ListensTo source := by
            simp [Fails, hsub, hres]
          rw [hfails]
          rw [hone] at hcount
          by_cases hlistens : sub.req.ListensTo source
          · refine iff_of_false (fun hnot => hnot hlistens) fun hstill => ?_
            have hafter := hstill (hruns.trans hrun)
            simp [hlistens] at hcount
            omega
          · refine iff_of_true hlistens fun _ => ?_
            simpa [hlistens] using hcount
        · obtain ⟨hmem, -, hcount⟩ := complete_listening source hsub hcomplete
          have hinflight : sub ∈ s.inflight := List.mem_of_getElem? hsub
          obtain ⟨hthreads, hagain⟩ := listening_handle hn hhandled (hown sub hinflight)
          refine ⟨fun sub' hsub' hevent => ?_, iff_of_true (fun hfails => absurd hfails.1 (not_lt.mpr hres)) ?_⟩
          · rcases List.mem_append.mp hsub' with hsub' | hsub'
            · rcases List.mem_append.mp (hmem sub' hsub') with hsub' | hsub'
              · exact hown sub' hsub' hevent
              · exact hthreads sub' (List.mem_append_left _ hsub') hevent
            · exact hthreads sub' (List.mem_append_right _ hsub') hevent
          · intro hgoes
            have hsame := hagain hgoes source
            rw [List.filter_append, List.length_append] at hsame
            have hadded := listening_submit (s := s₁) source handled.added
            show (s₁.submit handled.added).listening source = 1
            omega
  · cases hstep

/-- The thread listens to everything when its loop begins. -/
theorem start_listens (communicationEfd : Fin n → ℤ) (killServerEfd timerFd : ℤ) (hn : n < 2 ^ 31) :
    OwnThreads n (start communicationEfd killServerEfd timerFd).inflight ∧
      ∀ source : CentralSource n, (start communicationEfd killServerEfd timerFd).listening source = 1 := by
  have hinfo : ∀ w : Fin n, (eventReadReq (communicationEfd w) .serverThreadCommunication w).req.customInfo = w :=
    fun w => Nat.mod_eq_of_lt (by omega)
  have hthread : ∀ w : Fin n,
      (eventReadReq (communicationEfd w) .serverThreadCommunication w).req.event = .serverThreadCommunication :=
    fun w => rfl
  have hkill : (eventReadReq killServerEfd .killServer 0).req.event = .killServer := rfl
  have htimer : (timerReadReq timerFd).req.event = .timerfd := rfl
  have hcount : ∀ source : CentralSource n, (start communicationEfd killServerEfd timerFd).listening source =
      ((List.finRange n).filter fun w => source = .serverThread w).length +
        ((if source = .kill then 1 else 0) + if source = .timer then 1 else 0) := by
    intro source
    calc (start communicationEfd killServerEfd timerFd).listening source
        = _ := listening_submit (s := { timerFd }) source _
      _ = _ := ?_
    rw [List.filter_append, List.length_append, List.filter_map, List.length_map]
    cases source with
    | serverThread w =>
        simp [listening, CentralReq.ListensTo, Function.comp_def, hinfo, hthread, hkill, htimer, Fin.ext_iff, eq_comm]
    | timer => simp [listening, CentralReq.ListensTo, Function.comp_def, hthread, hkill, htimer]
    | kill => simp [listening, CentralReq.ListensTo, Function.comp_def, hthread, hkill, htimer]
  refine ⟨fun sub hsub hevent => ?_, fun source => ?_⟩
  · simp only [start, submit, List.nil_append, List.mem_append, List.mem_map, List.mem_cons, List.not_mem_nil,
      or_false] at hsub
    rcases hsub with ⟨w, -, rfl⟩ | rfl | rfl
    · rw [hinfo]
      exact w.isLt
    · cases hevent
    · cases hevent
  · rw [hcount]
    cases source with
    | serverThread w =>
        have hone : (List.finRange n).count w = 1 :=
          List.count_eq_one_of_mem (List.nodup_finRange n) (List.mem_finRange w)
        have hfilter : ((List.finRange n).filter fun v => CentralSource.serverThread w = .serverThread v) =
            (List.finRange n).filter (· == w) := List.filter_congr fun v _ => by simp [eq_comm, beq_eq_decide]
        rw [List.count_eq_countP, List.countP_eq_length_filter] at hone
        rw [hfilter, hone]
        simp
    | timer => simp
    | kill => simp

/-- A run goes on listening to a source exactly if no completion of its request fails. -/
theorem listens_run {is : List CentralInput} {os : List (Option (CentralWork n))} (hn : n < 2 ^ 31)
    (hinputs : ∀ i ∈ is, i.OfRun) (hown : OwnThreads n s.inflight) (hs : s.Listens source)
    (hrun : Runs.exec (step n) s is = some (t, os)) :
    Runs.Throughout (step n) (Listens source) s is ↔ Runs.Along (step n) (fun s i => ¬s.Fails source i) s is := by
  induction is generalizing s os with
  | nil => exact iff_of_true hs trivial
  | cons i is ih =>
      obtain ⟨u, o, os', hi, hrest, rfl⟩ := Runs.exec_cons hrun
      obtain ⟨hown', hkept⟩ := listens_step hn (hinputs i (by simp)) hown hs hi
      have hlater := fun hu => ih (fun i hi => hinputs i (List.mem_cons_of_mem _ hi)) hown' hu hrest
      constructor
      · rintro ⟨-, u', o', hi', hthroughout⟩
        obtain ⟨rfl, rfl⟩ : u = u' ∧ o = o' := by simpa [hi] using hi'
        have hu := hthroughout.head
        refine ⟨hkept.mpr hu, fun u' o' hi' => ?_⟩
        obtain ⟨rfl, rfl⟩ : u = u' ∧ o = o' := by simpa [hi] using hi'
        exact (hlater hu).mp hthroughout
      · rintro ⟨hnot, halong⟩
        have hu := hkept.mp hnot
        exact ⟨hs, u, o, hi, (hlater hu).mpr (halong u o hi)⟩

end CentralLoop

/-- **What the central thread listens to.** In every run of the central thread, one request waits for a source as long
as the thread runs (a server thread, the timer or the eventfd that ends it) exactly if no completion of a request that
waits for this source is an error. -/
theorem central_listens_iff (communicationEfd : Fin n → ℤ) (killServerEfd timerFd : ℤ) (hn : n < 2 ^ 31)
    (source : CentralSource n) (is : List CentralInput) (hinputs : ∀ i ∈ is, i.OfRun) {s : CentralLoop}
    {os : List (Option (CentralWork n))}
    (hrun : Runs.exec (CentralLoop.step n) (CentralLoop.start communicationEfd killServerEfd timerFd) is =
      some (s, os)) :
    Runs.Throughout (CentralLoop.step n) (CentralLoop.Listens source)
        (CentralLoop.start communicationEfd killServerEfd timerFd) is ↔
      Runs.Along (CentralLoop.step n) (fun s i => ¬s.Fails source i)
        (CentralLoop.start communicationEfd killServerEfd timerFd) is := by
  obtain ⟨hown, hlistens⟩ := CentralLoop.start_listens communicationEfd killServerEfd timerFd hn
  exact CentralLoop.listens_run hn hinputs hown (fun _ => hlistens source) hrun

/-- The report of one of two server threads fails with `EAGAIN`, and the timer goes on: the central thread no longer
listens to that server thread. -/
theorem central_listens_iff_failed :
    ¬Runs.Throughout (CentralLoop.step 2) (CentralLoop.Listens (CentralSource.serverThread (1 : Fin 2)))
        (CentralLoop.start (fun w : Fin 2 => 3 + w) 5 6)
        [.completion 3 8, .completion 1 (-11), .completion 2 8, .completion 0 8] ∧
      Runs.Throughout (CentralLoop.step 2) (CentralLoop.Listens (CentralSource.timer : CentralSource 2))
        (CentralLoop.start (fun w : Fin 2 => 3 + w) 5 6)
        [.completion 3 8, .completion 1 (-11), .completion 2 8, .completion 0 8] := by
  have hinputs : ∀ i ∈ [CentralInput.completion 3 8, .completion 1 (-11), .completion 2 8, .completion 0 8],
      i.OfRun := by simp [CentralInput.OfRun]
  have hsome : (Runs.exec (CentralLoop.step 2) (CentralLoop.start (fun w : Fin 2 => 3 + w) 5 6)
      [.completion 3 8, .completion 1 (-11), .completion 2 8, .completion 0 8]).isSome = true := by decide +kernel
  obtain ⟨⟨s, os⟩, hrun⟩ := Option.isSome_iff_exists.mp hsome
  constructor
  · rw [central_listens_iff (fun w : Fin 2 => 3 + w) 5 6 (by decide) (.serverThread 1) _ hinputs hrun]
    decide +kernel
  · rw [central_listens_iff (fun w : Fin 2 => 3 + w) 5 6 (by decide) .timer _ hinputs hrun]
    decide +kernel

end LiburingServer
