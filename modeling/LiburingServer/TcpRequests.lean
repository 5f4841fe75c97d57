import LiburingServer.Lib.Ownership
import LiburingServer.WebReads

/-! The objects behind the requests of the event loop. Every submission refers to the object of its request, and the
loop deletes it when the submission is completed, unless the request was submitted again for the rest of its bytes or
the loop is left. Whatever handles a completion only adds to the requests in flight. -/

namespace LiburingServer

open Ownership

variable {σ ε : Type*}

namespace TcpServer

variable {T : ServerType} {s s' : TcpServer} {i : ℕ}

theorem Alters.inflight_grows (h : Alters i s s') : s.inflight <+: s'.inflight := by
  obtain ⟨new, hnew, -⟩ := h.inflight
  exact ⟨new, hnew.symm⟩

theorem closeConnection_grows (T : ServerType) (s : TcpServer) (i : ℕ) :
    s.inflight <+: (s.closeConnection T i).inflight := by
  unfold closeConnection
  split
  · cases T with
    | nonTls => exact List.prefix_rfl
    | tls =>
        have hshut : Touches i s (s.wolfCall i).1 := touches_wolfCall
        exact hshut.alters.inflight_grows
  · exact List.prefix_rfl

theorem broadcastMessage_grows (clientIdxs : List ℕ) (buff : Ptr) (length : ℕ) (customInfo : ℤ) :
    s.inflight <+: (s.broadcastMessage T clientIdxs buff length customInfo).inflight := by
  unfold broadcastMessage
  induction clientIdxs generalizing s with
  | nil => exact List.prefix_rfl
  | cons i clientIdxs ih =>
      have hone : Alters i s (broadcastOne T buff length customInfo s i) := alters_enqueue T _ _
      exact hone.inflight_grows.trans ih

theorem call_grows {c : TcpCall} (h : s.call T c = some s') : s.inflight <+: s'.inflight := by
  unfold call at h
  split at h
  · obtain rfl := Option.some.inj h
    cases c with
    | writeConnection i buff => exact (alters_writeConnection T buff).inflight_grows
    | writeConnectionPtr i buff length => exact (alters_enqueue T _ _).inflight_grows
    | broadcastMessage clientIdxs buff length customInfo => exact broadcastMessage_grows _ _ _ _
    | closeConnection i => exact closeConnection_grows T s i
    | readConnection i => exact (touches_addReadReq (Or.inl rfl)).alters.inflight_grows
    | customReadReq fd toRead clientIdx buff readAmount file => exact List.prefix_append _ _
  · cases h

theorem calls_grows {cs : List TcpCall} (h : s.calls T cs = some s') : s.inflight <+: s'.inflight :=
  Runs.foldlM_keeps (R := fun x => s.inflight <+: x.inflight)
    (fun _ _ _ _ hb hcall => hb.trans (call_grows hcall)) List.prefix_rfl h

theorem setupClient_inflight (s : TcpServer) (sockfd : ℤ) : (s.setupClient sockfd).1.inflight = s.inflight := by
  unfold setupClient
  split
  · rfl
  · rfl

end TcpServer

open TcpServer

namespace Machine

variable {T : ServerType} {app : App σ ε} {m m' : Machine σ} {sub : Submission} {c : Completion ε} {env : ε} {i : ℕ}

/-! ### Requests are only added -/

theorem acceptCb_tcp (h : m.acceptCb app i = some m') : m'.tcp = m.tcp := by
  obtain ⟨a, -, rfl⟩ := Option.map_eq_some_iff.mp h
  rfl

theorem callback_grows {cb : Callback} {result : Option (σ × List TcpCall)}
    (h : m.callback T cb result = some m') : m.tcp.inflight <+: m'.tcp.inflight := by
  obtain ⟨a, cs, -, hcalls, -, -⟩ := callback_eq_some h
  exact calls_grows hcalls

theorem drainAndClose_grows (h : m.drainAndClose T app i = some m') : m.tcp.inflight <+: m'.tcp.inflight := by
  rw [drainAndClose_tcp h]
  exact closeConnection_grows T (m.tcp.setQueue i []) i

theorem sweep_grows {order halfClosed : List ℕ} (h : m.sweep T app order halfClosed = some m') :
    m.tcp.inflight <+: m'.tcp.inflight :=
  sweep_rule h (R := fun x => m.tcp.inflight <+: x.tcp.inflight) List.prefix_rfl
    fun _ _ _ _ _ hx hclose => hx.trans (drainAndClose_grows hclose)

theorem plainHandler_grows (h : m.plainHandler app sub i c = some m') : m.tcp.inflight <+: m'.tcp.inflight := by
  refine plainHandler_rule h (R := fun x => m.tcp.inflight <+: x.tcp.inflight) (fun _ s hs hm' => ?_)
    (fun _ front _ _ => List.prefix_append _ _) (fun _ _ rest _ _ _ hm' => ?_) (fun _ _ _ hm' => ?_) List.prefix_rfl
  · exact hs.alters.inflight_grows.trans (callback_grows hm')
  · exact (alters_endWrite.trans (alters_writeNext rest)).inflight_grows.trans (callback_grows hm')
  · have hended : m.tcp.inflight <+: (m.tcp.endWrite i).inflight := alters_endWrite.inflight_grows
    exact hended.trans (callback_grows (m := m.onTcp fun s => s.endWrite i) hm')

theorem tlsHandler_grows (h : m.tlsHandler app sub i c = some m') : m.tcp.inflight <+: m'.tcp.inflight := by
  -- becoming active does not change what is in flight
  have haccepted : ∀ {s s₁ : TcpServer} {m₁ : Machine σ}, Touches i m.tcp s →
      (m.onTcp fun _ => s).acceptCb app i = some m₁ →
      Touches i { s with activeConnections := insert i s.activeConnections } s₁ →
      m.tcp.inflight <+: s₁.inflight := by
    intro s s₁ m₁ hs _ hs₁
    exact hs.alters.inflight_grows.trans hs₁.alters.inflight_grows
  refine tlsHandler_rule h (R := fun x => m.tcp.inflight <+: x.tcp.inflight) (fun s hs => ?_)
    (fun _ _ s _ hs hm' => ?_) (fun _ s m₁ s₁ hs hm₁ hs₁ => haccepted hs hm₁ hs₁)
    (fun _ _ s m₁ s₁ _ hs hm₁ hs₁ hm' => (haccepted hs hm₁ hs₁).trans (callback_grows hm'))
    (fun _ _ s _ rest m₁ s₁ hs _ hm₁ hs₁ => ?_)
  · rcases hs with hs | hs
    · exact hs.alters.inflight_grows
    · exact (alters_endWrite.trans hs.alters).inflight_grows
  · exact hs.alters.inflight_grows.trans (callback_grows hm')
  · have hpopped := ((alters_endWrite.trans hs.alters).trans (alters_setQueue rest)).inflight_grows
    have hwritten : (s.setQueue i rest).inflight <+: m₁.tcp.inflight := callback_grows hm₁
    exact (hpopped.trans hwritten).trans hs₁.alters.inflight_grows

theorem clientEvent_grows (h : m.clientEvent T app sub i c = some m') : m.tcp.inflight <+: m'.tcp.inflight := by
  have hsame : ∀ s, s = m.tcp ∨ s = m.tcp.endWrite i → m.tcp.inflight <+: s.inflight := by
    rintro s (rfl | rfl)
    · exact List.prefix_rfl
    · exact alters_endWrite.inflight_grows
  exact clientEvent_rule h (R := fun x => m.tcp.inflight <+: x.tcp.inflight)
    (fun s hs _ _ _ hclose => (hsame s hs).trans (drainAndClose_grows (m := m.onTcp fun _ => s) hclose)) hsame
    (fun _ _ _ _ hplain => plainHandler_grows hplain) (fun _ _ _ _ htls => tlsHandler_grows htls)

theorem customRead_grows {res : ℤ} {data : Bytes} (h : m.customRead T app env sub res data = some m') :
    m.tcp.inflight <+: m'.tcp.inflight := by
  refine customRead_rule h (R := fun x => m.tcp.inflight <+: x.tcp.inflight) (fun readData hfinished => ?_)
    (fun _ _ => List.prefix_append _ _)
  exact callback_grows (m := m.onTcp fun s =>
    { s with finishedReads := s.finishedReads ++ [(sub.file, readData)] }) hfinished

/-- Handling a completion leaves the other requests in flight, and adds requests behind them. -/
theorem dispatch_grows (h : dispatch T app m sub c = some m') : m.tcp.inflight <+: m'.tcp.inflight := by
  refine dispatch_rule h (R := fun x => m.tcp.inflight <+: x.tcp.inflight) (fun _ => List.prefix_rfl)
    (fun _ hm' => ?_) (fun _ hm' => customRead_grows hm') (fun _ m₁ hm₁ => ?_) (fun _ _ hm' => ?_) (fun _ _ => ?_)
    (fun i _ _ hm' => clientEvent_grows hm')
  · have hasked : m.tcp.inflight <+: (m.tcp.addEventReq .notification).inflight := List.prefix_append _ _
    exact hasked.trans (callback_grows hm')
  · exact (sweep_grows hm₁).trans (List.prefix_append _ _)
  · obtain ⟨m₁, hm₁, rfl⟩ := Option.map_eq_some_iff.mp hm'
    have hset : m.tcp.inflight <+: m₁.tcp.inflight := by
      rw [acceptCb_tcp hm₁]
      show _ <+: ((m.tcp.addEventReq .accept).setupClient c.res).1.inflight
      rw [setupClient_inflight]
      exact List.prefix_append _ _
    exact hset.trans (touches_addReadReq (Or.inl rfl)).alters.inflight_grows
  · have hset : m.tcp.inflight <+: ((m.tcp.setupClient c.res).1.addEventReq .accept).inflight := by
      rw [← setupClient_inflight m.tcp c.res]
      exact List.prefix_append _ _
    have hcalled : Touches (m.tcp.setupClient c.res).2 (((m.tcp.setupClient c.res).1.addEventReq .accept).modifyClient
        (m.tcp.setupClient c.res).2 fun client => { client with ssl := true }) (m.tlsAccept c.res).tcp :=
      touches_wolfCall
    exact hset.trans hcalled.alters.inflight_grows

/-! ### What becomes of the object of a completed request -/

/-- The plain server goes on with the write that has completed: `add_write_req_continued`. -/
def Resumes (m : Machine σ) (sub : Submission) (c : Completion ε) : Prop :=
  (∃ i ∈ sub.req.clientIdx, i = 0 ∨ (m.tcp.clients i).id = sub.req.ID) ∧
    c.res + sub.req.written < sub.req.totalLength ∧ 0 < c.res

instance (m : Machine σ) (sub : Submission) (c : Completion ε) : Decidable (m.Resumes sub c) := by
  unfold Resumes
  infer_instance

/-- The end of a round of the loop, where `req` is deleted. It is null then if the request was submitted again; the
request for `KILL` is not deleted, since the loop is left before. -/
def use (T : ServerType) (m : Machine σ) (sub : Submission) (c : Completion ε) : Use :=
  match sub.req.event with
  | .kill => {}
  | .customRead =>
      match sub.req.complete c.res c.data with
      | .continued _ => { resubmits := true }
      | _ => { deletes := true }
  | .write => if T = .nonTls ∧ m.Resumes sub c then { resubmits := true } else { deletes := true }
  | _ => { deletes := true }

/-- No round deletes the object of a request that it submits again. -/
theorem use_exclusive (T : ServerType) (m : Machine σ) (sub : Submission) (c : Completion ε) :
    ¬((m.use T sub c).resubmits ∧ (m.use T sub c).deletes) := by
  unfold use
  split
  · simp
  · split <;> simp
  · split <;> simp
  · simp

/-- A write that goes on. -/
theorem dispatch_resumes (hevent : sub.req.event = .write) (hresumes : m.Resumes sub c)
    (h : dispatch .nonTls app m sub c = some m') : ∃ addr written,
      m'.tcp.inflight = m.tcp.inflight ++ [{ sub with addr, req := { sub.req with written } }] := by
  obtain ⟨⟨i, hi, hid⟩, hmore, hres⟩ := hresumes
  rw [dispatch_ofClient (by simp [EventType.OfClient, hevent]), Option.mem_def.mp hi, Option.bind_some] at h
  have hguard : ¬(c.res ≤ 0 ∨ 0 < i ∧ (m.tcp.clients i).id ≠ sub.req.ID) := by
    rintro (hfailed | ⟨hpos, hne⟩)
    · omega
    · exact hid.elim (fun hzero => by omega) hne
  simp only [clientEvent, if_neg hguard, plainHandler, hevent, plainWrite, if_pos (And.intro hmore hres)] at h
  split_ifs at h
  split at h
  · cases h
  · rename_i front rest hqueue
    obtain rfl := Option.some.inj h
    exact ⟨front.ptr, sub.req.written + c.res.toNat, by rw [onTcp_tcp, submit_inflight, ← hevent]⟩

/-- A request that is submitted again is the one that has completed, with more of its bytes transferred. -/
theorem dispatch_resubmits (huse : (m.use T sub c).resubmits) (h : dispatch T app m sub c = some m') :
    ∃ addr written readData readAmount, m'.tcp.inflight = m.tcp.inflight ++
      [{ sub with addr, req := { sub.req with written, readData, readAmount } }] := by
  unfold use at huse
  split at huse
  · simp at huse
  · rename_i hevent
    split at huse
    · rename_i req hcontinued
      simp only [dispatch, hevent, customRead_eq, hcontinued, Option.some.injEq] at h
      subst h
      unfold Request.complete at hcontinued
      dsimp only at hcontinued
      split_ifs at hcontinued
      obtain rfl := ReadOutcome.continued.inj hcontinued
      exact ⟨sub.addr, sub.req.written, _, _, rfl⟩
    · simp at huse
  · rename_i hevent
    split at huse
    · rename_i hresumes
      obtain ⟨rfl, hresumes⟩ := hresumes
      obtain ⟨addr, written, hinflight⟩ := dispatch_resumes hevent hresumes h
      exact ⟨addr, written, sub.req.readData, sub.req.readAmount, hinflight⟩
    · simp at huse
  · simp at huse

/-! ### The loop with the objects of its requests -/

/-- The event loop and the objects that its submissions refer to. -/
structure WithObjects (σ : Type*) where
  machine : Machine σ
  objects : Objects

/-- A round of the loop: the object of the completed request is used, and every submission that is not for it is for
a new one. -/
def ownedStep (T : ServerType) (app : App σ ε) (s : WithObjects σ) (c : Completion ε) :
    Option (WithObjects σ × List Callback) :=
  match s.machine.tcp.inflight[c.index]? with
  | none => none
  | some sub =>
      (s.machine.step T app c).bind fun r =>
        (s.objects.complete c.index (s.machine.use T sub c)).map fun objects =>
          (⟨r.1, objects.create (r.1.tcp.inflight.length - objects.inflight.length)⟩, r.2)

def ownedStart (app : σ) (reads : List (ℤ × ℕ)) : WithObjects σ :=
  ⟨start app reads, ({} : Objects).create (start app reads).tcp.inflight.length⟩

/-- Every submission has its object, no object is deleted twice, and none is deleted while it is in flight. -/
structure WithObjects.Sound (s : WithObjects σ) : Prop where
  paired : s.objects.inflight.length = s.machine.tcp.inflight.length
  safe : s.objects.Safe

theorem ownedStart_sound (app : σ) (reads : List (ℤ × ℕ)) :
    (ownedStart app reads).Sound ∧ (ownedStart app reads).objects.Wf := by
  refine ⟨⟨by simp [ownedStart], ?_⟩, Objects.wf_empty.create _⟩
  exact (Objects.safe_create_iff Objects.wf_empty).mpr Objects.safe_empty

/-- A round of the loop is a round with the objects, after which everything is sound again. -/
theorem ownedStep_sound {s : WithObjects σ} {log : List Callback} (hs : s.Sound) (hw : s.objects.Wf)
    (hstep : step T app s.machine c = some (m', log)) :
    ∃ s', ownedStep T app s c = some (s', log) ∧ s'.machine = m' ∧ s'.Sound ∧ s'.objects.Wf := by
  obtain ⟨sub, hsub, hhandled, -⟩ := step_eq_some hstep
  have hn : c.index < s.machine.tcp.inflight.length := (List.getElem?_eq_some_iff.mp hsub).1
  obtain ⟨objects, hobjects⟩ := Objects.complete_isSome hs.safe (hs.paired ▸ hn) (s.machine.use T sub c)
  have hlength := Objects.length_complete hobjects
  have hsafe : objects.Safe :=
    (Objects.safe_complete_iff hw hs.safe hobjects).mpr (use_exclusive T s.machine sub c)
  -- the submissions that are left and the one that was made again have their objects
  have hfits : objects.inflight.length ≤ m'.tcp.inflight.length := by
    have hleft : (s.machine.take c).tcp.inflight.length + 1 = s.machine.tcp.inflight.length := by
      rw [take_tcp, takeCompleted_inflight, List.length_eraseIdx_of_lt hn]
      omega
    have hpaired := hs.paired
    by_cases huse : (s.machine.use T sub c).resubmits = true
    · have hagain : ((s.machine.take c).use T sub c).resubmits = true := huse
      obtain ⟨addr, written, readData, readAmount, hinflight⟩ := dispatch_resubmits hagain hhandled
      rw [if_pos huse] at hlength
      rw [hinflight, List.length_append, List.length_singleton]
      omega
    · have hlonger := (dispatch_grows hhandled).length_le
      rw [if_neg huse] at hlength
      omega
  refine ⟨⟨m', objects.create (m'.tcp.inflight.length - objects.inflight.length)⟩, ?_, rfl, ⟨?_, ?_⟩, ?_⟩
  · simp [ownedStep, hsub, hstep, hobjects]
  · rw [Objects.length_create]
    exact Nat.add_sub_cancel' hfits
  · exact (Objects.safe_create_iff (hw.complete hobjects)).mpr hsafe
  · exact (hw.complete hobjects).create _

/-- Every run of the loop is sound throughout. -/
theorem owned_run {s : WithObjects σ} {cs : List (Completion ε)} {logs : List (List Callback)} (hs : s.Sound)
    (hw : s.objects.Wf) (hrun : Runs.exec (step T app) s.machine cs = some (m', logs)) :
    Runs.Throughout (ownedStep T app) WithObjects.Sound s cs := by
  induction cs generalizing s logs with
  | nil => exact hs
  | cons c cs ih =>
      obtain ⟨m₁, log, logs₁, hstep, hrest, -⟩ := Runs.exec_cons hrun
      obtain ⟨s₁, hs₁, rfl, hsound, hwf⟩ := ownedStep_sound hs hw hstep
      exact ⟨hs, s₁, log, hs₁, ih hsound hwf hrest⟩

end Machine

end LiburingServer
