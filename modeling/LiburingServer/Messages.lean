import LiburingServer.WebServer

/-! The messages between the central thread and a server thread. Each direction is a queue and an
eventfd: a post enqueues its message and then writes to the eventfd; a read of the eventfd returns its
counter, resets it to zero and, when it has completed, makes the other thread handle one message. Posts
of both threads, reads and handlers interleave in any order. -/

namespace LiburingServer

/-- `to_server_queue` and `to_program_queue`. -/
inductive Direction where
  | toServer
  | toProgram
  deriving DecidableEq, Repr

/-- One direction: the queue, the posts that have enqueued their message and not yet written to the
eventfd, the counter of the eventfd, and the completed reads of it that are not yet handled. -/
structure Channel where
  queue : List MessagePostData := []
  posting : ℕ := 0
  counter : ℕ := 0
  completed : ℕ := 0

/-- Both directions; nothing is posted before the server thread has called `set_tcp_server`. -/
structure Link where
  tcpServer : Bool := false
  channel : Direction → Channel := fun _ => {}

inductive LinkEvent where
  | setTcpServer
  | enqueue (d : Direction) (msg : MessagePostData)
  | eventfdWrite (d : Direction)
  | eventfdRead (d : Direction)
  | handle (d : Direction)
  deriving DecidableEq

namespace Channel

/-- The first half of `post_message_to_server_thread` and `post_message_to_program`. -/
def enqueue (c : Channel) (msg : MessagePostData) : Channel :=
  { c with queue := c.queue ++ [msg], posting := c.posting + 1 }

/-- Their second half, `notify_event` and `eventfd_write`. -/
def eventfdWrite (c : Channel) : Channel := { c with posting := c.posting - 1, counter := c.counter + 1 }

def eventfdRead (c : Channel) : Channel := { c with counter := 0, completed := c.completed + 1 }

/-- `get_from_to_server_queue` and `get_from_to_program_queue`: a default message if there is none. -/
def get (c : Channel) : Channel × MessagePostData :=
  ({ c with queue := c.queue.tail, completed := c.completed - 1 }, c.queue.headD {})

end Channel

namespace Link

def setChannel (l : Link) (d : Direction) (c : Channel) : Link :=
  { l with channel := Function.update l.channel d c }

/-- One step of either thread or the kernel; a handler yields the message that it has got. -/
def step (l : Link) : LinkEvent → Option (Link × Option MessagePostData)
  | .setTcpServer => some ({ l with tcpServer := true }, none)
  | .enqueue d msg =>
      some (if l.tcpServer then l.setChannel d ((l.channel d).enqueue msg) else l, none)
  | .eventfdWrite d =>
      if 0 < (l.channel d).posting then some (l.setChannel d (l.channel d).eventfdWrite, none) else none
  | .eventfdRead d =>
      if 0 < (l.channel d).counter then some (l.setChannel d (l.channel d).eventfdRead, none) else none
  | .handle d =>
      if 0 < (l.channel d).completed then
        some (l.setChannel d (l.channel d).get.1, some (l.channel d).get.2)
      else none

variable {l l' : Link} {e : LinkEvent} {out : Option MessagePostData}

/-- What a step can do: nothing to the channels, or one of the four operations to one of them. -/
theorem step_cases (h : l.step e = some (l', out)) :
    l'.channel = l.channel ∨ ∃ d c, l' = l.setChannel d c ∧
      ((∃ msg, e = .enqueue d msg ∧ c = (l.channel d).enqueue msg) ∨
        (e = .eventfdWrite d ∧ 0 < (l.channel d).posting ∧ c = (l.channel d).eventfdWrite) ∨
        (e = .eventfdRead d ∧ 0 < (l.channel d).counter ∧ c = (l.channel d).eventfdRead) ∨
        (e = .handle d ∧ 0 < (l.channel d).completed ∧ c = (l.channel d).get.1)) := by
  cases e with
  | setTcpServer =>
      obtain ⟨rfl, -⟩ := by simpa [step] using h
      exact Or.inl rfl
  | enqueue d msg =>
      obtain ⟨rfl, -⟩ := by simpa [step] using h
      split
      · exact Or.inr ⟨d, _, rfl, Or.inl ⟨msg, rfl, rfl⟩⟩
      · exact Or.inl rfl
  | eventfdWrite d =>
      obtain ⟨hposting, rfl, -⟩ := by simpa [step] using h
      exact Or.inr ⟨d, _, rfl, Or.inr (Or.inl ⟨rfl, hposting, rfl⟩)⟩
  | eventfdRead d =>
      obtain ⟨hcounter, rfl, -⟩ := by simpa [step] using h
      exact Or.inr ⟨d, _, rfl, Or.inr (Or.inr (Or.inl ⟨rfl, hcounter, rfl⟩))⟩
  | handle d =>
      obtain ⟨hcompleted, rfl, -⟩ := by simpa [step] using h
      exact Or.inr ⟨d, _, rfl, Or.inr (Or.inr (Or.inr ⟨rfl, hcompleted, rfl⟩))⟩

/-- A property of a channel that its four operations keep. -/
theorem step_channel {P : Channel → Prop} (h : ∀ d, P (l.channel d)) (hstep : l.step e = some (l', out))
    (henqueue : ∀ c msg, P c → P (c.enqueue msg))
    (hwrite : ∀ d, e = .eventfdWrite d → 0 < (l.channel d).posting → P (l.channel d).eventfdWrite)
    (hread : ∀ d, e = .eventfdRead d → 0 < (l.channel d).counter → P (l.channel d).eventfdRead)
    (hget : ∀ c, 0 < c.completed → P c → P c.get.1) : ∀ d, P (l'.channel d) := by
  intro d
  rcases step_cases hstep with hsame | ⟨d', c, rfl, hop⟩
  · rw [hsame]
    exact h d
  · by_cases hd : d = d'
    · subst hd
      simp only [setChannel, Function.update_self]
      rcases hop with ⟨msg, -, rfl⟩ | ⟨he, hpos, rfl⟩ | ⟨he, hpos, rfl⟩ | ⟨-, hpos, rfl⟩
      · exact henqueue _ msg (h d)
      · exact hwrite d he hpos
      · exact hread d he hpos
      · exact hget _ hpos (h d)
    · simp only [setChannel, Function.update_of_ne hd]
      exact h d

end Link

/-- Several posts, one after the other. -/
theorem Link.exec_posts {l : Link} (htcp : l.tcpServer) (d : Direction) (msgs : List MessagePostData) :
    ∃ outs, Runs.exec Link.step l (msgs.flatMap fun msg => [.enqueue d msg, .eventfdWrite d]) =
      some (l.setChannel d { l.channel d with
        queue := (l.channel d).queue ++ msgs, counter := (l.channel d).counter + msgs.length }, outs) := by
  induction msgs generalizing l with
  | nil => exact ⟨[], by simp [Runs.exec, Link.setChannel]⟩
  | cons msg msgs ih =>
      have hone : Runs.exec Link.step l [.enqueue d msg, .eventfdWrite d] =
          some (l.setChannel d (l.channel d |>.enqueue msg).eventfdWrite, [none, none]) := by
        simp [Runs.exec, Link.step, htcp, Link.setChannel, Channel.enqueue]
      obtain ⟨outs, hrest⟩ := ih (l := l.setChannel d (l.channel d |>.enqueue msg).eventfdWrite) htcp
      refine ⟨[none, none] ++ outs, Runs.exec_append.mpr ⟨_, _, _, hone, hrest.trans ?_, rfl⟩⟩
      simp [Link.setChannel, Channel.enqueue, Channel.eventfdWrite, Nat.add_assoc, Nat.add_comm 1]

namespace Channel

/-- Each eventfd write and each completed read stands for a message of its own; `n` messages have none. -/
structure Lags (n : ℕ) (c : Channel) : Prop where
  length : c.posting + c.counter + c.completed + n = c.queue.length

variable {n : ℕ} {c : Channel}

theorem Lags.enqueue (h : c.Lags n) (msg : MessagePostData) : (c.enqueue msg).Lags n := by
  have := h.length
  constructor
  simp only [Channel.enqueue, List.length_append, List.length_singleton]
  omega

theorem Lags.eventfdWrite (h : c.Lags n) (hpos : 0 < c.posting) : c.eventfdWrite.Lags n := by
  have := h.length
  constructor
  simp only [Channel.eventfdWrite]
  omega

/-- A read makes one completion of the whole counter. -/
theorem Lags.eventfdRead (h : c.Lags n) (hpos : 0 < c.counter) : c.eventfdRead.Lags (n + (c.counter - 1)) := by
  have := h.length
  constructor
  simp only [Channel.eventfdRead]
  omega

theorem Lags.get (h : c.Lags n) (hpos : 0 < c.completed) : c.get.1.Lags n := by
  have := h.length
  constructor
  simp only [Channel.get, List.length_tail]
  omega

theorem Lags.queue_ne_nil (h : c.Lags n) (hpos : 0 < c.completed) : c.queue ≠ [] := by
  intro hnil
  have := h.length
  rw [hnil, List.length_nil] at this
  omega

end Channel

theorem Link.lags_step {l l' : Link} {e : LinkEvent} {out : Option MessagePostData}
    (h : ∀ d, ∃ n, (l.channel d).Lags n) (hstep : l.step e = some (l', out)) :
    ∀ d, ∃ n, (l'.channel d).Lags n := by
  refine step_channel (P := fun c => ∃ n, c.Lags n) h hstep (fun c msg hc => ?_) (fun d _ hpos => ?_)
    (fun d _ hpos => ?_) (fun c hpos hc => ?_)
  · exact hc.imp fun n hn => hn.enqueue msg
  · exact (h d).imp fun n hn => hn.eventfdWrite hpos
  · obtain ⟨n, hn⟩ := h d
    exact ⟨_, hn.eventfdRead hpos⟩
  · exact hc.imp fun n hn => hn.get hpos

theorem Link.lags_exec {l l' : Link} {es : List LinkEvent} {outs : List (Option MessagePostData)}
    (h : ∀ d, ∃ n, (l.channel d).Lags n) (hrun : Runs.exec Link.step l es = some (l', outs)) :
    ∀ d, ∃ n, (l'.channel d).Lags n :=
  Runs.exec_invariant (P := fun _ _ => True) (Q := fun l : Link => ∀ d, ∃ n, (l.channel d).Lags n)
    (fun _ _ _ _ h _ hstep => Link.lags_step h hstep) h (Runs.along_of_forall fun _ _ => trivial) hrun

/-- **No empty queue.** However posts, reads of the eventfds and handlers interleave, a handler that runs
for a completed read of its eventfd finds a message: it takes the first one of its queue, and never gets
the default message of an empty one. -/
theorem handler_finds_message (es : List LinkEvent) (l : Link) (outs : List (Option MessagePostData))
    (hrun : Runs.exec Link.step {} es = some (l, outs)) (d : Direction) (l' : Link)
    (out : Option MessagePostData) (hhandle : l.step (.handle d) = some (l', out)) :
    ∃ msg, out = some msg ∧ (l.channel d).queue = msg :: (l'.channel d).queue := by
  have hlags : ∀ d, ∃ n, (l.channel d).Lags n := Link.lags_exec (fun d => ⟨0, ⟨rfl⟩⟩) hrun
  obtain ⟨hpos, rfl, rfl⟩ : 0 < (l.channel d).completed ∧ _ ∧ _ := by simpa [Link.step] using hhandle
  obtain ⟨n, hn⟩ := hlags d
  obtain ⟨msg, rest, hqueue⟩ := List.exists_cons_of_ne_nil (hn.queue_ne_nil hpos)
  refine ⟨msg, by simp [Channel.get, hqueue], ?_⟩
  simp [Link.setChannel, Channel.get, hqueue]

/-- Two posts to the server thread while no read of its eventfd completes, and then both. -/
def coalescedPosts : List LinkEvent :=
  [.setTcpServer, .enqueue .toServer { itemIdx := 3 }, .eventfdWrite .toServer,
    .enqueue .toServer { itemIdx := 4 }, .eventfdWrite .toServer, .eventfdRead .toServer]

theorem handler_finds_message_first :
    ∃ l outs l', Runs.exec Link.step {} coalescedPosts = some (l, outs) ∧
      l.step (.handle .toServer) = some (l', some { itemIdx := 3 }) ∧
      (l.channel .toServer).queue = { itemIdx := 3 } :: (l'.channel .toServer).queue := by
  have hsome : (Runs.exec Link.step {} coalescedPosts).any (fun r =>
      (r.1.step (.handle .toServer)).any fun r => r.2 = some { itemIdx := 3 }) = true := by decide
  simp only [Option.any_eq_true, decide_eq_true_eq] at hsome
  obtain ⟨⟨l, outs⟩, hrun, ⟨l', out⟩, hhandle, hout⟩ := hsome
  obtain ⟨msg, hmsg, hqueue⟩ := handler_finds_message coalescedPosts l outs hrun .toServer l' out hhandle
  obtain rfl : { itemIdx := 3 } = msg := Option.some.inj (hout.symm.trans hmsg)
  exact ⟨l, outs, l', hrun, hhandle.trans (by rw [hmsg]), hqueue⟩

namespace Link

/-- A read of an eventfd returns one write to it and not several. -/
def Uncoalesced (l : Link) : LinkEvent → Prop
  | .eventfdRead d => (l.channel d).counter ≤ 1
  | _ => True

instance (l : Link) : DecidablePred l.Uncoalesced := fun e => by
  cases e
  case eventfdRead d => exact inferInstanceAs (Decidable ((l.channel d).counter ≤ 1))
  all_goals exact isTrue trivial

theorem lags_zero_step {l l' : Link} {e : LinkEvent} {out : Option MessagePostData}
    (h : ∀ d, (l.channel d).Lags 0) (he : l.Uncoalesced e) (hstep : l.step e = some (l', out)) :
    ∀ d, (l'.channel d).Lags 0 := by
  refine step_channel (P := Channel.Lags 0) h hstep (fun c msg hc => hc.enqueue msg)
    (fun d _ hpos => (h d).eventfdWrite hpos) (fun d hread hpos => ?_) (fun c hpos hc => hc.get hpos)
  have hone : (l.channel d).counter = 1 := by
    rw [hread] at he
    have : (l.channel d).counter ≤ 1 := he
    omega
  have hlags := (h d).eventfdRead hpos
  rwa [hone] at hlags

end Link

/-- **No lost notification.** If every read of an eventfd returns one write to it and not several, then in
every state that is reached in which a counter is zero, no completed read of the eventfd is waiting to be
handled and no post is between its two halves, the queue is empty. -/
theorem no_lost_notification (es : List LinkEvent)
    (hes : Runs.Along Link.step Link.Uncoalesced {} es) (l : Link) (outs : List (Option MessagePostData))
    (hrun : Runs.exec Link.step {} es = some (l, outs)) (d : Direction)
    (hcounter : (l.channel d).counter = 0) (hcompleted : (l.channel d).completed = 0)
    (hposting : (l.channel d).posting = 0) : (l.channel d).queue = [] := by
  have hlags : ∀ d, (l.channel d).Lags 0 :=
    Runs.exec_invariant (Q := fun l : Link => ∀ d, (l.channel d).Lags 0)
      (fun _ _ _ _ h he hstep => Link.lags_zero_step h he hstep) (fun d => ⟨rfl⟩) hes hrun
  have := (hlags d).length
  rw [hcounter, hcompleted, hposting] at this
  exact List.eq_nil_of_length_eq_zero this.symm

/-- A post to the server thread that is read and handled before the next one is made. -/
def separatePosts : List LinkEvent :=
  [.setTcpServer, .enqueue .toServer { itemIdx := 3 }, .eventfdWrite .toServer, .eventfdRead .toServer,
    .enqueue .toServer { itemIdx := 4 }, .eventfdWrite .toServer, .handle .toServer, .eventfdRead .toServer,
    .handle .toServer]

theorem no_lost_notification_separate :
    Runs.Along Link.step Link.Uncoalesced {} separatePosts ∧
      ∃ l outs, Runs.exec Link.step {} separatePosts = some (l, outs) ∧
        (l.channel .toServer).counter = 0 ∧ (l.channel .toServer).completed = 0 ∧
        (l.channel .toServer).queue = [] := by
  have hes : Runs.Along Link.step Link.Uncoalesced {} separatePosts := by decide
  have hsome : (Runs.exec Link.step {} separatePosts).any (fun r =>
      (r.1.channel .toServer).counter = 0 ∧ (r.1.channel .toServer).completed = 0 ∧
        (r.1.channel .toServer).posting = 0) = true := by decide
  simp only [Option.any_eq_true, decide_eq_true_eq] at hsome
  obtain ⟨⟨l, outs⟩, hrun, hcounter, hcompleted, hposting⟩ := hsome
  exact ⟨hes, l, outs, hrun, hcounter, hcompleted,
    no_lost_notification separatePosts hes l outs hrun .toServer hcounter hcompleted hposting⟩

/-- Two posts become one completed read, and the handler takes one message: the other one stays in the
queue and nothing is left that would make the server thread handle it. -/
theorem notification_lost :
    ∃ l outs, Runs.exec Link.step {} (coalescedPosts ++ [.handle .toServer]) = some (l, outs) ∧
      (l.channel .toServer).counter = 0 ∧ (l.channel .toServer).completed = 0 ∧
      (l.channel .toServer).posting = 0 ∧ (l.channel .toServer).queue = [{ itemIdx := 4 }] := by
  have hsome : (Runs.exec Link.step {} (coalescedPosts ++ [.handle .toServer])).any (fun r =>
      (r.1.channel .toServer).counter = 0 ∧ (r.1.channel .toServer).completed = 0 ∧
        (r.1.channel .toServer).posting = 0 ∧ (r.1.channel .toServer).queue = [{ itemIdx := 4 }]) = true := by
    decide
  simp only [Option.any_eq_true, decide_eq_true_eq] at hsome
  obtain ⟨⟨l, outs⟩, hrun, hlost⟩ := hsome
  exact ⟨l, outs, hrun, hlost⟩

end LiburingServer
