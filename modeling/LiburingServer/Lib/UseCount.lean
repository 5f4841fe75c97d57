import Mathlib.Algebra.Order.Group.Nat

/-! Use counts. An owner lends an item to a party: it announces the item, the party receives it and holds
it in a number of places, each of which gives it up once, and the end of the last use is reported to the
owner, which collects the reports. The party knows the number of its uses by a counter alone. As long as
each place that gives the item up is counted, or is lost without being counted, the counter covers what
is held, and the item is never out more than once. -/

namespace UseCount

/-- What one party knows of an item: how often it was announced and is not yet received, in how many
places it is held, the counter, how many reports are not yet collected, and how often it was received
and reported altogether. -/
structure Account where
  inbox : ℕ
  held : ℕ
  uses : ℕ
  outbox : ℕ
  received : ℕ
  finished : ℕ

namespace Account

/-- How often the item is out with the party: announced, received but not reported, or reported. -/
def owed (a : Account) : ℕ := a.inbox + (a.received - a.finished) + a.outbox

def post (a : Account) : Account := { a with inbox := a.inbox + 1 }

/-- The item is received and goes to `n` places; without any its end is reported at once. -/
def receive (a : Account) (n : ℕ) : Account :=
  { a with
    inbox := a.inbox - 1
    held := a.held + n
    uses := if n = 0 then a.uses else n
    outbox := a.outbox + if n = 0 then 1 else 0
    received := a.received + 1
    finished := a.finished + if n = 0 then 1 else 0 }

/-- One place gives the item up and is counted. -/
def use (a : Account) : Account :=
  { a with
    held := a.held - 1
    uses := a.uses - 1
    outbox := a.outbox + if a.uses = 1 then 1 else 0
    finished := a.finished + if a.uses = 1 then 1 else 0 }

/-- Only `n` places are left and nothing is counted. -/
def lose (a : Account) (n : ℕ) : Account := { a with held := n }

def collect (a : Account) : Account := { a with outbox := a.outbox - 1 }

end Account

/-- The item is out with the party as often as `o` says and at most once, and while it is received and
not reported the counter covers what is held. If nothing is ever lost, the counter is what is held. -/
structure Balanced (exact : Prop) (o : ℕ) (a : Account) : Prop where
  owed : a.owed = o
  once : a.owed ≤ 1
  ordered : a.finished ≤ a.received
  covered : a.held ≤ a.uses
  working : a.finished < a.received → 0 < a.uses
  idle : a.received = a.finished → a.held = 0
  counted : exact → a.finished < a.received → a.uses = a.held

namespace Balanced

variable {exact : Prop} {o n : ℕ} {a : Account}

theorem post (h : Balanced exact 0 a) : Balanced exact 1 a.post := by
  have hone : a.post.owed = 1 := by
    have := h.owed
    simp only [Account.owed, Account.post] at this ⊢
    omega
  exact ⟨hone, hone.le, h.ordered, h.covered, h.working, h.idle, h.counted⟩

theorem receive (h : Balanced exact o a) (hin : a.inbox ≠ 0) (n : ℕ) : Balanced exact o (a.receive n) := by
  have honce := h.once
  have hordered := h.ordered
  simp only [Account.owed] at honce
  -- an item that is announced is not being used
  have hfinished : a.received = a.finished := by omega
  have hheld : a.held = 0 := h.idle hfinished
  have hsame : (a.receive n).owed = a.owed := by
    simp only [Account.owed, Account.receive]
    split <;> omega
  by_cases hn : n = 0
  · refine ⟨hsame.trans h.owed, hsame.trans_le h.once, ?_, ?_, fun hlt => ?_, fun _ => ?_, fun _ hlt => ?_⟩
    all_goals simp only [Account.receive, hn, if_true] at *
    all_goals omega
  · have hpos : 0 < n := Nat.pos_of_ne_zero hn
    refine ⟨hsame.trans h.owed, hsame.trans_le h.once, ?_, ?_, fun _ => ?_, fun heq => ?_, fun _ _ => ?_⟩
    all_goals simp only [Account.receive, hn, if_false] at *
    all_goals omega

/-- The last use that is counted is the last place that holds the item. -/
theorem use (h : Balanced exact o a) (hheld : a.held ≠ 0) : Balanced exact o a.use := by
  have honce := h.once
  have hordered := h.ordered
  have hcovered := h.covered
  have hworking : a.finished < a.received := by
    by_contra hidle
    exact hheld (h.idle (by omega))
  have hsame : a.use.owed = a.owed := by
    simp only [Account.owed, Account.use]
    split <;> omega
  simp only [Account.owed] at honce
  refine ⟨hsame.trans h.owed, hsame.trans_le h.once, ?_, ?_, fun hlt => ?_, fun heq => ?_, fun he hlt => ?_⟩
  · simp only [Account.use]
    split <;> omega
  · simp only [Account.use]
    omega
  · simp only [Account.use] at hlt ⊢
    split at hlt <;> omega
  · simp only [Account.use] at heq ⊢
    split at heq <;> omega
  · have := h.counted he hworking
    simp only [Account.use]
    omega

theorem lose (h : Balanced exact o a) (hn : n ≤ a.held) (hexact : exact → n = a.held) :
    Balanced exact o (a.lose n) := by
  refine ⟨h.owed, h.once, h.ordered, hn.trans h.covered, h.working, fun heq => ?_, fun he hlt => ?_⟩
  · have := h.idle heq
    simp only [Account.lose]
    omega
  · have := h.counted he hlt
    simp only [Account.lose]
    exact this.trans (hexact he).symm

theorem collect (h : Balanced exact o a) (hout : a.outbox ≠ 0) : Balanced exact (o - 1) a.collect := by
  have hless : a.collect.owed + 1 = a.owed := by
    simp only [Account.owed, Account.collect]
    omega
  have howed := h.owed
  have honce := h.once
  exact ⟨by omega, by omega, h.ordered, h.covered, h.working, h.idle, h.counted⟩

end Balanced

end UseCount
