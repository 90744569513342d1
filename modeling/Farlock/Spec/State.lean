import Farlock.Event

/-!
# The abstract lock: two queues, one section, batches of tickets

The lock as its users see it, one lock at a time.  The handlers of a lock fall into two classes,
those on the lock's own node (`Side.loc`) and the others (`Side.rem`).  Each class has a queue; an
acquisition is named by its class and its place in that queue, counted from `0` in the order of the
tail exchanges, and it keeps its place for ever.

An acquisition links itself behind its predecessor, learns whether the predecessor has already left
the ticket section, and then either asks for the section itself (it *leads* a batch and draws a
ticket) or is handed the section together with the ticket of its predecessor (it *joins* the batch).
When it has decided what becomes of the section it waits for its predecessor to leave and, if it
leads, for its ticket to be served.

* `Phase`, `Acq`: how far an acquisition has come and what is known about it;
* `State`, `Config`, `Step`: the state of one lock, its parameters and its moves; the log of a state
  is the list of all events so far.
-/

namespace Farlock

namespace Spec

open TwoParty

/-- How far an acquisition has come. -/
inductive Phase
  /-- not there yet -/
  | absent
  /-- in the queue, not yet visible to the predecessor -/
  | link
  /-- visible, about to look whether the predecessor has left the section -/
  | look
  /-- has looked, about to let the predecessor go -/
  | mark
  /-- waits for a word from the predecessor -/
  | wait
  /-- about to ask for the section -/
  | ready
  /-- flag raised -/
  | flagged
  /-- request complete -/
  | waiting
  /-- in the section, without a ticket -/
  | passed
  /-- in the section, with a ticket -/
  | drawn
  /-- flag lowered -/
  | cleared
  /-- has made known that the section is left -/
  | notify
  /-- waits for its turn -/
  | queued
  /-- holds the lock -/
  | critical
  /-- has served its ticket, still in the queue -/
  | freed
  /-- has left the queue -/
  | gone
  deriving DecidableEq, Repr

/-- The phases in the order in which an acquisition goes through them. -/
@[grind] def Phase.rank : Phase → ℕ
  | .absent => 0
  | .link => 1
  | .look => 2
  | .mark => 3
  | .wait => 4
  | .ready => 5
  | .flagged => 6
  | .waiting => 7
  | .passed => 8
  | .drawn => 9
  | .cleared => 10
  | .notify => 11
  | .queued => 12
  | .critical => 13
  | .freed => 14
  | .gone => 15

/-- What an acquisition did for its successor: nothing so far, told it to ask for the section
itself, or handed it the section and the ticket. -/
inductive Out
  | kept
  | told
  | handed
  deriving DecidableEq, Repr

/-- One acquisition.  `seen` is the outcome of the look at the predecessor; `has` says that a ticket
is assigned, `lead` that it was drawn by this acquisition itself; `budget` counts this acquisition
and those that may still join after it; `offered` says that the ticket is already written down for
the successor. -/
structure Acq (H : Type) where
  phase : Phase := .absent
  who : Option H := none
  hasPrev : Bool := false
  seen : Bool := false
  has : Bool := false
  lead : Bool := false
  ticket : ℕ := 0
  budget : ℕ := 0
  offered : Bool := false
  out : Out := .kept
  deriving DecidableEq

variable {H : Type}

/-- The rank of an acquisition's phase. -/
@[grind =] abbrev Acq.rank (a : Acq H) : ℕ := a.phase.rank

/-- A successor in this state is visible to its predecessor. -/
abbrev Acq.Linked (a : Acq H) : Prop := 2 ≤ a.rank

/-- A successor in this state has let its predecessor go. -/
abbrev Acq.Marked (a : Acq H) : Prop := 4 ≤ a.rank

/-- The acquisition has left the section and made it known. -/
abbrev Acq.Published (a : Acq H) : Prop := 11 ≤ a.rank ∧ a.out ≠ .handed

/-- The acquisition is in the queue. -/
abbrev Acq.Active (a : Acq H) : Prop := a.phase ≠ .absent ∧ a.phase ≠ .gone

/-- The predecessor of the first acquisition of a queue: one that is long gone. -/
def sentinel : Acq H := { phase := .gone }

/-- A handler that has just exchanged the tail and found `pr` in front of it. -/
def newcomer (pr : Acq H) (h : H) : Acq H :=
  { phase := if pr.phase = .gone then .ready else .link
    who := some h
    hasPrev := decide (pr.phase ≠ .gone) }

/-- The acquisition after it has handed on the section and its ticket. -/
def Acq.giver (a : Acq H) : Acq H := { a with phase := .queued, out := .handed }

/-- The acquisition `b` after `a` has handed it the section and its ticket. -/
def Acq.taker (b a : Acq H) : Acq H :=
  { b with has := true, lead := false, ticket := a.ticket, budget := a.budget - 1 }

/-- The state of one lock.  `issued` tickets have been drawn, `serving` of them are done. -/
structure State (H : Type) where
  acq : Side → ℕ → Acq H := fun _ _ => {}
  arrived : Side → ℕ := fun _ => 0
  pet : Peterson.State Side := .initial Side
  issued : ℕ := 0
  serving : ℕ := 0
  log : List (Event H ℕ) := []

namespace State

/-- The acquisition just before place `p` of class `c`. -/
def pred (s : State H) (c : Side) : ℕ → Acq H
  | 0 => sentinel
  | p + 1 => s.acq c p

/-- Replace one acquisition. -/
def put (s : State H) (c : Side) (p : ℕ) (a : Acq H) : State H :=
  { s with acq := fun c' q => if c' = c ∧ q = p then a else s.acq c' q }

/-- A new acquisition takes the next place of its queue. -/
def arrive (s : State H) (c : Side) (h : H) : State H :=
  { s.put c (s.arrived c) (newcomer (s.pred c (s.arrived c)) h) with
    arrived := Function.update s.arrived c (s.arrived c + 1)
    log := s.log ++ [.arrive c h] }

/-- The section and the ticket of place `p` go to place `p + 1`. -/
def hand (s : State H) (c : Side) (p : ℕ) (h : H) : State H :=
  { (s.put c p (s.acq c p).giver).put c (p + 1) ((s.acq c (p + 1)).taker (s.acq c p)) with
    log := s.log ++ [.hand c h] }

end State

/-- The parameters of a lock: how many acquisitions of a class may share one ticket, and which
tickets look like no ticket at all in a descriptor. -/
structure Config where
  budget : Side → ℕ
  blind : ℕ → Bool
  budget_pos : ∀ c, 1 ≤ budget c

/-- The moves of one lock with the parameters `B`.  A handler arrives only when its former
acquisitions are gone. -/
inductive Step (B : Config) : State H → State H → Prop
  | arrive {s : State H} (c : Side) (h : H)
      (hn : ∀ c p, (s.acq c p).who = some h → (s.acq c p).phase = .gone) : Step B s (s.arrive c h)
  | link {s : State H} {c : Side} {p : ℕ} (hp : (s.acq c p).phase = .link) :
      Step B s (s.put c p { s.acq c p with phase := .look })
  | look {s : State H} {c : Side} {p : ℕ} (hp : (s.acq c p).phase = .look) :
      Step B s (s.put c p { s.acq c p with
        phase := .mark
        seen := decide (s.pred c p).Published && !B.blind (s.pred c p).ticket })
  | mark {s : State H} {c : Side} {p : ℕ} (hp : (s.acq c p).phase = .mark) :
      Step B s (s.put c p { s.acq c p with
        phase := if (s.acq c p).seen then .ready else .wait })
  | lead {s : State H} {c : Side} {p : ℕ} (hp : (s.acq c p).phase = .wait)
      (ht : (s.pred c p).out = .told) :
      Step B s (s.put c p { s.acq c p with phase := .ready })
  | join {s : State H} {c : Side} {p : ℕ} (hp : (s.acq c p).phase = .wait)
      (ht : (s.acq c p).has = true) :
      Step B s (s.put c p { s.acq c p with phase := .drawn })
  | raise {s : State H} {c : Side} {p : ℕ} {h : H} (hp : (s.acq c p).phase = .ready)
      (hw : (s.acq c p).who = some h) :
      Step B s { s.put c p { s.acq c p with phase := .flagged } with
        pet := s.pet.raise c, log := s.log ++ [.raise c h] }
  | request {s : State H} {c : Side} {p : ℕ} {h : H} (hp : (s.acq c p).phase = .flagged)
      (hw : (s.acq c p).who = some h) :
      Step B s { s.put c p { s.acq c p with phase := .waiting } with
        pet := s.pet.request c, log := s.log ++ [.request c h] }
  | pass {s : State H} {c : Side} {p : ℕ} (hp : (s.acq c p).phase = .waiting)
      (hc : s.pet.CanPass c) :
      Step B s { s.put c p { s.acq c p with phase := .passed } with pet := s.pet.pass c }
  | draw {s : State H} {c : Side} {p : ℕ} {h : H} (hp : (s.acq c p).phase = .passed)
      (hw : (s.acq c p).who = some h) :
      Step B s { s.put c p { s.acq c p with
          phase := .drawn, has := true, lead := true, ticket := s.issued, budget := B.budget c } with
        issued := s.issued + 1, log := s.log ++ [.draw c h s.issued] }
  | offer {s : State H} {c : Side} {p : ℕ} (hp : (s.acq c p).phase = .drawn)
      (hl : (s.acq c (p + 1)).Linked) (hb : 1 < (s.acq c p).budget) :
      Step B s (s.put c p { s.acq c p with offered := true })
  | hand {s : State H} {c : Side} {p : ℕ} {h : H} (hp : (s.acq c p).phase = .drawn)
      (hw : (s.acq c p).who = some h) (ho : (s.acq c p).offered = true) : Step B s (s.hand c p h)
  | lower {s : State H} {c : Side} {p : ℕ} {h : H} (hp : (s.acq c p).phase = .drawn)
      (hw : (s.acq c p).who = some h) (ho : (s.acq c p).offered = false) :
      Step B s { s.put c p { s.acq c p with phase := .cleared } with
        pet := s.pet.lower c, log := s.log ++ [.lower c h] }
  | publish {s : State H} {c : Side} {p : ℕ} (hp : (s.acq c p).phase = .cleared) :
      Step B s (s.put c p { s.acq c p with phase := .notify })
  | skip {s : State H} {c : Side} {p : ℕ} (hp : (s.acq c p).phase = .notify)
      (hl : ¬ (s.acq c (p + 1)).Linked) :
      Step B s (s.put c p { s.acq c p with phase := .queued })
  | tell {s : State H} {c : Side} {p : ℕ} (hp : (s.acq c p).phase = .notify)
      (hl : (s.acq c (p + 1)).Linked) :
      Step B s (s.put c p { s.acq c p with phase := .queued, out := .told })
  | enter {s : State H} {c : Side} {p : ℕ} {h : H} (hp : (s.acq c p).phase = .queued)
      (hw : (s.acq c p).who = some h)
      (hg : (s.acq c p).hasPrev = true → (s.pred c p).phase = .gone)
      (ht : (s.acq c p).lead = true → (s.acq c p).ticket = s.serving) :
      Step B s { s.put c p { s.acq c p with phase := .critical } with
        log := s.log ++ [.enter c h (s.acq c p).ticket] }
  | advance {s : State H} {c : Side} {p : ℕ} {h : H} (hp : (s.acq c p).phase = .critical)
      (hw : (s.acq c p).who = some h) (ho : (s.acq c p).out ≠ .handed) :
      Step B s { s.put c p { s.acq c p with phase := .freed } with
        serving := s.serving + 1, log := s.log ++ [.advance c h (s.serving + 1)] }
  | retire {s : State H} {c : Side} {p : ℕ} (hp : (s.acq c p).phase = .critical)
      (ho : (s.acq c p).out = .handed) :
      Step B s (s.put c p { s.acq c p with phase := .freed })
  | depart {s : State H} {c : Side} {p : ℕ} {h : H} (hp : (s.acq c p).phase = .freed)
      (hw : (s.acq c p).who = some h)
      (hs : (s.acq c (p + 1)).phase = .absent ∨ (s.acq c (p + 1)).Marked) :
      Step B s { s.put c p { s.acq c p with phase := .gone } with
        log := s.log ++ [.leave c h] }

/-- The states of a lock that starts free. -/
inductive Reachable (B : Config) : State H → Prop
  | start : Reachable B {}
  | step {s s' : State H} : Reachable B s → Step B s s' → Reachable B s'

end Spec

end Farlock
