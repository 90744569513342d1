import Farlock.FARLock.Model
import Farlock.Simulation

/-!
# FARLock refines the abstract lock

`Frame.phase` reads off a handler's position in `Lock` or `Unlock` the phase of its acquisition;
`Agrees` adds what its registers and its descriptor hold.  Every step of every handler is then a
move of the abstract lock, or none, with budget `1` for both classes: nobody joins another's batch.
-/

namespace Farlock

namespace FARLock

open Spec

variable {H L : Type}

/-- The phase of the acquisition a handler is engaged in.  The section is passed at the moment of
the successful look, which in `LockPetersonsRemote` may be the first of two loads. -/
def Frame.phase (f : Frame H L) : Phase :=
  match f.pc with
  | .resetNext | .resetTicket | .resetToGetTicket | .resetGranted | .resetReleasable
  | .exchangeTail => .absent
  | .storePrevNext => .link
  | .loadPrevTicket => .look
  | .storePrevReleasable => .mark
  | .waitToGetTicket => .wait
  | .storeFlag => .ready
  | .storeVictim => .flagged
  | .loadFlag | .loadVictim | .readPair => .waiting
  | .readFlag => if f.victim = some .rem then .waiting else .passed
  | .readVictim => if f.flag then .waiting else .passed
  | .loadNextTicket | .storeNextTicket => .passed
  | .clearFlag => .drawn
  | .storeTicket => .cleared
  | .testNext | .loadNext | .storeToGetTicket => .notify
  | .awaitPredecessor | .loadTicket | .awaitTicket => .queued
  | .critical | .loadCurrent | .storeCurrent => .critical
  | .testNextUnlock | .casTail | .awaitReleasable | .loadNextUnlock | .storeGranted => .freed

/-- The part of the descriptor that is already reset before the tail exchange. -/
structure Fresh (f : Frame H L) (d : Descriptor H) : Prop where
  next : f.pc ≠ .resetNext → d.next = none
  ticket : f.pc ≠ .resetNext → f.pc ≠ .resetTicket → d.ticket = kInvalidTicket
  toGetTicket : f.pc = .resetGranted ∨ f.pc = .resetReleasable ∨ f.pc = .exchangeTail →
    d.toGetTicket = false
  granted : f.pc = .resetReleasable ∨ f.pc = .exchangeTail → d.granted = false
  releasable : f.pc = .exchangeTail → d.releasable = false

/-- Handler `h` of class `c` with frame `f` and descriptor `d` agrees with the acquisition `a`
between `pr` and `nx`, when `T` tickets are drawn and `R` are served. -/
structure Agrees (c : Side) (h : H) (f : Frame H L) (d : Descriptor H) (pr a nx : Acq H)
    (T R : ℕ) : Prop where
  who : a.who = some h
  phase : a.phase = f.phase
  hasPrev : f.prev.isSome = a.hasPrev
  prev : a.rank ≤ 3 → f.prev = pr.who
  seen : f.pc = .storePrevReleasable → (a.seen = true ↔ f.ticket ≠ kInvalidTicket)
  next : d.next = if 2 ≤ nx.rank then nx.who else none
  ticket : d.ticket = if 11 ≤ a.rank then word a.ticket else kInvalidTicket
  toGetTicket : d.toGetTicket = decide (pr.out = .told)
  granted : d.granted = (a.hasPrev && decide (pr.phase = .gone))
  releasable : d.releasable = decide (4 ≤ nx.rank)
  drawing : f.pc = .storeNextTicket → f.ticket = word T
  drawn : f.pc = .clearFlag ∨ f.pc = .storeTicket → f.ticket = word a.ticket
  linked : f.pc = .loadNext ∨ f.pc = .storeToGetTicket → 2 ≤ nx.rank
  succ : f.pc = .storeToGetTicket ∨ f.pc = .storeGranted → f.next = nx.who
  behind : f.pc = .awaitPredecessor → a.hasPrev = true
  turn : f.pc = .loadTicket ∨ f.pc = .awaitTicket → a.hasPrev = true → pr.phase = .gone
  value : f.pc = .awaitTicket → f.value = word a.ticket
  current : f.pc = .storeCurrent → f.value = word R
  present : f.pc = .awaitReleasable → nx.phase ≠ .absent
  marked : f.pc = .loadNextUnlock ∨ f.pc = .storeGranted → 4 ≤ nx.rank
  loc : f.pc = .loadFlag ∨ f.pc = .loadVictim → c = .loc
  rem : f.pc = .readPair ∨ f.pc = .readFlag ∨ f.pc = .readVictim → c = .rem

theorem Agrees.congr {c : Side} {h : H} {f : Frame H L} {d : Descriptor H}
    {pr a nx pr' nx' : Acq H} {T R T' R' : ℕ} (hA : Agrees c h f d pr a nx T R)
    (hpr : SamePred pr pr') (hnx : SameSucc nx nx') (hT : T' = T ∨ a.phase ≠ .passed)
    (hR : R' = R ∨ R ≤ R' ∧ a.phase ≠ .critical) : Agrees c h f d pr' a nx' T' R' := by
  obtain ⟨p1, p2, p3, p4, p5⟩ := hpr
  obtain ⟨n1, n2, n3, n4⟩ := hnx
  have hphase := hA.phase
  refine { hA with
    prev := fun hr => (hA.prev hr).trans p1.symm
    next := ?_
    toGetTicket := by rw [hA.toGetTicket, p2]
    granted := by rw [hA.granted]; simp only [p3]
    releasable := by rw [hA.releasable]; simp only [n4]
    drawing := fun hpc => ?_
    linked := fun hpc => n3.2 (hA.linked hpc)
    succ := fun hpc => ?_
    turn := fun hpc hp => p3.2 (hA.turn hpc hp)
    current := fun hpc => ?_
    present := fun hpc hn => hA.present hpc (n2 hn)
    marked := fun hpc => n4.2 (hA.marked hpc) }
  · rw [hA.next]
    by_cases hl : 2 ≤ nx.rank
    · rw [if_pos hl, if_pos (n3.2 hl), n1 hl]
    · rw [if_neg hl, if_neg fun h => hl (n3.1 h)]
  · rcases hT with rfl | hne
    · exact hA.drawing hpc
    · exact absurd (hphase.trans (by simp [Frame.phase, hpc])) hne
  · have hl : 2 ≤ nx.rank := by
      rcases hpc with hpc | hpc
      · exact hA.linked (Or.inr hpc)
      · exact Nat.le_trans (by decide) (hA.marked (Or.inr hpc))
    rw [hA.succ hpc, n1 hl]
  · rcases hR with rfl | ⟨-, hne⟩
    · exact hA.current hpc
    · exact absurd (hphase.trans (by simp [Frame.phase, hpc])) hne

/-! ### The mover -/

section Mover

variable {c : Side} {h : H} {f : Frame H L} {d : Descriptor H} {pr a nx : Acq H} {T R : ℕ}
  (hA : Agrees c h f d pr a nx T R)
include hA

theorem Agrees.link (hpc : f.pc = .storePrevNext) :
    Agrees c h { f with pc := .loadPrevTicket } d pr { a with phase := .look } nx T R := by
  have hph : a.phase = .link := by rw [hA.phase, Frame.phase, hpc]
  obtain ⟨⟩ := hA
  constructor
  case phase => rfl
  all_goals grind -linarith

theorem Agrees.look (hpc : f.pc = .loadPrevTicket) {t : UInt64} {b : Bool}
    (hb : b = true ↔ t ≠ kInvalidTicket) :
    Agrees c h { f with ticket := t, pc := .storePrevReleasable } d pr
      { a with phase := .mark, seen := b } nx T R := by
  have hph : a.phase = .look := by rw [hA.phase, Frame.phase, hpc]
  obtain ⟨⟩ := hA
  constructor
  case phase => rfl
  all_goals grind -linarith

theorem Agrees.mark (hpc : f.pc = .storePrevReleasable) :
    Agrees c h { f with pc := if f.ticket = kInvalidTicket then .waitToGetTicket else .storeFlag } d
      pr { a with phase := if a.seen then .ready else .wait } nx T R := by
  have hph : a.phase = .mark := by rw [hA.phase, Frame.phase, hpc]
  have hseen := hA.seen hpc
  by_cases ht : f.ticket = kInvalidTicket
  · have hs : a.seen = false := by simpa [ht] using hseen
    obtain ⟨⟩ := hA
    rw [if_pos ht, hs]
    constructor
    case phase => rfl
    all_goals grind -linarith
  · have hs : a.seen = true := hseen.2 ht
    obtain ⟨⟩ := hA
    rw [if_neg ht, hs]
    constructor
    case phase => rfl
    all_goals grind -linarith

theorem Agrees.lead (hpc : f.pc = .waitToGetTicket) :
    Agrees c h { f with pc := .storeFlag } d pr { a with phase := .ready } nx T R := by
  have hph : a.phase = .wait := by rw [hA.phase, Frame.phase, hpc]
  obtain ⟨⟩ := hA
  constructor
  case phase => rfl
  all_goals grind -linarith

theorem Agrees.raise (hpc : f.pc = .storeFlag) :
    Agrees c h { f with pc := .storeVictim } d pr { a with phase := .flagged } nx T R := by
  have hph : a.phase = .ready := by rw [hA.phase, Frame.phase, hpc]
  obtain ⟨⟩ := hA
  constructor
  case phase => rfl
  all_goals grind -linarith

/-- A step into the loop of `LockPetersons`, inside it or out of it. -/
theorem Agrees.loop (h8 : f.phase.rank ≤ 8) {f' : Frame H L}
    (hpc' : f'.phase = .waiting ∨ f'.phase = .passed) (hprev : f'.prev = f.prev)
    (hloc : f'.pc = .loadFlag ∨ f'.pc = .loadVictim → c = .loc)
    (hrem : f'.pc = .readPair ∨ f'.pc = .readFlag ∨ f'.pc = .readVictim → c = .rem)
    (hdraw : f'.pc ≠ .storeNextTicket) :
    Agrees c h f' d pr { a with phase := f'.phase } nx T R := by
  obtain ⟨⟩ := hA
  constructor <;> grind -linarith [Frame.phase]

theorem Agrees.request (hpc : f.pc = .storeVictim) :
    Agrees c h { f with pc := Pc.loop c } d pr { a with phase := .waiting } nx T R := by
  have hphase : f.phase = .flagged := by simp [Frame.phase, hpc]
  have hloop : ({ f with pc := Pc.loop c } : Frame H L).phase = .waiting := by
    cases c <;> rfl
  rw [← hloop]
  refine hA.loop (by simp [hphase, Phase.rank]) (Or.inl hloop) rfl ?_ ?_ ?_ <;> cases c <;> simp [Pc.loop]

theorem Agrees.draw (hpc : f.pc = .storeNextTicket) (n T' R' : ℕ) :
    Agrees c h { f with pc := .clearFlag } d pr
      { a with phase := .drawn, has := true, lead := true, ticket := T, budget := n } nx T' R' := by
  have hph : a.phase = .passed := by rw [hA.phase, Frame.phase, hpc]
  obtain ⟨⟩ := hA
  constructor
  case phase => rfl
  all_goals grind -linarith

theorem Agrees.lower (hpc : f.pc = .clearFlag) :
    Agrees c h { f with pc := .storeTicket } d pr { a with phase := .cleared } nx T R := by
  have hph : a.phase = .drawn := by rw [hA.phase, Frame.phase, hpc]
  obtain ⟨⟩ := hA
  constructor
  case phase => rfl
  all_goals grind -linarith

theorem Agrees.publish (hpc : f.pc = .storeTicket) :
    Agrees c h { f with pc := .testNext } { d with ticket := f.ticket } pr
      { a with phase := .notify } nx T R := by
  have hph : a.phase = .cleared := by rw [hA.phase, Frame.phase, hpc]
  obtain ⟨⟩ := hA
  constructor
  case phase => rfl
  all_goals grind -linarith

theorem Agrees.await (hp : f.phase = .notify) {o : Out} :
    Agrees c h f.await d pr { a with phase := .queued, out := o } nx T R := by
  have hph : a.phase = .notify := hA.phase.trans hp
  obtain ⟨⟩ := hA
  cases hprev : f.prev.isSome
  case false =>
    rw [Frame.await, hprev, if_neg (by decide)]
    constructor
    case phase => rfl
    all_goals grind -linarith
  case true =>
    rw [Frame.await, hprev, if_pos rfl]
    constructor
    case phase => rfl
    all_goals grind -linarith

theorem Agrees.enter (hpc : f.pc = .awaitTicket) :
    Agrees c h { f with pc := .critical } d pr { a with phase := .critical } nx T R := by
  have hph : a.phase = .queued := by rw [hA.phase, Frame.phase, hpc]
  obtain ⟨⟩ := hA
  constructor
  case phase => rfl
  all_goals grind -linarith

theorem Agrees.advance (hpc : f.pc = .storeCurrent) (R' : ℕ) :
    Agrees c h { f with pc := .testNextUnlock } d pr { a with phase := .freed } nx T R' := by
  have hph : a.phase = .critical := by rw [hA.phase, Frame.phase, hpc]
  obtain ⟨⟩ := hA
  constructor
  case phase => rfl
  all_goals grind -linarith

/-- A step that changes neither the phase nor the registers that hold something to be kept. -/
theorem Agrees.next_pc {pc : Pc} (hp : ({ f with pc := pc } : Frame H L).phase = f.phase)
    (hpc : pc = .loadNext ∧ 2 ≤ nx.rank ∨ pc = .loadTicket ∧ (a.hasPrev = true → pr.phase = .gone) ∨
      pc = .loadCurrent ∨ pc = .casTail ∨ pc = .awaitReleasable ∧ nx.phase ≠ .absent ∨
      pc = .loadNextUnlock ∧ 4 ≤ nx.rank) :
    Agrees c h { f with pc := pc } d pr a nx T R := by
  obtain ⟨⟩ := hA
  constructor <;> grind -linarith

theorem Agrees.loadNextTicket (hpc : f.pc = .loadNextTicket) :
    Agrees c h { f with ticket := word T, pc := .storeNextTicket } d pr a nx T R := by
  have hph : a.phase = .passed := by rw [hA.phase, Frame.phase, hpc]
  obtain ⟨⟩ := hA
  constructor
  case phase => exact hph
  all_goals grind -linarith

theorem Agrees.loadNext (hpc : f.pc = .loadNext) :
    Agrees c h { f with next := d.next, pc := .storeToGetTicket } d pr a nx T R := by
  have hph : a.phase = .notify := by rw [hA.phase, Frame.phase, hpc]
  obtain ⟨⟩ := hA
  constructor
  case phase => exact hph
  all_goals grind -linarith

theorem Agrees.loadTicket (hpc : f.pc = .loadTicket) :
    Agrees c h { f with value := d.ticket, pc := .awaitTicket } d pr a nx T R := by
  have hph : a.phase = .queued := by rw [hA.phase, Frame.phase, hpc]
  obtain ⟨⟩ := hA
  constructor
  case phase => exact hph
  all_goals grind -linarith

theorem Agrees.loadCurrent (hpc : f.pc = .loadCurrent) :
    Agrees c h { f with value := word R, pc := .storeCurrent } d pr a nx T R := by
  have hph : a.phase = .critical := by rw [hA.phase, Frame.phase, hpc]
  obtain ⟨⟩ := hA
  constructor
  case phase => exact hph
  all_goals grind -linarith

theorem Agrees.loadNextUnlock (hpc : f.pc = .loadNextUnlock) :
    Agrees c h { f with next := d.next, pc := .storeGranted } d pr a nx T R := by
  have hph : a.phase = .freed := by rw [hA.phase, Frame.phase, hpc]
  obtain ⟨⟩ := hA
  constructor
  case phase => exact hph
  all_goals grind -linarith

end Mover

/-- The tail exchange, which found `t`. -/
theorem Fresh.arrive {c : Side} {f : Frame H L} {d : Descriptor H} {pr : Acq H} {t : Option H}
    (hF : Fresh f d) (hpc : f.pc = .exchangeTail) (hgone : t = none ↔ pr.phase = .gone)
    (hwho : t ≠ none → t = pr.who) (hout : pr.out ≠ .told) (h : H) (T R : ℕ) :
    Agrees c h { f with prev := t, pc := if t.isSome then .storePrevNext else .storeFlag } d pr
      (newcomer pr h) {} T R := by
  obtain ⟨⟩ := hF
  cases t
  case none =>
    constructor
    case phase => exact (if_pos (hgone.1 rfl))
    all_goals grind -linarith [newcomer]
  case some g =>
    constructor
    case phase => exact (if_neg fun h => by simpa using hgone.2 h)
    all_goals grind -linarith [newcomer]

/-! ### The neighbour -/

section Neighbour

variable {c : Side} {h g : H} {f : Frame H L} {d : Descriptor H} {pr a nx : Acq H} {T R : ℕ}

/-- `prev->next_ = descriptor`, as the predecessor sees it. -/
theorem Agrees.linked_by (hA : Agrees c g f d pr a nx T R) (hp : nx.phase = .link)
    (hw : nx.who = some h) :
    Agrees c g f { d with next := some h } pr a { nx with phase := .look } T R := by
  obtain ⟨⟩ := hA
  constructor <;> grind -linarith

/-- `prev->releasable_ = kTrue`, as the predecessor sees it. -/
theorem Agrees.marked_by (hA : Agrees c g f d pr a nx T R) (hp : nx.phase = .mark) :
    Agrees c g f { d with releasable := true } pr a
      { nx with phase := if nx.seen then .ready else .wait } T R := by
  obtain ⟨⟩ := hA
  constructor <;> grind -linarith

/-- `next_->to_get_ticket_ = kTrue`, as the successor sees it. -/
theorem Agrees.told_by (hA : Agrees c g f d pr a nx T R) (hp : pr.phase ≠ .gone) :
    Agrees c g f { d with toGetTicket := true } { pr with phase := .queued, out := .told } a nx
      T R := by
  obtain ⟨⟩ := hA
  constructor <;> grind -linarith

/-- `next_->granted_ = kTrue`, as the successor sees it. -/
theorem Agrees.granted_by (hA : Agrees c g f d pr a nx T R) (hp : a.hasPrev = true) :
    Agrees c g f { d with granted := true } { pr with phase := .gone } a nx T R := by
  obtain ⟨⟩ := hA
  constructor <;> grind -linarith

end Neighbour
/-- How FARLock appears in the abstract lock. -/
def view : View H L (Descriptor H) (Frame H L) where
  lock := Frame.lock
  phase := Frame.phase
  Fresh := Fresh
  Matches := Agrees
  ne_gone f := by
    unfold Frame.phase
    split <;> first | decide | (split <;> decide)
  who hA := hA.who
  phase_eq hA := hA.phase
  congr hA := hA.congr

theorem view_lock_start (l : L) : (view (H := H)).lock { lock := l } = l := rfl

/-- The parameters of FARLock: nobody shares a ticket, and the ticket `kInvalidTicket` looks like
none. -/
def config : Config where
  budget _ := 1
  blind t := decide (word t = kInvalidTicket)
  budget_pos _ := le_rfl

end FARLock

end Farlock
