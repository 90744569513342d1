import Farlock.FARLockG.Model
import Farlock.Simulation

/-!
# FARLockG refines the abstract lock

`Frame.phase` reads off a handler's position in `Lock` or `Unlock` the phase of its acquisition;
`Agrees` adds what its registers and its descriptor hold.  The budget of a class is the configured
one.  The store of `batch_ticket_` into the successor's descriptor is the abstract offer, the
following store of `budget_` the hand-over.
-/

namespace Farlock

namespace FARLockG

open Spec

variable {H L : Type}

/-- The phase of the acquisition a handler is engaged in.  The section is passed at the moment of
the successful look, which in `LockPetersonsRemote` may be the first of two loads. -/
def Frame.phase (f : Frame H L) : Phase :=
  match f.pc with
  | .resetNext | .resetTicketValid | .resetBudget | .resetGranted | .resetReleasable
  | .exchangeTail => .absent
  | .storePrevNext => .link
  | .loadPrevTicketValid => .look
  | .storePrevReleasable => .mark
  | .awaitBudget | .testBudget | .loadBatchTicket => .wait
  | .storeBudget | .storeFlag => .ready
  | .storeVictim => .flagged
  | .loadFlag | .loadVictim | .readPair => .waiting
  | .readFlag => if f.victim = some .rem then .waiting else .passed
  | .readVictim => if f.flag then .waiting else .passed
  | .loadNextTicket | .storeNextTicket => .passed
  | .testNext | .assertBudget | .testLast | .clearFlagFull | .loadNextBatch | .storeNextBatchTicket
  | .loadNextBudget | .loadBudget | .storeNextBudget | .clearFlag => .drawn
  | .storeTicketValidFull | .storeTicketValid => .cleared
  | .testNextAgain | .loadNext | .storeInitBudget => .notify
  | .awaitGranted | .awaitTicket | .storeBatchTicket => .queued
  | .critical | .loadTicketValid | .loadCurrent | .storeCurrent => .critical
  | .testNextUnlock | .casTail | .awaitReleasable | .loadNextUnlock | .storeGranted => .freed

/-- The part of the descriptor that is already reset before the tail exchange. -/
structure Fresh (f : Frame H L) (d : Descriptor H) : Prop where
  next : f.pc ≠ .resetNext → d.next = none
  ticketValid : f.pc ≠ .resetNext → f.pc ≠ .resetTicketValid → d.ticketValid = false
  budget : f.pc = .resetGranted ∨ f.pc = .resetReleasable ∨ f.pc = .exchangeTail →
    d.budget = kNoBudget
  granted : f.pc = .resetReleasable ∨ f.pc = .exchangeTail → d.granted = false
  releasable : f.pc = .exchangeTail → d.releasable = false
  ticketFromPrev : f.ticketFromPrev = false

/-- What a handler of class `c` knows at its program point about its registers, its acquisition `a`
and the neighbours `pr` and `nx`, when `T` tickets are drawn and `R` are served. -/
def Frame.Knows (c : Side) (f : Frame H L) (pr a nx : Acq H) (T R : ℕ) : Prop :=
  match f.pc with
  | .storePrevReleasable => a.seen = f.valid
  | .testBudget => pr.out = .told ∨ a.has = true
  | .loadBatchTicket => a.has = true
  | .loadFlag | .loadVictim => c = .loc
  | .readPair | .readFlag | .readVictim => c = .rem
  | .storeNextTicket => f.ticket = word T
  | .testNext | .clearFlag => a.offered = false
  | .assertBudget | .testLast | .clearFlagFull => a.offered = false ∧ 2 ≤ nx.rank
  | .loadNextBatch => a.offered = false ∧ 2 ≤ nx.rank ∧ 1 < a.budget ∧
      (c = .rem → f.budget = word a.budget - 1)
  | .storeNextBatchTicket => a.offered = false ∧ 2 ≤ nx.rank ∧ 1 < a.budget ∧
      (c = .rem → f.budget = word a.budget - 1) ∧ f.next = nx.who
  | .loadNextBudget => a.offered = true ∧ 2 ≤ nx.rank ∧ c = .loc
  | .loadBudget => 2 ≤ nx.rank ∧ (c = .loc → a.offered = true ∧ f.next = nx.who) ∧
      (c = .rem → a.offered = false ∧ 1 < a.budget)
  | .storeNextBudget => a.offered = true ∧ 2 ≤ nx.rank ∧ f.next = nx.who ∧
      f.budget = word a.budget - 1
  | .storeTicketValidFull | .loadNext => 2 ≤ nx.rank
  | .storeInitBudget => 2 ≤ nx.rank ∧ f.next = nx.who
  | .awaitGranted => a.hasPrev = true
  | .awaitTicket => a.lead = true ∧ (a.hasPrev = true → pr.phase = .gone)
  | .storeBatchTicket => a.lead = true ∧ (a.hasPrev = true → pr.phase = .gone) ∧ a.ticket ≤ R
  | .loadCurrent => a.out ≠ .handed
  | .storeCurrent => a.out ≠ .handed ∧ f.value = word a.ticket
  | .awaitReleasable => nx.phase ≠ .absent
  | .loadNextUnlock => 4 ≤ nx.rank
  | .storeGranted => 4 ≤ nx.rank ∧ f.next = nx.who
  | _ => True

/-- Handler `h` of class `c` with frame `f` and descriptor `d` agrees with the acquisition `a`
between `pr` and `nx`, when `T` tickets are drawn and `R` are served. -/
structure Agrees (B : LockConfig) (c : Side) (h : H) (f : Frame H L) (d : Descriptor H)
    (pr a nx : Acq H) (T R : ℕ) : Prop where
  who : a.who = some h
  phase : a.phase = f.phase
  hasPrev : f.prev.isSome = a.hasPrev
  prev : a.rank ≤ 3 → f.prev = pr.who
  next : d.next = if 2 ≤ nx.rank then nx.who else none
  ticketValid : d.ticketValid = decide (11 ≤ a.rank ∧ a.out ≠ .handed)
  budget : d.budget = if a.has then word a.budget
    else if pr.out = .told ∨ 5 ≤ a.rank ∧ f.pc ≠ .storeBudget then B.kInitBudget c else kNoBudget
  granted : d.granted = (a.hasPrev && decide (pr.phase = .gone))
  releasable : d.releasable = decide (4 ≤ nx.rank)
  offered : pr.offered = true → d.batchTicket = word pr.ticket
  batch : a.has = true → a.lead = false ∨ 13 ≤ a.rank → d.batchTicket = word a.ticket
  ticketFromPrev : f.ticketFromPrev = (decide (9 ≤ a.rank) && !a.lead)
  behind : f.ticketFromPrev = true → a.hasPrev = true
  ticket : 9 ≤ a.rank → f.ticket = word a.ticket
  knows : f.Knows c pr a nx T R

/-- What a handler knows stays true while its neighbours go on. -/
theorem Frame.Knows.mono {c : Side} {f : Frame H L} {pr a nx pr' nx' : Acq H} {T R T' R' : ℕ}
    (hk : f.Knows c pr a nx T R) (hout : pr.out = .told → pr'.out = .told)
    (hgone : pr.phase = .gone → pr'.phase = .gone) (hwho : 2 ≤ nx.rank → nx'.who = nx.who)
    (hlinked : 2 ≤ nx.rank → 2 ≤ nx'.rank) (hmarked : 4 ≤ nx.rank → 4 ≤ nx'.rank)
    (habsent : nx'.phase = .absent → nx.phase = .absent) (hT : T' = T ∨ f.phase ≠ .passed)
    (hR : R ≤ R') : f.Knows c pr' a nx' T' R' := by
  unfold Frame.Knows Frame.phase at *
  cases hpc : f.pc <;> simp only [hpc] at hk hT ⊢ <;> grind -linarith

theorem Agrees.congr {B : LockConfig} {c : Side} {h : H} {f : Frame H L} {d : Descriptor H}
    {pr a nx pr' nx' : Acq H} {T R T' R' : ℕ} (hA : Agrees B c h f d pr a nx T R)
    (hpr : SamePred pr pr') (hnx : SameSucc nx nx') (hT : T' = T ∨ a.phase ≠ .passed)
    (hR : R' = R ∨ R ≤ R' ∧ a.phase ≠ .critical) : Agrees B c h f d pr' a nx' T' R' := by
  refine { hA with
    prev := fun hr => (hA.prev hr).trans hpr.who.symm
    next := ?_
    budget := by rw [hA.budget, hpr.out]
    granted := by rw [hA.granted]; simp only [hpr.gone]
    releasable := by rw [hA.releasable]; simp only [hnx.marked]
    offered := fun ho => by
      rw [hpr.offered] at ho
      rw [hA.offered ho, hpr.ticket ho]
    knows := hA.knows.mono (fun h => hpr.out.trans h) hpr.gone.2 hnx.who hnx.linked.2 hnx.marked.2
      hnx.absent (hA.phase ▸ hT) (by omega) }
  rw [hA.next]
  by_cases hl : 2 ≤ nx.rank
  · rw [if_pos hl, if_pos (hnx.linked.2 hl), hnx.who hl]
  · rw [if_neg hl, if_neg fun h => hl (hnx.linked.1 h)]

/-! ### The mover -/

section Mover

variable {B : LockConfig} {c : Side} {h : H} {f : Frame H L} {d : Descriptor H} {pr a nx : Acq H}
  {T R : ℕ} (hA : Agrees B c h f d pr a nx T R)
include hA

/-- A step that changes nothing but registers. -/
theorem Agrees.go {f' : Frame H L} (hp : f'.phase = f.phase) (hprev : f'.prev = f.prev)
    (hfrom : f'.ticketFromPrev = f.ticketFromPrev) (ht : 9 ≤ a.rank → f'.ticket = f.ticket)
    (hb : f'.pc = .storeBudget ↔ f.pc = .storeBudget) (hk : f'.Knows c pr a nx T R) :
    Agrees B c h f' d pr a nx T R :=
  { hA with
    phase := hA.phase.trans hp.symm
    hasPrev := by rw [hprev, hA.hasPrev]
    prev := fun hr => hprev.trans (hA.prev hr)
    budget := by rw [hA.budget]; simp only [ne_eq, hb]
    ticketFromPrev := hfrom.trans hA.ticketFromPrev
    behind := fun h => hA.behind (hfrom ▸ h)
    ticket := fun hr => (ht hr).trans (hA.ticket hr)
    knows := hk }

theorem Agrees.link (hpc : f.pc = .storePrevNext) :
    Agrees B c h { f with pc := .loadPrevTicketValid } d pr { a with phase := .look } nx T R := by
  have hph : a.phase = .link := by rw [hA.phase, Frame.phase, hpc]
  obtain ⟨⟩ := hA
  constructor
  case phase => rfl
  case knows => trivial
  all_goals grind -linarith

theorem Agrees.look (hpc : f.pc = .loadPrevTicketValid) (b : Bool) :
    Agrees B c h { f with valid := b, pc := .storePrevReleasable } d pr
      { a with phase := .mark, seen := b } nx T R := by
  have hph : a.phase = .look := by rw [hA.phase, Frame.phase, hpc]
  obtain ⟨⟩ := hA
  constructor
  case phase => rfl
  case knows => rfl
  all_goals grind -linarith

theorem Agrees.mark (hpc : f.pc = .storePrevReleasable) :
    Agrees B c h { f with pc := if f.valid then .storeBudget else .awaitBudget } d pr
      { a with phase := if a.seen then .ready else .wait } nx T R := by
  have hph : a.phase = .mark := by rw [hA.phase, Frame.phase, hpc]
  have hk := hA.knows
  rw [Frame.Knows, hpc] at hk
  obtain ⟨⟩ := hA
  rw [hk]
  cases f.valid
  case false =>
    constructor
    case phase => rfl
    case knows => trivial
    all_goals grind -linarith
  case true =>
    constructor
    case phase => rfl
    case knows => trivial
    all_goals grind -linarith

theorem Agrees.lead (hpc : f.pc = .testBudget) :
    Agrees B c h { f with pc := .storeBudget } d pr { a with phase := .ready } nx T R := by
  have hph : a.phase = .wait := by rw [hA.phase, Frame.phase, hpc]
  obtain ⟨⟩ := hA
  constructor
  case phase => rfl
  case knows => trivial
  all_goals grind -linarith

theorem Agrees.join (hpc : f.pc = .loadBatchTicket) (hlead : a.lead = false)
    (hprev : a.hasPrev = true) (ho : a.offered = false) :
    Agrees B c h { f with ticket := d.batchTicket, ticketFromPrev := true, pc := .testNext } d pr
      { a with phase := .drawn } nx T R := by
  have hph : a.phase = .wait := by rw [hA.phase, Frame.phase, hpc]
  have hk := hA.knows
  rw [Frame.Knows, hpc] at hk
  obtain ⟨⟩ := hA
  constructor
  case phase => rfl
  case knows => exact ho
  all_goals grind -linarith

theorem Agrees.setBudget (hpc : f.pc = .storeBudget) (hhas : a.has = false) :
    Agrees B c h { f with pc := .storeFlag } { d with budget := B.kInitBudget c } pr a nx T R := by
  have hph : a.phase = .ready := by rw [hA.phase, Frame.phase, hpc]
  obtain ⟨⟩ := hA
  constructor
  case phase => exact hph
  case knows => trivial
  all_goals grind -linarith

theorem Agrees.raise (hpc : f.pc = .storeFlag) :
    Agrees B c h { f with pc := .storeVictim } d pr { a with phase := .flagged } nx T R := by
  have hph : a.phase = .ready := by rw [hA.phase, Frame.phase, hpc]
  obtain ⟨⟩ := hA
  constructor
  case phase => rfl
  case knows => trivial
  all_goals grind -linarith

theorem Agrees.request (hpc : f.pc = .storeVictim) :
    Agrees B c h { f with pc := Pc.loop c } d pr { a with phase := .waiting } nx T R := by
  have hph : a.phase = .flagged := by rw [hA.phase, Frame.phase, hpc]
  obtain ⟨⟩ := hA
  cases c
  case loc =>
    constructor
    case phase => rfl
    case knows => rfl
    all_goals grind -linarith [Pc.loop]
  case rem =>
    constructor
    case phase => rfl
    case knows => rfl
    all_goals grind -linarith [Pc.loop]

/-- A look in the loop of `LockPetersons` that succeeds. -/
theorem Agrees.pass {f' : Frame H L} (hp : f.phase = .waiting) (hp' : f'.phase = .passed)
    (hprev : f'.prev = f.prev) (hfrom : f'.ticketFromPrev = f.ticketFromPrev)
    (hk : f'.Knows c pr { a with phase := .passed } nx T R) :
    Agrees B c h f' d pr { a with phase := .passed } nx T R := by
  have hf : f.pc ≠ .storeBudget := fun hpc => by simp [Frame.phase, hpc] at hp
  have hf' : f'.pc ≠ .storeBudget := fun hpc => by simp [Frame.phase, hpc] at hp'
  obtain ⟨⟩ := hA
  constructor <;> grind -linarith

theorem Agrees.draw (hpc : f.pc = .storeNextTicket) (hhas : a.has = false) (ho : a.offered = false)
    {n : ℕ} (hn : word n = B.kInitBudget c) (T' R' : ℕ) :
    Agrees B c h { f with pc := .testNext } d pr
      { a with phase := .drawn, has := true, lead := true, ticket := T, budget := n } nx T' R' := by
  have hph : a.phase = .passed := by rw [hA.phase, Frame.phase, hpc]
  have hk := hA.knows
  rw [Frame.Knows, hpc] at hk
  obtain ⟨⟩ := hA
  constructor
  case phase => rfl
  case knows => exact ho
  all_goals grind -linarith

theorem Agrees.lower (hpc : f.pc = .clearFlag) :
    Agrees B c h { f with pc := .storeTicketValid } d pr { a with phase := .cleared } nx T R := by
  have hph : a.phase = .drawn := by rw [hA.phase, Frame.phase, hpc]
  obtain ⟨⟩ := hA
  constructor
  case phase => rfl
  case knows => trivial
  all_goals grind -linarith

theorem Agrees.lowerFull (hpc : f.pc = .clearFlagFull) :
    Agrees B c h { f with pc := .storeTicketValidFull } d pr { a with phase := .cleared } nx T R := by
  have hph : a.phase = .drawn := by rw [hA.phase, Frame.phase, hpc]
  have hk := hA.knows
  rw [Frame.Knows, hpc] at hk
  obtain ⟨⟩ := hA
  constructor
  case phase => rfl
  case knows => exact hk.2
  all_goals grind -linarith

theorem Agrees.publish (hpc : f.pc = .storeTicketValid) (ho : a.out ≠ .handed) :
    Agrees B c h { f with pc := .testNextAgain } { d with ticketValid := true } pr
      { a with phase := .notify } nx T R := by
  have hph : a.phase = .cleared := by rw [hA.phase, Frame.phase, hpc]
  obtain ⟨⟩ := hA
  constructor
  case phase => rfl
  case knows => trivial
  all_goals grind -linarith

theorem Agrees.publishFull (hpc : f.pc = .storeTicketValidFull) (ho : a.out ≠ .handed) :
    Agrees B c h { f with pc := .loadNext } { d with ticketValid := true } pr
      { a with phase := .notify } nx T R := by
  have hph : a.phase = .cleared := by rw [hA.phase, Frame.phase, hpc]
  have hk := hA.knows
  rw [Frame.Knows, hpc] at hk
  obtain ⟨⟩ := hA
  constructor
  case phase => rfl
  case knows => exact hk
  all_goals grind -linarith

/-- `next_->batch_ticket_ = ticket` -/
theorem Agrees.offer (hpc : f.pc = .storeNextBatchTicket) :
    Agrees B c h { f with pc := if c = .loc then .loadNextBudget else .storeNextBudget } d pr
      { a with offered := true } nx T R := by
  have hph : a.phase = .drawn := by rw [hA.phase, Frame.phase, hpc]
  have hk := hA.knows
  rw [Frame.Knows, hpc] at hk
  obtain ⟨⟩ := hA
  cases c
  case loc =>
    constructor
    case phase => exact hph
    case knows => exact ⟨rfl, hk.2.1, rfl⟩
    all_goals grind -linarith
  case rem =>
    constructor
    case phase => exact hph
    case knows => exact ⟨rfl, hk.2.1, hk.2.2.2.2, hk.2.2.2.1 rfl⟩
    all_goals grind -linarith

/-- `next_->budget_ = budget_ - 1` -/
theorem Agrees.hand (hpc : f.pc = .storeNextBudget) :
    Agrees B c h f.await d pr a.giver nx T R := by
  have hph : a.phase = .drawn := by rw [hA.phase, Frame.phase, hpc]
  have hk := hA.knows
  rw [Frame.Knows, hpc] at hk
  obtain ⟨⟩ := hA
  cases hprev : f.prev.isSome
  case false =>
    rw [Frame.await, hprev, if_neg (by decide)]
    constructor
    case phase => rfl
    case knows => refine ⟨?_, ?_⟩ <;> grind -linarith [Acq.giver]
    all_goals grind -linarith [Acq.giver]
  case true =>
    rw [Frame.await, hprev, if_pos rfl]
    constructor
    case phase => rfl
    case knows =>
      change a.giver.hasPrev = true
      grind -linarith [Acq.giver]
    all_goals grind -linarith [Acq.giver]

/-- The end of the ticket acquisition, when the successor was told to draw its own ticket or there
is none. -/
theorem Agrees.await (hp : f.phase = .notify) {o : Out} (ho : o ≠ .handed) (ha : a.out ≠ .handed) :
    Agrees B c h f.await d pr { a with phase := .queued, out := o } nx T R := by
  have hf : f.pc ≠ .storeBudget := fun hpc => by simp [Frame.phase, hpc] at hp
  have hph : a.phase = .notify := hA.phase.trans hp
  obtain ⟨⟩ := hA
  cases hprev : f.prev.isSome
  case false =>
    rw [Frame.await, hprev, if_neg (by decide)]
    constructor
    case phase => rfl
    case knows => refine ⟨?_, ?_⟩ <;> grind -linarith
    all_goals grind -linarith
  case true =>
    rw [Frame.await, hprev, if_pos rfl]
    constructor
    case phase => rfl
    case knows =>
      change a.hasPrev = true
      grind -linarith
    all_goals grind -linarith

/-- `Lock` returns after the grant. -/
theorem Agrees.enterGranted (hpc : f.pc = .awaitGranted) (hfrom : f.ticketFromPrev = true)
    (hhas : a.has = true) :
    Agrees B c h { f with pc := .critical } d pr { a with phase := .critical } nx T R := by
  have hph : a.phase = .queued := by rw [hA.phase, Frame.phase, hpc]
  obtain ⟨⟩ := hA
  constructor
  case phase => rfl
  case knows => trivial
  all_goals grind -linarith

/-- `Lock` returns after the ticket has come up. -/
theorem Agrees.enter (hpc : f.pc = .storeBatchTicket) (ho : pr.offered = false) :
    Agrees B c h { f with pc := .critical } { d with batchTicket := f.ticket } pr
      { a with phase := .critical } nx T R := by
  have hph : a.phase = .queued := by rw [hA.phase, Frame.phase, hpc]
  have hk := hA.knows
  rw [Frame.Knows, hpc] at hk
  obtain ⟨⟩ := hA
  constructor
  case phase => rfl
  case knows => trivial
  all_goals grind -linarith

/-- `Unlock` leaves the current ticket to a later member of the batch. -/
theorem Agrees.retire (hpc : f.pc = .loadTicketValid) :
    Agrees B c h { f with pc := .testNextUnlock } d pr { a with phase := .freed } nx T R := by
  have hph : a.phase = .critical := by rw [hA.phase, Frame.phase, hpc]
  obtain ⟨⟩ := hA
  constructor
  case phase => rfl
  case knows => trivial
  all_goals grind -linarith

theorem Agrees.advance (hpc : f.pc = .storeCurrent) (R' : ℕ) :
    Agrees B c h { f with pc := .testNextUnlock } d pr { a with phase := .freed } nx T R' := by
  have hph : a.phase = .critical := by rw [hA.phase, Frame.phase, hpc]
  have hk := hA.knows
  rw [Frame.Knows, hpc] at hk
  obtain ⟨⟩ := hA
  constructor
  case phase => rfl
  case knows => trivial
  all_goals grind -linarith

end Mover

/-- The tail exchange, which found `t`. -/
theorem Fresh.arrive {B : LockConfig} {c : Side} {f : Frame H L} {d : Descriptor H} {pr : Acq H}
    {t : Option H} (hF : Fresh f d) (hpc : f.pc = .exchangeTail)
    (hgone : t = none ↔ pr.phase = .gone) (hwho : t ≠ none → t = pr.who) (hout : pr.out ≠ .told)
    (ho : pr.offered = false) (h : H) (T R : ℕ) :
    Agrees B c h { f with prev := t, pc := if t.isSome then .storePrevNext else .storeBudget } d pr
      (newcomer pr h) {} T R := by
  obtain ⟨⟩ := hF
  cases t
  case none =>
    constructor
    case phase => exact (if_pos (hgone.1 rfl))
    case knows => trivial
    all_goals grind -linarith [newcomer]
  case some g =>
    constructor
    case phase => exact (if_neg fun h => by simpa using hgone.2 h)
    case knows => trivial
    all_goals grind -linarith [newcomer]

/-! ### The neighbour -/

section Neighbour

variable {B : LockConfig} {c : Side} {h g : H} {f : Frame H L} {d : Descriptor H}
  {pr a nx : Acq H} {T R : ℕ}

/-- `prev->next_ = descriptor`, as the predecessor sees it. -/
theorem Agrees.linked_by (hA : Agrees B c g f d pr a nx T R) (hp : nx.phase = .link)
    (hw : nx.who = some h) :
    Agrees B c g f { d with next := some h } pr a { nx with phase := .look } T R := by
  have hk : f.Knows c pr a { nx with phase := .look } T R :=
    hA.knows.mono id id (fun _ => rfl) (by grind) (by grind) (by grind) (Or.inl rfl) le_rfl
  obtain ⟨⟩ := hA
  constructor <;> grind -linarith

/-- `prev->releasable_ = kTrue`, as the predecessor sees it. -/
theorem Agrees.marked_by (hA : Agrees B c g f d pr a nx T R) (hp : nx.phase = .mark) :
    Agrees B c g f { d with releasable := true } pr a
      { nx with phase := if nx.seen then .ready else .wait } T R := by
  have hk : f.Knows c pr a { nx with phase := if nx.seen then .ready else .wait } T R :=
    hA.knows.mono id id (fun _ => rfl) (by grind) (by grind) (by grind) (Or.inl rfl) le_rfl
  obtain ⟨⟩ := hA
  constructor <;> grind -linarith

/-- `next_->batch_ticket_ = ticket`, as the successor sees it. -/
theorem Agrees.offered_by (hA : Agrees B c g f d pr a nx T R) (hhas : a.has = false) :
    Agrees B c g f { d with batchTicket := word pr.ticket } { pr with offered := true } a nx T R := by
  have hk : f.Knows c { pr with offered := true } a nx T R :=
    hA.knows.mono id id (fun _ => rfl) id id id (Or.inl rfl) le_rfl
  obtain ⟨⟩ := hA
  constructor <;> grind -linarith

/-- `next_->budget_ = budget_ - 1`, as the successor sees it. -/
theorem Agrees.handed_by (hA : Agrees B c g f d pr a nx T R) (hhas : a.has = false)
    (hr : a.rank ≤ 4) (ho : pr.offered = true) (hp : pr.phase ≠ .gone) (hb : 1 < pr.budget) :
    Agrees B c g f { d with budget := word pr.budget - 1 } pr.giver (a.taker pr) nx T R := by
  have hk : f.Knows c pr.giver (a.taker pr) nx T R := by
    have hk := hA.knows
    have hph := hA.phase
    unfold Frame.Knows Frame.phase at *
    cases hpc : f.pc <;> simp only [hpc] at hk hph ⊢ <;> grind -linarith [Acq.taker]
  have hbudget := word_pred hb.le
  obtain ⟨⟩ := hA
  constructor <;> grind -linarith [Acq.giver, Acq.taker]

/-- `next_->budget_ = kInitBudget_`, as the successor sees it. -/
theorem Agrees.told_by (hA : Agrees B c g f d pr a nx T R) (hp : pr.phase ≠ .gone)
    (hfull : a.has = true → word a.budget = B.kInitBudget c) :
    Agrees B c g f { d with budget := B.kInitBudget c } { pr with phase := .queued, out := .told } a
      nx T R := by
  have hk : f.Knows c { pr with phase := .queued, out := .told } a nx T R :=
    hA.knows.mono (fun _ => rfl) (fun hg => absurd hg hp) (fun _ => rfl) id id id (Or.inl rfl) le_rfl
  obtain ⟨⟩ := hA
  constructor <;> grind -linarith

/-- `next_->granted_ = kTrue`, as the successor sees it. -/
theorem Agrees.granted_by (hA : Agrees B c g f d pr a nx T R) (hp : a.hasPrev = true) :
    Agrees B c g f { d with granted := true } { pr with phase := .gone } a nx T R := by
  have hk : f.Knows c { pr with phase := .gone } a nx T R :=
    hA.knows.mono id (fun _ => rfl) (fun _ => rfl) id id id (Or.inl rfl) le_rfl
  obtain ⟨⟩ := hA
  constructor <;> grind -linarith

end Neighbour

/-- How FARLockG appears in the abstract lock. -/
def view (B : LockConfig) : View H L (Descriptor H) (Frame H L) where
  lock := Frame.lock
  phase := Frame.phase
  Fresh := Fresh
  Matches := Agrees B
  ne_gone f := by
    unfold Frame.phase
    split <;> first | decide | (split <;> decide)
  who hA := hA.who
  phase_eq hA := hA.phase
  congr hA := hA.congr

theorem view_lock_start (B : LockConfig) (l : L) : (view (H := H) B).lock { lock := l } = l := rfl

/-- The parameters of FARLockG. -/
def config (B : LockConfig) (hB : B.Positive) : Config where
  budget c := (B.kInitBudget c).toNat
  blind _ := false
  budget_pos := B.one_le_kInitBudget hB

end FARLockG

end Farlock
