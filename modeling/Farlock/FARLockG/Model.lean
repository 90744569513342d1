import Farlock.Cluster

/-!
# FARLockG (`include/locks/farlockg.h`)

The variant of FARLock in which one ticket serves a batch of acquisitions of one class.  Steps are
cut as in the model of FARLock: one access of one handler to one word of shared memory, with a
fetch-and-add in two steps and the 16-byte transfers word by word.

`LockLocal` and `LockRemote` differ in the tail exchange, in the loop of `LockPetersons`, in the
assertion that only `LockRemote` makes, and in the order of the loads of the batch hand-over:
`LockLocal` loads `next_` for each of its two stores and the budget between them, `LockRemote` first
fills its buffer.  `UnlockLocal` and `UnlockRemote` make the same accesses.
-/

namespace Farlock

/-- The budgets of `LockConfig`. -/
structure LockConfig where
  localBudget : UInt32
  remoteBudget : UInt32
  deriving DecidableEq, Repr

/-- `kInitLocalBudget_`, `kInitRemoteBudget_` -/
def LockConfig.kInitBudget (B : LockConfig) : Side → UInt64
  | .loc => B.localBudget.toUInt64
  | .rem => B.remoteBudget.toUInt64

/-- Both budgets are at least one. -/
def LockConfig.Positive (B : LockConfig) : Prop := 1 ≤ B.localBudget ∧ 1 ≤ B.remoteBudget

theorem LockConfig.one_le_kInitBudget (B : LockConfig) (hB : B.Positive) (c : Side) :
    1 ≤ (B.kInitBudget c).toNat := by
  cases c
  · simpa [kInitBudget] using UInt32.le_iff_toNat_le.1 hB.1
  · simpa [kInitBudget] using UInt32.le_iff_toNat_le.1 hB.2

theorem LockConfig.kInitBudget_lt (B : LockConfig) (c : Side) :
    (B.kInitBudget c).toNat < 2 ^ 32 := by
  cases c
  · simpa [kInitBudget] using B.localBudget.toNat_lt
  · simpa [kInitBudget] using B.remoteBudget.toNat_lt

namespace FARLockG

/-- The value `-1` of `budget_`, which says that the predecessor has not decided yet. -/
def kNoBudget : UInt64 := -1

/-- The next access of a handler inside `Lock` or `Unlock`. -/
inductive Pc
  /-- `descriptor.next_ = nullptr` -/
  | resetNext
  /-- `descriptor.ticket_valid_ = kFalse` -/
  | resetTicketValid
  /-- `descriptor.budget_ = -1` -/
  | resetBudget
  /-- `descriptor.granted_ = kFalse` -/
  | resetGranted
  /-- `descriptor.releasable_ = kFalse` -/
  | resetReleasable
  /-- the exchange of the queue's tail: `__atomic_exchange_n`, or one round of `Exchange` -/
  | exchangeTail
  /-- `prev->next_ = descriptor` -/
  | storePrevNext
  /-- `ticket = prev->ticket_valid_` -/
  | loadPrevTicketValid
  /-- `prev->releasable_ = kTrue` -/
  | storePrevReleasable
  /-- the loop on `budget_ == -1` -/
  | awaitBudget
  /-- `if (descriptor.budget_ != kInitBudget_)` -/
  | testBudget
  /-- `ticket = descriptor.batch_ticket_` -/
  | loadBatchTicket
  /-- `descriptor.budget_ = kInitBudget_` -/
  | storeBudget
  /-- `LockPetersons`: the store of the flag -/
  | storeFlag
  /-- `LockPetersons`: the store of `victim_` -/
  | storeVictim
  /-- `LockPetersonsLocal`: the load of `remote_flag_` -/
  | loadFlag
  /-- `LockPetersonsLocal`: the load of `victim_` -/
  | loadVictim
  /-- `LockPetersonsRemote`: the read of `victim_` and `local_flag_`, neither word loaded yet -/
  | readPair
  /-- `LockPetersonsRemote`: `victim_` loaded, `local_flag_` still to be loaded -/
  | readFlag
  /-- `LockPetersonsRemote`: `local_flag_` loaded, `victim_` still to be loaded -/
  | readVictim
  /-- the load of the fetch-and-add on `next_ticket_` -/
  | loadNextTicket
  /-- the store of the fetch-and-add on `next_ticket_` -/
  | storeNextTicket
  /-- `got_ticket: if (descriptor.next_)` -/
  | testNext
  /-- `assert(descriptor.budget_ > 0)`, in `LockRemote` only -/
  | assertBudget
  /-- `if (descriptor.budget_ == 1)` -/
  | testLast
  /-- `UnlockPetersons` when the budget is used up -/
  | clearFlagFull
  /-- `descriptor.ticket_valid_ = kTrue` when the budget is used up -/
  | storeTicketValidFull
  /-- the load of `descriptor.next_` for the store of its `batch_ticket_` -/
  | loadNextBatch
  /-- `next_->batch_ticket_ = ticket` -/
  | storeNextBatchTicket
  /-- the load of `descriptor.next_` for the store of its `budget_`, in `LockLocal` only -/
  | loadNextBudget
  /-- the load of `descriptor.budget_` for the value `budget_ - 1` -/
  | loadBudget
  /-- `next_->budget_ = descriptor.budget_ - 1` -/
  | storeNextBudget
  /-- `UnlockPetersons` when there was no successor -/
  | clearFlag
  /-- `descriptor.ticket_valid_ = kTrue` when there was no successor -/
  | storeTicketValid
  /-- `if (descriptor.next_)` once more -/
  | testNextAgain
  /-- the load of `descriptor.next_` for the following store -/
  | loadNext
  /-- `next_->budget_ = kInitBudget_` -/
  | storeInitBudget
  /-- the loop on `granted_` -/
  | awaitGranted
  /-- the loop on `current_ticket_` -/
  | awaitTicket
  /-- `descriptor.batch_ticket_ = ticket` -/
  | storeBatchTicket
  /-- `Lock` has returned, `Unlock` is not called yet -/
  | critical
  /-- `if (descriptor.ticket_valid_ == kTrue)` -/
  | loadTicketValid
  /-- the load of `descriptor.batch_ticket_` for the value `batch_ticket_ + 1` -/
  | loadCurrent
  /-- the store of `current_ticket_` -/
  | storeCurrent
  /-- `if (descriptor.next_ == nullptr)` -/
  | testNextUnlock
  /-- the compare-and-swap of the queue's tail to null -/
  | casTail
  /-- the load of `releasable_` -/
  | awaitReleasable
  /-- the load of `descriptor.next_` for the following store -/
  | loadNextUnlock
  /-- `next_->granted_ = kTrue` -/
  | storeGranted
  deriving DecidableEq, Repr

/-- The first load of the loop of `LockPetersonsLocal`, or of `LockPetersonsRemote`. -/
def Pc.loop : Side → Pc
  | .loc => .loadFlag
  | .rem => .readPair

/-- `RemoteDescriptor`, `LocalDescriptor` -/
structure Descriptor (H : Type) where
  next : Option H := none
  ticketValid : Bool := false
  batchTicket : UInt64 := 0
  budget : UInt64 := 0
  granted : Bool := false
  releasable : Bool := false
  deriving DecidableEq

/-- The local data of a handler inside `Lock` or `Unlock`. -/
structure Frame (H L : Type) where
  /-- the argument of `Lock` and `Unlock` -/
  lock : L
  pc : Pc := .resetNext
  /-- `prev` -/
  prev : Option H := none
  /-- `wr.wr.atomic.compare_add` of `Exchange`, at first the default `hint` -/
  expected : Option H := none
  /-- `ticket`, while it holds the loaded `ticket_valid_` -/
  valid : Bool := false
  /-- `ticket` -/
  ticket : UInt64 := 0
  /-- `ticket_from_prev` -/
  ticketFromPrev : Bool := false
  /-- the loaded `budget_ - 1`, in `LockRemote` in `remote_descriptor_buffer_` -/
  budget : UInt64 := 0
  /-- the ticket loaded by `Unlock` -/
  value : UInt64 := 0
  /-- the loaded `next_` -/
  next : Option H := none
  /-- `lock_buffer_->victim_` -/
  victim : Option Side := none
  /-- `lock_buffer_->local_flag_` -/
  flag : Bool := false
  deriving DecidableEq

/-- The states of a cluster that uses FARLockG. -/
abbrev State (H L : Type) := Farlock.State H L (Descriptor H) (Frame H L)

/-- The program points after the tail exchange, until the queue is left. -/
def Pc.inQueue : Pc → Bool
  | .resetNext | .resetTicketValid | .resetBudget | .resetGranted | .resetReleasable
  | .exchangeTail => false
  | _ => true

/-- Handler `h` is in its queue of lock `l`. -/
def Queued {H L : Type} (s : State H L) (l : L) (h : H) : Prop :=
  ∃ f, s.thread h = .busy f ∧ f.lock = l ∧ f.pc.inQueue = true

variable {H L : Type} [DecidableEq H] [DecidableEq L]

/-- What follows the `got_ticket` part: `if (prev) while (granted_ != kTrue); …`.  A handler without
a predecessor has drawn its ticket itself. -/
def Frame.await (f : Frame H L) : Frame H L :=
  { f with pc := if f.prev.isSome then .awaitGranted else .awaitTicket }

/-- The test at the end of a round of `LockPetersonsRemote`. -/
def Frame.test (f : Frame H L) : Frame H L :=
  { f with pc := if f.flag ≠ true ∨ f.victim ≠ some .rem then .loadNextTicket else .readPair }

/-- The next access of handler `h` with frame `f`; `b` says which word of a 16-byte read comes
first. There is no next state if the handler would follow a null pointer or if the assertion
fails. -/
def exec (C : Cluster H L) (B : LockConfig) (s : State H L) (h : H) (f : Frame H L) (b : Bool) :
    Option (State H L × Option (L × Event H UInt64)) :=
  let c := C.side h f.lock
  let w := s.locks f.lock
  let d := s.descriptor c h
  match f.pc with
  -- LockLocal, LockRemote
  | .resetNext =>
      some ((s.setDescriptor c h { d with next := none }).goto h
        { f with pc := .resetTicketValid }, none)
  | .resetTicketValid =>
      some ((s.setDescriptor c h { d with ticketValid := false }).goto h
        { f with pc := .resetBudget }, none)
  | .resetBudget =>
      some ((s.setDescriptor c h { d with budget := kNoBudget }).goto h
        { f with pc := .resetGranted }, none)
  | .resetGranted =>
      some ((s.setDescriptor c h { d with granted := false }).goto h
        { f with pc := .resetReleasable }, none)
  | .resetReleasable =>
      some ((s.setDescriptor c h { d with releasable := false }).goto h
        { f with pc := .exchangeTail }, none)
  | .exchangeTail =>
      -- a round of `Exchange` fails when the tail is not the expected one, and then expects that
      if c = .loc ∨ w.tail c = f.expected then
        some ((s.setLock f.lock (w.setTail c (some h))).goto h
          { f with prev := w.tail c,
                   pc := if (w.tail c).isSome then .storePrevNext else .storeBudget },
          some (f.lock, .arrive c h))
      else some (s.goto h { f with expected := w.tail c }, none)
  | .storePrevNext =>
      f.prev.map fun p =>
        ((s.setDescriptor c p { s.descriptor c p with next := some h }).goto h
          { f with pc := .loadPrevTicketValid }, none)
  | .loadPrevTicketValid =>
      f.prev.map fun p =>
        (s.goto h { f with valid := (s.descriptor c p).ticketValid, pc := .storePrevReleasable },
          none)
  | .storePrevReleasable =>
      f.prev.map fun p =>
        ((s.setDescriptor c p { s.descriptor c p with releasable := true }).goto h
          { f with pc := if f.valid then .storeBudget else .awaitBudget }, none)
  | .awaitBudget =>
      some (s.goto h
        { f with pc := if d.budget = kNoBudget then .awaitBudget else .testBudget }, none)
  | .testBudget =>
      some (s.goto h
        { f with pc := if d.budget ≠ B.kInitBudget c then .loadBatchTicket else .storeBudget }, none)
  | .loadBatchTicket =>
      some (s.goto h
        { f with ticket := d.batchTicket, ticketFromPrev := true, pc := .testNext }, none)
  | .storeBudget =>
      some ((s.setDescriptor c h { d with budget := B.kInitBudget c }).goto h
        { f with pc := .storeFlag }, none)
  -- LockPetersonsLocal, LockPetersonsRemote
  | .storeFlag =>
      some ((s.setLock f.lock (w.setFlag c true)).goto h { f with pc := .storeVictim },
        some (f.lock, .raise c h))
  | .storeVictim =>
      some ((s.setLock f.lock { w with victim := some c }).goto h
        { f with pc := Pc.loop c }, some (f.lock, .request c h))
  | .loadFlag =>
      some (s.goto h { f with pc := if w.remoteFlag then .loadVictim else .loadNextTicket }, none)
  | .loadVictim =>
      some (s.goto h
        { f with pc := if w.victim = some .loc then .loadFlag else .loadNextTicket }, none)
  | .readPair =>
      some (s.goto h (if b then { f with victim := w.victim, pc := .readFlag }
        else { f with flag := w.localFlag, pc := .readVictim }), none)
  | .readFlag => some (s.goto h (Frame.test { f with flag := w.localFlag }), none)
  | .readVictim => some (s.goto h (Frame.test { f with victim := w.victim }), none)
  -- LockLocal, LockRemote: the ticket
  | .loadNextTicket =>
      some (s.goto h { f with ticket := w.nextTicket, pc := .storeNextTicket }, none)
  | .storeNextTicket =>
      some ((s.setLock f.lock { w with nextTicket := f.ticket + 1 }).goto h
        { f with pc := .testNext }, some (f.lock, .draw c h f.ticket))
  -- got_ticket
  | .testNext =>
      some (s.goto h
        { f with pc := if d.next.isSome then (if c = .loc then .testLast else .assertBudget)
                       else .clearFlag }, none)
  | .assertBudget => if 0 < d.budget then some (s.goto h { f with pc := .testLast }, none) else none
  | .testLast =>
      some (s.goto h
        { f with pc := if d.budget = 1 then .clearFlagFull
                       else if c = .loc then .loadNextBatch else .loadBudget }, none)
  | .clearFlagFull =>
      some ((s.setLock f.lock (w.setFlag c false)).goto h { f with pc := .storeTicketValidFull },
        some (f.lock, .lower c h))
  | .storeTicketValidFull =>
      some ((s.setDescriptor c h { d with ticketValid := true }).goto h { f with pc := .loadNext },
        none)
  | .loadNextBatch => some (s.goto h { f with next := d.next, pc := .storeNextBatchTicket }, none)
  | .storeNextBatchTicket =>
      f.next.map fun n =>
        ((s.setDescriptor c n { s.descriptor c n with batchTicket := f.ticket }).goto h
          { f with pc := if c = .loc then .loadNextBudget else .storeNextBudget }, none)
  | .loadNextBudget => some (s.goto h { f with next := d.next, pc := .loadBudget }, none)
  | .loadBudget =>
      some (s.goto h
        { f with budget := d.budget - 1,
                 pc := if c = .loc then .storeNextBudget else .loadNextBatch }, none)
  | .storeNextBudget =>
      f.next.map fun n =>
        ((s.setDescriptor c n { s.descriptor c n with budget := f.budget }).goto h f.await,
          some (f.lock, .hand c h))
  | .clearFlag =>
      some ((s.setLock f.lock (w.setFlag c false)).goto h { f with pc := .storeTicketValid },
        some (f.lock, .lower c h))
  | .storeTicketValid =>
      some ((s.setDescriptor c h { d with ticketValid := true }).goto h
        { f with pc := .testNextAgain }, none)
  | .testNextAgain =>
      some (s.goto h (if d.next.isSome then { f with pc := .loadNext } else f.await), none)
  | .loadNext => some (s.goto h { f with next := d.next, pc := .storeInitBudget }, none)
  | .storeInitBudget =>
      f.next.map fun n =>
        ((s.setDescriptor c n { s.descriptor c n with budget := B.kInitBudget c }).goto h f.await,
          none)
  | .awaitGranted =>
      if d.granted then
        if f.ticketFromPrev then
          some (s.goto h { f with pc := .critical }, some (f.lock, .enter c h f.ticket))
        else some (s.goto h { f with pc := .awaitTicket }, none)
      else some (s.goto h f, none)
  | .awaitTicket =>
      some (s.goto h
        { f with pc := if f.ticket = w.currentTicket then .storeBatchTicket else .awaitTicket }, none)
  | .storeBatchTicket =>
      some ((s.setDescriptor c h { d with batchTicket := f.ticket }).goto h
        { f with pc := .critical }, some (f.lock, .enter c h f.ticket))
  | .critical => some (s.goto h { f with pc := .loadTicketValid }, none)
  -- UnlockLocal, UnlockRemote
  | .loadTicketValid =>
      some (s.goto h { f with pc := if d.ticketValid then .loadCurrent else .testNextUnlock }, none)
  | .loadCurrent => some (s.goto h { f with value := d.batchTicket, pc := .storeCurrent }, none)
  | .storeCurrent =>
      some ((s.setLock f.lock { w with currentTicket := f.value + 1 }).goto h
        { f with pc := .testNextUnlock }, some (f.lock, .advance c h (f.value + 1)))
  | .testNextUnlock =>
      some (s.goto h { f with pc := if d.next.isSome then .awaitReleasable else .casTail }, none)
  | .casTail =>
      if w.tail c = some h then
        some ((s.setLock f.lock (w.setTail c none)).exit h, some (f.lock, .leave c h))
      else some (s.goto h { f with pc := .awaitReleasable }, none)
  | .awaitReleasable =>
      some (s.goto h
        { f with pc := if d.releasable then .loadNextUnlock else .awaitReleasable }, none)
  | .loadNextUnlock => some (s.goto h { f with next := d.next, pc := .storeGranted }, none)
  | .storeGranted =>
      f.next.map fun n =>
        ((s.setDescriptor c n { s.descriptor c n with granted := true }).exit h,
          some (f.lock, .leave c h))

/-- The system of all interleavings of the handlers. -/
def system (C : Cluster H L) (B : LockConfig) : Lts (State H L) (L × Event H UInt64) :=
  State.system (fun l => { lock := l }) (exec C B)

end FARLockG

end Farlock
