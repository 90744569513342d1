import Farlock.Cluster

/-!
# FARLock (`include/locks/farlock.h`)

The handlers of a cluster run `Lock` and `Unlock` on locks of their choice, over and over, each with
its one local and its one remote descriptor.  A step is one access of one handler to one word of
shared memory: a CPU load, store or atomic, or an RDMA read, write or compare-and-swap of one word.
A fetch-and-add is two steps, a load and a store; a 16-byte RDMA write is two stores in address
order; a 16-byte RDMA read is two loads in either order; `MemoryPool::Exchange` is a sequence of
compare-and-swaps.  Registers, `lock_buffer_` and the RDMA scratch words belong to the handler alone
and are fields of `Frame`.

`LockLocal` and `LockRemote`, and `UnlockLocal` and `UnlockRemote`, make the same accesses in the
same order except where `exec` distinguishes the class: the tail exchange, the loop of
`LockPetersons` and the update of `current_ticket_`.
-/

namespace Farlock

namespace FARLock

/-- `kInvalidTicket` -/
def kInvalidTicket : UInt64 := -1

/-- The next access of a handler inside `Lock` or `Unlock`. -/
inductive Pc
  /-- `descriptor.next_ = nullptr` -/
  | resetNext
  /-- `descriptor.ticket_ = kInvalidTicket` -/
  | resetTicket
  /-- `descriptor.to_get_ticket_ = kFalse` -/
  | resetToGetTicket
  /-- `descriptor.granted_ = kFalse` -/
  | resetGranted
  /-- `descriptor.releasable_ = kFalse` -/
  | resetReleasable
  /-- the exchange of the queue's tail: `__atomic_exchange_n`, or one round of `Exchange` -/
  | exchangeTail
  /-- `prev->next_ = descriptor` -/
  | storePrevNext
  /-- `ticket = prev->ticket_` -/
  | loadPrevTicket
  /-- `prev->releasable_ = kTrue` -/
  | storePrevReleasable
  /-- `WaitToGetTicket`: the load of `to_get_ticket_` -/
  | waitToGetTicket
  /-- `LockPetersons`: the store of the flag -/
  | storeFlag
  /-- `LockPetersons`: the store of `victim_` -/
  | storeVictim
  /-- `LockPetersonsLocal`: the load of `remote_flag_` -/
  | loadFlag
  /-- `LockPetersonsLocal`: the load of `victim_` -/
  | loadVictim
  /-- `LockPetersonsRemote`: the read of `victim_` and `local_flag_`, neither word loaded yet -/
  | readPair
  /-- `LockPetersonsRemote`: `victim_` loaded, `local_flag_` still to be loaded -/
  | readFlag
  /-- `LockPetersonsRemote`: `local_flag_` loaded, `victim_` still to be loaded -/
  | readVictim
  /-- the load of the fetch-and-add on `next_ticket_` -/
  | loadNextTicket
  /-- the store of the fetch-and-add on `next_ticket_` -/
  | storeNextTicket
  /-- `UnlockPetersons`: the store of the flag -/
  | clearFlag
  /-- `descriptor.ticket_ = ticket` -/
  | storeTicket
  /-- `if (descriptor.next_)` -/
  | testNext
  /-- the load of `descriptor.next_` for the following store -/
  | loadNext
  /-- `next_->to_get_ticket_ = kTrue` -/
  | storeToGetTicket
  /-- `AwaitPredecessor`: the load of `granted_` -/
  | awaitPredecessor
  /-- `AwaitTicket`: the load of `descriptor.ticket_` -/
  | loadTicket
  /-- `AwaitTicket`: the load of `current_ticket_` -/
  | awaitTicket
  /-- `Lock` has returned, `Unlock` is not called yet -/
  | critical
  /-- `UnlockLocal`: the load of the fetch-and-add on `current_ticket_`;
  `UnlockRemote`: the load of `descriptor.ticket_` -/
  | loadCurrent
  /-- the store of `current_ticket_` -/
  | storeCurrent
  /-- `if (descriptor.next_ == nullptr)` -/
  | testNextUnlock
  /-- the compare-and-swap of the queue's tail to null -/
  | casTail
  /-- the load of `releasable_` -/
  | awaitReleasable
  /-- the load of `descriptor.next_` for the following store -/
  | loadNextUnlock
  /-- `next_->granted_ = kTrue` -/
  | storeGranted
  deriving DecidableEq, Repr

/-- The first load of the loop of `LockPetersonsLocal`, or of `LockPetersonsRemote`. -/
def Pc.loop : Side → Pc
  | .loc => .loadFlag
  | .rem => .readPair

/-- `RemoteDescriptor`, `LocalDescriptor` -/
structure Descriptor (H : Type) where
  next : Option H := none
  ticket : UInt64 := 0
  toGetTicket : Bool := false
  granted : Bool := false
  releasable : Bool := false
  deriving DecidableEq

/-- The local data of a handler inside `Lock` or `Unlock`. -/
structure Frame (H L : Type) where
  /-- the argument of `Lock` and `Unlock` -/
  lock : L
  pc : Pc := .resetNext
  /-- `prev` -/
  prev : Option H := none
  /-- `wr.wr.atomic.compare_add` of `Exchange`, at first the default `hint` -/
  expected : Option H := none
  /-- `ticket` -/
  ticket : UInt64 := 0
  /-- the ticket loaded by `AwaitTicket`, or the value loaded by `Unlock` -/
  value : UInt64 := 0
  /-- the loaded `next_` -/
  next : Option H := none
  /-- `lock_buffer_->victim_` -/
  victim : Option Side := none
  /-- `lock_buffer_->local_flag_` -/
  flag : Bool := false
  deriving DecidableEq

/-- The states of a cluster that uses FARLock. -/
abbrev State (H L : Type) := Farlock.State H L (Descriptor H) (Frame H L)

/-- The program points after the tail exchange, until the queue is left. -/
def Pc.inQueue : Pc → Bool
  | .resetNext | .resetTicket | .resetToGetTicket | .resetGranted | .resetReleasable
  | .exchangeTail => false
  | _ => true

/-- Handler `h` is in its queue of lock `l`. -/
def Queued {H L : Type} (s : State H L) (l : L) (h : H) : Prop :=
  ∃ f, s.thread h = .busy f ∧ f.lock = l ∧ f.pc.inQueue = true

variable {H L : Type} [DecidableEq H] [DecidableEq L]

/-- The end of the ticket acquisition: `if (prev) AwaitPredecessor(); AwaitTicket();` -/
def Frame.await (f : Frame H L) : Frame H L :=
  { f with pc := if f.prev.isSome then .awaitPredecessor else .loadTicket }

/-- The test at the end of a round of `LockPetersonsRemote`. -/
def Frame.test (f : Frame H L) : Frame H L :=
  { f with pc := if f.flag ≠ true ∨ f.victim ≠ some .rem then .loadNextTicket else .readPair }

/-- The next access of handler `h` with frame `f`; `b` says which word of a 16-byte read comes
first. There is no next state if the handler would follow a null pointer. -/
def exec (C : Cluster H L) (s : State H L) (h : H) (f : Frame H L) (b : Bool) :
    Option (State H L × Option (L × Event H UInt64)) :=
  let c := C.side h f.lock
  let w := s.locks f.lock
  let d := s.descriptor c h
  match f.pc with
  -- LockLocal, LockRemote
  | .resetNext =>
      some ((s.setDescriptor c h { d with next := none }).goto h { f with pc := .resetTicket }, none)
  | .resetTicket =>
      some ((s.setDescriptor c h { d with ticket := kInvalidTicket }).goto h
        { f with pc := .resetToGetTicket }, none)
  | .resetToGetTicket =>
      some ((s.setDescriptor c h { d with toGetTicket := false }).goto h
        { f with pc := .resetGranted }, none)
  | .resetGranted =>
      some ((s.setDescriptor c h { d with granted := false }).goto h
        { f with pc := .resetReleasable }, none)
  | .resetReleasable =>
      some ((s.setDescriptor c h { d with releasable := false }).goto h
        { f with pc := .exchangeTail }, none)
  | .exchangeTail =>
      -- a round of `Exchange` fails when the tail is not the expected one, and then expects that
      if c = .loc ∨ w.tail c = f.expected then
        some ((s.setLock f.lock (w.setTail c (some h))).goto h
          { f with prev := w.tail c,
                   pc := if (w.tail c).isSome then .storePrevNext else .storeFlag },
          some (f.lock, .arrive c h))
      else some (s.goto h { f with expected := w.tail c }, none)
  | .storePrevNext =>
      f.prev.map fun p =>
        ((s.setDescriptor c p { s.descriptor c p with next := some h }).goto h
          { f with pc := .loadPrevTicket }, none)
  | .loadPrevTicket =>
      f.prev.map fun p =>
        (s.goto h { f with ticket := (s.descriptor c p).ticket, pc := .storePrevReleasable }, none)
  | .storePrevReleasable =>
      f.prev.map fun p =>
        ((s.setDescriptor c p { s.descriptor c p with releasable := true }).goto h
          { f with pc := if f.ticket = kInvalidTicket then .waitToGetTicket else .storeFlag }, none)
  | .waitToGetTicket =>
      some (s.goto h { f with pc := if d.toGetTicket then .storeFlag else .waitToGetTicket }, none)
  -- LockPetersonsLocal, LockPetersonsRemote
  | .storeFlag =>
      some ((s.setLock f.lock (w.setFlag c true)).goto h { f with pc := .storeVictim },
        some (f.lock, .raise c h))
  | .storeVictim =>
      some ((s.setLock f.lock { w with victim := some c }).goto h
        { f with pc := Pc.loop c }, some (f.lock, .request c h))
  | .loadFlag =>
      some (s.goto h { f with pc := if w.remoteFlag then .loadVictim else .loadNextTicket }, none)
  | .loadVictim =>
      some (s.goto h
        { f with pc := if w.victim = some .loc then .loadFlag else .loadNextTicket }, none)
  | .readPair =>
      some (s.goto h (if b then { f with victim := w.victim, pc := .readFlag }
        else { f with flag := w.localFlag, pc := .readVictim }), none)
  | .readFlag => some (s.goto h (Frame.test { f with flag := w.localFlag }), none)
  | .readVictim => some (s.goto h (Frame.test { f with victim := w.victim }), none)
  -- LockLocal, LockRemote: the ticket
  | .loadNextTicket =>
      some (s.goto h { f with ticket := w.nextTicket, pc := .storeNextTicket }, none)
  | .storeNextTicket =>
      some ((s.setLock f.lock { w with nextTicket := f.ticket + 1 }).goto h
        { f with pc := .clearFlag }, some (f.lock, .draw c h f.ticket))
  | .clearFlag =>
      some ((s.setLock f.lock (w.setFlag c false)).goto h { f with pc := .storeTicket },
        some (f.lock, .lower c h))
  | .storeTicket =>
      some ((s.setDescriptor c h { d with ticket := f.ticket }).goto h { f with pc := .testNext }, none)
  | .testNext => some (s.goto h (if d.next.isSome then { f with pc := .loadNext } else f.await), none)
  | .loadNext => some (s.goto h { f with next := d.next, pc := .storeToGetTicket }, none)
  | .storeToGetTicket =>
      f.next.map fun n =>
        ((s.setDescriptor c n { s.descriptor c n with toGetTicket := true }).goto h f.await, none)
  | .awaitPredecessor =>
      some (s.goto h { f with pc := if d.granted then .loadTicket else .awaitPredecessor }, none)
  | .loadTicket => some (s.goto h { f with value := d.ticket, pc := .awaitTicket }, none)
  | .awaitTicket =>
      if f.value = w.currentTicket then
        some (s.goto h { f with pc := .critical }, some (f.lock, .enter c h f.value))
      else some (s.goto h { f with pc := .loadTicket }, none)
  | .critical => some (s.goto h { f with pc := .loadCurrent }, none)
  -- UnlockLocal, UnlockRemote
  | .loadCurrent =>
      some (s.goto h
        { f with value := if c = .loc then w.currentTicket else d.ticket, pc := .storeCurrent }, none)
  | .storeCurrent =>
      some ((s.setLock f.lock { w with currentTicket := f.value + 1 }).goto h
        { f with pc := .testNextUnlock }, some (f.lock, .advance c h (f.value + 1)))
  | .testNextUnlock =>
      some (s.goto h { f with pc := if d.next.isSome then .awaitReleasable else .casTail }, none)
  | .casTail =>
      if w.tail c = some h then
        some ((s.setLock f.lock (w.setTail c none)).exit h, some (f.lock, .leave c h))
      else some (s.goto h { f with pc := .awaitReleasable }, none)
  | .awaitReleasable =>
      some (s.goto h
        { f with pc := if d.releasable then .loadNextUnlock else .awaitReleasable }, none)
  | .loadNextUnlock => some (s.goto h { f with next := d.next, pc := .storeGranted }, none)
  | .storeGranted =>
      f.next.map fun n =>
        ((s.setDescriptor c n { s.descriptor c n with granted := true }).exit h,
          some (f.lock, .leave c h))

/-- The system of all interleavings of the handlers. -/
def system (C : Cluster H L) : Lts (State H L) (L × Event H UInt64) :=
  State.system (fun l => { lock := l }) (exec C)

end FARLock

end Farlock
