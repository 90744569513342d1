import Farlock.ThirdParty.Machine
import Farlock.FARLockG.Model
import Farlock.Lib.Handover
import Farlock.Lib.Cohort

/-!
# ALock (`third_party/locks/a_lock.h`)

The baseline that FARLock is compared with: a queue for each class of handlers, in which the lock is
handed over together with a budget, and Peterson's algorithm between the two queues, whose flags are
the tails.  A step is one access of one handler to one word.  `AtomicSwap` on the remote tail is a
sequence of compare-and-swaps; `AtomicSwap` on `victim`, a word that is also exchanged by the CPUs of
the lock's node, is a sequence of compare-and-swaps that are a load and a store each, because RDMA
and CPU atomics are not atomic with each other; the 64-byte read in `RemotePetersons` loads the two
words that matter in either order.

A handler passes the section (`Event.pass`) when it loads a word that lets it leave the loop of
`LocalPetersons` or `RemotePetersons`.  Budgets are integers; `budget_le` in `Safety` says that the
64-bit words do not overflow.
-/

namespace Farlock

/-- `local_budget_`, `remote_budget_` of `ALockHandle`. -/
def LockConfig.budget (B : LockConfig) : Side → ℤ
  | .loc => B.localBudget.toNat
  | .rem => B.remoteBudget.toNat

namespace ALock

/-- The next access of a handler inside `Lock` or `Unlock`. -/
inductive Pc
  /-- `budget = -1` -/
  | resetBudget
  /-- `next = nullptr` -/
  | resetNext
  /-- the exchange of the queue's tail: `__atomic_exchange_n`, or one round of `AtomicSwap` -/
  | exchangeTail
  /-- `prev->next = descriptor` -/
  | storePrevNext
  /-- `while (budget < 0)` -/
  | awaitBudget
  /-- `if (budget == 0)` -/
  | testBudget
  /-- `budget = local_budget_`, `budget = remote_budget_` -/
  | storeBudget
  /-- `RemotePetersons`: the load of a compare-and-swap on `victim` -/
  | loadVictimSwap
  /-- the store of `victim` -/
  | storeVictim
  /-- `LocalPetersons`: the load of `r_tail` -/
  | loadTail
  /-- `LocalPetersons`: the load of `victim` -/
  | loadVictim
  /-- `RemotePetersons`: the read of the lock, no word loaded yet -/
  | readPair
  /-- `RemotePetersons`: `victim` loaded, `l_tail` still to be loaded -/
  | readTail
  /-- `RemotePetersons`: `l_tail` loaded, `victim` still to be loaded -/
  | readVictim
  /-- the fence at the end of `LocalLock`, `RemoteLock` -/
  | acquired
  /-- `Lock` has returned, `Unlock` is not called yet -/
  | critical
  /-- `LocalUnlock`: `if (next == nullptr)` -/
  | testNext
  /-- the compare-and-swap of the queue's tail to null -/
  | casTail
  /-- `while (next == nullptr)` -/
  | awaitNext
  /-- the load of `next` for the following store -/
  | loadNext
  /-- the load of `budget` for the following store -/
  | loadBudget
  /-- `next->budget = budget - 1` -/
  | storeNextBudget
  /-- `LocalUnlock`: `next = nullptr` -/
  | clearNext
  deriving DecidableEq, Repr

/-- The first access of `LocalPetersons`, `RemotePetersons`. -/
def Pc.petersons : Side → Pc
  | .loc => .storeVictim
  | .rem => .loadVictimSwap

/-- The first load of the loop of `LocalPetersons`, `RemotePetersons`. -/
def Pc.loop : Side → Pc
  | .loc => .loadTail
  | .rem => .readPair

/-- The first access of `LocalUnlock`, `RemoteUnlock`. -/
def Pc.unlock : Side → Pc
  | .loc => .testNext
  | .rem => .casTail

/-- `LocalDescriptor`, `RemoteDescriptor` -/
structure Descriptor (H : Type) where
  budget : ℤ := -1
  next : Option H := none
  deriving DecidableEq

/-- The words of `struct ALock`. -/
structure Words (H : Type) where
  remoteTail : Option H := none
  localTail : Option H := none
  victim : Option Side := none
  deriving DecidableEq

/-- The tail of the queue of class `c`. -/
def Words.tail {H : Type} (w : Words H) : Side → Option H
  | .loc => w.localTail
  | .rem => w.remoteTail

/-- Store the tail of the queue of class `c`. -/
def Words.setTail {H : Type} (w : Words H) (c : Side) (t : Option H) : Words H :=
  match c with
  | .loc => { w with localTail := t }
  | .rem => { w with remoteTail := t }

section Words

variable {H : Type} (w : Words H) (c c' : Side) (t : Option H)

@[simp] theorem tail_setTail : (w.setTail c t).tail c' = if c' = c then t else w.tail c' := by
  cases c <;> cases c' <;> rfl

@[simp] theorem victim_setTail : (w.setTail c t).victim = w.victim := by cases c <;> rfl

end Words

/-- The shared memory.  `descriptor .loc h` is `l_desc_` of `h`, and `descriptor .rem h` is
`*r_desc_`. -/
structure Memory (H L : Type) where
  locks : L → Words H
  descriptor : Side → H → Descriptor H

/-- The local data of a handler inside `Lock` or `Unlock`. -/
structure Frame (H L : Type) where
  /-- the argument of `Lock` and `Unlock` -/
  lock : L
  pc : Pc := .resetBudget
  /-- `prior_node`, `prev` -/
  prev : Option H := none
  /-- `wr.wr.atomic.compare_add` of `Exchange` on the tail, at first the default `hint` -/
  expected : Option H := none
  /-- the same on `victim` -/
  expectedVictim : Option Side := none
  /-- the `l_tail` read -/
  tail : Option H := none
  /-- the `victim` read -/
  victim : Option Side := none
  /-- the loaded `next` -/
  next : Option H := none
  /-- the loaded `budget` -/
  budget : ℤ := 0
  deriving DecidableEq

/-- The states of a cluster that uses ALock. -/
abbrev State (H L : Type) := Machine (Memory H L) H (Frame H L)

variable {H L : Type}

/-- The call of `LocalPetersons` or `RemotePetersons`. -/
def Frame.petersons (f : Frame H L) (c : Side) : Frame H L :=
  { f with pc := Pc.petersons c, expectedVictim := none }

/-- The return from there: whoever has a predecessor has been through `Reacquire`, and renews its
budget. -/
def Frame.won (f : Frame H L) : Frame H L :=
  { f with pc := if f.prev.isSome then .storeBudget else .acquired }

/-- What has been read in a round of `RemotePetersons` lets the handler leave the loop. -/
def lets (t : Option H) (v : Option Side) : Bool := t.isNone || v != some .rem

variable [DecidableEq H] [DecidableEq L]

/-- Store into a lock. -/
def Memory.setLock (m : Memory H L) (l : L) (w : Words H) : Memory H L :=
  { m with locks := Function.update m.locks l w }

/-- Store into a descriptor. -/
def Memory.setDescriptor (m : Memory H L) (c : Side) (h : H) (d : Descriptor H) : Memory H L :=
  { m with descriptor := fun c' g => if c' = c ∧ g = h then d else m.descriptor c' g }

/-- The next access of handler `h` with frame `f`; `b` says which word of the lock is read first.
There is no next state if the handler would follow a null pointer. -/
def exec (C : Cluster H L) (B : LockConfig) (m : Memory H L) (h : H) (f : Frame H L) (b : Bool) :
    Option (Memory H L × Thread (Frame H L) × Option (L × Cohort.Event H Side)) :=
  let c := C.side h f.lock
  let w := m.locks f.lock
  let d := m.descriptor c h
  match f.pc with
  -- LockLocalMcsQueue, LockRemoteMcsQueue
  | .resetBudget =>
      some (m.setDescriptor c h { d with budget := -1 }, .busy { f with pc := .resetNext }, none)
  | .resetNext =>
      some (m.setDescriptor c h { d with next := none }, .busy { f with pc := .exchangeTail }, none)
  | .exchangeTail =>
      -- a round of `AtomicSwap` fails when the tail is not the expected one, and then expects that
      if c = .loc ∨ w.tail c = f.expected then
        some (m.setLock f.lock (w.setTail c (some h)),
          .busy { f with prev := w.tail c,
                         pc := if (w.tail c).isSome then .storePrevNext else .storeBudget },
          some (f.lock, .arrive c h))
      else some (m, .busy { f with expected := w.tail c }, none)
  | .storePrevNext =>
      f.prev.map fun p =>
        (m.setDescriptor c p { m.descriptor c p with next := some h },
          .busy { f with pc := .awaitBudget }, none)
  | .awaitBudget =>
      some (m, .busy { f with pc := if d.budget < 0 then .awaitBudget else .testBudget }, none)
  | .testBudget =>
      some (m, .busy (if d.budget = 0 then f.petersons c else { f with pc := .acquired }), none)
  | .storeBudget =>
      some (m.setDescriptor c h { d with budget := B.budget c },
        .busy (if f.prev.isSome then { f with pc := .acquired } else f.petersons c), none)
  -- LocalPetersons, RemotePetersons
  | .loadVictimSwap =>
      some (m, .busy (if w.victim = f.expectedVictim then { f with pc := .storeVictim }
        else { f with expectedVictim := w.victim }), none)
  | .storeVictim =>
      some (m.setLock f.lock { w with victim := some c }, .busy { f with pc := Pc.loop c },
        some (f.lock, .request c h))
  | .loadTail =>
      if w.remoteTail.isNone then some (m, .busy f.won, some (f.lock, .pass c h))
      else some (m, .busy { f with pc := .loadVictim }, none)
  | .loadVictim =>
      if w.victim ≠ some .loc then some (m, .busy f.won, some (f.lock, .pass c h))
      else some (m, .busy { f with pc := .loadTail }, none)
  | .readPair =>
      if b then
        some (m, .busy { f with victim := w.victim, pc := .readTail },
          if w.victim ≠ some .rem then some (f.lock, .pass c h) else none)
      else
        some (m, .busy { f with tail := w.localTail, pc := .readVictim },
          if w.localTail.isNone then some (f.lock, .pass c h) else none)
  | .readTail =>
      -- the handler has passed already if `victim` was another one
      if lets w.localTail f.victim then
        some (m, .busy (Frame.won { f with tail := w.localTail }),
          if f.victim ≠ some .rem then none else some (f.lock, .pass c h))
      else some (m, .busy { f with tail := w.localTail, pc := .readPair }, none)
  | .readVictim =>
      -- the handler has passed already if the tail was null
      if lets f.tail w.victim then
        some (m, .busy (Frame.won { f with victim := w.victim }),
          if f.tail.isNone then none else some (f.lock, .pass c h))
      else some (m, .busy { f with victim := w.victim, pc := .readPair }, none)
  | .acquired => some (m, .busy { f with pc := .critical }, some (f.lock, .enter c h))
  | .critical => some (m, .busy { f with pc := Pc.unlock c }, none)
  -- LocalUnlock, RemoteUnlock
  | .testNext =>
      some (m, .busy { f with pc := if d.next.isSome then .loadNext else .casTail }, none)
  | .casTail =>
      if w.tail c = some h then
        some (m.setLock f.lock (w.setTail c none), .idle, some (f.lock, .leave c h))
      else some (m, .busy { f with pc := .awaitNext }, none)
  | .awaitNext =>
      some (m, .busy { f with pc := if d.next.isSome then .loadNext else .awaitNext }, none)
  | .loadNext => some (m, .busy { f with next := d.next, pc := .loadBudget }, none)
  | .loadBudget => some (m, .busy { f with budget := d.budget, pc := .storeNextBudget }, none)
  | .storeNextBudget =>
      f.next.map fun n =>
        (m.setDescriptor c n { m.descriptor c n with budget := f.budget - 1 },
          if c = .loc then .busy { f with pc := .clearNext } else .idle,
          some (f.lock, .leave c h))
  | .clearNext => some (m.setDescriptor c h { d with next := none }, .idle, none)

/-- The local data of a handler that calls `Lock`. -/
def Frame.start {H L : Type} (l : L) : Frame H L := { lock := l }

/-- All locks are zeroed, the descriptors are as they may be. -/
def Memory.Zeroed (m : Memory H L) : Prop := ∀ l, m.locks l = {}

/-- The system of all interleavings of the handlers. -/
def system (C : Cluster H L) (B : LockConfig) : Lts (State H L) (L × Cohort.Event H Side) :=
  Machine.system Memory.Zeroed Frame.start (exec C B)

end ALock

end Farlock
