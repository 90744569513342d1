import Farlock.Spec.State
import Farlock.Lib.Clients

/-!
# Handlers, locks and the words of a lock

What `farlock.h` and `farlockg.h` have in common: the handlers and locks of a cluster with the nodes
they live on, the choice between the local and the remote code (`MemoryPool::IsLocal`), and the
words of a lock object.  The shared memory and its interleavings (`State`, `State.system`) are given
for any kind of descriptor `D` and of local data `F` of a handler.

A pointer to a descriptor is modelled by the handler that owns the descriptor; the null pointer is
`none`.  This is faithful because the descriptors that can meet in one queue have different non-null
addresses, which is what the fields of `Cluster` say: the local queue of a lock holds virtual
addresses of the lock's own node, the remote queue holds `rdma::Pointer`s, that is a node and an
address on it. The words that only ever hold `kTrue` or `kFalse` are Booleans, and `victim_` is
`none` until it is first written.  Tickets are 64-bit words.
-/

namespace Farlock

/-- The handlers `H`, the locks `L`, the nodes they live on and the addresses of the descriptors. -/
structure Cluster (H L : Type) where
  /-- `node_id_` of the handler's pool -/
  node : H → UInt16
  /-- the node id packed into the lock's pointer -/
  home : L → UInt16
  /-- `&local_descriptor_`, on the handler's node -/
  localAddress : H → UInt64
  /-- `remote_descriptor_pointer_.address()`, on the handler's node -/
  remoteAddress : H → UInt64
  localAddress_ne_zero : ∀ h, localAddress h ≠ 0
  localAddress_inj : ∀ h h', node h = node h' → localAddress h = localAddress h' → h = h'
  remoteAddress_ne_zero : ∀ h, remoteAddress h ≠ 0
  remoteAddress_lt : ∀ h, (remoteAddress h).toNat < 2 ^ 48
  remoteAddress_inj : ∀ h h', node h = node h' → remoteAddress h = remoteAddress h' → h = h'

/-- `MemoryPool::IsLocal`, called by handler `h` on the pointer of lock `l`. -/
def Cluster.isLocal {H L : Type} (C : Cluster H L) (h : H) (l : L) : Bool := C.home l == C.node h

/-- The class of handler `h` with respect to lock `l`: whether `Lock` and `Unlock` take the local or
the remote branch. -/
def Cluster.side {H L : Type} (C : Cluster H L) (h : H) (l : L) : Side :=
  if C.isLocal h l then .loc else .rem

/-- `remote_descriptor_pointer_.raw()`: the node in the upper 16 bits, the address in the lower
48. -/
def Cluster.remotePointer {H L : Type} (C : Cluster H L) (h : H) : ℕ :=
  (C.node h).toNat * 2 ^ 48 + (C.remoteAddress h).toNat

theorem Cluster.remotePointer_lt {H L : Type} (C : Cluster H L) (h : H) :
    C.remotePointer h < 2 ^ 64 := by
  have h1 := (C.node h).toNat_lt
  have h2 := C.remoteAddress_lt h
  unfold remotePointer
  omega

theorem Cluster.remotePointer_pos {H L : Type} (C : Cluster H L) (h : H) :
    0 < C.remotePointer h := by
  have : (C.remoteAddress h).toNat ≠ 0 := fun h0 =>
    C.remoteAddress_ne_zero h (UInt64.toNat_inj.1 h0)
  unfold remotePointer
  omega

theorem Cluster.remotePointer_inj {H L : Type} (C : Cluster H L) :
    Function.Injective C.remotePointer := by
  intro h h' heq
  have h1 := C.remoteAddress_lt h
  have h2 := C.remoteAddress_lt h'
  unfold remotePointer at heq
  exact C.remoteAddress_inj h h' (UInt16.toNat_inj.1 (by omega)) (UInt64.toNat_inj.1 (by omega))

/-- One lock, on node 0, with a handler there and a handler on node 1. -/
def Cluster.pair : Cluster Bool Unit where
  node h := if h then 1 else 0
  home _ := 0
  localAddress _ := 64
  remoteAddress _ := 64
  localAddress_ne_zero _ := by decide
  localAddress_inj h h' hn _ := by revert h h'; decide
  remoteAddress_ne_zero _ := by decide
  remoteAddress_lt _ := by decide
  remoteAddress_inj h h' hn _ := by revert h h'; decide

/-- The words of a lock object (`struct FARLock`, `struct FARLockG`), zero at the start. -/
structure LockWords (H : Type) where
  remoteTail : Option H := none
  localTail : Option H := none
  remoteFlag : Bool := false
  victim : Option Side := none
  localFlag : Bool := false
  nextTicket : UInt64 := 0
  currentTicket : UInt64 := 0
  deriving DecidableEq

namespace LockWords

variable {H : Type}

/-- The tail of the queue of class `c`. -/
def tail (w : LockWords H) : Side → Option H
  | .loc => w.localTail
  | .rem => w.remoteTail

/-- Store the tail of the queue of class `c`. -/
def setTail (w : LockWords H) (c : Side) (t : Option H) : LockWords H :=
  match c with
  | .loc => { w with localTail := t }
  | .rem => { w with remoteTail := t }

/-- The Peterson flag of class `c`. -/
def flag (w : LockWords H) : Side → Bool
  | .loc => w.localFlag
  | .rem => w.remoteFlag

/-- Store the Peterson flag of class `c`. -/
def setFlag (w : LockWords H) (c : Side) (b : Bool) : LockWords H :=
  match c with
  | .loc => { w with localFlag := b }
  | .rem => { w with remoteFlag := b }

section Fields

variable (w : LockWords H) (c c' : Side) (t : Option H) (b : Bool)

@[simp] theorem tail_setTail : (w.setTail c t).tail c' = if c' = c then t else w.tail c' := by
  cases c <;> cases c' <;> rfl

@[simp] theorem flag_setFlag : (w.setFlag c b).flag c' = if c' = c then b else w.flag c' := by
  cases c <;> cases c' <;> rfl

@[simp] theorem tail_setFlag : (w.setFlag c b).tail c' = w.tail c' := by
  cases c <;> cases c' <;> rfl

@[simp] theorem flag_setTail : (w.setTail c t).flag c' = w.flag c' := by
  cases c <;> cases c' <;> rfl

@[simp] theorem victim_setTail : (w.setTail c t).victim = w.victim := by cases c <;> rfl
@[simp] theorem victim_setFlag : (w.setFlag c b).victim = w.victim := by cases c <;> rfl
@[simp] theorem nextTicket_setTail : (w.setTail c t).nextTicket = w.nextTicket := by cases c <;> rfl
@[simp] theorem nextTicket_setFlag : (w.setFlag c b).nextTicket = w.nextTicket := by cases c <;> rfl
@[simp] theorem currentTicket_setTail : (w.setTail c t).currentTicket = w.currentTicket := by
  cases c <;> rfl
@[simp] theorem currentTicket_setFlag : (w.setFlag c b).currentTicket = w.currentTicket := by
  cases c <;> rfl

end Fields

end LockWords

/-- The events of a run that concern lock `l`. -/
def onLock {L ε : Type} [DecidableEq L] (l : L) (tr : List (L × ε)) : List ε :=
  tr.filterMap fun x => if x.1 = l then some x.2 else none

section OnLock

variable {L ε : Type} [DecidableEq L]

@[simp] theorem onLock_nil (l : L) : onLock l ([] : List (L × ε)) = [] := rfl

@[simp] theorem onLock_append (l : L) (tr tr' : List (L × ε)) :
    onLock l (tr ++ tr') = onLock l tr ++ onLock l tr' := by
  simp [onLock]

@[simp] theorem onLock_single (l l' : L) (e : ε) : onLock l [(l', e)] = if l' = l then [e] else [] := by
  by_cases h : l' = l <;> simp [onLock, h]

@[simp] theorem onLock_cons_self (l : L) (e : ε) (tr : List (L × ε)) :
    onLock l ((l, e) :: tr) = e :: onLock l tr := by
  simp [onLock]

theorem onLock_concat (l : L) (tr : List (L × ε)) (x : L × ε) :
    onLock l (tr ++ [x]) = if x.1 = l then onLock l tr ++ [x.2] else onLock l tr := by
  rw [onLock_append, onLock_single]
  split_ifs
  · rfl
  · rw [List.append_nil]

theorem mem_onLock {l : L} {e : ε} {tr : List (L × ε)} : e ∈ onLock l tr ↔ (l, e) ∈ tr := by
  simp [onLock]

end OnLock

/-- The shared memory and the handlers.  `descriptor .loc h` is `local_descriptor_` of `h`, and
`descriptor .rem h` is `*remote_descriptor_`. -/
structure State (H L D F : Type) where
  locks : L → LockWords H
  descriptor : Side → H → D
  thread : H → Thread F

namespace State

variable {H L D F : Type} [DecidableEq H]

/-- Store into a lock. -/
def setLock [DecidableEq L] (s : State H L D F) (l : L) (w : LockWords H) : State H L D F :=
  { s with locks := Function.update s.locks l w }

/-- Store into a descriptor. -/
def setDescriptor (s : State H L D F) (c : Side) (h : H) (d : D) : State H L D F :=
  { s with descriptor := fun c' g => if c' = c ∧ g = h then d else s.descriptor c' g }

/-- Go on with the given local data. -/
def goto (s : State H L D F) (h : H) (f : F) : State H L D F :=
  { s with thread := Function.update s.thread h (.busy f) }

/-- Return from `Unlock`. -/
def exit (s : State H L D F) (h : H) : State H L D F :=
  { s with thread := Function.update s.thread h .idle }

/-- All handlers outside, all locks zeroed, the descriptors as they may be. -/
def Initial (s : State H L D F) : Prop := (∀ l, s.locks l = {}) ∧ ∀ h, s.thread h = .idle

/-- Handlers that call `Lock` and `Unlock` over and over: a handler outside starts with the data
`start l`, and the next access of a handler at work is given by `exec`.  What is left to the memory is
which of the two words a 16-byte RDMA read takes first. -/
def clients (start : L → F) (exec : State H L D F → H → F → Bool →
      Option (State H L D F × Option (L × Event H UInt64))) :
    Clients (State H L D F) H L F (L × Event H UInt64) where
  thread := thread
  call s h l := s.goto h (start l)
  exec := exec

/-- One step of handler `h`. -/
abbrev step (start : L → F) (exec : State H L D F → H → F → Bool →
    Option (State H L D F × Option (L × Event H UInt64))) :
    State H L D F → H → Act L → Option (State H L D F × Option (L × Event H UInt64)) :=
  (clients start exec).step

/-- The run in which the handlers take their steps in the given order. -/
abbrev play (start : L → F) (exec : State H L D F → H → F → Bool →
    Option (State H L D F × Option (L × Event H UInt64))) :
    State H L D F → List (H × Act L) → Option (State H L D F × List (L × Event H UInt64)) :=
  (clients start exec).play

/-- The system of all interleavings. -/
abbrev system (start : L → F) (exec : State H L D F → H → F → Bool →
    Option (State H L D F × Option (L × Event H UInt64))) :
    Lts (State H L D F) (L × Event H UInt64) :=
  (clients start exec).system Initial

/-- The endless executions. -/
abbrev Runs (start : L → F) (exec : State H L D F → H → F → Bool →
    Option (State H L D F × Option (L × Event H UInt64))) :=
  Execution (Initial (H := H)) (step start exec)

/-- Handler `h` is inside `Lock`, the critical section or `Unlock`. -/
def Busy (s : State H L D F) (h : H) : Prop := ∃ f, s.thread h = .busy f

section Step

variable {start : L → F} {exec : State H L D F → H → F → Bool →
    Option (State H L D F × Option (L × Event H UInt64))} {s s' : State H L D F} {h : H} {f : F}

theorem step_call (l : L) (hf : s.thread h = .idle) :
    step start exec s h (.call l) = some (s.goto h (start l), none) :=
  Clients.step_call (K := clients start exec) l hf

theorem step_run (b : Bool) (hf : s.thread h = .busy f) :
    step start exec s h (.run b) = exec s h f b :=
  Clients.step_run (K := clients start exec) b hf

/-- What a step can be. -/
theorem step_cases {a : Act L} {x : Option (L × Event H UInt64)}
    (hs : step start exec s h a = some (s', x)) :
    (∃ l, a = .call l ∧ s.thread h = .idle ∧ x = none ∧ s' = s.goto h (start l)) ∨
    ∃ b f, a = .run b ∧ s.thread h = .busy f ∧ exec s h f b = some (s', x) :=
  Clients.step_cases hs

end Step

/-- All handlers outside, all locks zeroed, all descriptors `d`. -/
def zero (d : D) : State H L D F := ⟨fun _ => {}, fun _ _ => d, fun _ => .idle⟩

theorem run_of_mem_play {start : L → F} {exec : State H L D F → H → F → Bool →
      Option (State H L D F × Option (L × Event H UInt64))} {d : D} {sched : List (H × Act L)}
    {y : State H L D F × List (L × Event H UInt64)} (hy : y ∈ play start exec (zero d) sched) :
    (system start exec).Run y.2 y.1 :=
  Clients.run_play (Lts.Run.start (S := system start exec) ⟨fun _ => rfl, fun _ => rfl⟩)
    (Option.mem_def.1 hy)

end State

section Locks

variable {H L D F : Type} [DecidableEq L] (s : State H L D F) (l : L) (w : LockWords H)

@[simp] theorem setLock_locks (l' : L) :
    (s.setLock l w).locks l' = if l' = l then w else s.locks l' := by
  simp [State.setLock, Function.update_apply]

@[simp] theorem setLock_self : s.setLock l (s.locks l) = s := by
  simp [State.setLock]

@[simp] theorem setLock_descriptor : (s.setLock l w).descriptor = s.descriptor := rfl
@[simp] theorem setLock_thread : (s.setLock l w).thread = s.thread := rfl

end Locks

section Handlers

variable {H L D F : Type} [DecidableEq H] (s : State H L D F) (c : Side) (h : H) (d : D) (f : F)

@[simp] theorem setDescriptor_locks : (s.setDescriptor c h d).locks = s.locks := rfl
@[simp] theorem setDescriptor_thread : (s.setDescriptor c h d).thread = s.thread := rfl

@[simp] theorem setDescriptor_descriptor (c' : Side) (g : H) :
    (s.setDescriptor c h d).descriptor c' g = if c' = c ∧ g = h then d else s.descriptor c' g := rfl

@[simp] theorem setDescriptor_self : s.setDescriptor c h (s.descriptor c h) = s := by
  obtain ⟨locks, descriptor, thread⟩ := s
  simp only [State.setDescriptor, State.mk.injEq, true_and, and_true]
  funext c' g
  split_ifs with hg
  · rw [hg.1, hg.2]
  · rfl

/-- Stores into the descriptors of different handlers commute. -/
theorem setDescriptor_comm {g : H} (hne : g ≠ h) (c' : Side) (d' : D) :
    (s.setDescriptor c h d).setDescriptor c' g d' =
      (s.setDescriptor c' g d').setDescriptor c h d := by
  simp only [State.setDescriptor, State.mk.injEq, true_and, and_true]
  funext c'' x
  by_cases hx : x = g
  · subst hx
    simp [hne]
  · simp [hx]

@[simp] theorem goto_locks : (s.goto h f).locks = s.locks := rfl
@[simp] theorem goto_descriptor : (s.goto h f).descriptor = s.descriptor := rfl
@[simp] theorem goto_thread : (s.goto h f).thread = Function.update s.thread h (.busy f) := rfl
@[simp] theorem exit_locks : (s.exit h).locks = s.locks := rfl
@[simp] theorem exit_descriptor : (s.exit h).descriptor = s.descriptor := rfl
@[simp] theorem exit_thread : (s.exit h).thread = Function.update s.thread h .idle := rfl

end Handlers

@[simp] theorem setLock_setDescriptor_self {H L D F : Type} [DecidableEq H] [DecidableEq L]
    (s : State H L D F) (l : L) (w : LockWords H) (c : Side) (h : H) :
    (s.setLock l w).setDescriptor c h (s.descriptor c h) = s.setLock l w :=
  setDescriptor_self (s.setLock l w) c h

/-- A ticket number as the 64-bit word that holds it. -/
def word (n : ℕ) : UInt64 := UInt64.ofNat n

end Farlock
