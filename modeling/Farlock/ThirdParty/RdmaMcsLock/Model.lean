import Farlock.ThirdParty.Machine
import Farlock.Lib.Handover

/-!
# RdmaMcsLock (`third_party/locks/rdma_mcs_lock.h`)

The baseline that treats all handlers as remote: one queue for each lock, in which the lock is handed
over by resetting the `locked` byte of the successor's descriptor.  A step is one access of one
handler to one word; `AtomicSwap` is a sequence of compare-and-swaps.

* `RdmaMcsLock.exec`: `Lock` and `Unlock`;
* `RdmaMcsLock.queues`: a state as a state of `Handover`, and `exec_moves`: every access is a step
  there, with the same event, or changes nothing there.
-/

namespace Farlock

namespace RdmaMcsLock

/-- The next access of a handler inside `Lock` or `Unlock`. -/
inductive Pc
  /-- `descriptor_->locked = UNLOCKED` -/
  | resetLocked
  /-- `descriptor_->next = nullptr` -/
  | resetNext
  /-- one round of `AtomicSwap(tail_pointer_, desc_pointer_)` -/
  | exchangeTail
  /-- `descriptor_->locked = LOCKED` -/
  | storeLocked
  /-- the write of `desc_pointer_` to the `next` field behind `prev` -/
  | writePrevNext
  /-- `while (descriptor_->locked == LOCKED)` -/
  | awaitUnlocked
  /-- the fence at the end of `Lock` -/
  | acquired
  /-- `Lock` has returned, `Unlock` is not called yet -/
  | critical
  /-- `CompareAndSwap(tail_pointer_, desc_pointer_, 0)` -/
  | casTail
  /-- `while (descriptor_->next == nullptr)` -/
  | awaitNext
  /-- the load of `descriptor_->next` for the following write -/
  | loadNext
  /-- the write of `UNLOCKED` to `next->locked` -/
  | writeUnlocked
  deriving DecidableEq, Repr

/-- The words of `struct RdmaMcsLock` as a descriptor; `locked` only ever holds `LOCKED` and
`UNLOCKED` once `Lock` has begun. -/
structure Descriptor (H : Type) where
  locked : Bool := false
  next : Option H := none
  deriving DecidableEq

/-- The shared memory: the tail word of each lock, and the descriptors. -/
structure Memory (H L : Type) where
  tail : L → Option H
  descriptor : H → Descriptor H

/-- The local data of a handler inside `Lock` or `Unlock`. -/
structure Frame (H L : Type) where
  /-- the argument of `Lock` and `Unlock` -/
  lock : L
  pc : Pc := .resetLocked
  /-- `prev` -/
  prev : Option H := none
  /-- `wr.wr.atomic.compare_add` of `Exchange`, at first the default `hint` -/
  expected : Option H := none
  /-- `next` in `Unlock` -/
  next : Option H := none
  deriving DecidableEq

/-- The states of a cluster that uses RdmaMcsLock. -/
abbrev State (H L : Type) := Machine (Memory H L) H (Frame H L)

variable {H L : Type} [DecidableEq H] [DecidableEq L]

/-- Store into the tail of a lock. -/
def Memory.setTail (m : Memory H L) (l : L) (t : Option H) : Memory H L :=
  { m with tail := Function.update m.tail l t }

/-- Store into a descriptor. -/
def Memory.setDescriptor (m : Memory H L) (h : H) (d : Descriptor H) : Memory H L :=
  { m with descriptor := Function.update m.descriptor h d }

/-- The next access of handler `h` with frame `f`.  There is no next state if the handler would
follow a null pointer. -/
def exec (m : Memory H L) (h : H) (f : Frame H L) (_ : Bool) :
    Option (Memory H L × Thread (Frame H L) × Option (Handover.Event H L)) :=
  let d := m.descriptor h
  match f.pc with
  -- Lock
  | .resetLocked =>
      some (m.setDescriptor h { d with locked := false }, .busy { f with pc := .resetNext }, none)
  | .resetNext =>
      some (m.setDescriptor h { d with next := none }, .busy { f with pc := .exchangeTail }, none)
  | .exchangeTail =>
      -- a round fails when the tail is not the expected one, and then expects that
      if m.tail f.lock = f.expected then
        some (m.setTail f.lock (some h),
          .busy { f with prev := m.tail f.lock,
                         pc := if (m.tail f.lock).isSome then .storeLocked else .acquired },
          some (.arrive f.lock h))
      else some (m, .busy { f with expected := m.tail f.lock }, none)
  | .storeLocked =>
      some (m.setDescriptor h { d with locked := true }, .busy { f with pc := .writePrevNext }, none)
  | .writePrevNext =>
      f.prev.map fun p =>
        (m.setDescriptor p { m.descriptor p with next := some h },
          .busy { f with pc := .awaitUnlocked }, none)
  | .awaitUnlocked =>
      some (m, .busy { f with pc := if d.locked then .awaitUnlocked else .acquired }, none)
  | .acquired => some (m, .busy { f with pc := .critical }, some (.enter f.lock h))
  | .critical => some (m, .busy { f with pc := .casTail }, none)
  -- Unlock
  | .casTail =>
      if m.tail f.lock = some h then
        some (m.setTail f.lock none, .idle, some (.leave f.lock h))
      else some (m, .busy { f with pc := .awaitNext }, none)
  | .awaitNext =>
      some (m, .busy { f with pc := if d.next.isSome then .loadNext else .awaitNext }, none)
  | .loadNext => some (m, .busy { f with next := d.next, pc := .writeUnlocked }, none)
  | .writeUnlocked =>
      f.next.map fun n =>
        (m.setDescriptor n { m.descriptor n with locked := false }, .idle,
          some (.leave f.lock h))

/-- The local data of a handler that calls `Lock`. -/
def Frame.start {H L : Type} (l : L) : Frame H L := { lock := l }

/-- All tails are null. -/
def Memory.Zeroed (m : Memory H L) : Prop := ∀ l, m.tail l = none

/-- The system of all interleavings of the handlers. -/
def system (H L : Type) [DecidableEq H] [DecidableEq L] :
    Lts (State H L) (Handover.Event H L) :=
  Machine.system Memory.Zeroed (Frame.start (H := H) (L := L)) exec

/-! ### The queues -/

section Queues

omit [DecidableEq H] [DecidableEq L]

/-- The place of a handler in its queue. -/
def Frame.place (f : Frame H L) : Handover.Place H L :=
  match f.pc with
  | .resetLocked | .resetNext => .entering f.lock false
  | .exchangeTail => .ready f.lock false
  | .storeLocked => f.prev.elim (.front f.lock) fun p => .linking f.lock p false
  | .writePrevNext => f.prev.elim (.front f.lock) fun p => .linking f.lock p true
  | .awaitUnlocked => f.prev.elim (.front f.lock) (.linked f.lock)
  | .acquired => .front f.lock
  | .critical => .inside f.lock
  | .casTail => .leaving f.lock
  | .awaitNext => .closing f.lock
  | .loadNext => .loading f.lock
  | .writeUnlocked => f.next.elim (.loading f.lock) (.granting f.lock)

/-- The same for a thread. -/
def place : Thread (Frame H L) → Handover.Place H L
  | .idle => .out
  | .busy f => f.place

/-- The word of a descriptor: the lock is handed over by resetting `locked`. -/
def Descriptor.word (d : Descriptor H) : Option Unit := if d.locked then none else some ()

/-- The queues of all locks. -/
def queues (s : State H L) : Handover.State H L Unit where
  tail := s.memory.tail
  place h := place (s.thread h)
  next h := (s.memory.descriptor h).next
  word h := (s.memory.descriptor h).word

end Queues

section Views

variable {m : Memory H L} {thread : H → Thread (Frame H L)} {h : H}

omit [DecidableEq L] in
theorem queues_update (t : Thread (Frame H L)) :
    queues ⟨m, Function.update thread h t⟩ = (queues ⟨m, thread⟩).move h (place t) := by
  simp only [queues, Handover.State.move, Handover.State.mk.injEq, true_and, and_true]
  funext g
  exact Function.apply_update (fun _ => place) thread h t g

omit [DecidableEq L] in
theorem queues_setDescriptor (d : Descriptor H) :
    queues ⟨m.setDescriptor h d, thread⟩ =
      { queues ⟨m, thread⟩ with
          next := Function.update (queues ⟨m, thread⟩).next h d.next
          word := Function.update (queues ⟨m, thread⟩).word h d.word } := by
  simp only [queues, Memory.setDescriptor, Handover.State.mk.injEq, true_and]
  refine ⟨?_, ?_⟩
  · funext g
    exact Function.apply_update (fun _ => Descriptor.next) m.descriptor h d g
  · funext g
    exact Function.apply_update (fun _ => Descriptor.word) m.descriptor h d g

omit [DecidableEq H] in
theorem queues_setTail (l : L) (t : Option H) :
    queues ⟨m.setTail l t, thread⟩ =
      { queues ⟨m, thread⟩ with tail := Function.update (queues ⟨m, thread⟩).tail l t } := rfl

end Views

/-- Every access of a handler is a step of the queues with the same event, or changes nothing there
and is silent. -/
theorem exec_moves {s : State H L} {m : Memory H L} {h : H} {f : Frame H L} {b : Bool}
    {t : Thread (Frame H L)} {e : Option (Handover.Event H L)} (hf : s.thread h = .busy f)
    (hs : exec s.memory h f b = some (m, t, e)) :
    Handover.Step (queues s) e (queues ⟨m, Function.update s.thread h t⟩) ∨
      e = none ∧ queues ⟨m, Function.update s.thread h t⟩ = queues s := by
  obtain ⟨mem, thread⟩ := s
  dsimp only at hf hs ⊢
  have hpl : (queues ⟨mem, thread⟩).place h = f.place := by simp [queues, place, hf]
  -- nothing happens if the place is the same and nothing is stored
  have hsame : ∀ f', f'.place = f.place →
      queues ⟨mem, Function.update thread h (.busy f')⟩ = queues ⟨mem, thread⟩ := by
    intro f' hf'
    rw [queues_update]
    simp only [place, hf', Handover.State.move, ← hpl, Function.update_eq_self]
  unfold exec at hs
  cases hpc : f.pc <;>
    simp only [hpc, Option.some.injEq, Prod.mk.injEq, Option.map_eq_some_iff] at hs
  -- the accesses that only some branches of the code make
  case exchangeTail =>
    split at hs <;> simp only [Option.some.injEq, Prod.mk.injEq] at hs <;> obtain ⟨rfl, rfl, rfl⟩ := hs
    · left
      have hstep := Handover.Step.join (s := queues ⟨mem, thread⟩) (h := h) (k := f.lock) (b := false)
        (by rw [hpl]; simp [Frame.place, hpc])
      convert hstep using 1
      rw [queues_update, queues_setTail]
      cases ht : mem.tail f.lock <;>
        simp [queues, Handover.State.move, place, Frame.place, Handover.Place.behind, ht]
    · exact Or.inr ⟨rfl, hsame _ (by simp [Frame.place, hpc])⟩
  case casTail =>
    split at hs <;> simp only [Option.some.injEq, Prod.mk.injEq] at hs <;> obtain ⟨rfl, rfl, rfl⟩ := hs
    · left
      rename_i ht
      have hstep := Handover.Step.swap (s := queues ⟨mem, thread⟩) (h := h) (k := f.lock)
        (by rw [hpl]; simp [Frame.place, hpc]) ht
      rwa [queues_update, queues_setTail]
    · left
      rename_i ht
      have hstep := Handover.Step.fail (s := queues ⟨mem, thread⟩) (h := h) (k := f.lock)
        (by rw [hpl]; simp [Frame.place, hpc]) ht
      rwa [queues_update]
  -- the accesses through a pointer
  case writePrevNext =>
    obtain ⟨p, hp, rfl, rfl, rfl⟩ := hs
    left
    have hstep := Handover.Step.link (s := queues ⟨mem, thread⟩) (h := h) (p := p) (k := f.lock)
      (by rw [hpl]; simp [Frame.place, hpc, hp])
    convert hstep using 1
    rw [queues_update, queues_setDescriptor]
    simp [queues, Handover.State.move, place, Frame.place, hp, Descriptor.word]
  case writeUnlocked =>
    obtain ⟨n, hn, rfl, rfl, rfl⟩ := hs
    left
    have hstep := Handover.Step.grant (s := queues ⟨mem, thread⟩) (h := h) (n := n) (k := f.lock)
      (v := some ()) (by rw [hpl]; simp [Frame.place, hpc, hn])
    convert hstep using 1
    rw [queues_update, queues_setDescriptor]
    simp [queues, Handover.State.move, place, Descriptor.word]
  all_goals obtain ⟨rfl, rfl, rfl⟩ := hs
  -- the stores into the own descriptor
  case resetLocked =>
    left
    have hstep := Handover.Step.write (s := queues ⟨mem, thread⟩) (h := h) (k := f.lock)
      (v := some ()) (by rw [hpl]; simp [Frame.place, hpc])
    convert hstep using 1
    rw [← hsame { f with pc := .resetNext } (by simp [Frame.place, hpc]), queues_update,
      queues_update, queues_setDescriptor]
    simp [queues, Handover.State.move, Descriptor.word]
  case resetNext =>
    left
    have hstep := Handover.Step.clear (s := queues ⟨mem, thread⟩) (h := h) (k := f.lock) (b := false)
      (by rw [hpl]; simp [Frame.place, hpc])
    convert hstep using 1
    rw [queues_update, queues_setDescriptor]
    simp [queues, Handover.State.move, place, Frame.place, Descriptor.word]
  case storeLocked =>
    left
    cases hp : f.prev with
    | none =>
      have hstep := Handover.Step.own (s := queues ⟨mem, thread⟩) (h := h) (k := f.lock) (v := none)
        (by rw [hpl]; simp [Frame.place, hpc, hp])
      convert hstep using 1
      rw [← hsame { f with pc := .writePrevNext } (by simp [Frame.place, hpc, hp]), queues_update,
        queues_update, queues_setDescriptor]
      simp [queues, Handover.State.move, Descriptor.word, hp]
    | some p =>
      have hstep := Handover.Step.armLate (s := queues ⟨mem, thread⟩) (h := h) (p := p) (k := f.lock)
        (by rw [hpl]; simp [Frame.place, hpc, hp])
      convert hstep using 1
      rw [queues_update, queues_setDescriptor]
      simp [queues, Handover.State.move, place, Frame.place, Descriptor.word]
  -- the spin loops
  case awaitUnlocked =>
    cases hl : (mem.descriptor h).locked with
    | true => exact Or.inr ⟨rfl, hsame _ (by simp [Frame.place, hpc])⟩
    | false =>
      cases hp : f.prev with
      | none => exact Or.inr ⟨rfl, hsame _ (by simp [Frame.place, hpc, hp])⟩
      | some p =>
        left
        have hstep := Handover.Step.wake (s := queues ⟨mem, thread⟩) (h := h) (p := p) (k := f.lock)
          (by rw [hpl]; simp [Frame.place, hpc, hp]) (by simp [queues, Descriptor.word, hl])
        rwa [queues_update]
  case awaitNext =>
    cases hn : (mem.descriptor h).next with
    | none => exact Or.inr ⟨rfl, hsame _ (by simp [Frame.place, hpc])⟩
    | some n =>
      left
      have hstep := Handover.Step.see (s := queues ⟨mem, thread⟩) (h := h) (k := f.lock)
        (by rw [hpl]; simp [Frame.place, hpc]) (by simp [queues, hn])
      rwa [queues_update]
  -- the other accesses
  case acquired =>
    left
    have hstep := Handover.Step.enter (s := queues ⟨mem, thread⟩) (h := h) (k := f.lock)
      (by rw [hpl]; simp [Frame.place, hpc])
    rwa [queues_update]
  case critical =>
    left
    have hstep := Handover.Step.leave (s := queues ⟨mem, thread⟩) (h := h) (k := f.lock)
      (by rw [hpl]; simp [Frame.place, hpc])
    rwa [queues_update]
  case loadNext =>
    cases hn : (mem.descriptor h).next with
    | none => exact Or.inr ⟨rfl, hsame _ (by simp [Frame.place, hpc])⟩
    | some n =>
      left
      have hstep := Handover.Step.load (s := queues ⟨mem, thread⟩) (h := h) (n := n) (k := f.lock)
        (by rw [hpl]; simp [Frame.place, hpc]) (by simp [queues, hn])
      rwa [queues_update]

end RdmaMcsLock

end Farlock
