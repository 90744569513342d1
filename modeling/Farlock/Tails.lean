import Mathlib
import Farlock.FARLock.Model
import Farlock.FARLockG.Model
import Farlock.Lib.Mcs

/-!
# The tails of a lock and `IsLocked`

`IsLocked` of `farlock.h` and `farlockg.h` compares the two tail words of a lock with each other.
Both queues of a lock are queues of the MCS kind, whatever the tickets and the budgets are, so a
tail is null exactly when its queue is empty; the comparison is right as long as no local descriptor
has as its address the raw pointer of a remote one.

* `Tails.view`: the queues of one class of handlers, as `Mcs.State`;
* `FARLock.exec_moves`, `FARLockG.exec_moves`: every access is a step of these queues or leaves them
  alone;
* `isLocked_right`: what `IsLocked` returns.
-/

namespace Farlock

/-! ### `IsLocked` -/

section IsLocked

variable {H L : Type}

/-- The word `remote_tail_`: a raw `rdma::Pointer`. -/
def Cluster.remoteTailWord (C : Cluster H L) : Option H → ℕ
  | none => 0
  | some h => C.remotePointer h

/-- The word `local_tail_`: a virtual address on the node of the lock. -/
def Cluster.localTailWord (C : Cluster H L) : Option H → ℕ
  | none => 0
  | some h => (C.localAddress h).toNat

/-- `IsLocked`, on a snapshot of the two tails; `IsLockedLocal` and `IsLockedRemote` make the same
comparison. -/
def isLocked (C : Cluster H L) (w : LockWords H) : Bool :=
  C.remoteTailWord w.remoteTail ≠ C.localTailWord w.localTail

/-- No local descriptor of a handler on the node of `l` has as its address the raw pointer of the
remote descriptor of a handler on another node. -/
def Cluster.Apart (C : Cluster H L) (l : L) : Prop :=
  ∀ g h, C.side g l = .loc → C.side h l = .rem → (C.localAddress g).toNat ≠ C.remotePointer h

/-- The comparison is right if the tails hold handlers of their classes. -/
theorem isLocked_eq_true_iff {C : Cluster H L} {l : L} (hC : C.Apart l) {w : LockWords H}
    (hloc : ∀ g, w.localTail = some g → C.side g l = .loc)
    (hrem : ∀ h, w.remoteTail = some h → C.side h l = .rem) :
    isLocked C w = true ↔ w.localTail ≠ none ∨ w.remoteTail ≠ none := by
  have hpos : ∀ g, (C.localAddress g).toNat ≠ 0 := by
    intro g h0
    exact C.localAddress_ne_zero g (UInt64.toNat_inj.1 h0)
  unfold isLocked
  rw [decide_eq_true_iff]
  cases hl : w.localTail with
  | none =>
    cases hr : w.remoteTail with
    | none => simp [Cluster.remoteTailWord, Cluster.localTailWord]
    | some h => simpa [Cluster.remoteTailWord, Cluster.localTailWord] using (C.remotePointer_pos h).ne'
  | some g =>
    cases hr : w.remoteTail with
    | none => simpa [Cluster.remoteTailWord, Cluster.localTailWord] using (hpos g).symm
    | some h =>
      simpa [Cluster.remoteTailWord, Cluster.localTailWord] using (hC g h (hloc g hl) (hrem h hr)).symm

end IsLocked

/-! ### The queues of one class -/

/-- How the queues are read off the descriptors `D` and the local data `F` of the handlers. -/
structure Tails (H L D F : Type) where
  lock : F → L
  place : F → Mcs.Place H L
  next : D → Option H
  granted : D → Bool
  releasable : D → Bool

namespace Tails

variable {H L D F : Type} (T : Tails H L D F) (C : Cluster H L) (c : Side)

/-- The place of handler `h` with the local data `f` in the queues of class `c`. -/
def placeOf (h : H) : Thread F → Mcs.Place H L
  | .idle => .out
  | .busy f => if C.side h (T.lock f) = c then T.place f else .out

/-- The queues of class `c`. -/
def view (s : State H L D F) : Mcs.State H L where
  tail l := (s.locks l).tail c
  place h := T.placeOf C c h (s.thread h)
  next h := T.next (s.descriptor c h)
  granted h := T.granted (s.descriptor c h)
  releasable h := T.releasable (s.descriptor c h)

section View

variable [DecidableEq H] (s : State H L D F) (h : H)

theorem view_goto (f : F) :
    T.view C c (s.goto h f) = (T.view C c s).move h (T.placeOf C c h (.busy f)) := by
  simp only [view, Mcs.State.move, goto_locks, goto_descriptor, goto_thread, Mcs.State.mk.injEq,
    true_and, and_true]
  funext g
  by_cases hg : g = h
  · subst hg
    simp
  · simp [Function.update_of_ne hg]

theorem view_exit : T.view C c (s.exit h) = (T.view C c s).move h .out := by
  simp only [view, Mcs.State.move, exit_locks, exit_descriptor, exit_thread, Mcs.State.mk.injEq,
    true_and, and_true]
  funext g
  by_cases hg : g = h
  · subst hg
    simp [placeOf]
  · simp [Function.update_of_ne hg]

omit [DecidableEq H] in
theorem view_setLock [DecidableEq L] (l : L) (w : LockWords H) :
    T.view C c (s.setLock l w) =
      { T.view C c s with tail := Function.update (T.view C c s).tail l (w.tail c) } := by
  simp only [view, setLock_locks, setLock_descriptor, setLock_thread, Mcs.State.mk.injEq, and_true]
  funext l'
  by_cases hl : l' = l
  · subst hl
    simp
  · simp [hl]

theorem view_setDescriptor (d : D) :
    T.view C c (s.setDescriptor c h d) =
      { T.view C c s with
          next := Function.update (T.view C c s).next h (T.next d)
          granted := Function.update (T.view C c s).granted h (T.granted d)
          releasable := Function.update (T.view C c s).releasable h (T.releasable d) } := by
  simp only [view, setDescriptor_locks, setDescriptor_descriptor, setDescriptor_thread,
    Mcs.State.mk.injEq, true_and]
  refine ⟨?_, ?_, ?_⟩ <;>
  · funext g
    by_cases hg : g = h
    · subst hg
      simp
    · simp [hg]

theorem view_setDescriptor_of_ne {c' : Side} (hc : c' ≠ c) (d : D) :
    T.view C c (s.setDescriptor c' h d) = T.view C c s := by
  simp [view, Ne.symm hc]

end View

/-- The queues of both classes are the same in `s` and `t`. -/
def Same (s t : State H L D F) : Prop := ∀ c, T.view C c t = T.view C c s

/-- The queues of each class are the same or make a step. -/
def Moves [DecidableEq H] [DecidableEq L] (s s' : State H L D F) : Prop :=
  ∀ c, Mcs.Step (T.view C c s) (T.view C c s') ∨ T.view C c s' = T.view C c s

section Moves

variable {T C} [DecidableEq H] {s t : State H L D F} {h g : H} {f f' : F}

omit [DecidableEq H] in
theorem same_setLock [DecidableEq L] {l : L} {w : LockWords H}
    (hw : ∀ c, w.tail c = (s.locks l).tail c) : T.Same C s (s.setLock l w) := by
  intro c
  rw [view_setLock, hw]
  simp [view]

/-- A store into a word of a descriptor that the queues do not use. -/
theorem same_setDescriptor {c : Side} {d : D} (hn : T.next d = T.next (s.descriptor c g))
    (hg : T.granted d = T.granted (s.descriptor c g))
    (hr : T.releasable d = T.releasable (s.descriptor c g)) :
    T.Same C s (s.setDescriptor c g d) := by
  intro c'
  by_cases hc : c = c'
  · subst hc
    rw [view_setDescriptor, hn, hg, hr]
    simp [view]
  · exact view_setDescriptor_of_ne T C c' s g hc d

variable [DecidableEq L]

/-- The handler goes on, in the same place. -/
theorem moves_of_same (hf : s.thread h = .busy f) (ht : T.Same C s t) (hl : T.lock f' = T.lock f)
    (hp : T.place f' = T.place f) : T.Moves C s (t.goto h f') := by
  intro c
  right
  have hplace : T.placeOf C c h (.busy f') = (T.view C c s).place h := by
    simp only [view, hf, placeOf, hl, hp]
  rw [view_goto, ht c, hplace]
  simp [Mcs.State.move]

/-- A handler acts in the queues of its own class only. -/
theorem moves_of_own {s' : State H L D F} {x : Mcs.Place H L} (hf : s.thread h = .busy f)
    (hother : ∀ c, C.side h (T.lock f) ≠ c → T.view C c t = T.view C c s)
    (hview : ∀ c, T.view C c s' =
      (T.view C c t).move h (if C.side h (T.lock f) = c then x else .out))
    (hstep : (T.view C (C.side h (T.lock f)) s).place h = T.place f →
      Mcs.Step (T.view C (C.side h (T.lock f)) s) ((T.view C (C.side h (T.lock f)) t).move h x)) :
    T.Moves C s s' := by
  intro c
  by_cases hc : C.side h (T.lock f) = c
  · left
    subst hc
    rw [hview, if_pos rfl]
    apply hstep
    simp [view, hf, placeOf]
  · right
    have hplace : (T.view C c s).place h = .out := by
      simp [view, hf, placeOf, hc]
    rw [hview, if_neg hc, hother c hc, ← hplace]
    simp [Mcs.State.move]

/-- The handler goes on to another place in a queue of its own class. -/
theorem moves_goto (hf : s.thread h = .busy f)
    (hother : ∀ c, C.side h (T.lock f) ≠ c → T.view C c t = T.view C c s)
    (hl : T.lock f' = T.lock f)
    (hstep : (T.view C (C.side h (T.lock f)) s).place h = T.place f →
      Mcs.Step (T.view C (C.side h (T.lock f)) s)
        ((T.view C (C.side h (T.lock f)) t).move h (T.place f'))) :
    T.Moves C s (t.goto h f') :=
  moves_of_own hf hother (fun c => by rw [view_goto, placeOf, hl]) hstep

/-- The handler leaves its queue. -/
theorem moves_exit (hf : s.thread h = .busy f)
    (hother : ∀ c, C.side h (T.lock f) ≠ c → T.view C c t = T.view C c s)
    (hstep : (T.view C (C.side h (T.lock f)) s).place h = T.place f →
      Mcs.Step (T.view C (C.side h (T.lock f)) s)
        ((T.view C (C.side h (T.lock f)) t).move h .out)) :
    T.Moves C s (t.exit h) :=
  moves_of_own hf hother (fun c => by rw [view_exit, ite_self]) hstep

/-- A handler goes on to another place without a store. -/
theorem moves_place (hf : s.thread h = .busy f) (hl : T.lock f' = T.lock f)
    (hstep : (T.view C (C.side h (T.lock f)) s).place h = T.place f →
      Mcs.Step (T.view C (C.side h (T.lock f)) s)
        ((T.view C (C.side h (T.lock f)) s).move h (T.place f'))) :
    T.Moves C s (s.goto h f') :=
  moves_goto hf (fun _ _ => rfl) hl hstep

/-- A handler stores into a descriptor of its class. -/
theorem moves_store {d : D} (hf : s.thread h = .busy f) (hl : T.lock f' = T.lock f)
    (hstep : (T.view C (C.side h (T.lock f)) s).place h = T.place f →
      Mcs.Step (T.view C (C.side h (T.lock f)) s)
        ((T.view C (C.side h (T.lock f)) (s.setDescriptor (C.side h (T.lock f)) g d)).move h
          (T.place f'))) :
    T.Moves C s ((s.setDescriptor (C.side h (T.lock f)) g d).goto h f') :=
  moves_goto hf (fun c hc => view_setDescriptor_of_ne T C c s g hc d) hl hstep

omit [DecidableEq H] in
theorem view_setTail_of_ne {c c' : Side} (hc : c' ≠ c) (l : L) (x : Option H) :
    T.view C c (s.setLock l ((s.locks l).setTail c' x)) = T.view C c s := by
  rw [view_setLock, LockWords.tail_setTail, if_neg (Ne.symm hc)]
  simp [view]

section Accesses

variable {d : D} (hf : s.thread h = .busy f) (hl : T.lock f' = T.lock f)

include hf hl

/-- `next_ = nullptr` -/
theorem moves_clear (hp : T.place f = .entering (T.lock f)) (hp' : T.place f' = .cleared (T.lock f))
    (hn : T.next d = none) (hg : T.granted d = T.granted (s.descriptor (C.side h (T.lock f)) h))
    (hr : T.releasable d = T.releasable (s.descriptor (C.side h (T.lock f)) h)) :
    T.Moves C s ((s.setDescriptor (C.side h (T.lock f)) h d).goto h f') := by
  refine moves_store hf hl fun hpl => ?_
  convert Mcs.Step.clear (hpl.trans hp) using 1
  rw [view_setDescriptor, hp', hn, hg, hr]
  simp [Mcs.State.move, view]

/-- `granted_ = kFalse` -/
theorem moves_lower (hp : T.place f = .cleared (T.lock f)) (hp' : T.place f' = .lowered (T.lock f))
    (hn : T.next d = T.next (s.descriptor (C.side h (T.lock f)) h)) (hg : T.granted d = false)
    (hr : T.releasable d = T.releasable (s.descriptor (C.side h (T.lock f)) h)) :
    T.Moves C s ((s.setDescriptor (C.side h (T.lock f)) h d).goto h f') := by
  refine moves_store hf hl fun hpl => ?_
  convert Mcs.Step.lower (hpl.trans hp) using 1
  rw [view_setDescriptor, hp', hn, hg, hr]
  simp [Mcs.State.move, view]

/-- `releasable_ = kFalse` -/
theorem moves_prepare (hp : T.place f = .lowered (T.lock f)) (hp' : T.place f' = .ready (T.lock f))
    (hn : T.next d = T.next (s.descriptor (C.side h (T.lock f)) h))
    (hg : T.granted d = T.granted (s.descriptor (C.side h (T.lock f)) h))
    (hr : T.releasable d = false) :
    T.Moves C s ((s.setDescriptor (C.side h (T.lock f)) h d).goto h f') := by
  refine moves_store hf hl fun hpl => ?_
  convert Mcs.Step.prepare (hpl.trans hp) using 1
  rw [view_setDescriptor, hp', hn, hg, hr]
  simp [Mcs.State.move, view]

/-- the exchange of the tail -/
theorem moves_join (hp : T.place f = .ready (T.lock f))
    (hp' : T.place f' =
      .behind (T.lock f) ((s.locks (T.lock f)).tail (C.side h (T.lock f)))) :
    T.Moves C s ((s.setLock (T.lock f)
      ((s.locks (T.lock f)).setTail (C.side h (T.lock f)) (some h))).goto h f') := by
  refine moves_goto hf (fun c hc => view_setTail_of_ne hc _ _) hl fun hpl => ?_
  convert Mcs.Step.join (hpl.trans hp) using 1
  rw [view_setLock, hp']
  simp [Mcs.State.move, view]

/-- `prev->next_ = descriptor` -/
theorem moves_link {p : H} (hp : T.place f = .linking (T.lock f) p)
    (hp' : T.place f' = .linked (T.lock f) p) (hn : T.next d = some h)
    (hg : T.granted d = T.granted (s.descriptor (C.side h (T.lock f)) p))
    (hr : T.releasable d = T.releasable (s.descriptor (C.side h (T.lock f)) p)) :
    T.Moves C s ((s.setDescriptor (C.side h (T.lock f)) p d).goto h f') := by
  refine moves_store hf hl fun hpl => ?_
  convert Mcs.Step.link (hpl.trans hp) using 1
  rw [view_setDescriptor, hp', hn, hg, hr]
  simp [Mcs.State.move, view]

/-- `prev->releasable_ = kTrue` -/
theorem moves_allow {p : H} (hp : T.place f = .linked (T.lock f) p)
    (hp' : T.place f' = .waiting (T.lock f) p)
    (hn : T.next d = T.next (s.descriptor (C.side h (T.lock f)) p))
    (hg : T.granted d = T.granted (s.descriptor (C.side h (T.lock f)) p))
    (hr : T.releasable d = true) :
    T.Moves C s ((s.setDescriptor (C.side h (T.lock f)) p d).goto h f') := by
  refine moves_store hf hl fun hpl => ?_
  convert Mcs.Step.allow (hpl.trans hp) using 1
  rw [view_setDescriptor, hp', hn, hg, hr]
  simp [Mcs.State.move, view]

/-- the loop on `granted_` -/
theorem moves_wake (hp : T.place f = .head (T.lock f) ∨ ∃ p, T.place f = .waiting (T.lock f) p)
    (hp' : T.place f' = .head (T.lock f))
    (hg : T.granted (s.descriptor (C.side h (T.lock f)) h) = true) : T.Moves C s (s.goto h f') := by
  obtain hp | ⟨p, hp⟩ := hp
  · exact moves_of_same hf (fun _ => rfl) hl (hp'.trans hp.symm)
  · refine moves_place hf hl fun hpl => ?_
    rw [hp']
    exact Mcs.Step.wake (hpl.trans hp) hg

/-- `if (next_ == nullptr)` -/
theorem moves_test (hp : T.place f = .head (T.lock f))
    (hp' : T.place f' = if (T.next (s.descriptor (C.side h (T.lock f)) h)).isSome
      then .closing (T.lock f) else .leaving (T.lock f)) : T.Moves C s (s.goto h f') := by
  refine moves_place hf hl fun hpl => ?_
  rw [hp']
  split_ifs with hn
  · refine Mcs.Step.close (hpl.trans hp) ?_
    exact Option.isSome_iff_ne_none.1 hn
  · exact Mcs.Step.leave (hpl.trans hp)

omit hl in
/-- the compare-and-swap of the tail to null, when it succeeds -/
theorem moves_swap (hp : T.place f = .leaving (T.lock f))
    (ht : (s.locks (T.lock f)).tail (C.side h (T.lock f)) = some h) :
    T.Moves C s ((s.setLock (T.lock f)
      ((s.locks (T.lock f)).setTail (C.side h (T.lock f)) none)).exit h) := by
  refine moves_exit hf (fun c hc => view_setTail_of_ne hc _ _) fun hpl => ?_
  convert Mcs.Step.swap (hpl.trans hp) ht using 1
  rw [view_setLock]
  simp [Mcs.State.move, view]

/-- the compare-and-swap of the tail to null, when it fails -/
theorem moves_fail (hp : T.place f = .leaving (T.lock f)) (hp' : T.place f' = .closing (T.lock f))
    (ht : (s.locks (T.lock f)).tail (C.side h (T.lock f)) ≠ some h) : T.Moves C s (s.goto h f') := by
  refine moves_place hf hl fun hpl => ?_
  rw [hp']
  exact Mcs.Step.fail (hpl.trans hp) ht

/-- the loop on `releasable_` -/
theorem moves_permit (hp : T.place f = .closing (T.lock f))
    (hp' : T.place f' = if T.releasable (s.descriptor (C.side h (T.lock f)) h)
      then .loading (T.lock f) else .closing (T.lock f)) : T.Moves C s (s.goto h f') := by
  by_cases hr : T.releasable (s.descriptor (C.side h (T.lock f)) h) = true
  · rw [if_pos hr] at hp'
    refine moves_place hf hl fun hpl => ?_
    rw [hp']
    exact Mcs.Step.permit (hpl.trans hp) hr
  · rw [if_neg hr] at hp'
    exact moves_of_same hf (fun _ => rfl) hl (hp'.trans hp.symm)

/-- the load of `next_` before the turn is granted -/
theorem moves_load (hp : T.place f = .loading (T.lock f))
    (hp' : T.place f' = (T.next (s.descriptor (C.side h (T.lock f)) h)).elim (.loading (T.lock f))
      (.granting (T.lock f))) : T.Moves C s (s.goto h f') := by
  cases hn : T.next (s.descriptor (C.side h (T.lock f)) h) with
  | none =>
    rw [hn] at hp'
    exact moves_of_same hf (fun _ => rfl) hl (hp'.trans hp.symm)
  | some n =>
    rw [hn] at hp'
    refine moves_place hf hl fun hpl => ?_
    rw [hp']
    exact Mcs.Step.load (hpl.trans hp) hn

omit hl in
/-- `next_->granted_ = kTrue` -/
theorem moves_grant {n : H} (hp : T.place f = .granting (T.lock f) n)
    (hn : T.next d = T.next (s.descriptor (C.side h (T.lock f)) n)) (hg : T.granted d = true)
    (hr : T.releasable d = T.releasable (s.descriptor (C.side h (T.lock f)) n)) :
    T.Moves C s ((s.setDescriptor (C.side h (T.lock f)) n d).exit h) := by
  refine moves_exit hf (fun c hc => view_setDescriptor_of_ne T C c s n hc d) fun hpl => ?_
  convert Mcs.Step.grant (hpl.trans hp) using 1
  rw [view_setDescriptor, hn, hg, hr]
  simp [Mcs.State.move, view]

end Accesses

/-- The queues of class `c` have their invariant in every run of an algorithm whose accesses are
steps of the queues. -/
theorem inv_of_run {start : L → F} {exec : State H L D F → H → F → Bool →
      Option (State H L D F × Option (L × Event H UInt64))} {tr : List (L × Event H UInt64)}
    (hstart : ∀ l, T.lock (start l) = l ∧ T.place (start l) = .entering l)
    (hexec : ∀ {s s' : State H L D F} {h f b e}, s.thread h = .busy f →
      exec s h f b = some (s', e) → T.Moves C s s')
    (hr : (State.system start exec).Run tr s) (c : Side) : ∃ Q, Mcs.Inv (T.view C c s) Q := by
  refine hr.invariant (I := fun _ s => ∃ Q, Mcs.Inv (T.view C c s) Q) ?_ ?_
  · rintro s ⟨hlocks, hidle⟩
    refine ⟨fun _ => [], ?_, fun _ => List.nodup_nil, ?_, ?_, ?_, ?_, ?_⟩
    · intro k h
      simp [view, hidle, placeOf, Mcs.Place.queue]
    · intro k
      cases c <;> simp [view, hlocks, LockWords.tail]
    · intro k h hhd
      simp at hhd
    · rintro k p n ⟨i, hp, -⟩
      simp at hp
    · intro k h hlast
      simp at hlast
    · intro h
      simp [Mcs.Reset, view, hidle, placeOf]
  · rintro tr s e s' - ⟨Q, hQ⟩ ⟨h, a, hs⟩
    obtain ⟨l, -, ht, -, rfl⟩ | ⟨b, f, -, ht, hx⟩ := State.step_cases hs
    · have hout : (T.view C c s).place h = .out := by simp [view, ht, placeOf]
      rw [view_goto, placeOf, (hstart l).1, (hstart l).2]
      split_ifs with hc
      · exact (Mcs.Step.enter hout).inv hQ
      · rw [← hout]
        exact ⟨Q, by simpa [Mcs.State.move] using hQ⟩
    · rcases hexec ht hx c with hstep | heq
      · exact hstep.inv hQ
      · rw [heq]
        exact ⟨Q, hQ⟩

omit [DecidableEq H] [DecidableEq L] in
/-- `IsLocked` says whether a handler of either class is in its queue of the lock. -/
theorem isLocked_iff {l : L} {queued : F → Prop} (hC : C.Apart l)
    (hinv : ∀ c, ∃ Q, Mcs.Inv (T.view C c s) Q)
    (hq : ∀ f k, (T.place f).queue = some k ↔ T.lock f = k ∧ queued f) :
    isLocked C (s.locks l) = true ↔
      (∃ h, C.side h l = .loc ∧ ∃ f, s.thread h = .busy f ∧ T.lock f = l ∧ queued f) ∨
      ∃ h, C.side h l = .rem ∧ ∃ f, s.thread h = .busy f ∧ T.lock f = l ∧ queued f := by
  have hmem : ∀ c h, ((T.view C c s).place h).queue = some l ↔
      C.side h l = c ∧ ∃ f, s.thread h = .busy f ∧ T.lock f = l ∧ queued f := by
    intro c h
    have hout : (Mcs.Place.out : Mcs.Place H L).queue = none := rfl
    cases ht : s.thread h with
    | idle => simp [view, placeOf, ht, hout]
    | busy f =>
      simp only [view, placeOf, ht, Thread.busy.injEq, exists_eq_left']
      split_ifs with hc
      · rw [hq]
        constructor
        · rintro ⟨rfl, hf⟩
          exact ⟨hc, rfl, hf⟩
        · exact And.right
      · rw [hout]
        constructor
        · intro hnone
          cases hnone
        · rintro ⟨hc', rfl, -⟩
          exact absurd hc' hc
  -- a tail is null exactly when its queue is empty
  have htail : ∀ c, (s.locks l).tail c ≠ none ↔
      ∃ h, C.side h l = c ∧ ∃ f, s.thread h = .busy f ∧ T.lock f = l ∧ queued f := by
    intro c
    obtain ⟨Q, hQ⟩ := hinv c
    have hnone := hQ.tail_eq_none_iff (k := l)
    simp only [← hmem]
    rw [ne_eq, show (s.locks l).tail c = (T.view C c s).tail l from rfl, hnone]
    push Not
    rfl
  have hclass : ∀ c h, (s.locks l).tail c = some h → C.side h l = c := by
    intro c h ht
    obtain ⟨Q, hQ⟩ := hinv c
    have hlast : (Q l).getLast? = some h := (hQ.tail_eq l).symm.trans ht
    exact ((hmem c h).1 ((hQ.mem_iff l h).1 (List.mem_of_getLast? hlast))).1
  rw [isLocked_eq_true_iff hC (hclass .loc) (hclass .rem), ← htail .loc, ← htail .rem]
  rfl

end Moves

end Tails

/-! ### FARLock -/

namespace FARLock

variable {H L : Type}

/-- The place of a handler in its queue. -/
def Frame.place (f : Frame H L) : Mcs.Place H L :=
  match f.pc with
  | .resetNext => .entering f.lock
  | .resetTicket | .resetToGetTicket | .resetGranted => .cleared f.lock
  | .resetReleasable => .lowered f.lock
  | .exchangeTail => .ready f.lock
  | .storePrevNext => f.prev.elim (.head f.lock) (.linking f.lock)
  | .loadPrevTicket | .storePrevReleasable => f.prev.elim (.head f.lock) (.linked f.lock)
  | .loadTicket | .awaitTicket | .critical | .loadCurrent | .storeCurrent | .testNextUnlock =>
      .head f.lock
  | .casTail => .leaving f.lock
  | .awaitReleasable => .closing f.lock
  | .loadNextUnlock => .loading f.lock
  | .storeGranted => f.next.elim (.loading f.lock) (.granting f.lock)
  | _ => f.prev.elim (.head f.lock) (.waiting f.lock)

/-- The queues of FARLock. -/
def tails : Tails H L (Descriptor H) (Frame H L) where
  lock f := f.lock
  place f := f.place
  next d := d.next
  granted d := d.granted
  releasable d := d.releasable

variable [DecidableEq H] [DecidableEq L] {C : Cluster H L}

/-- Every access of a handler is a step of its queue or leaves the queues alone. -/
theorem exec_moves {s s' : State H L} {h : H} {f : Frame H L} {b : Bool}
    {e : Option (L × Event H UInt64)} (hf : s.thread h = .busy f)
    (hs : exec C s h f b = some (s', e)) : tails.Moves C s s' := by
  unfold exec at hs
  cases hpc : f.pc <;>
    simp only [hpc, Option.some.injEq, Prod.mk.injEq, Option.map_eq_some_iff] at hs
  -- the accesses that only some branches of the code make
  case exchangeTail =>
    split at hs
    · simp only [Option.some.injEq, Prod.mk.injEq] at hs
      obtain ⟨rfl, -⟩ := hs
      refine Tails.moves_join hf rfl (by simp [tails, Frame.place, hpc]) ?_
      cases hw : (s.locks f.lock).tail (C.side h f.lock) <;>
        simp [tails, Frame.place, hw, Mcs.Place.behind]
    · simp only [Option.some.injEq, Prod.mk.injEq] at hs
      obtain ⟨rfl, -⟩ := hs
      exact Tails.moves_of_same hf (fun _ => rfl) rfl (by simp [tails, Frame.place, hpc])
  case awaitTicket =>
    split at hs <;>
    · simp only [Option.some.injEq, Prod.mk.injEq] at hs
      obtain ⟨rfl, -⟩ := hs
      exact Tails.moves_of_same hf (fun _ => rfl) rfl (by simp [tails, Frame.place, hpc])
  case casTail =>
    split at hs
    case isTrue ht =>
      simp only [Option.some.injEq, Prod.mk.injEq] at hs
      obtain ⟨rfl, -⟩ := hs
      exact Tails.moves_swap hf (by simp [tails, Frame.place, hpc]) ht
    case isFalse ht =>
      simp only [Option.some.injEq, Prod.mk.injEq] at hs
      obtain ⟨rfl, -⟩ := hs
      exact Tails.moves_fail hf rfl (by simp [tails, Frame.place, hpc]) (by simp [tails, Frame.place]) ht
  -- the accesses through a pointer
  case storePrevNext =>
    obtain ⟨p, hp, rfl, -⟩ := hs
    apply Tails.moves_link (p := p) hf
    · rfl
    · simp [tails, Frame.place, hpc, hp]
    · simp [tails, Frame.place, hp]
    all_goals rfl
  case loadPrevTicket =>
    obtain ⟨p, hp, rfl, -⟩ := hs
    exact Tails.moves_of_same hf (fun _ => rfl) rfl (by simp [tails, Frame.place, hpc])
  case storePrevReleasable =>
    obtain ⟨p, hp, rfl, -⟩ := hs
    apply Tails.moves_allow (p := p) hf
    · rfl
    · simp [tails, Frame.place, hpc, hp]
    · by_cases hk : f.ticket = kInvalidTicket <;> simp [tails, Frame.place, hp, hk]
    all_goals rfl
  case storeToGetTicket =>
    obtain ⟨n, hn, rfl, -⟩ := hs
    refine Tails.moves_of_same hf (Tails.same_setDescriptor rfl rfl rfl) rfl ?_
    cases hp : f.prev <;> simp [tails, Frame.place, Frame.await, hp, hpc]
  case storeGranted =>
    obtain ⟨n, hn, rfl, -⟩ := hs
    exact Tails.moves_grant hf (by simp [tails, Frame.place, hpc, hn]) rfl rfl rfl
  all_goals obtain ⟨rfl, -⟩ := hs
  -- the accesses that belong to the queue
  case resetNext =>
    exact Tails.moves_clear hf rfl (by simp [tails, Frame.place, hpc]) (by simp [tails, Frame.place])
      rfl rfl rfl
  case resetGranted =>
    exact Tails.moves_lower hf rfl (by simp [tails, Frame.place, hpc]) (by simp [tails, Frame.place])
      rfl rfl rfl
  case resetReleasable =>
    exact Tails.moves_prepare hf rfl (by simp [tails, Frame.place, hpc])
      (by simp [tails, Frame.place]) rfl rfl rfl
  case awaitPredecessor =>
    by_cases hg : (s.descriptor (C.side h f.lock) h).granted = true
    · refine Tails.moves_wake hf rfl ?_ (by simp [tails, Frame.place, hg]) hg
      cases hp : f.prev <;> simp [tails, Frame.place, hp, hpc]
    · exact Tails.moves_of_same hf (fun _ => rfl) rfl (by simp [tails, Frame.place, hpc, hg])
  case testNextUnlock =>
    refine Tails.moves_test hf rfl (by simp [tails, Frame.place, hpc]) ?_
    cases hn : (s.descriptor (C.side h f.lock) h).next <;> simp [tails, Frame.place, hn]
  case awaitReleasable =>
    refine Tails.moves_permit hf rfl (by simp [tails, Frame.place, hpc]) ?_
    cases hr : (s.descriptor (C.side h f.lock) h).releasable <;> simp [tails, Frame.place, hr]
  case loadNextUnlock =>
    exact Tails.moves_load hf rfl (by simp [tails, Frame.place, hpc]) (by simp [tails, Frame.place])
  -- the accesses to other words
  case storeFlag | clearFlag =>
    exact Tails.moves_of_same hf (Tails.same_setLock (by simp)) rfl (by simp [tails, Frame.place, hpc])
  case storeVictim =>
    refine Tails.moves_of_same hf (Tails.same_setLock fun c => by cases c <;> rfl) rfl ?_
    cases hc : C.side h f.lock <;> simp [tails, Frame.place, hpc, Pc.loop]
  case storeNextTicket | storeCurrent =>
    exact Tails.moves_of_same hf (Tails.same_setLock fun c => by cases c <;> rfl) rfl
      (by simp [tails, Frame.place, hpc])
  case resetTicket | resetToGetTicket | storeTicket =>
    exact Tails.moves_of_same hf (Tails.same_setDescriptor rfl rfl rfl) rfl
      (by simp [tails, Frame.place, hpc])
  case testNext =>
    refine Tails.moves_of_same hf (fun _ => rfl) ?_ ?_ <;>
      cases hn : (s.descriptor (C.side h f.lock) h).next <;> cases hp : f.prev <;>
      simp [tails, Frame.place, Frame.await, hp, hpc]
  case readPair =>
    cases b <;> exact Tails.moves_of_same hf (fun _ => rfl) rfl (by simp [tails, Frame.place, hpc])
  case readFlag | readVictim =>
    refine Tails.moves_of_same hf (fun _ => rfl) rfl ?_
    simp only [tails, Frame.place, Frame.test, hpc]
    split_ifs <;> rfl
  case waitToGetTicket | loadFlag | loadVictim =>
    refine Tails.moves_of_same hf (fun _ => rfl) rfl ?_
    simp only [tails, Frame.place, hpc]
    split_ifs <;> rfl
  all_goals
    exact Tails.moves_of_same hf (fun _ => rfl) rfl (by simp [tails, Frame.place, hpc])

omit [DecidableEq H] [DecidableEq L] in
theorem Frame.queue_place (f : Frame H L) :
    f.place.queue = if f.pc.inQueue then some f.lock else none := by
  cases hpc : f.pc <;> cases hp : f.prev <;> cases hn : f.next <;>
    simp [Frame.place, hpc, hp, hn, Mcs.Place.queue, Pc.inQueue]

theorem isLocked_of_reachable {l : L} (hC : C.Apart l) {s : State H L}
    (hs : (system C).Reachable s) :
    isLocked C (s.locks l) = true ↔
      (∃ h, C.side h l = .loc ∧ Queued s l h) ∨ ∃ h, C.side h l = .rem ∧ Queued s l h := by
  obtain ⟨tr, hr⟩ := hs
  have hinv := Tails.inv_of_run (T := tails) (C := C) (fun l => ⟨rfl, rfl⟩) exec_moves hr
  refine Tails.isLocked_iff hC hinv fun f k => ?_
  show f.place.queue = some k ↔ _
  rw [Frame.queue_place]
  split_ifs with hf <;> simp [tails, hf]

end FARLock

/-! ### FARLockG -/

namespace FARLockG

variable {H L : Type}

/-- The place of a handler in its queue. -/
def Frame.place (f : Frame H L) : Mcs.Place H L :=
  match f.pc with
  | .resetNext => .entering f.lock
  | .resetTicketValid | .resetBudget | .resetGranted => .cleared f.lock
  | .resetReleasable => .lowered f.lock
  | .exchangeTail => .ready f.lock
  | .storePrevNext => f.prev.elim (.head f.lock) (.linking f.lock)
  | .loadPrevTicketValid | .storePrevReleasable => f.prev.elim (.head f.lock) (.linked f.lock)
  | .awaitTicket | .storeBatchTicket | .critical | .loadTicketValid | .loadCurrent | .storeCurrent
  | .testNextUnlock => .head f.lock
  | .casTail => .leaving f.lock
  | .awaitReleasable => .closing f.lock
  | .loadNextUnlock => .loading f.lock
  | .storeGranted => f.next.elim (.loading f.lock) (.granting f.lock)
  | _ => f.prev.elim (.head f.lock) (.waiting f.lock)

/-- The queues of FARLockG. -/
def tails : Tails H L (Descriptor H) (Frame H L) where
  lock f := f.lock
  place f := f.place
  next d := d.next
  granted d := d.granted
  releasable d := d.releasable

variable [DecidableEq H] [DecidableEq L] {C : Cluster H L} {B : LockConfig}

/-- Every access of a handler is a step of its queue or leaves the queues alone. -/
theorem exec_moves {s s' : State H L} {h : H} {f : Frame H L} {b : Bool}
    {e : Option (L × Event H UInt64)} (hf : s.thread h = .busy f)
    (hs : exec C B s h f b = some (s', e)) : tails.Moves C s s' := by
  unfold exec at hs
  cases hpc : f.pc <;>
    simp only [hpc, Option.some.injEq, Prod.mk.injEq, Option.map_eq_some_iff] at hs
  -- the accesses that only some branches of the code make
  case exchangeTail =>
    split at hs
    · simp only [Option.some.injEq, Prod.mk.injEq] at hs
      obtain ⟨rfl, -⟩ := hs
      refine Tails.moves_join hf rfl (by simp [tails, Frame.place, hpc]) ?_
      cases hw : (s.locks f.lock).tail (C.side h f.lock) <;>
        simp [tails, Frame.place, hw, Mcs.Place.behind]
    · simp only [Option.some.injEq, Prod.mk.injEq] at hs
      obtain ⟨rfl, -⟩ := hs
      exact Tails.moves_of_same hf (fun _ => rfl) rfl (by simp [tails, Frame.place, hpc])
  case assertBudget =>
    split at hs
    · simp only [Option.some.injEq, Prod.mk.injEq] at hs
      obtain ⟨rfl, -⟩ := hs
      exact Tails.moves_of_same hf (fun _ => rfl) rfl (by simp [tails, Frame.place, hpc])
    · cases hs
  case awaitGranted =>
    have hhead : tails.place f = .head f.lock ∨ ∃ p, tails.place f = .waiting f.lock p := by
      cases hp : f.prev <;> simp [tails, Frame.place, hp, hpc]
    split at hs
    case isTrue hg =>
      split at hs <;>
      · simp only [Option.some.injEq, Prod.mk.injEq] at hs
        obtain ⟨rfl, -⟩ := hs
        exact Tails.moves_wake hf rfl hhead (by simp [tails, Frame.place]) hg
    case isFalse =>
      simp only [Option.some.injEq, Prod.mk.injEq] at hs
      obtain ⟨rfl, -⟩ := hs
      exact Tails.moves_of_same hf (fun _ => rfl) rfl rfl
  case casTail =>
    split at hs
    case isTrue ht =>
      simp only [Option.some.injEq, Prod.mk.injEq] at hs
      obtain ⟨rfl, -⟩ := hs
      exact Tails.moves_swap hf (by simp [tails, Frame.place, hpc]) ht
    case isFalse ht =>
      simp only [Option.some.injEq, Prod.mk.injEq] at hs
      obtain ⟨rfl, -⟩ := hs
      exact Tails.moves_fail hf rfl (by simp [tails, Frame.place, hpc]) (by simp [tails, Frame.place]) ht
  -- the accesses through a pointer
  case storePrevNext =>
    obtain ⟨p, hp, rfl, -⟩ := hs
    apply Tails.moves_link (p := p) hf
    · rfl
    · simp [tails, Frame.place, hpc, hp]
    · simp [tails, Frame.place, hp]
    all_goals rfl
  case loadPrevTicketValid =>
    obtain ⟨p, hp, rfl, -⟩ := hs
    exact Tails.moves_of_same hf (fun _ => rfl) rfl (by simp [tails, Frame.place, hpc])
  case storePrevReleasable =>
    obtain ⟨p, hp, rfl, -⟩ := hs
    apply Tails.moves_allow (p := p) hf
    · rfl
    · simp [tails, Frame.place, hpc, hp]
    · cases hv : f.valid <;> simp [tails, Frame.place, hp]
    all_goals rfl
  case storeNextBatchTicket =>
    obtain ⟨n, hn, rfl, -⟩ := hs
    refine Tails.moves_of_same hf (Tails.same_setDescriptor rfl rfl rfl) rfl ?_
    simp only [tails, Frame.place, hpc]
    split_ifs <;> rfl
  case storeNextBudget | storeInitBudget =>
    obtain ⟨n, hn, rfl, -⟩ := hs
    refine Tails.moves_of_same hf (Tails.same_setDescriptor rfl rfl rfl) rfl ?_
    cases hp : f.prev <;> simp [tails, Frame.place, Frame.await, hp, hpc]
  case storeGranted =>
    obtain ⟨n, hn, rfl, -⟩ := hs
    exact Tails.moves_grant hf (by simp [tails, Frame.place, hpc, hn]) rfl rfl rfl
  all_goals obtain ⟨rfl, -⟩ := hs
  -- the accesses that belong to the queue
  case resetNext =>
    exact Tails.moves_clear hf rfl (by simp [tails, Frame.place, hpc]) (by simp [tails, Frame.place])
      rfl rfl rfl
  case resetGranted =>
    exact Tails.moves_lower hf rfl (by simp [tails, Frame.place, hpc]) (by simp [tails, Frame.place])
      rfl rfl rfl
  case resetReleasable =>
    exact Tails.moves_prepare hf rfl (by simp [tails, Frame.place, hpc])
      (by simp [tails, Frame.place]) rfl rfl rfl
  case testNextUnlock =>
    refine Tails.moves_test hf rfl (by simp [tails, Frame.place, hpc]) ?_
    cases hn : (s.descriptor (C.side h f.lock) h).next <;> simp [tails, Frame.place, hn]
  case awaitReleasable =>
    refine Tails.moves_permit hf rfl (by simp [tails, Frame.place, hpc]) ?_
    cases hr : (s.descriptor (C.side h f.lock) h).releasable <;> simp [tails, Frame.place, hr]
  case loadNextUnlock =>
    exact Tails.moves_load hf rfl (by simp [tails, Frame.place, hpc]) (by simp [tails, Frame.place])
  -- the accesses to other words
  case storeFlag | clearFlag | clearFlagFull =>
    exact Tails.moves_of_same hf (Tails.same_setLock (by simp)) rfl (by simp [tails, Frame.place, hpc])
  case storeVictim =>
    refine Tails.moves_of_same hf (Tails.same_setLock fun c => by cases c <;> rfl) rfl ?_
    cases hc : C.side h f.lock <;> simp [tails, Frame.place, hpc, Pc.loop]
  case storeNextTicket | storeCurrent =>
    exact Tails.moves_of_same hf (Tails.same_setLock fun c => by cases c <;> rfl) rfl
      (by simp [tails, Frame.place, hpc])
  case resetTicketValid | resetBudget | storeBudget | storeTicketValid | storeTicketValidFull |
      storeBatchTicket =>
    exact Tails.moves_of_same hf (Tails.same_setDescriptor rfl rfl rfl) rfl
      (by simp [tails, Frame.place, hpc])
  case testNextAgain =>
    refine Tails.moves_of_same hf (fun _ => rfl) ?_ ?_ <;>
      cases hn : (s.descriptor (C.side h f.lock) h).next <;> cases hp : f.prev <;>
      simp [tails, Frame.place, Frame.await, hp, hpc]
  case readPair =>
    cases b <;> exact Tails.moves_of_same hf (fun _ => rfl) rfl (by simp [tails, Frame.place, hpc])
  case readFlag | readVictim =>
    refine Tails.moves_of_same hf (fun _ => rfl) rfl ?_
    simp only [tails, Frame.place, Frame.test, hpc]
    split_ifs <;> rfl
  case awaitBudget | testBudget | loadFlag | loadVictim | testNext | testLast | loadBudget | awaitTicket |
      loadTicketValid =>
    refine Tails.moves_of_same hf (fun _ => rfl) rfl ?_
    simp only [tails, Frame.place, hpc]
    split_ifs <;> rfl
  all_goals
    exact Tails.moves_of_same hf (fun _ => rfl) rfl (by simp [tails, Frame.place, hpc])

omit [DecidableEq H] [DecidableEq L] in
theorem Frame.queue_place (f : Frame H L) :
    f.place.queue = if f.pc.inQueue then some f.lock else none := by
  cases hpc : f.pc <;> cases hp : f.prev <;> cases hn : f.next <;>
    simp [Frame.place, hpc, hp, hn, Mcs.Place.queue, Pc.inQueue]

theorem isLocked_of_reachable {l : L} (hC : C.Apart l) {s : State H L}
    (hs : (system C B).Reachable s) :
    isLocked C (s.locks l) = true ↔
      (∃ h, C.side h l = .loc ∧ Queued s l h) ∨ ∃ h, C.side h l = .rem ∧ Queued s l h := by
  obtain ⟨tr, hr⟩ := hs
  have hinv := Tails.inv_of_run (T := tails) (C := C) (fun l => ⟨rfl, rfl⟩) exec_moves hr
  refine Tails.isLocked_iff hC hinv fun f k => ?_
  show f.place.queue = some k ↔ _
  rw [Frame.queue_place]
  split_ifs with hf <;> simp [tails, hf]

end FARLockG

/-! ### What `IsLocked` returns -/

variable {H L : Type} [DecidableEq H] [DecidableEq L]

/-- `IsLocked` returns true if and only if the local or the remote queue of the lock is not empty,
in every state of FARLock and of FARLockG with any budgets, if the addresses of the lock's local and
remote handlers are apart.  In particular it returns true while a handler is in the critical
section. -/
theorem isLocked_right (C : Cluster H L) (l : L) (hC : C.Apart l) :
    (∀ s : FARLock.State H L, (FARLock.system C).Reachable s →
      (isLocked C (s.locks l) = true ↔
        (∃ h, C.side h l = .loc ∧ FARLock.Queued s l h) ∨
          ∃ h, C.side h l = .rem ∧ FARLock.Queued s l h) ∧
      ∀ h f, s.thread h = .busy f → f.lock = l → f.pc = .critical →
        isLocked C (s.locks l) = true) ∧
    ∀ (B : LockConfig) (s : FARLockG.State H L), (FARLockG.system C B).Reachable s →
      (isLocked C (s.locks l) = true ↔
        (∃ h, C.side h l = .loc ∧ FARLockG.Queued s l h) ∨
          ∃ h, C.side h l = .rem ∧ FARLockG.Queued s l h) ∧
      ∀ h f, s.thread h = .busy f → f.lock = l → f.pc = .critical →
        isLocked C (s.locks l) = true := by
  constructor
  · intro s hs
    have key := FARLock.isLocked_of_reachable hC hs
    refine ⟨key, fun h f hf hl hpc => key.2 ?_⟩
    have hqueued : FARLock.Queued s l h := ⟨f, hf, hl, by rw [hpc]; rfl⟩
    cases hc : C.side h l with
    | loc => exact .inl ⟨h, hc, hqueued⟩
    | rem => exact .inr ⟨h, hc, hqueued⟩
  · intro B s hs
    have key := FARLockG.isLocked_of_reachable hC hs
    refine ⟨key, fun h f hf hl hpc => key.2 ?_⟩
    have hqueued : FARLockG.Queued s l h := ⟨f, hf, hl, by rw [hpc]; rfl⟩
    cases hc : C.side h l with
    | loc => exact .inl ⟨h, hc, hqueued⟩
    | rem => exact .inr ⟨h, hc, hqueued⟩

/-- A handler of `Cluster.pair` enters the critical section and finds the lock locked. -/
theorem isLocked_right_pair : Cluster.pair.Apart () ∧
    ∃ s f, (FARLock.system Cluster.pair).Reachable s ∧ s.thread false = .busy f ∧
      f.pc = .critical ∧ isLocked Cluster.pair (s.locks ()) = true := by
  have hC : Cluster.pair.Apart () := by
    unfold Cluster.Apart
    decide
  obtain ⟨y, hy, f, hf, hpc⟩ : ∃ y ∈ State.play (fun l => { lock := l })
      (FARLock.exec Cluster.pair) (.zero {})
      ((false, .call ()) :: Clients.steps false 16),
      ∃ f, y.1.thread false = .busy f ∧ f.pc = .critical := by
    refine ⟨_, rfl, _, rfl, ?_⟩
    decide
  have hr : (FARLock.system Cluster.pair).Reachable y.1 := ⟨y.2, State.run_of_mem_play hy⟩
  exact ⟨hC, y.1, f, hr, hf, hpc, ((isLocked_right Cluster.pair () hC).1 y.1 hr).2 false f hf rfl hpc⟩

/-- A lock on node 1 with a handler there, whose local descriptor is at address 64, and a handler on
node 0, whose remote descriptor is at address 64 of that node. -/
def Cluster.clash : Cluster Bool Unit := { Cluster.pair with home := fun _ => 1 }

/-- The raw pointer of a descriptor on node 0 is its bare address: `IsLocked` returns false while
the local handler is in the critical section and the remote one waits behind it. -/
theorem held_reported_free :
    (∃ s, (FARLock.system Cluster.clash).Reachable s ∧
      (∃ f, s.thread true = .busy f ∧ f.pc = .critical) ∧ FARLock.Queued s () false ∧
      isLocked Cluster.clash (s.locks ()) = false) ∧
    ∃ s, (FARLockG.system Cluster.clash ⟨1, 1⟩).Reachable s ∧
      (∃ f, s.thread true = .busy f ∧ f.pc = .critical) ∧ FARLockG.Queued s () false ∧
      isLocked Cluster.clash (s.locks ()) = false := by
  constructor
  · obtain ⟨y, hy, hcrit, hq, hfree⟩ : ∃ y ∈ State.play (fun l => { lock := l })
        (FARLock.exec Cluster.clash) (.zero {})
        ((true, .call ()) :: Clients.steps true 16 ++
          (false, .call ()) :: Clients.steps false 6),
        (∃ f, y.1.thread true = .busy f ∧ f.pc = .critical) ∧ FARLock.Queued y.1 () false ∧
          isLocked Cluster.clash (y.1.locks ()) = false := by
      refine ⟨_, rfl, ⟨_, rfl, ?_⟩, ⟨_, rfl, rfl, ?_⟩, ?_⟩ <;> decide
    exact ⟨y.1, ⟨y.2, State.run_of_mem_play hy⟩, hcrit, hq, hfree⟩
  · obtain ⟨y, hy, hcrit, hq, hfree⟩ : ∃ y ∈ State.play (fun l => { lock := l })
        (FARLockG.exec Cluster.clash ⟨1, 1⟩) (.zero {})
        ((true, .call ()) :: Clients.steps true 18 ++
          (false, .call ()) :: Clients.steps false 6),
        (∃ f, y.1.thread true = .busy f ∧ f.pc = .critical) ∧ FARLockG.Queued y.1 () false ∧
          isLocked Cluster.clash (y.1.locks ()) = false := by
      refine ⟨_, rfl, ⟨_, rfl, ?_⟩, ⟨_, rfl, rfl, ?_⟩, ?_⟩ <;> decide
    exact ⟨y.1, ⟨y.2, State.run_of_mem_play hy⟩, hcrit, hq, hfree⟩

end Farlock
