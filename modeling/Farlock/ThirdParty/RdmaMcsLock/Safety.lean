import Farlock.ThirdParty.RdmaMcsLock.Model

/-!
# RdmaMcsLock is safe

What `Farlock.Lib.Handover` says of queues in which the turn is handed over, said of
`third_party/locks/rdma_mcs_lock.h`.

* `exclusion_and_order`: mutual exclusion, and first come, first served;
* `descriptors_safe`: no null pointer is followed, a descriptor is written by others only while its
  owner is in the queue, and a tail is null exactly when its queue is empty.
-/

namespace Farlock

namespace RdmaMcsLock

variable {H L : Type} [DecidableEq H] [DecidableEq L] {tr : List (Handover.Event H L)}
  {s s' : State H L} {l : L} {g h : H}

theorem step_moves {a : Act L} {e : Option (Handover.Event H L)}
    (hs : Machine.step Frame.start exec s h a = some (s', e)) :
    Handover.Step (queues s) e (queues s') ∨ e = none ∧ queues s' = queues s := by
  obtain ⟨l, -, hidle, rfl, rfl⟩ | ⟨b, f, m, t, -, hf, hx, rfl⟩ := Machine.step_cases hs
  · left
    have hstep := Handover.Step.call (s := queues s) (h := h) (k := l)
      (by simp [queues, place, hidle])
    rwa [queues_update]
  · exact exec_moves hf hx

/-- In every run the events say where the handlers are in the queues. -/
theorem shown_of_run (hr : (system H L).Run tr s) : Handover.Shown tr (queues s) := by
  refine hr.invariant (I := fun tr s => Handover.Shown tr (queues s)) (fun s hs => ?_) ?_
  · exact Handover.shown_of_run (.start ⟨hs.1, fun h => by simp [queues, place, hs.2 h]⟩)
  · intro tr s e s' _ hS hstep
    obtain ⟨h, a, ha⟩ := hstep
    obtain hm | ⟨rfl, hq⟩ := step_moves ha
    · exact hm.shown hS
    · rw [hq]
      simpa using hS

/-- Handler `h` is in its critical section of lock `l`. -/
def Inside (s : State H L) (l : L) (h : H) : Prop :=
  ∃ f, s.thread h = .busy f ∧ f.lock = l ∧ f.pc = .critical

/-- Handler `h` has exchanged the tail of lock `l` in `Lock` and not returned from `Unlock`. -/
def Queued (s : State H L) (l : L) (h : H) : Prop := ((queues s).place h).queue = some l

/-- Mutual exclusion, and first come, first served: the handlers enter the critical section of a lock
in the order of their tail exchanges, and leave it in this order. -/
theorem exclusion_and_order (hr : (system H L).Run tr s) (l : L) :
    (∀ g h, Inside s l g → Inside s l h → g = h) ∧
    Handover.departures tr l <+: Handover.entries tr l ∧
    Handover.entries tr l <+: Handover.arrivals tr l := by
  have hS := shown_of_run hr
  refine ⟨fun g h hg hh => ?_, hS.first_come l⟩
  obtain ⟨f, hf, rfl, hpc⟩ := hg
  obtain ⟨f', hf', hl, hpc'⟩ := hh
  have hp : (queues s).place g = .inside f.lock := by simp [queues, place, hf, Frame.place, hpc]
  have hp' : (queues s).place h = .inside f.lock := by
    simp [queues, place, hf', Frame.place, hpc', hl]
  exact hS.inv.eq_of_queue (by rw [hp]; rfl) (by rw [hp']; rfl) (by rw [hp]; simp [Handover.Place.Behind])
    (by rw [hp']; simp [Handover.Place.Behind])

/-- Two handlers use one lock; the second one waits for the first one. -/
def playPair (n : ℕ) : Option (State Bool Unit × List (Handover.Event Bool Unit)) :=
  Machine.play Frame.start exec ⟨⟨fun _ => none, fun _ => {}⟩, fun _ => .idle⟩
    (List.take n ([(false, .call ())] ++ Clients.steps false 4 ++ [(true, .call ())] ++
      Clients.steps true 7 ++ Clients.steps false 5 ++ Clients.steps true 2))

theorem run_of_mem_playPair {n : ℕ} {y : State Bool Unit × List (Handover.Event Bool Unit)}
    (hy : y ∈ playPair n) : (system Bool Unit).Run y.2 y.1 :=
  Machine.run_of_mem_play (fun _ => rfl) hy

/-- The lock has been handed over. -/
theorem exclusion_and_order_pair : ∃ tr s, (system Bool Unit).Run tr s ∧ Inside s () true ∧
    ¬ Inside s () false ∧ Handover.arrivals tr () = [false, true] ∧
    Handover.departures tr () <+: Handover.entries tr () ∧
    Handover.entries tr () <+: Handover.arrivals tr () := by
  obtain ⟨y, hy, hf, ha⟩ : ∃ y ∈ playPair 20,
      y.1.thread true = .busy
        { lock := (), pc := .critical, prev := some false, expected := some false } ∧
      Handover.arrivals y.2 () = [false, true] := by decide
  obtain ⟨hexcl, horder⟩ := exclusion_and_order (run_of_mem_playPair hy) ()
  have hin : Inside y.1 () true := ⟨_, hf, rfl, rfl⟩
  exact ⟨y.2, y.1, run_of_mem_playPair hy, hin, fun h => by simpa using hexcl _ _ hin h, ha, horder⟩

/-- What a handler has in its hands when it follows a pointer. -/
def Frame.Holds (f : Frame H L) : Prop :=
  (f.pc = .storeLocked ∨ f.pc = .writePrevNext ∨ f.pc = .awaitUnlocked → f.prev.isSome = true) ∧
    (f.pc = .writeUnlocked → f.next.isSome = true)

/-- At `loadNext` there is a successor. -/
theorem next_isSome (hr : (system H L).Run tr s) {f : Frame H L} (hf : s.thread h = .busy f)
    (hpc : f.pc = .loadNext) : (s.memory.descriptor h).next.isSome = true := by
  have hI := (shown_of_run hr).inv
  have hp : (queues s).place h = .loading f.lock := by simp [queues, place, hf, Frame.place, hpc]
  have hhd := hI.head?_eq (h := h) (k := f.lock) (by rw [hp]; rfl)
    (by rw [hp]; simp [Handover.Place.Behind])
  have := hI.front f.lock h hhd
  simp only [Handover.Front, hp] at this
  exact Option.isSome_iff_ne_none.2 this

theorem Frame.Holds.exec {m m' : Memory H L} {f f' : Frame H L} {b : Bool}
    {e : Option (Handover.Event H L)} (hf : f.Holds)
    (hnext : f.pc = .loadNext → (m.descriptor h).next.isSome = true)
    (hx : exec m h f b = some (m', .busy f', e)) : f'.Holds := by
  unfold RdmaMcsLock.exec at hx
  cases hpc : f.pc <;>
    simp only [hpc, Option.some.injEq, Prod.mk.injEq, Option.map_eq_some_iff, reduceCtorEq, false_and,
      and_false, exists_false] at hx
  case exchangeTail =>
    split at hx <;> simp only [Option.some.injEq, Prod.mk.injEq, Thread.busy.injEq] at hx <;>
      obtain ⟨-, rfl, -⟩ := hx
    · cases ht : m.tail f.lock <;> simp [Holds]
    · simp [Holds]
  case casTail =>
    split at hx <;> simp only [Option.some.injEq, Prod.mk.injEq, Thread.busy.injEq, reduceCtorEq,
      false_and, and_false] at hx
    obtain ⟨-, rfl, -⟩ := hx
    simp [Holds]
  case storeLocked =>
    obtain ⟨-, hf', -⟩ := hx
    cases hf'
    have := hf.1 (Or.inl hpc)
    simpa [Holds] using this
  case writePrevNext =>
    obtain ⟨p, hp, -, hf', -⟩ := hx
    cases hf'
    simp [Holds, hp]
  case awaitUnlocked =>
    obtain ⟨-, hf', -⟩ := hx
    cases hf'
    have := hf.1 (Or.inr (Or.inr hpc))
    cases (m.descriptor h).locked <;> simp [Holds, this]
  case awaitNext =>
    obtain ⟨-, hf', -⟩ := hx
    cases hf'
    cases (m.descriptor h).next <;> simp [Holds]
  case loadNext =>
    obtain ⟨-, hf', -⟩ := hx
    cases hf'
    simpa [Holds] using hnext hpc
  all_goals
    obtain ⟨-, hf', -⟩ := hx
    cases hf'
    simp [Holds]

theorem holds_of_run (hr : (system H L).Run tr s) {f : Frame H L} (hf : s.thread h = .busy f) :
    f.Holds := by
  revert h f
  refine hr.invariant (I := fun _ s => ∀ {h f}, s.thread h = .busy f → f.Holds) ?_ ?_
  · intro s hs h f hf
    simp [hs.2 h] at hf
  · intro tr s e s' hr ih hstep g f' hf'
    obtain ⟨h, a, ha⟩ := hstep
    by_cases hg : g = h
    · subst hg
      obtain ⟨l, -, -, -, rfl⟩ | ⟨b, f, m, t, -, hf, hx, rfl⟩ := Machine.step_cases ha
      · simp only [Function.update_self, Thread.busy.injEq] at hf'
        subst hf'
        simp [Frame.Holds, Frame.start]
      · simp only [Function.update_self] at hf'
        subst hf'
        exact (ih hf).exec (next_isSome hr hf) hx
    · exact ih (by rwa [← Machine.thread_of_ne ha hg])

/-- A handler inside `Lock` or `Unlock` always has a next access. -/
theorem exec_isSome (hr : (system H L).Run tr s) {f : Frame H L} (hf : s.thread h = .busy f)
    (b : Bool) : (exec s.memory h f b).isSome = true := by
  obtain ⟨hprev, hnext⟩ := holds_of_run hr hf
  unfold exec
  cases hpc : f.pc <;> simp only [Option.isSome_some]
  case exchangeTail | casTail => split <;> rfl
  case writePrevNext => simpa only [Option.isSome_map] using hprev (Or.inr (Or.inl hpc))
  case writeUnlocked => simpa only [Option.isSome_map] using hnext hpc

/-- A store into the descriptor of another handler finds it in the queue of the same lock. -/
theorem queued_of_store (hr : (system H L).Run tr s) {f : Frame H L} {m : Memory H L} {b : Bool}
    {t : Thread (Frame H L)} {e : Option (Handover.Event H L)} (hf : s.thread h = .busy f)
    (hx : exec s.memory h f b = some (m, t, e)) (hg : g ≠ h)
    (hne : m.descriptor g ≠ s.memory.descriptor g) : Queued s f.lock g := by
  have hI := (shown_of_run hr).inv
  unfold exec at hx
  cases hpc : f.pc <;>
    simp only [hpc, Option.some.injEq, Prod.mk.injEq, Option.map_eq_some_iff] at hx
  case exchangeTail | casTail =>
    split at hx <;> simp only [Option.some.injEq, Prod.mk.injEq] at hx <;> obtain ⟨rfl, -, -⟩ := hx <;>
      exact absurd rfl hne
  case writePrevNext =>
    obtain ⟨p, hp, rfl, -, -⟩ := hx
    obtain rfl : g = p := by
      by_contra hgp
      exact hne (Function.update_of_ne hgp _ _)
    refine (hI.mem_iff f.lock g).1 (hI.adj_of_linking (h := h) (b := true) ?_).left_mem
    simp [queues, place, hf, Frame.place, hpc, hp]
  case writeUnlocked =>
    obtain ⟨n, hn, rfl, -, -⟩ := hx
    obtain rfl : g = n := by
      by_contra hgn
      exact hne (Function.update_of_ne hgn _ _)
    obtain ⟨l, hl, -, -⟩ := hI.granting (h := h) (k := f.lock) (n := g)
      (by simp [queues, place, hf, Frame.place, hpc, hn])
    exact (hI.mem_iff f.lock g).1 (by simp [hl])
  case resetLocked | resetNext | storeLocked =>
    obtain ⟨rfl, -, -⟩ := hx
    exact absurd (Function.update_of_ne hg _ _) hne
  all_goals
    obtain ⟨rfl, -, -⟩ := hx
    exact absurd rfl hne

/-- In every run: a handler inside `Lock` or `Unlock` follows no null pointer; a handler that is not in
a queue is the only one to write its descriptor, so that it may reset it; and the tail of a lock is
null if and only if no handler is in its queue. -/
theorem descriptors_safe (hr : (system H L).Run tr s) :
    (∀ h f b, s.thread h = .busy f → (exec s.memory h f b).isSome = true) ∧
    (∀ h a s' e g, Machine.step Frame.start exec s h a = some (s', e) → g ≠ h →
      s'.memory.descriptor g ≠ s.memory.descriptor g →
      ∃ f, s.thread h = .busy f ∧ Queued s f.lock g) ∧
    ∀ l, s.memory.tail l = none ↔ ∀ h, ¬ Queued s l h := by
  refine ⟨fun h f b hf => exec_isSome hr hf b, fun h a s' e g hs hg hne => ?_, fun l => ?_⟩
  · obtain ⟨l, -, -, -, rfl⟩ | ⟨b, f, m, t, -, hf, hx, rfl⟩ := Machine.step_cases hs
    · exact absurd rfl hne
    · exact ⟨f, hf, queued_of_store hr hf hx hg hne⟩
  · exact (shown_of_run hr).inv.tail_eq_none_iff

/-- While the lock is handed over it has a tail. -/
theorem descriptors_safe_pair : ∃ tr s, (system Bool Unit).Run tr s ∧
    s.memory.tail () = some true ∧ ∃ h, Queued s () h := by
  obtain ⟨y, hy, ht⟩ : ∃ y ∈ playPair 15, y.1.memory.tail () = some true := by decide
  have hr := run_of_mem_playPair hy
  refine ⟨y.2, y.1, hr, ht, ?_⟩
  by_contra hno
  push Not at hno
  have := ((descriptors_safe hr).2.2 ()).2 hno
  simp [ht] at this

end RdmaMcsLock

end Farlock
