import Mathlib
import Farlock.ThirdParty.ALock.Simulation
import Farlock.FARLockG.Safety

/-!
# ALock is safe

What `Farlock.Lib.Cohort` and `Farlock.Lib.Handover` say, said of `third_party/locks/a_lock.h`, for any
number of handlers and locks and for any budgets.

* `exclusion_and_lines`: mutual exclusion, and first come, first served within a class;
* `bypassed_at_most`, `batch_at_most`: what the budgets bound;
* `descriptors_kept`: no null pointer is followed, a descriptor is written by others only while its owner
  is in the queue, the budgets stay in their range, and the tails say which queues are empty;
* `no_entry_of_budget_zero`: what happens with a budget of zero.
-/

namespace Farlock

namespace ALock

open TwoParty

variable {H L : Type} [DecidableEq H] [DecidableEq L] {C : Cluster H L} {B : LockConfig}
  {tr tr' : List (L × Cohort.Event H Side)} {s s' : State H L} {l : L} {c : Side} {g h : H}

/-- Handler `h` is in its critical section of lock `l`. -/
def Inside (s : State H L) (l : L) (h : H) : Prop :=
  ∃ f, s.thread h = .busy f ∧ f.lock = l ∧ f.pc = .critical

/-- Handler `h` of class `c` has exchanged the tail of lock `l` in `Lock` and not left the queue in
`Unlock`. -/
def Queued (C : Cluster H L) (s : State H L) (c : Side) (l : L) (h : H) : Prop :=
  ((queues C c s).place h).queue = some l

/-- The first handler of a queue is in the critical section. -/
theorem inside_spec (hr : (system C B).Run tr s) (hh : Inside s l h) :
    ((cohorts B tr l).line (C.side h l)).head? = some h ∧
      (cohorts B tr l).inside (C.side h l) = true := by
  obtain ⟨f, hf, rfl, hpc⟩ := hh
  obtain ⟨hhd, hH⟩ := (sim_of_run hr).first hf (by simp [Frame.place, hpc, Handover.Place.queue])
    (by simp [Frame.place, hpc, Handover.Place.Behind])
  simp only [Head, hpc] at hH
  exact ⟨hhd, hH.1⟩

/-- At most one handler, of whatever class, is in the critical section of a lock; and the handlers of
one class enter it in the order of their tail exchanges, and leave it in this order. -/
theorem exclusion_and_lines (hr : (system C B).Run tr s) (l : L) :
    (∀ g h, Inside s l g → Inside s l h → g = h) ∧
    ∀ c, Cohort.departures (onLock l tr) c <+: Cohort.entries (onLock l tr) c ∧
      Cohort.entries (onLock l tr) c <+: Cohort.arrivals (onLock l tr) c := by
  have hS := sim_of_run hr
  refine ⟨fun g h hg hh => ?_, fun c => ?_⟩
  · obtain ⟨hhd, hin⟩ := inside_spec hr hg
    obtain ⟨hhd', hin'⟩ := inside_spec hr hh
    rcases eq_or_other (C.side g l) (C.side h l) with hc | hc
    · rw [hc] at hhd'
      exact Option.some.inj (hhd.symm.trans hhd')
    · rw [hc, (hS.inv l).excl hin] at hin'
      cases hin'
  · obtain ⟨harr, hent⟩ := Cohort.order (hS.run l) c
    rw [harr, hent]
    refine ⟨List.prefix_append _ _, (List.prefix_append_right_inj _).2 ?_⟩
    unfold Cohort.State.turn
    split_ifs with hin
    · cases (cohorts B tr l).line c <;> simp
    · simp

/-- The accesses of the two handlers of node 0 and the one of node 1, in some order. -/
def playTrio (B : LockConfig) (sched : List (Fin 3 × Act Unit)) :
    Option (State (Fin 3) Unit × List (Unit × Cohort.Event (Fin 3) Side)) :=
  Machine.play Frame.start (exec FARLockG.trio B) ⟨⟨fun _ => {}, fun _ _ => {}⟩, fun _ => .idle⟩ sched

theorem run_of_mem_playTrio {sched : List (Fin 3 × Act Unit)}
    {y : State (Fin 3) Unit × List (Unit × Cohort.Event (Fin 3) Side)} (hy : y ∈ playTrio B sched) :
    (system FARLockG.trio B).Run y.2 y.1 :=
  Machine.run_of_mem_play (fun _ => rfl) hy

/-- Handler 0 has handed the lock over to handler 1. -/
theorem exclusion_and_lines_trio : ∃ tr s, (system FARLockG.trio ⟨2, 2⟩).Run tr s ∧ Inside s () 1 ∧
    (∀ h, Inside s () h → h = 1) ∧ Cohort.arrivals (onLock () tr) .loc = [0, 1] ∧
    Cohort.departures (onLock () tr) .loc <+: Cohort.entries (onLock () tr) .loc := by
  obtain ⟨y, hy, hf, ha⟩ : ∃ y ∈ playTrio ⟨2, 2⟩ ((0, .call ()) :: Clients.steps 0 7 ++
        (1, .call ()) :: Clients.steps 1 4 ++ Clients.steps 0 6 ++ Clients.steps 1 3),
      y.1.thread 1 = .busy { lock := (), pc := .critical, prev := some 0 } ∧
      Cohort.arrivals (onLock () y.2) .loc = [0, 1] := by decide
  have hr := run_of_mem_playTrio hy
  have hin : Inside y.1 () 1 := ⟨_, hf, rfl, rfl⟩
  obtain ⟨hexcl, horder⟩ := exclusion_and_lines hr ()
  exact ⟨y.2, y.1, hr, hin, fun h hh => hexcl h 1 hh hin, ha, (horder .loc).1⟩

/-- After a class has named itself the victim, the other class enters the critical section as often as
its budget says at most (and once with a budget of zero) before the class does. -/
theorem bypassed_at_most (hr : (system C B).Run (tr ++ (l, .request c h) :: tr') s)
    (hno : Cohort.entries (onLock l tr') c = []) :
    (Cohort.entries (onLock l tr') (other c)).length ≤ max (B.budget (other c)) 1 := by
  have hrun := (sim_of_run hr).run l
  have hev : onLock l (tr ++ (l, .request c h) :: tr') =
      onLock l tr ++ .request c h :: onLock l tr' := by
    simp [onLock]
  rw [hev] at hrun
  obtain ⟨-, hle⟩ := Cohort.bypass hrun hno
  have := Cohort.ahead_nonneg B.budget (cohorts B (tr ++ (l, .request c h) :: tr') l) c
  omega

/-- What two handlers of one class and a handler of the other one do with budgets of two. -/
def overtaken (g h i : Fin 3) : List (Fin 3 × Act Unit) :=
  (g, .call ()) :: Clients.steps g 6 ++ (h, .call ()) :: Clients.steps h 4 ++
    (i, .call ()) :: Clients.steps i 7 ++ Clients.steps g 6 ++ Clients.steps h 3

/-- Handlers 0 and 1 overtake handler 2, and nobody else may. -/
theorem bypassed_at_most_trio : ∃ tr tr' s,
    (system FARLockG.trio ⟨2, 2⟩).Run (tr ++ ((), .request .rem 2) :: tr') s ∧
    Cohort.entries (onLock () tr') .loc = [0, 1] ∧
    (Cohort.entries (onLock () tr') .loc).length ≤ max (LockConfig.budget ⟨2, 2⟩ .loc) 1 := by
  obtain ⟨y, hy, ha⟩ : ∃ y ∈ playTrio ⟨2, 2⟩ (overtaken 0 1 2),
      y.2 = [((), .arrive .loc 0), ((), .request .loc 0), ((), .pass .loc 0), ((), .arrive .loc 1),
          ((), .arrive .rem 2)] ++
        ((), .request .rem 2) :: [((), .enter .loc 0), ((), .leave .loc 0), ((), .enter .loc 1)] := by
    decide
  have hr := run_of_mem_playTrio hy
  rw [ha] at hr
  exact ⟨_, _, _, hr, rfl, bypassed_at_most hr rfl⟩

/-- From one win of Peterson's algorithm to the next one a class enters the critical section as often
as its budget says at most (and once with a budget of zero). -/
theorem batch_at_most (hr : (system C B).Run (tr ++ (l, .pass c h) :: tr') s)
    (hno : ∀ g, (l, .pass c g) ∉ tr') :
    (Cohort.entries (onLock l tr') c).length ≤ max (B.budget c) 1 := by
  have hrun := (sim_of_run hr).run l
  have hev : onLock l (tr ++ (l, .pass c h) :: tr') =
      onLock l tr ++ .pass c h :: onLock l tr' := by
    simp [onLock]
  rw [hev] at hrun
  have hle := Cohort.batch hrun fun g hg => by
    obtain ⟨x, hx, hxe⟩ := List.mem_filterMap.1 hg
    split_ifs at hxe with hl
    obtain ⟨l', x⟩ := x
    cases hxe
    cases hl
    exact hno g hx
  have := Cohort.allowed_nonneg (cohorts B (tr ++ (l, .pass c h) :: tr') l) c
  omega

/-- Handlers 0 and 1 make up a batch. -/
theorem batch_at_most_trio : ∃ tr tr' s,
    (system FARLockG.trio ⟨2, 2⟩).Run (tr ++ ((), .pass .loc 0) :: tr') s ∧
    Cohort.entries (onLock () tr') .loc = [0, 1] ∧
    (Cohort.entries (onLock () tr') .loc).length ≤ max (LockConfig.budget ⟨2, 2⟩ .loc) 1 := by
  obtain ⟨y, hy, ha⟩ : ∃ y ∈ playTrio ⟨2, 2⟩ (overtaken 0 1 2),
      y.2 = [((), .arrive .loc 0), ((), .request .loc 0)] ++ ((), .pass .loc 0) ::
        [((), .arrive .loc 1), ((), .arrive .rem 2), ((), .request .rem 2), ((), .enter .loc 0),
          ((), .leave .loc 0), ((), .enter .loc 1)] := by
    decide
  have hr := run_of_mem_playTrio hy
  rw [ha] at hr
  exact ⟨_, _, _, hr, rfl, batch_at_most hr (by simp)⟩

/-- With a budget of zero for a class, the lock is lost as soon as a handler of this class leaves it
with another one behind it: nobody of either class ever enters it again. -/
theorem no_entry_of_budget_zero (hB : B.budget c = 0)
    (hr : (system C B).Run (tr ++ (l, .leave c h) :: tr') s)
    (hbehind : (Cohort.departures (onLock l tr) c).length + 1 <
      (Cohort.arrivals (onLock l tr) c).length) (c' : Side) :
    Cohort.entries (onLock l tr') c' = [] := by
  have hrun := (sim_of_run hr).run l
  have hev : onLock l (tr ++ (l, .leave c h) :: tr') =
      onLock l tr ++ .leave c h :: onLock l tr' := by
    simp [onLock]
  rw [hev] at hrun
  exact (Cohort.no_entry_after_leave hrun hB.le hbehind).2 c'

/-- Handler `h` stands behind handler `g`, which leaves before handler `i` comes. -/
def stranded (g h i : Fin 3) : List (Fin 3 × Act Unit) :=
  (g, .call ()) :: Clients.steps g 7 ++ (h, .call ()) :: Clients.steps h 4 ++ Clients.steps g 5 ++
    (i, .call ()) :: Clients.steps i 7

/-- Handler 1 waits for a budget for ever, and handler 2 cannot pass it. -/
theorem no_entry_of_budget_zero_trio : ∃ tr tr' s,
    (system FARLockG.trio ⟨0, 0⟩).Run (tr ++ ((), .leave .loc 0) :: tr') s ∧
    tr' = [((), .arrive .rem 2), ((), .request .rem 2)] ∧
    Cohort.entries (onLock () tr') .loc = [] := by
  obtain ⟨y, hy, ha⟩ : ∃ y ∈ playTrio ⟨0, 0⟩ (stranded 0 1 2),
      y.2 = [((), .arrive .loc 0), ((), .request .loc 0), ((), .pass .loc 0), ((), .enter .loc 0),
          ((), .arrive .loc 1)] ++
        ((), .leave .loc 0) :: [((), .arrive .rem 2), ((), .request .rem 2)] := by
    decide
  have hr := run_of_mem_playTrio hy
  rw [ha] at hr
  exact ⟨_, _, _, hr, rfl, no_entry_of_budget_zero rfl hr (by decide) .loc⟩

/-- A handler inside `Lock` or `Unlock` always has a next access. -/
theorem exec_isSome (hr : (system C B).Run tr s) {f : Frame H L} (hf : s.thread h = .busy f)
    (b : Bool) : (exec C B s.memory h f b).isSome = true := by
  obtain ⟨hprev, hnext, -⟩ := (sim_of_run hr).holds h f hf
  unfold exec
  cases hpc : f.pc <;> simp only [Option.isSome_some]
  case exchangeTail | casTail | loadTail | loadVictim | readPair | readTail | readVictim =>
    split <;> rfl
  case storePrevNext => simpa only [Option.isSome_map] using hprev (Or.inl hpc)
  case storeNextBudget => simpa only [Option.isSome_map] using hnext (Or.inr hpc)

/-- A store into the descriptor of another handler finds it in the queue of the same lock. -/
theorem queued_of_store (hr : (system C B).Run tr s) {f : Frame H L} {m : Memory H L} {b : Bool}
    {t : Thread (Frame H L)} {e : Option (L × Cohort.Event H Side)} (hf : s.thread h = .busy f)
    (hx : exec C B s.memory h f b = some (m, t, e)) (hg : g ≠ h)
    (hne : m.descriptor c g ≠ s.memory.descriptor c g) :
    c = C.side h f.lock ∧ Queued C s c f.lock g := by
  have hI := (sim_of_run hr).queue (C.side h f.lock)
  have hpl := place_of_busy (C := C) hf rfl
  unfold exec at hx
  cases hpc : f.pc <;>
    simp only [hpc, Option.some.injEq, Prod.mk.injEq, Option.map_eq_some_iff] at hx
  case exchangeTail | casTail | loadTail | loadVictim | readPair | readTail | readVictim =>
    split at hx <;> simp only [Option.some.injEq, Prod.mk.injEq] at hx <;> obtain ⟨rfl, -, -⟩ := hx <;>
      exact absurd rfl hne
  case storePrevNext =>
    obtain ⟨p, hp, rfl, -, -⟩ := hx
    obtain ⟨rfl, rfl⟩ : c = C.side h f.lock ∧ g = p := by
      by_contra hcp
      exact hne (if_neg hcp)
    refine ⟨rfl, (hI.mem_iff f.lock g).1 (hI.adj_of_linking (h := h) (b := true) ?_).left_mem⟩
    rw [hpl]
    simp [Frame.place, hpc, hp]
  case storeNextBudget =>
    obtain ⟨n, hn, rfl, -, -⟩ := hx
    obtain ⟨rfl, rfl⟩ : c = C.side h f.lock ∧ g = n := by
      by_contra hcp
      exact hne (if_neg hcp)
    obtain ⟨l, hl, -, -⟩ := hI.granting (h := h) (k := f.lock) (n := g) (by
      rw [hpl]
      simp [Frame.place, hpc, hn])
    exact ⟨rfl, (hI.mem_iff f.lock g).1 (by simp [hl])⟩
  case resetBudget | resetNext | storeBudget | clearNext =>
    obtain ⟨rfl, -, -⟩ := hx
    exact absurd (if_neg fun h => hg h.2) hne
  all_goals
    obtain ⟨rfl, -, -⟩ := hx
    exact absurd rfl hne

theorem budget_nonneg (B : LockConfig) (c : Side) : 0 ≤ B.budget c := by
  cases c <;> exact Int.natCast_nonneg _

/-- What is stored as a budget is between `-1` and the budget of the class. -/
theorem budget_le (hr : (system C B).Run tr s) {f : Frame H L} {m : Memory H L} {b : Bool}
    {t : Thread (Frame H L)} {e : Option (L × Cohort.Event H Side)} (hf : s.thread h = .busy f)
    (hx : exec C B s.memory h f b = some (m, t, e))
    (hne : (m.descriptor c g).budget ≠ (s.memory.descriptor c g).budget) :
    -1 ≤ (m.descriptor c g).budget ∧ (m.descriptor c g).budget ≤ B.budget c := by
  have hS := sim_of_run hr
  have hB := budget_nonneg B c
  obtain hb | ⟨rfl, ⟨-, hb | hb⟩ | ⟨hpc, hn, hb⟩⟩ := exec_budget hx c g
  · exact absurd hb hne
  · omega
  · omega
  · obtain ⟨hhd, hH⟩ := hS.first hf (by simp [Frame.place, hpc, hn, Handover.Place.queue])
      (by simp [Frame.place, hpc, hn, Handover.Place.Behind])
    simp only [Head, hpc] at hH
    have hI := hS.inv f.lock
    have hle := hI.left_le (C.side h f.lock)
    have hpos := hI.left_pos (C.side h f.lock) (hI.inside _ hH.1)
    omega

/-- In every run: a handler inside `Lock` or `Unlock` follows no null pointer; what a step changes in
the descriptor of another handler, it changes while that one is in the queue; no budget leaves its
range, so that 64 bits are enough; and the tail of a queue is null if and only if no handler is in
it. -/
theorem descriptors_kept (hr : (system C B).Run tr s) :
    (∀ h f b, s.thread h = .busy f → (exec C B s.memory h f b).isSome = true) ∧
    (∀ h a s' e c g, Machine.step Frame.start (exec C B) s h a = some (s', e) →
      s'.memory.descriptor c g ≠ s.memory.descriptor c g →
      (g ≠ h → ∃ l, Queued C s c l g) ∧
      ((s'.memory.descriptor c g).budget ≠ (s.memory.descriptor c g).budget →
        -1 ≤ (s'.memory.descriptor c g).budget ∧ (s'.memory.descriptor c g).budget ≤ B.budget c)) ∧
    ∀ l c, (s.memory.locks l).tail c = none ↔ ∀ h, ¬ Queued C s c l h := by
  refine ⟨fun h f b hf => exec_isSome hr hf b, fun h a s' e c g hs hne => ?_, fun l c => ?_⟩
  · obtain ⟨l, -, -, -, rfl⟩ | ⟨b, f, m, t, -, hf, hx, rfl⟩ := Machine.step_cases hs
    · exact absurd rfl hne
    · exact ⟨fun hg => ⟨_, (queued_of_store hr hf hx hg hne).2⟩, budget_le hr hf hx⟩
  · exact ((sim_of_run hr).queue c).tail_eq_none_iff

/-- While handler 1 stands behind handler 0, the local tail is not null. -/
theorem descriptors_kept_trio : ∃ tr s, (system FARLockG.trio ⟨2, 2⟩).Run tr s ∧
    (s.memory.locks ()).tail .loc = some 1 ∧ ∃ h, Queued FARLockG.trio s .loc () h := by
  obtain ⟨y, hy, ht⟩ : ∃ y ∈ playTrio ⟨2, 2⟩ ((0, .call ()) :: Clients.steps 0 7 ++
        (1, .call ()) :: Clients.steps 1 4),
      (y.1.memory.locks ()).tail .loc = some 1 := by decide
  have hr := run_of_mem_playTrio hy
  refine ⟨y.2, y.1, hr, ht, ?_⟩
  by_contra hno
  push Not at hno
  have := ((descriptors_kept hr).2.2 () .loc).2 hno
  simp [ht] at this

end ALock

end Farlock
