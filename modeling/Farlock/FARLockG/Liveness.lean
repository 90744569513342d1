import Mathlib
import Farlock.FARLockG.Traces
import Farlock.Liveness

/-!
# FARLockG starves nobody

`lively`: the handlers of FARLockG go on by themselves.  A handler that is ready comes to a later
program point with every access (`Pc.order`), and the loads in the loop of `LockPetersons` are those of
`LoopStep` (`loops`).

* `no_null_or_failed_assert`: a handler at work has a next access, whatever the others do;
* `every_handler_served`: in a fair execution every handler that has exchanged the tail of a queue
  enters the critical section, and leaves it.
-/

namespace Farlock

namespace FARLockG

open Spec TwoParty
open Clients (steps)

variable {H L : Type} [DecidableEq H] [DecidableEq L] {C : Cluster H L} {B : LockConfig}
  {hB : B.Positive} {tr : List (L × Event H UInt64)} {s s' : State H L} {k : L → Spec.State H}
  {pos : H → ℕ} {h : H} {f f' : Frame H L} {b : Bool} {x : Option (L × Event H UInt64)} {c : Side}

/-- The program points in the order of a handler's way.  `LockRemote` loads the budget before it
loads `next_`. -/
def Pc.order (c : Side) (pc : Pc) : ℕ :=
  if c = .rem ∧ pc = .loadBudget then 2 * Pc.loadNextBatch.ctorIdx - 1 else 2 * pc.ctorIdx

omit [DecidableEq H] [DecidableEq L] in
theorem order_le (c : Side) (pc : Pc) : pc.order c ≤ 120 := by
  cases c <;> cases pc <;> decide

/-- The loads in the loop of `LockPetersons`. -/
def Pc.access : Pc → Option LoopAccess
  | .loadFlag => some .loadFlag
  | .loadVictim => some .loadVictim
  | .readPair => some .readPair
  | .readFlag => some .readFlag
  | .readVictim => some .readVictim
  | _ => none

/-- No access leads back. -/
theorem phase_le (hx : exec C B s h f b = some (s', x)) (hf' : s'.thread h = .busy f') :
    f.phase.rank ≤ f'.phase.rank := by
  have key : ∀ {g : Frame H L}, s'.thread = Function.update s.thread h (.busy g) →
      f.phase.rank ≤ g.phase.rank → f.phase.rank ≤ f'.phase.rank := by
    intro g hg hle
    rw [hg, Function.update_self] at hf'
    cases hf'
    exact hle
  cases hpc : f.pc
  case exchangeTail | awaitGranted =>
    simp only [exec, hpc] at hx
    split_ifs at hx <;> simp only [Option.some.injEq, Prod.mk.injEq] at hx <;> obtain ⟨rfl, -⟩ := hx
    all_goals exact key rfl (by simp only [Frame.phase, hpc]; decide)
  case casTail =>
    simp only [exec, hpc] at hx
    split_ifs at hx <;> simp only [Option.some.injEq, Prod.mk.injEq] at hx <;> obtain ⟨rfl, -⟩ := hx
    · simp at hf'
    · exact key rfl (by simp only [Frame.phase, hpc]; decide)
  case assertBudget =>
    simp only [exec, hpc, Option.ite_none_right_eq_some, Option.some.injEq, Prod.mk.injEq] at hx
    obtain ⟨-, rfl, -⟩ := hx
    exact key rfl (by simp only [Frame.phase, hpc]; decide)
  case storeNextBudget | storeInitBudget =>
    simp only [exec, hpc, Option.map_eq_some_iff, Prod.mk.injEq] at hx
    obtain ⟨n, -, rfl, -⟩ := hx
    refine key rfl ?_
    rw [phase_await]
    simp only [Frame.phase, hpc]
    decide
  case storeGranted =>
    simp only [exec, hpc, Option.map_eq_some_iff, Prod.mk.injEq] at hx
    obtain ⟨n, -, rfl, -⟩ := hx
    simp at hf'
  case storePrevNext | loadPrevTicketValid | storePrevReleasable | storeNextBatchTicket =>
    simp only [exec, hpc, Option.map_eq_some_iff, Prod.mk.injEq] at hx
    obtain ⟨n, -, rfl, -⟩ := hx
    refine key rfl ?_
    simp only [Frame.phase, hpc]
    first | decide | (split_ifs <;> decide)
  case storeVictim =>
    simp only [exec, hpc, Option.some.injEq, Prod.mk.injEq] at hx
    obtain ⟨rfl, -⟩ := hx
    refine key rfl ?_
    rw [phase_loop]
    simp only [Frame.phase, hpc]
    decide
  case readPair =>
    simp only [exec, hpc, Option.some.injEq, Prod.mk.injEq] at hx
    obtain ⟨rfl, -⟩ := hx
    refine key rfl ?_
    cases b <;> simp only [Frame.phase, hpc, Bool.false_eq_true, if_true, if_false] <;> split_ifs <;>
      decide
  case readFlag | readVictim =>
    -- whoever has passed with its first load passes with the second
    simp only [exec, hpc, Option.some.injEq, Prod.mk.injEq] at hx
    obtain ⟨rfl, -⟩ := hx
    refine key rfl ?_
    simp only [Frame.test]
    simp only [Frame.phase, hpc]
    split_ifs <;> simp_all [Phase.rank]
  case testNextAgain =>
    simp only [exec, hpc, Option.some.injEq, Prod.mk.injEq] at hx
    obtain ⟨rfl, -⟩ := hx
    refine key rfl ?_
    split_ifs
    · simp only [Frame.phase, hpc]
      decide
    · rw [phase_await]
      simp only [Frame.phase, hpc]
      decide
  all_goals
    simp only [exec, hpc, Option.some.injEq, Prod.mk.injEq] at hx
    obtain ⟨rfl, -⟩ := hx
    refine key rfl ?_
    simp only [Frame.phase, hpc]
    first | decide | (split_ifs <;> decide)

/-- An access of a handler in a queue leads on, outside of the loop of `LockPetersons` and of a spin
loop whose condition does not hold. -/
theorem order_lt (hx : exec C B s h f b = some (s', x)) (hf' : s'.thread h = .busy f')
    (hq : f.phase ≠ .absent) (hw : f.phase ≠ .waiting)
    (hloc : f.pc = .loadNextBudget → C.side h f.lock = .loc)
    (hleave : f.pc.Spins → ¬ f.pc.Loops → CanLeave C s h f) :
    f.pc.order (C.side h f.lock) < f'.pc.order (C.side h f.lock) := by
  have key : ∀ {g : Frame H L}, s'.thread = Function.update s.thread h (.busy g) →
      f.pc.order (C.side h f.lock) < g.pc.order (C.side h f.lock) →
      f.pc.order (C.side h f.lock) < f'.pc.order (C.side h f.lock) := by
    intro g hg hlt
    rw [hg, Function.update_self] at hf'
    cases hf'
    exact hlt
  unfold exec at hx
  unfold CanLeave at hleave
  generalize C.side h f.lock = c at *
  cases hpc : f.pc
  all_goals simp only [Frame.phase, hpc, ne_eq, not_true_eq_false] at hq hw
  all_goals simp only [Pc.Spins, Pc.Loops, hpc] at hleave
  all_goals simp only [hpc] at hx key ⊢
  case storePrevNext | loadPrevTicketValid | storePrevReleasable | storeNextBatchTicket |
      storeNextBudget | storeInitBudget =>
    simp only [Option.map_eq_some_iff, Prod.mk.injEq] at hx
    obtain ⟨n, -, rfl, -⟩ := hx
    refine key rfl ?_
    dsimp only [Frame.await]
    cases c <;> (try simp only [reduceCtorEq, if_true, if_false]) <;>
      first | decide | (split_ifs <;> decide)
  case storeGranted =>
    simp only [Option.map_eq_some_iff, Prod.mk.injEq] at hx
    obtain ⟨n, -, rfl, -⟩ := hx
    simp at hf'
  case assertBudget =>
    simp only [Option.ite_none_right_eq_some, Option.some.injEq, Prod.mk.injEq] at hx
    obtain ⟨-, rfl, -⟩ := hx
    refine key rfl ?_
    dsimp only
    cases c <;> decide
  case awaitGranted =>
    rw [if_pos (hleave (by simp) (by simp))] at hx
    split_ifs at hx <;> simp only [Option.some.injEq, Prod.mk.injEq] at hx <;> obtain ⟨rfl, -⟩ := hx
    all_goals
      refine key rfl ?_
      dsimp only
      cases c <;> decide
  case casTail =>
    split_ifs at hx <;> simp only [Option.some.injEq, Prod.mk.injEq] at hx <;> obtain ⟨rfl, -⟩ := hx
    · simp at hf'
    · refine key rfl ?_
      dsimp only
      cases c <;> decide
  all_goals
    simp only [Option.some.injEq, Prod.mk.injEq] at hx
    obtain ⟨rfl, -⟩ := hx
  case awaitBudget =>
    refine key rfl ?_
    rw [if_neg (hleave (by simp) (by simp))]
    dsimp only
    cases c <;> decide
  case awaitTicket | awaitReleasable =>
    refine key rfl ?_
    rw [if_pos (hleave (by simp) (by simp))]
    dsimp only
    cases c <;> decide
  -- in the loop the handler has passed with its first load
  case readFlag =>
    refine key rfl ?_
    dsimp only [Frame.test]
    rw [if_pos (Or.inr (by simpa using hw))]
    cases c <;> decide
  case readVictim =>
    refine key rfl ?_
    dsimp only [Frame.test]
    rw [if_pos (Or.inl (by simpa using hw))]
    cases c <;> decide
  case loadNextBudget =>
    refine key rfl ?_
    dsimp only
    rw [hloc hpc]
    decide
  case testNextAgain =>
    refine key rfl ?_
    dsimp only [Frame.await]
    split_ifs <;> dsimp only <;> cases c <;> decide
  all_goals
    refine key rfl ?_
    dsimp only [Frame.await]
    cases c <;> (try simp only [reduceCtorEq, if_true, if_false]) <;>
      first | decide | (split_ifs <;> decide)

/-- A handler at work has a next access, whatever the others do. -/
theorem exec_isSome (hS : Sim (view B) (config B hB) C tr s k pos) (hf : s.thread h = .busy f)
    (b : Bool) : (exec C B s h f b).isSome = true := by
  have hof : f.phase ≠ .absent → ¬ f.pc.Loops → (k f.lock).Ready (C.side h f.lock) (pos h) →
      (exec C B s h f b).isSome = true := fun hq hl hready => by
    obtain ⟨s', x, hx⟩ := exists_exec (canMove_of_ready hS hf hq hready fun h => absurd h hl) b
    rw [hx]
    rfl
  cases hpc : f.pc
  case storePrevNext | loadPrevTicketValid | storePrevReleasable | storeNextBatchTicket |
      storeNextBudget | storeInitBudget | assertBudget =>
    -- nothing to wait for at these program points
    have hq : f.phase ≠ .absent := by simp [Frame.phase, hpc]
    have hp := (agrees_of_sim hS hf hq).phase
    refine hof hq (by simp [Pc.Loops, hpc]) ?_
    simp [State.Ready, hp, Frame.phase, hpc]
  case storeGranted =>
    -- the successor has stored its pointer and set `releasable_`
    have hq : f.phase ≠ .absent := by simp [Frame.phase, hpc]
    have hA := agrees_of_sim hS hf hq
    have hk := hA.knows
    simp only [Frame.Knows, hpc] at hk
    refine hof hq (by simp [Pc.Loops, hpc]) ?_
    have hmarked : ((k f.lock).acq (C.side h f.lock) (pos h + 1)).Marked := hk.1
    simp [State.Ready, hA.phase, Frame.phase, hpc, hmarked]
  case exchangeTail | casTail | awaitGranted =>
    simp only [exec, hpc]
    split_ifs <;> rfl
  all_goals simp only [exec, hpc, Option.isSome_some]

/-- Whatever has happened, nobody is about to follow a null pointer or to fail the assertion on its
budget. -/
theorem no_null_or_failed_assert (hB : B.Positive) (hs : (system C B).Reachable s) (h : H)
    (f : Frame H L) (hf : s.thread h = .busy f) (b : Bool) : (exec C B s h f b).isSome = true := by
  obtain ⟨tr, hr⟩ := hs
  obtain ⟨k, pos, hS⟩ := simulated_of_run hB hr
  exact exec_isSome hS hf b

/-- Handler 1 is about to store its address into the descriptor of handler 0. -/
theorem no_null_or_failed_assert_trio : ∃ (s : State (Fin 3) Unit) (f : Frame (Fin 3) Unit),
    (system trio ⟨2, 2⟩).Reachable s ∧ s.thread 1 = .busy f ∧ f.pc = .storePrevNext ∧
    f.prev = some 0 ∧ (exec trio ⟨2, 2⟩ s 1 f true).isSome = true := by
  obtain ⟨y, hy, hf⟩ : ∃ y ∈ playTrio ((0, .call ()) :: steps 0 6 ++ (1, .call ()) :: steps 1 6),
      y.1.thread 1 = .busy { lock := (), pc := .storePrevNext, prev := some 0 } := by decide
  have hreach : (system trio ⟨2, 2⟩).Reachable y.1 := ⟨y.2, State.run_of_mem_play hy⟩
  exact ⟨y.1, _, hreach, hf, rfl, rfl,
    no_null_or_failed_assert ⟨by decide, by decide⟩ hreach 1 _ hf true⟩

theorem climbs (hS : Sim (view B) (config B hB) C tr s k pos) (hf : s.thread h = .busy f)
    (hq : f.phase ≠ .absent) (hw : f.phase ≠ .waiting)
    (hready : (k f.lock).Ready (C.side h f.lock) (pos h)) (hx : exec C B s h f b = some (s', x))
    (hf' : s'.thread h = .busy f') :
    f.pc.order (C.side h f.lock) < f'.pc.order (C.side h f.lock) := by
  refine order_lt hx hf' hq hw (fun hpc => ?_) fun hs hl => ?_
  · have hk := (agrees_of_sim hS hf hq).knows
    simp only [Frame.Knows, hpc] at hk
    exact hk.2.2
  · rcases canMove_of_ready hS hf hq hready (fun h => absurd h hl) with hc | ⟨hn, -⟩ | hc
    · simp [Pc.Spins, Pc.Loops, hc] at hs
    · exact absurd hs hn
    · exact hc

omit [DecidableEq H] [DecidableEq L] in
/-- A remote handler that has loaded both words and stays in the loop has found them against it. -/
theorem test_waiting (hp : f.test.phase = .waiting) :
    f.flag = true ∧ f.victim = some .rem ∧ f.test.pc = .readPair := by
  by_cases ht : f.flag ≠ true ∨ f.victim ≠ some .rem
  · have hpc : f.test.pc = .loadNextTicket := if_pos ht
    simp [Frame.phase, hpc] at hp
  · obtain ⟨hflag, hvictim⟩ := not_or.1 ht
    exact ⟨not_not.1 hflag, not_not.1 hvictim, if_neg ht⟩

/-- An access in the loop of `LockPetersons` that does not lead out of it. -/
theorem loops (hS : Sim (view B) (config B hB) C tr s k pos) (hf : s.thread h = .busy f)
    (hp : f.phase = .waiting) (hx : exec C B s h f b = some (s', x)) (hf' : s'.thread h = .busy f')
    (hp' : f'.phase = .waiting) : ∃ a a', f.pc.access = some a ∧ f'.pc.access = some a' ∧
      LoopStep (s.locks f.lock).victim ((s.locks f.lock).flag (other (C.side h f.lock)))
        (C.side h f.lock) a a' := by
  have hk := (agrees_of_sim hS hf (by simp [hp])).knows
  have key : ∀ {g : Frame H L}, s' = s.goto h g → f' = g := by
    rintro g rfl
    rw [goto_thread, Function.update_self] at hf'
    exact (Thread.busy.inj hf').symm
  cases hpc : f.pc
  case loadFlag =>
    have hc : C.side h f.lock = .loc := by simpa only [Frame.Knows, hpc] using hk
    rw [hc]
    simp only [exec, hpc, Option.some.injEq, Prod.mk.injEq] at hx
    obtain rfl := key hx.1.symm
    have hw : (s.locks f.lock).remoteFlag = true := by
      by_contra hno
      simp [Frame.phase, hno] at hp'
    exact ⟨_, _, rfl, by rw [if_pos hw]; rfl, .loadFlag hw⟩
  case loadVictim =>
    have hc : C.side h f.lock = .loc := by simpa only [Frame.Knows, hpc] using hk
    rw [hc]
    simp only [exec, hpc, Option.some.injEq, Prod.mk.injEq] at hx
    obtain rfl := key hx.1.symm
    have hw : (s.locks f.lock).victim = some .loc := by
      by_contra hno
      simp [Frame.phase, hno] at hp'
    exact ⟨_, _, rfl, by rw [if_pos hw]; rfl, .loadVictim hw⟩
  case readPair =>
    have hc : C.side h f.lock = .rem := by simpa only [Frame.Knows, hpc] using hk
    rw [hc]
    simp only [exec, hpc, Option.some.injEq, Prod.mk.injEq] at hx
    obtain rfl := key hx.1.symm
    cases b with
    | true =>
      have hw : (s.locks f.lock).victim = some .rem := by simpa [Frame.phase] using hp'
      exact ⟨_, _, rfl, rfl, .victimFirst hw⟩
    | false =>
      have hw : (s.locks f.lock).localFlag = true := by simpa [Frame.phase] using hp'
      exact ⟨_, _, rfl, rfl, .flagFirst hw⟩
  case readFlag =>
    have hc : C.side h f.lock = .rem := by simpa only [Frame.Knows, hpc] using hk
    rw [hc]
    simp only [exec, hpc, Option.some.injEq, Prod.mk.injEq] at hx
    obtain rfl := key hx.1.symm
    obtain ⟨hw, -, hpc'⟩ := test_waiting hp'
    exact ⟨_, _, rfl, by rw [hpc']; rfl, .readFlag hw⟩
  case readVictim =>
    have hc : C.side h f.lock = .rem := by simpa only [Frame.Knows, hpc] using hk
    rw [hc]
    simp only [exec, hpc, Option.some.injEq, Prod.mk.injEq] at hx
    obtain rfl := key hx.1.symm
    obtain ⟨-, hw, hpc'⟩ := test_waiting hp'
    exact ⟨_, _, rfl, by rw [hpc']; rfl, .readVictim hw⟩
  all_goals simp [Frame.phase, hpc] at hp

/-- FARLockG goes on. -/
def lively (C : Cluster H L) (hB : B.Positive) : Lively C (Descriptor H) (Frame H L) where
  start l := { lock := l }
  start_lock := view_lock_start B
  exec := exec C B
  view := view B
  config := config B hB
  rank c f := f.pc.order c
  loop f := f.pc.access
  limit := 120
  simulated := simulated_of_run hB
  access := access
  phase_le := phase_le
  rank_le c f := order_le c f.pc
  climbs hS hf hq hw hready hx hf' _ := climbs hS hf hq hw hready hx hf'
  loops := loops

/-- In a fair execution nobody waits for ever: whoever has exchanged the tail of a queue enters the
critical section at some time, and leaves it later, whatever the budgets are. -/
theorem every_handler_served (hB : B.Positive)
    (P : State.Runs (H := H) (fun l => ({ lock := l } : Frame H L)) (exec C B))
    (hP : P.Fair State.Busy) (n : ℕ) (l : L) (c : Side) (h : H)
    (he : P.event n = some (l, .arrive c h)) :
    ∃ m > n, (∃ t, P.event m = some (l, .enter c h t)) ∧ ∃ i > m, P.event i = some (l, .leave c h) :=
  (lively C hB).served P hP (fun _ _ _ => rfl) he

/-- A local and a remote handler in turns. -/
theorem every_handler_served_turns :
    ∃ P : State.Runs (fun l => ({ lock := l } : Frame Bool Unit)) (exec Cluster.pair ⟨1, 1⟩),
      P.Fair State.Busy ∧ P.event 13 = some ((), .arrive .rem true) ∧
      ∃ m > 13, (∃ t, P.event m = some ((), .enter .rem true t)) ∧
        ∃ i > m, P.event i = some ((), .leave .rem true) := by
  let P : State.Runs (fun l => ({ lock := l } : Frame Bool Unit)) (exec Cluster.pair ⟨1, 1⟩) :=
    Clients.alternate _ (show State.Initial (.zero {}) from ⟨fun _ => rfl, fun _ => rfl⟩)
      (fun tr s h f b hr hf => by
        obtain ⟨k, pos, hS⟩ := simulated_of_run one_positive hr
        exact exec_isSome hS hf b) fun _ => ()
  have hP : P.Fair State.Busy := Execution.fair_of_turns fun _ => rfl
  have he : P.event 13 = some ((), .arrive .rem true) := by decide
  exact ⟨P, hP, he, every_handler_served one_positive P hP 13 () .rem true he⟩

end FARLockG

end Farlock
