import Farlock.Algorithm
import Farlock.FARLockG.Progress

/-!
# What can be seen of FARLockG with budget one

`algorithm`: with a budget of one for both classes, FARLockG shows what two lines and a row of
tickets show (`Algorithm.traces_eq`).  A handler never hands its ticket on, and draws its own one
each time.

* `access`: what one access does to the phase of a handler, and what it shows;
* `forward`: a handler that is ready gets on while the other class keeps away from the section.
-/

namespace Farlock

namespace FARLockG

open Spec TwoParty

variable {H L : Type} [DecidableEq H] [DecidableEq L] {C : Cluster H L} {B : LockConfig}
  {hB : B.Positive} {tr : List (L × Event H UInt64)} {s s' : State H L} {h : H} {f : Frame H L}
  {b : Bool} {x : Option (L × Event H UInt64)}

omit [DecidableEq H] [DecidableEq L] in
@[simp] theorem phase_await (f : Frame H L) : f.await.phase = .queued := by
  unfold Frame.await
  cases f.prev <;> rfl

omit [DecidableEq H] [DecidableEq L] in
@[simp] theorem phase_loop (f : Frame H L) (c : Side) :
    ({ f with pc := Pc.loop c } : Frame H L).phase = .waiting := by
  cases c <;> rfl

omit [DecidableEq H] [DecidableEq L] in
theorem phase_test (f : Frame H L) : f.test.phase = .waiting ∨ f.test.phase = .passed := by
  unfold Frame.test
  split_ifs
  · exact Or.inr rfl
  · exact Or.inl rfl

/-- One access. -/
theorem access (hx : exec C B s h f b = some (s', x)) :
    ∃ t, s'.thread = Function.update s.thread h t ∧ Access C (view B) h f t x := by
  cases hpc : f.pc
  case exchangeTail =>
    simp only [exec, hpc] at hx
    split at hx <;> simp only [Option.some.injEq, Prod.mk.injEq] at hx <;> obtain ⟨rfl, rfl⟩ := hx
    · refine ⟨_, rfl, .arrives rfl ?_ ?_ ?_⟩
      · simp only [view, Frame.phase, hpc]
      all_goals
        simp only [view, Frame.phase]
        split_ifs <;> decide
    · exact ⟨_, rfl, .quiet rfl (by simp only [view, Frame.phase, hpc]; decide)⟩
  case assertBudget =>
    simp only [exec, hpc, Option.ite_none_right_eq_some, Option.some.injEq, Prod.mk.injEq] at hx
    obtain ⟨-, rfl, rfl⟩ := hx
    exact ⟨_, rfl, .quiet rfl (by simp only [view, Frame.phase, hpc]; decide)⟩
  case awaitGranted =>
    simp only [exec, hpc] at hx
    split_ifs at hx <;> simp only [Option.some.injEq, Prod.mk.injEq] at hx <;> obtain ⟨rfl, rfl⟩ := hx
    · refine ⟨_, rfl, .shows rfl ?_ ?_ rfl rfl (by simp) fun _ => ?_⟩ <;>
        simp only [view, Frame.phase, hpc] <;> decide
    all_goals exact ⟨_, rfl, .quiet rfl (by simp only [view, Frame.phase, hpc]; decide)⟩
  case storeBatchTicket =>
    simp only [exec, hpc, Option.some.injEq, Prod.mk.injEq] at hx
    obtain ⟨rfl, rfl⟩ := hx
    refine ⟨_, rfl, .shows rfl ?_ ?_ rfl rfl (by simp) fun _ => ?_⟩ <;>
      simp only [view, Frame.phase, hpc] <;> decide
  case casTail =>
    simp only [exec, hpc] at hx
    split at hx <;> simp only [Option.some.injEq, Prod.mk.injEq] at hx <;> obtain ⟨rfl, rfl⟩ := hx
    · exact ⟨_, rfl, .leaves (by simp only [view, Frame.phase, hpc]; rfl)⟩
    · exact ⟨_, rfl, .quiet rfl (by simp only [view, Frame.phase, hpc]; decide)⟩
  case storeNextTicket | storeCurrent =>
    simp only [exec, hpc, Option.some.injEq, Prod.mk.injEq] at hx
    obtain ⟨rfl, rfl⟩ := hx
    refine ⟨_, rfl, .shows rfl ?_ ?_ rfl rfl (by simp) fun _ => ?_⟩ <;>
      simp only [view, Frame.phase, hpc] <;> decide
  case storeFlag | clearFlag | clearFlagFull =>
    simp only [exec, hpc, Option.some.injEq, Prod.mk.injEq] at hx
    obtain ⟨rfl, rfl⟩ := hx
    refine ⟨_, rfl, .hidden rfl ?_ ?_ rfl rfl rfl⟩ <;> simp only [view, Frame.phase, hpc] <;> decide
  case storeVictim =>
    simp only [exec, hpc, Option.some.injEq, Prod.mk.injEq] at hx
    obtain ⟨rfl, rfl⟩ := hx
    have hphase : f.phase = .flagged := by simp only [Frame.phase, hpc]
    refine ⟨_, rfl, .hidden rfl ?_ ?_ rfl rfl rfl⟩ <;> simp only [view, phase_loop, hphase] <;> decide
  case storeNextBudget =>
    simp only [exec, hpc, Option.map_eq_some_iff, Prod.mk.injEq] at hx
    obtain ⟨n, -, rfl, rfl⟩ := hx
    have hphase : f.phase = .drawn := by simp only [Frame.phase, hpc]
    refine ⟨_, rfl, .hidden rfl ?_ ?_ rfl rfl rfl⟩ <;> simp only [view, phase_await, hphase] <;> decide
  case storeGranted =>
    simp only [exec, hpc, Option.map_eq_some_iff, Prod.mk.injEq] at hx
    obtain ⟨n, -, rfl, rfl⟩ := hx
    exact ⟨_, rfl, .leaves (by simp only [view, Frame.phase, hpc]; rfl)⟩
  case storeInitBudget =>
    simp only [exec, hpc, Option.map_eq_some_iff, Prod.mk.injEq] at hx
    obtain ⟨n, -, rfl, rfl⟩ := hx
    have hphase : f.phase = .notify := by simp only [Frame.phase, hpc]
    exact ⟨_, rfl, .quiet rfl (by simp only [view, phase_await, hphase]; decide)⟩
  case storePrevNext | loadPrevTicketValid | storePrevReleasable | storeNextBatchTicket =>
    simp only [exec, hpc, Option.map_eq_some_iff, Prod.mk.injEq] at hx
    obtain ⟨n, -, rfl, rfl⟩ := hx
    refine ⟨_, rfl, .quiet rfl ?_⟩
    simp only [view, Frame.phase, hpc]
    first | decide | (split_ifs <;> decide)
  case readPair =>
    simp only [exec, hpc, Option.some.injEq, Prod.mk.injEq] at hx
    obtain ⟨rfl, rfl⟩ := hx
    refine ⟨_, rfl, .quiet (by cases b <;> rfl) (.loop ?_ ?_)⟩
    · simp only [view, Frame.phase, hpc, true_or]
    · cases b <;> simp only [view, Frame.phase, Bool.false_eq_true, if_true, if_false] <;>
        split_ifs <;> simp
  case readFlag | readVictim =>
    simp only [exec, hpc, Option.some.injEq, Prod.mk.injEq] at hx
    obtain ⟨rfl, rfl⟩ := hx
    refine ⟨_, rfl, .quiet rfl (.loop ?_ (phase_test _))⟩
    simp only [view, Frame.phase, hpc]
    split_ifs <;> simp
  case testNextAgain =>
    simp only [exec, hpc, Option.some.injEq, Prod.mk.injEq] at hx
    obtain ⟨rfl, rfl⟩ := hx
    refine ⟨_, rfl, .quiet (by split <;> rfl) ?_⟩
    have hphase : f.phase = .notify := by simp only [Frame.phase, hpc]
    simp only [view, hphase]
    split
    · simp only [Frame.phase]
      decide
    · rw [phase_await]
      decide
  all_goals
    simp only [exec, hpc, Option.some.injEq, Prod.mk.injEq] at hx
    obtain ⟨rfl, rfl⟩ := hx
    refine ⟨_, rfl, .quiet rfl ?_⟩
    simp only [view, Frame.phase, hpc]
    first | decide | (split_ifs <;> decide)

/-- Where a handler may be that goes on alone: it has not seen the flag of the other class raised,
and keeps its ticket to itself. -/
def Frame.Alone (f : Frame H L) : Prop :=
  f.pc ≠ .loadVictim ∧ f.pc ≠ .readFlag ∧ (f.pc = .readVictim → f.flag = false) ∧
    f.pc ≠ .loadNextBatch ∧ f.pc ≠ .storeNextBatchTicket ∧ f.pc ≠ .loadNextBudget ∧
    f.pc ≠ .loadBudget

omit [DecidableEq H] [DecidableEq L] in
theorem alone_of_still (hf : f.phase.Still) : f.Alone := by
  unfold Frame.phase at hf
  refine ⟨fun hpc => ?_, fun hpc => ?_, fun hpc => ?_, fun hpc => ?_, fun hpc => ?_,
    fun hpc => ?_, fun hpc => ?_⟩ <;> rw [hpc] at hf
  case refine_2 | refine_3 =>
    dsimp only at hf
    split_ifs at hf <;> simp [Phase.Still] at hf
  all_goals simp [Phase.Still] at hf

/-- How far a handler is. -/
def rank (C : Cluster H L) (s : State H L) (h : H) (f : Frame H L) : ℕ :=
  progress C s h f.lock f.expected f.pc.ctorIdx

omit [DecidableEq H] [DecidableEq L] in
theorem ctorIdx_le (pc : Pc) : pc.ctorIdx ≤ 60 := by cases pc <;> decide

/-- A later program point, not in the middle of a round of `LockPetersons` and not on the way to a
hand-over. -/
def Pc.Before (pc pc' : Pc) : Prop :=
  pc.ctorIdx < pc'.ctorIdx ∧ pc' ≠ .loadVictim ∧ pc' ≠ .readFlag ∧ pc' ≠ .readVictim ∧
    pc' ≠ .loadNextBatch ∧ pc' ≠ .storeNextBatchTicket ∧ pc' ≠ .loadNextBudget ∧ pc' ≠ .loadBudget

instance (pc pc' : Pc) : Decidable (pc.Before pc') :=
  inferInstanceAs (Decidable (_ ∧ _ ∧ _ ∧ _ ∧ _ ∧ _ ∧ _ ∧ _))

omit [DecidableEq L] in
theorem alone_of_before {s' : State H L} {f₁ f' : Frame H L}
    (ht : s'.thread = Function.update s.thread h (.busy f₁)) (hpc : f.pc.Before f₁.pc)
    (hf : s'.thread h = .busy f') : f'.Alone ∧ rank C s h f < rank C s' h f' := by
  rw [ht, Function.update_self] at hf
  cases hf
  obtain ⟨hlt, h1, h2, h3, h4⟩ := hpc
  exact ⟨⟨h1, h2, fun h => absurd h h3, h4⟩, progress_lt hlt⟩

/-- Whoever can move has a next access. -/
theorem exists_exec (hmove : CanMove C B s h f) (b : Bool) :
    ∃ s' x, exec C B s h f b = some (s', x) := by
  have hsome : (exec C B s h f b).isSome := by
    rcases hmove with hpc | ⟨-, hs⟩ | hl
    · simp only [exec, hpc, Option.isSome_some]
    · exact hs b
    · unfold CanLeave at hl
      cases hpc : f.pc <;> simp only [hpc] at hl
      case awaitGranted =>
        simp only [exec, hpc, if_pos hl]
        split <;> rfl
      all_goals simp only [exec, hpc, Option.isSome_some]
  obtain ⟨⟨s', x⟩, hex⟩ := Option.isSome_iff_exists.1 hsome
  exact ⟨s', x, hex⟩

/-- A handler that can move and whose class is the only one with its flag up gets on. -/
theorem alone_of_exec (hex : exec C B s h f false = some (s', x)) (halone : f.Alone)
    (hleave : f.pc.Spins → CanLeave C s h f)
    (hflag : f.pc = .loadFlag ∨ f.pc = .readPair →
      (s.locks f.lock).flag (other (C.side h f.lock)) = false)
    (hloc : f.pc = .loadFlag → C.side h f.lock = .loc)
    (hrem : f.pc = .readPair → C.side h f.lock = .rem)
    (hbudget : f.pc = .testLast → (s.descriptor (C.side h f.lock) h).budget = 1) :
    ∀ f', s'.thread h = .busy f' → f'.Alone ∧ rank C s h f < rank C s' h f' := by
  intro f' hf
  cases hpc : f.pc
  all_goals simp only [Pc.Spins, Pc.Loops, hpc, CanLeave] at hleave
  case exchangeTail =>
    simp only [exec, hpc] at hex
    split at hex <;> simp only [Option.some.injEq, Prod.mk.injEq] at hex <;> obtain ⟨rfl, rfl⟩ := hex
    case isTrue ht =>
      refine alone_of_before rfl ?_ hf
      rw [hpc]
      dsimp only
      split_ifs <;> decide
    case isFalse ht =>
      -- the next round expects the tail that is there
      rw [goto_thread, Function.update_self] at hf
      cases hf
      refine ⟨by simp [Frame.Alone], ?_⟩
      simp [rank, progress, ht, hpc]
  case storePrevNext | loadPrevTicketValid =>
    simp only [exec, hpc, Option.map_eq_some_iff, Prod.mk.injEq] at hex
    obtain ⟨n, -, rfl, rfl⟩ := hex
    refine alone_of_before rfl ?_ hf
    rw [hpc]
    dsimp only
    decide
  case storePrevReleasable | storeInitBudget | storeNextBudget =>
    simp only [exec, hpc, Option.map_eq_some_iff, Prod.mk.injEq] at hex
    obtain ⟨n, -, rfl, rfl⟩ := hex
    refine alone_of_before rfl ?_ hf
    rw [hpc]
    dsimp only [Frame.await]
    split_ifs <;> decide
  case awaitBudget =>
    simp only [exec, hpc, Option.some.injEq, Prod.mk.injEq] at hex
    obtain ⟨rfl, rfl⟩ := hex
    refine alone_of_before rfl ?_ hf
    rw [hpc, if_neg (hleave (by simp))]
    dsimp only
    decide
  case storeVictim =>
    simp only [exec, hpc, Option.some.injEq, Prod.mk.injEq] at hex
    obtain ⟨rfl, rfl⟩ := hex
    refine alone_of_before rfl ?_ hf
    rw [hpc]
    dsimp only
    cases C.side h f.lock <;> decide
  case loadFlag =>
    have hdown := hflag (Or.inl hpc)
    rw [hloc hpc] at hdown
    simp only [exec, hpc, Option.some.injEq, Prod.mk.injEq] at hex
    obtain ⟨rfl, rfl⟩ := hex
    refine alone_of_before rfl ?_ hf
    rw [hpc, if_neg (by simpa [LockWords.flag] using hdown)]
    dsimp only
    decide
  case loadVictim => exact absurd hpc halone.1
  case readPair =>
    have hdown := hflag (Or.inr hpc)
    rw [hrem hpc] at hdown
    simp only [exec, hpc, Option.some.injEq, Prod.mk.injEq] at hex
    obtain ⟨rfl, rfl⟩ := hex
    rw [goto_thread, Function.update_self] at hf
    cases hf
    refine ⟨⟨by simp, by simp, fun _ => hdown, by simp⟩, progress_lt ?_⟩
    rw [hpc]
    change Pc.readPair.ctorIdx < Pc.readVictim.ctorIdx
    decide
  case readFlag => exact absurd hpc halone.2.1
  case readVictim =>
    simp only [exec, hpc, Option.some.injEq, Prod.mk.injEq] at hex
    obtain ⟨rfl, rfl⟩ := hex
    refine alone_of_before rfl ?_ hf
    rw [hpc, Frame.test, if_pos (Or.inl (by simp [halone.2.2.1 hpc]))]
    dsimp only
    decide
  case assertBudget =>
    simp only [exec, hpc, Option.ite_none_right_eq_some, Option.some.injEq, Prod.mk.injEq] at hex
    obtain ⟨-, rfl, rfl⟩ := hex
    refine alone_of_before rfl ?_ hf
    rw [hpc]
    dsimp only
    decide
  case testLast =>
    simp only [exec, hpc, Option.some.injEq, Prod.mk.injEq] at hex
    obtain ⟨rfl, rfl⟩ := hex
    refine alone_of_before rfl ?_ hf
    rw [hpc, if_pos (hbudget hpc)]
    dsimp only
    decide
  case loadNextBatch => exact absurd hpc halone.2.2.2.1
  case storeNextBatchTicket => exact absurd hpc halone.2.2.2.2.1
  case loadNextBudget => exact absurd hpc halone.2.2.2.2.2.1
  case loadBudget => exact absurd hpc halone.2.2.2.2.2.2
  case testNextAgain =>
    simp only [exec, hpc, Option.some.injEq, Prod.mk.injEq] at hex
    obtain ⟨rfl, rfl⟩ := hex
    refine alone_of_before rfl ?_ hf
    rw [hpc]
    dsimp only [Frame.await]
    split_ifs <;> dsimp only <;> decide
  case awaitGranted =>
    simp only [exec, hpc, if_pos (hleave (by simp))] at hex
    split at hex <;> simp only [Option.some.injEq, Prod.mk.injEq] at hex <;> obtain ⟨rfl, rfl⟩ := hex
    all_goals
      refine alone_of_before rfl ?_ hf
      rw [hpc]
      dsimp only
      decide
  case awaitTicket =>
    simp only [exec, hpc, if_pos (hleave (by simp)), Option.some.injEq, Prod.mk.injEq] at hex
    obtain ⟨rfl, rfl⟩ := hex
    refine alone_of_before rfl ?_ hf
    rw [hpc]
    dsimp only
    decide
  case casTail =>
    simp only [exec, hpc] at hex
    split at hex <;> simp only [Option.some.injEq, Prod.mk.injEq] at hex <;> obtain ⟨rfl, rfl⟩ := hex
    · simp at hf
    · refine alone_of_before rfl ?_ hf
      rw [hpc]
      dsimp only
      decide
  case awaitReleasable =>
    simp only [exec, hpc, Option.some.injEq, Prod.mk.injEq] at hex
    obtain ⟨rfl, rfl⟩ := hex
    refine alone_of_before rfl ?_ hf
    rw [hpc, if_pos (hleave (by simp))]
    dsimp only
    decide
  case storeGranted =>
    simp only [exec, hpc, Option.map_eq_some_iff, Prod.mk.injEq] at hex
    obtain ⟨n, -, rfl, rfl⟩ := hex
    simp at hf
  case testBudget | testNext | loadTicketValid | testNextUnlock =>
    simp only [exec, hpc, Option.some.injEq, Prod.mk.injEq] at hex
    obtain ⟨rfl, rfl⟩ := hex
    refine alone_of_before rfl ?_ hf
    rw [hpc]
    dsimp only
    split_ifs <;> decide
  all_goals
    simp only [exec, hpc, Option.some.injEq, Prod.mk.injEq] at hex
    obtain ⟨rfl, rfl⟩ := hex
    refine alone_of_before rfl ?_ hf
    rw [hpc]
    dsimp only
    decide

/-- A handler that is ready, while the other class is away from the section, gets on. -/
theorem forward {k : L → Spec.State H} {pos : H → ℕ} (hone : ∀ c, B.kInitBudget c = 1)
    (hS : Sim (view B) (config B hB) C tr s k pos) (hf : s.thread h = .busy f) (halone : f.Alone)
    (hready : f.phase ≠ .absent → (k f.lock).Ready (C.side h f.lock) (pos h) ∧
      (k f.lock).pet.stage (other (C.side h f.lock)) = .idle) :
    ∃ s' x, exec C B s h f false = some (s', x) ∧
      ∀ f', s'.thread h = .busy f' → f'.Alone ∧ rank C s h f < rank C s' h f' := by
  have hmove : CanMove C B s h f := by
    by_cases hq : f.phase = .absent
    · exact canMove_outside hq
    · obtain ⟨hready, hidle⟩ := hready hq
      exact canMove_of_ready hS hf hq hready fun _ _ => Or.inl hidle
  have hleave : f.pc.Spins → CanLeave C s h f := by
    intro hs
    rcases hmove with hc | ⟨hn, -⟩ | hl
    · rw [hc] at hs
      simp [Pc.Spins, Pc.Loops] at hs
    · exact absurd hs hn
    · exact hl
  obtain ⟨s', x, hex⟩ := exists_exec hmove false
  refine ⟨s', x, hex, alone_of_exec hex halone hleave (fun hp => ?_) (fun hp => ?_) (fun hp => ?_)
    fun hp => ?_⟩
  · have hq : f.phase ≠ .absent := by rcases hp with hp | hp <;> simp [Frame.phase, hp]
    rw [(hS.words f.lock).flag, (hready hq).2]
    rfl
  · have hk := (agrees_of_sim hS hf (by simp [Frame.phase, hp])).knows
    simpa only [Frame.Knows, hp] using hk
  · have hk := (agrees_of_sim hS hf (by simp [Frame.phase, hp])).knows
    simpa only [Frame.Knows, hp] using hk
  · -- the budget is used up with the first ticket
    have h9 : 9 ≤ f.phase.rank := by simp [Frame.phase, hp, Phase.rank]
    have hA := agrees_of_sim hS hf (by simp [Frame.phase, hp])
    obtain ⟨hb, h1, -⟩ := budget_eq hS hf h9
    have hown := (hS.reach f.lock).inv.own (C.side h f.lock) (pos h)
    have hle := (hown.budget (hown.has (by rwa [Acq.rank, hA.phase]))).2
    simp only [config, hone] at hle
    rw [hb, show ((k f.lock).acq (C.side h f.lock) (pos h)).budget = 1 from le_antisymm hle h1]
    rfl

/-- A budget of one for both classes. -/
def one : LockConfig := ⟨1, 1⟩

theorem one_positive : one.Positive := ⟨UInt32.le_refl 1, UInt32.le_refl 1⟩

theorem kInitBudget_one (c : Side) : one.kInitBudget c = 1 := by cases c <;> rfl

/-- FARLockG with budget one, seen from outside. -/
def algorithm (C : Cluster H L) : Algorithm C (Descriptor H) (Frame H L) where
  start l := { lock := l }
  exec := exec C one
  descriptor := {}
  view := view one
  config := config one one_positive
  Alone := Frame.Alone
  rank := rank C
  limit := 2 * 60 + 1
  budget_eq c := congrArg UInt64.toNat (kInitBudget_one c)
  blind_eq _ _ := rfl
  simulated := simulated_of_run one_positive
  start_lock := view_lock_start one
  start_phase _ := rfl
  start_alone _ := ⟨by simp, by simp, by simp, by simp, by simp, by simp, by simp⟩
  still_alone _ hf _ := alone_of_still hf
  access := access
  rank_le _ _ f := progress_le (ctorIdx_le f.pc)
  forward := forward kInitBudget_one

end FARLockG

end Farlock
