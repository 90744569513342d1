import Farlock.Algorithm
import Farlock.FARLock.Progress

/-!
# What can be seen of FARLock

`algorithm`: FARLock shows what two lines and a row of tickets show (`Algorithm.traces_eq`).

* `access`: what one access does to the phase of a handler, and what it shows;
* `forward`: a handler that is ready gets on while the other class keeps away from the section.
-/

namespace Farlock

namespace FARLock

open Spec TwoParty

variable {H L : Type} [DecidableEq H] [DecidableEq L] {C : Cluster H L}
  {tr : List (L × Event H UInt64)} {s s' : State H L} {h : H} {f : Frame H L} {b : Bool}
  {x : Option (L × Event H UInt64)}

omit [DecidableEq H] [DecidableEq L] in
@[simp] theorem phase_await (f : Frame H L) : f.await.phase = .queued := by
  unfold Frame.await
  cases f.prev <;> rfl

omit [DecidableEq H] [DecidableEq L] in
@[simp] theorem phase_loop (f : Frame H L) (c : Side) :
    ({ f with pc := Pc.loop c } : Frame H L).phase = .waiting := by
  cases c <;> rfl

omit [DecidableEq H] [DecidableEq L] in
theorem phase_test (f : Frame H L) : f.test.phase = .waiting ∨ f.test.phase = .passed := by
  unfold Frame.test
  split_ifs
  · exact Or.inr rfl
  · exact Or.inl rfl

/-- One access. -/
theorem access (hx : exec C s h f b = some (s', x)) :
    ∃ t, s'.thread = Function.update s.thread h t ∧ Access C view h f t x := by
  cases hpc : f.pc
  case exchangeTail =>
    simp only [exec, hpc] at hx
    split at hx <;> simp only [Option.some.injEq, Prod.mk.injEq] at hx <;> obtain ⟨rfl, rfl⟩ := hx
    · refine ⟨_, rfl, .arrives rfl ?_ ?_ ?_⟩
      · simp only [view, Frame.phase, hpc]
      all_goals
        simp only [view, Frame.phase]
        split_ifs <;> decide
    · exact ⟨_, rfl, .quiet rfl (by simp only [view, Frame.phase, hpc]; decide)⟩
  case awaitTicket =>
    simp only [exec, hpc] at hx
    split at hx <;> simp only [Option.some.injEq, Prod.mk.injEq] at hx <;> obtain ⟨rfl, rfl⟩ := hx
    · refine ⟨_, rfl, .shows rfl ?_ ?_ rfl rfl (by simp) fun _ => ?_⟩ <;>
        simp only [view, Frame.phase, hpc] <;> decide
    · exact ⟨_, rfl, .quiet rfl (by simp only [view, Frame.phase, hpc]; decide)⟩
  case casTail =>
    simp only [exec, hpc] at hx
    split at hx <;> simp only [Option.some.injEq, Prod.mk.injEq] at hx <;> obtain ⟨rfl, rfl⟩ := hx
    · exact ⟨_, rfl, .leaves (by simp only [view, Frame.phase, hpc]; rfl)⟩
    · exact ⟨_, rfl, .quiet rfl (by simp only [view, Frame.phase, hpc]; decide)⟩
  case storeNextTicket | storeCurrent =>
    simp only [exec, hpc, Option.some.injEq, Prod.mk.injEq] at hx
    obtain ⟨rfl, rfl⟩ := hx
    refine ⟨_, rfl, .shows rfl ?_ ?_ rfl rfl (by simp) fun _ => ?_⟩ <;>
      simp only [view, Frame.phase, hpc] <;> decide
  case storeFlag | clearFlag =>
    simp only [exec, hpc, Option.some.injEq, Prod.mk.injEq] at hx
    obtain ⟨rfl, rfl⟩ := hx
    refine ⟨_, rfl, .hidden rfl ?_ ?_ rfl rfl rfl⟩ <;> simp only [view, Frame.phase, hpc] <;> decide
  case storeVictim =>
    simp only [exec, hpc, Option.some.injEq, Prod.mk.injEq] at hx
    obtain ⟨rfl, rfl⟩ := hx
    have hphase : f.phase = .flagged := by simp only [Frame.phase, hpc]
    refine ⟨_, rfl, .hidden rfl ?_ ?_ rfl rfl rfl⟩ <;> simp only [view, phase_loop, hphase] <;> decide
  case storeGranted =>
    simp only [exec, hpc, Option.map_eq_some_iff, Prod.mk.injEq] at hx
    obtain ⟨n, -, rfl, rfl⟩ := hx
    exact ⟨_, rfl, .leaves (by simp only [view, Frame.phase, hpc]; rfl)⟩
  case storeToGetTicket =>
    simp only [exec, hpc, Option.map_eq_some_iff, Prod.mk.injEq] at hx
    obtain ⟨n, -, rfl, rfl⟩ := hx
    have hphase : f.phase = .notify := by simp only [Frame.phase, hpc]
    exact ⟨_, rfl, .quiet rfl (by simp only [view, phase_await, hphase]; decide)⟩
  case storePrevNext | loadPrevTicket | storePrevReleasable =>
    simp only [exec, hpc, Option.map_eq_some_iff, Prod.mk.injEq] at hx
    obtain ⟨n, -, rfl, rfl⟩ := hx
    refine ⟨_, rfl, .quiet rfl ?_⟩
    simp only [view, Frame.phase, hpc]
    first | decide | (split_ifs <;> decide)
  case readPair =>
    simp only [exec, hpc, Option.some.injEq, Prod.mk.injEq] at hx
    obtain ⟨rfl, rfl⟩ := hx
    refine ⟨_, rfl, .quiet (by cases b <;> rfl) (.loop ?_ ?_)⟩
    · simp only [view, Frame.phase, hpc, true_or]
    · cases b <;> simp only [view, Frame.phase, Bool.false_eq_true, if_true, if_false] <;>
        split_ifs <;> simp
  case readFlag | readVictim =>
    simp only [exec, hpc, Option.some.injEq, Prod.mk.injEq] at hx
    obtain ⟨rfl, rfl⟩ := hx
    refine ⟨_, rfl, .quiet rfl (.loop ?_ (phase_test _))⟩
    simp only [view, Frame.phase, hpc]
    split_ifs <;> simp
  case testNext =>
    simp only [exec, hpc, Option.some.injEq, Prod.mk.injEq] at hx
    obtain ⟨rfl, rfl⟩ := hx
    refine ⟨_, rfl, .quiet (by split <;> rfl) ?_⟩
    have hphase : f.phase = .notify := by simp only [Frame.phase, hpc]
    simp only [view, hphase]
    split
    · simp only [Frame.phase]
      decide
    · rw [phase_await]
      decide
  all_goals
    simp only [exec, hpc, Option.some.injEq, Prod.mk.injEq] at hx
    obtain ⟨rfl, rfl⟩ := hx
    refine ⟨_, rfl, .quiet rfl ?_⟩
    simp only [view, Frame.phase, hpc]
    first | decide | (split_ifs <;> decide)

/-- Where a handler may be that goes on alone: it has not seen the flag of the other class
raised. -/
def Frame.Alone (f : Frame H L) : Prop :=
  f.pc ≠ .loadVictim ∧ f.pc ≠ .readFlag ∧ (f.pc = .readVictim → f.flag = false)

omit [DecidableEq H] [DecidableEq L] in
theorem alone_of_still (hf : f.phase.Still) : f.Alone := by
  unfold Frame.phase at hf
  refine ⟨fun hpc => ?_, fun hpc => ?_, fun hpc => ?_⟩ <;> rw [hpc] at hf
  · simp [Phase.Still] at hf
  all_goals
    dsimp only at hf
    split_ifs at hf <;> simp [Phase.Still] at hf

/-- How far a handler is. -/
def rank (C : Cluster H L) (s : State H L) (h : H) (f : Frame H L) : ℕ :=
  progress C s h f.lock f.expected f.pc.ctorIdx

omit [DecidableEq H] [DecidableEq L] in
theorem ctorIdx_le (pc : Pc) : pc.ctorIdx ≤ 40 := by cases pc <;> decide

/-- A later program point, not in the middle of a round of `LockPetersons`. -/
def Pc.Before (pc pc' : Pc) : Prop :=
  pc.ctorIdx < pc'.ctorIdx ∧ pc' ≠ .loadVictim ∧ pc' ≠ .readFlag ∧ pc' ≠ .readVictim

instance (pc pc' : Pc) : Decidable (pc.Before pc') :=
  inferInstanceAs (Decidable (_ ∧ _ ∧ _ ∧ _))

omit [DecidableEq L] in
theorem alone_of_before {s' : State H L} {f₁ f' : Frame H L}
    (ht : s'.thread = Function.update s.thread h (.busy f₁)) (hpc : f.pc.Before f₁.pc)
    (hf : s'.thread h = .busy f') : f'.Alone ∧ rank C s h f < rank C s' h f' := by
  rw [ht, Function.update_self] at hf
  cases hf
  obtain ⟨hlt, h1, h2, h3⟩ := hpc
  exact ⟨⟨h1, h2, fun h => absurd h h3⟩, progress_lt hlt⟩

/-- Whoever can move has a next access. -/
theorem exists_exec (hmove : CanMove C s h f) (b : Bool) : ∃ s' x, exec C s h f b = some (s', x) := by
  have hsome : (exec C s h f b).isSome := by
    rcases hmove with hpc | ⟨-, hs⟩ | hl
    · simp only [exec, hpc, Option.isSome_some]
    · exact hs b
    · unfold CanLeave at hl
      cases hpc : f.pc <;> simp only [hpc] at hl
      case awaitTicket =>
        simp only [exec, hpc]
        split <;> rfl
      all_goals simp only [exec, hpc, Option.isSome_some]
  obtain ⟨⟨s', x⟩, hex⟩ := Option.isSome_iff_exists.1 hsome
  exact ⟨s', x, hex⟩

/-- A handler that can move and whose class is the only one with its flag up gets on. -/
theorem alone_of_exec (hex : exec C s h f false = some (s', x)) (halone : f.Alone)
    (hleave : f.pc.Spins → CanLeave C s h f)
    (hflag : f.pc = .loadFlag ∨ f.pc = .readPair →
      (s.locks f.lock).flag (other (C.side h f.lock)) = false)
    (hloc : f.pc = .loadFlag → C.side h f.lock = .loc)
    (hrem : f.pc = .readPair → C.side h f.lock = .rem)
    (hvalue : f.pc = .awaitTicket → f.value = (s.locks f.lock).currentTicket) :
    ∀ f', s'.thread h = .busy f' → f'.Alone ∧ rank C s h f < rank C s' h f' := by
  intro f' hf
  cases hpc : f.pc
  all_goals simp only [Pc.Spins, hpc, CanLeave] at hleave
  case exchangeTail =>
    simp only [exec, hpc] at hex
    split at hex <;> simp only [Option.some.injEq, Prod.mk.injEq] at hex <;> obtain ⟨rfl, rfl⟩ := hex
    case isTrue ht =>
      refine alone_of_before rfl ?_ hf
      rw [hpc]
      dsimp only
      split_ifs <;> decide
    case isFalse ht =>
      -- the next round expects the tail that is there
      rw [goto_thread, Function.update_self] at hf
      cases hf
      refine ⟨by simp [Frame.Alone], ?_⟩
      simp [rank, progress, ht, hpc]
  case storePrevNext | loadPrevTicket =>
    simp only [exec, hpc, Option.map_eq_some_iff, Prod.mk.injEq] at hex
    obtain ⟨n, -, rfl, rfl⟩ := hex
    refine alone_of_before rfl ?_ hf
    rw [hpc]
    dsimp only
    decide
  case storePrevReleasable | storeToGetTicket =>
    simp only [exec, hpc, Option.map_eq_some_iff, Prod.mk.injEq] at hex
    obtain ⟨n, -, rfl, rfl⟩ := hex
    refine alone_of_before rfl ?_ hf
    rw [hpc]
    dsimp only [Frame.await]
    split_ifs <;> decide
  case waitToGetTicket =>
    simp only [exec, hpc, Option.some.injEq, Prod.mk.injEq] at hex
    obtain ⟨rfl, rfl⟩ := hex
    refine alone_of_before rfl ?_ hf
    rw [hpc, if_pos (hleave (by simp))]
    dsimp only
    decide
  case storeVictim =>
    simp only [exec, hpc, Option.some.injEq, Prod.mk.injEq] at hex
    obtain ⟨rfl, rfl⟩ := hex
    refine alone_of_before rfl ?_ hf
    rw [hpc]
    dsimp only
    cases C.side h f.lock <;> decide
  case loadFlag =>
    have hdown := hflag (Or.inl hpc)
    rw [hloc hpc] at hdown
    simp only [exec, hpc, Option.some.injEq, Prod.mk.injEq] at hex
    obtain ⟨rfl, rfl⟩ := hex
    refine alone_of_before rfl ?_ hf
    rw [hpc, if_neg (by simpa [LockWords.flag] using hdown)]
    dsimp only
    decide
  case loadVictim => exact absurd hpc halone.1
  case readPair =>
    have hdown := hflag (Or.inr hpc)
    rw [hrem hpc] at hdown
    simp only [exec, hpc, Option.some.injEq, Prod.mk.injEq] at hex
    obtain ⟨rfl, rfl⟩ := hex
    rw [goto_thread, Function.update_self] at hf
    cases hf
    refine ⟨⟨by simp, by simp, fun _ => hdown⟩, progress_lt ?_⟩
    rw [hpc]
    change Pc.readPair.ctorIdx < Pc.readVictim.ctorIdx
    decide
  case readFlag => exact absurd hpc halone.2.1
  case readVictim =>
    simp only [exec, hpc, Option.some.injEq, Prod.mk.injEq] at hex
    obtain ⟨rfl, rfl⟩ := hex
    refine alone_of_before rfl ?_ hf
    rw [hpc, Frame.test, if_pos (Or.inl (by simp [halone.2.2 hpc]))]
    dsimp only
    decide
  case awaitPredecessor =>
    simp only [exec, hpc, Option.some.injEq, Prod.mk.injEq] at hex
    obtain ⟨rfl, rfl⟩ := hex
    refine alone_of_before rfl ?_ hf
    rw [hpc, if_pos (hleave (by simp))]
    dsimp only
    decide
  case awaitTicket =>
    simp only [exec, hpc, if_pos (hvalue hpc), Option.some.injEq, Prod.mk.injEq] at hex
    obtain ⟨rfl, rfl⟩ := hex
    refine alone_of_before rfl ?_ hf
    rw [hpc]
    dsimp only
    decide
  case casTail =>
    simp only [exec, hpc] at hex
    split at hex <;> simp only [Option.some.injEq, Prod.mk.injEq] at hex <;> obtain ⟨rfl, rfl⟩ := hex
    · simp at hf
    · refine alone_of_before rfl ?_ hf
      rw [hpc]
      dsimp only
      decide
  case awaitReleasable =>
    simp only [exec, hpc, Option.some.injEq, Prod.mk.injEq] at hex
    obtain ⟨rfl, rfl⟩ := hex
    refine alone_of_before rfl ?_ hf
    rw [hpc, if_pos (hleave (by simp))]
    dsimp only
    decide
  case storeGranted =>
    simp only [exec, hpc, Option.map_eq_some_iff, Prod.mk.injEq] at hex
    obtain ⟨n, -, rfl, rfl⟩ := hex
    simp at hf
  case testNext =>
    simp only [exec, hpc, Option.some.injEq, Prod.mk.injEq] at hex
    obtain ⟨rfl, rfl⟩ := hex
    refine alone_of_before rfl ?_ hf
    rw [hpc]
    dsimp only [Frame.await]
    split_ifs <;> dsimp only <;> decide
  case testNextUnlock =>
    simp only [exec, hpc, Option.some.injEq, Prod.mk.injEq] at hex
    obtain ⟨rfl, rfl⟩ := hex
    refine alone_of_before rfl ?_ hf
    rw [hpc]
    dsimp only
    split_ifs <;> decide
  all_goals
    simp only [exec, hpc, Option.some.injEq, Prod.mk.injEq] at hex
    obtain ⟨rfl, rfl⟩ := hex
    refine alone_of_before rfl ?_ hf
    rw [hpc]
    dsimp only
    decide

/-- A handler that is ready, while the other class is away from the section, gets on. -/
theorem forward {k : L → Spec.State H} {pos : H → ℕ} (hS : Sim view config C tr s k pos)
    (hf : s.thread h = .busy f) (halone : f.Alone)
    (hready : f.phase ≠ .absent → (k f.lock).Ready (C.side h f.lock) (pos h) ∧
      (k f.lock).pet.stage (other (C.side h f.lock)) = .idle) :
    ∃ s' x, exec C s h f false = some (s', x) ∧
      ∀ f', s'.thread h = .busy f' → f'.Alone ∧ rank C s h f < rank C s' h f' := by
  have hmove : CanMove C s h f := by
    by_cases hq : f.phase = .absent
    · exact canMove_outside hq
    · obtain ⟨hready, hidle⟩ := hready hq
      exact canMove_of_ready hS hf hq hready fun _ => Or.inl hidle
  have hleave : f.pc.Spins → CanLeave C s h f := by
    intro hs
    rcases hmove with hc | ⟨hn, -⟩ | hl
    · rw [hc] at hs
      simp [Pc.Spins] at hs
    · exact absurd hs hn
    · exact hl
  obtain ⟨s', x, hex⟩ := exists_exec hmove false
  refine ⟨s', x, hex, alone_of_exec hex halone hleave (fun hp => ?_) (fun hp => ?_) (fun hp => ?_)
    fun hp => ?_⟩
  · have hq : f.phase ≠ .absent := by rcases hp with hp | hp <;> simp [Frame.phase, hp]
    rw [(hS.words f.lock).flag, (hready hq).2]
    rfl
  · exact (agrees_of_sim hS hf (by simp [Frame.phase, hp])).loc (Or.inl hp)
  · exact (agrees_of_sim hS hf (by simp [Frame.phase, hp])).rem (Or.inl hp)
  · have hA := agrees_of_sim hS hf (by simp [Frame.phase, hp])
    have hl := hleave (by simp [Pc.Spins, hp])
    simp only [CanLeave, hp] at hl
    have h11 : 11 ≤ ((k f.lock).acq (C.side h f.lock) (pos h)).rank := by
      rw [Acq.rank, hA.phase]
      simp [Frame.phase, hp, Phase.rank]
    rw [hA.value hp, ← hl, hA.ticket, if_pos h11]

/-- FARLock, seen from outside. -/
def algorithm (C : Cluster H L) : Algorithm C (Descriptor H) (Frame H L) where
  start l := { lock := l }
  exec := exec C
  descriptor := {}
  view := view
  config := config
  Alone := Frame.Alone
  rank := rank C
  limit := 2 * 40 + 1
  budget_eq _ := rfl
  blind_eq t ht := decide_eq_false fun hw => by
    have := congrArg UInt64.toNat hw
    rw [word_toNat (by omega), show kInvalidTicket.toNat = 2 ^ 64 - 1 from rfl] at this
    omega
  simulated := simulated_of_run
  start_lock := view_lock_start
  start_phase _ := rfl
  start_alone _ := ⟨by simp, by simp, by simp⟩
  still_alone _ hf _ := alone_of_still hf
  access := access
  rank_le _ _ f := progress_le (ctorIdx_le f.pc)
  forward := forward

end FARLock

end Farlock
