import Farlock.FARLock.Steps
import Farlock.Spec.Progress
import Farlock.Trace

/-!
# FARLock does not deadlock

`no_deadlock`: whenever a handler is engaged with a lock, some handler engaged with it is in its
critical section, or has a step to make that is not a spin, or spins on a condition that holds.
-/

namespace Farlock

namespace FARLock

open Spec TwoParty
open Clients (steps)

variable {H L : Type} [DecidableEq H] [DecidableEq L] {C : Cluster H L}
  {tr : List (L × Event H UInt64)} {s : State H L} {l : L} {g h : H} {f : Frame H L}

/-- The program points of the spin loops. -/
def Pc.Spins (pc : Pc) : Prop :=
  pc = .waitToGetTicket ∨ pc = .loadFlag ∨ pc = .loadVictim ∨ pc = .readPair ∨ pc = .readFlag ∨
    pc = .readVictim ∨ pc = .awaitPredecessor ∨ pc = .loadTicket ∨ pc = .awaitTicket ∨
    pc = .awaitReleasable

/-- The exit condition of the spin loop that handler `h` is in, in the current memory. -/
def CanLeave (C : Cluster H L) (s : State H L) (h : H) (f : Frame H L) : Prop :=
  let c := C.side h f.lock
  let w := s.locks f.lock
  let d := s.descriptor c h
  match f.pc with
  | .waitToGetTicket => d.toGetTicket = true
  | .loadFlag | .loadVictim => ¬ (w.remoteFlag = true ∧ w.victim = some .loc)
  | .readPair | .readFlag | .readVictim => w.localFlag ≠ true ∨ w.victim ≠ some .rem
  | .awaitPredecessor => d.granted = true
  | .loadTicket | .awaitTicket => d.ticket = w.currentTicket
  | .awaitReleasable => d.releasable = true
  | _ => False

/-- Handler `h` is in its critical section, has a step to make that is not a spin, or spins on a
condition that holds. -/
def CanMove (C : Cluster H L) (s : State H L) (h : H) (f : Frame H L) : Prop :=
  f.pc = .critical ∨ (¬ f.pc.Spins ∧ ∀ b, (exec C s h f b).isSome) ∨ CanLeave C s h f

omit [DecidableEq H] in
/-- The loops of `LockPetersons` test what the abstract section tests. -/
theorem canLeave_loop {k : L → Spec.State H} {pos : H → ℕ} (hS : Sim view config C tr s k pos)
    (hc : (k f.lock).pet.CanPass (C.side h f.lock))
    (hpc : (f.pc = .loadFlag ∨ f.pc = .loadVictim) ∧ C.side h f.lock = .loc ∨
      (f.pc = .readPair ∨ f.pc = .readFlag ∨ f.pc = .readVictim) ∧ C.side h f.lock = .rem) :
    CanLeave C s h f := by
  have hw := hS.words f.lock
  have hflag : ∀ c, (s.locks f.lock).flag c = true ↔ (k f.lock).pet.stage c ≠ .idle := fun c => by
    simp [hw.flag]
  simp only [Peterson.State.CanPass, ← hw.victim] at hc
  rcases hpc with ⟨hpc, hs⟩ | ⟨hpc, hs⟩
  · have hrem := hflag .rem
    simp only [LockWords.flag] at hrem
    rw [hs, other_loc] at hc
    rcases hpc with hpc | hpc <;> simp only [CanLeave, hpc, hrem] <;> tauto
  · have hloc := hflag .loc
    simp only [LockWords.flag] at hloc
    rw [hs, other_rem] at hc
    rcases hpc with hpc | hpc | hpc <;> simp only [CanLeave, hpc, ne_eq, hloc] <;> tauto

/-- A handler whose acquisition is ready can move, provided that in the section it could still
pass. -/
theorem canMove_of_ready {k : L → Spec.State H} {pos : H → ℕ} (hS : Sim view config C tr s k pos)
    (hf : s.thread h = .busy f) (hq : f.phase ≠ .absent)
    (hready : (k f.lock).Ready (C.side h f.lock) (pos h))
    (hpass : f.phase = .passed → (k f.lock).pet.CanPass (C.side h f.lock)) : CanMove C s h f := by
  have hA := agrees_of_sim hS hf hq
  have hI := (hS.reach f.lock).inv
  have hp := hA.phase
  have hown := hI.own (C.side h f.lock) (pos h)
  have hw := hS.words f.lock
  obtain ⟨-, hwait, hwaiting, hqueued, hfreed⟩ := ready_iff.1 hready
  rw [hp] at hwait hwaiting hqueued hfreed
  have hloop : f.phase = .waiting ∨ f.phase = .passed →
      (k f.lock).pet.CanPass (C.side h f.lock) := fun hph => hph.elim hwaiting hpass
  -- whoever has to follow a pointer has one
  have hprev : f.phase.rank ≤ 4 → f.prev.isSome = true := fun hr => by
    rw [hA.hasPrev]
    refine hown.prev ?_ (by rwa [Acq.rank, hp])
    cases hph : f.phase <;> simp_all [Acq.rank, Phase.rank]
  have hnext : f.pc = .storeToGetTicket ∨ f.pc = .storeGranted → f.next.isSome = true := by
    intro hpc
    have hr : 2 ≤ ((k f.lock).acq (C.side h f.lock) (pos h + 1)).rank := by
      rcases hpc with hpc | hpc
      · exact hA.linked (Or.inr hpc)
      · exact Nat.le_trans (by decide) (hA.marked (Or.inr hpc))
    rw [hA.succ hpc, Option.isSome_iff_ne_none]
    exact (hI.own _ _).who (by grind)
  cases hpc : f.pc
  all_goals simp only [Frame.phase, hpc, ne_eq, not_true_eq_false] at hq hwait hqueued hfreed hprev hnext
  case critical => exact Or.inl hpc
  case waitToGetTicket =>
    refine Or.inr (Or.inr ?_)
    simp only [CanLeave, hpc, hA.toGetTicket, decide_eq_true_eq]
    refine (hwait trivial).resolve_right fun hhas => ?_
    have := hown.early hhas
    have := hI.lead_of_budget (c := C.side h f.lock) rfl hhas
    grind [Frame.phase]
  case loadFlag | loadVictim =>
    refine Or.inr (Or.inr (canLeave_loop hS (hloop ?_) ?_))
    · simp [Frame.phase, hpc]
    · exact Or.inl ⟨by simp [hpc], hA.loc (by simp [hpc])⟩
  case readPair | readFlag | readVictim =>
    refine Or.inr (Or.inr (canLeave_loop hS (hloop ?_) ?_))
    · grind [Frame.phase]
    · exact Or.inr ⟨by simp [hpc], hA.rem (by simp [hpc])⟩
  case awaitPredecessor =>
    refine Or.inr (Or.inr ?_)
    simp only [CanLeave, hpc, hA.granted, hA.behind hpc, Bool.true_and, decide_eq_true_eq]
    exact (hqueued trivial).1 (hA.behind hpc)
  case loadTicket | awaitTicket =>
    refine Or.inr (Or.inr ?_)
    have hr : 11 ≤ ((k f.lock).acq (C.side h f.lock) (pos h)).rank := by
      grind [Frame.phase]
    simp only [CanLeave, hpc]
    rw [hA.ticket, if_pos hr, hw.currentTicket,
      (hqueued trivial).2 (hI.lead_of_budget rfl (hown.has (Nat.le_trans (by decide) hr)))]
  case awaitReleasable =>
    refine Or.inr (Or.inr ?_)
    simp only [CanLeave, hpc, hA.releasable, decide_eq_true_eq]
    exact (hfreed trivial).resolve_left (hA.present hpc)
  case storePrevNext | loadPrevTicket | storePrevReleasable =>
    refine Or.inr (Or.inl ⟨by simp [Pc.Spins, hpc], fun b => ?_⟩)
    simpa only [exec, hpc, Option.isSome_map] using hprev (by decide)
  case storeToGetTicket | storeGranted =>
    refine Or.inr (Or.inl ⟨by simp [Pc.Spins, hpc], fun b => ?_⟩)
    simpa only [exec, hpc, Option.isSome_map] using hnext (by simp)
  case casTail =>
    refine Or.inr (Or.inl ⟨by simp [Pc.Spins, hpc], fun b => ?_⟩)
    simp only [exec, hpc]
    split <;> rfl
  all_goals exact Or.inr (Or.inl ⟨by simp [Pc.Spins, hpc], fun b => by simp only [exec, hpc]; rfl⟩)

/-- Before the tail exchange there is nothing to wait for. -/
theorem canMove_outside (hout : f.phase = .absent) : CanMove C s h f := by
  cases hpc : f.pc
  case exchangeTail =>
    refine Or.inr (Or.inl ⟨by simp [Pc.Spins, hpc], fun b => ?_⟩)
    simp only [exec, hpc]
    split <;> rfl
  case resetNext | resetTicket | resetToGetTicket | resetGranted | resetReleasable =>
    exact Or.inr (Or.inl ⟨by simp [Pc.Spins, hpc], fun b => by simp only [exec, hpc]; rfl⟩)
  all_goals grind [Frame.phase]

/-- No deadlock and no lost wake-up. -/
theorem no_deadlock (hr : (system C).Run tr s) (hb : (draws (onLock l tr)).length < 2 ^ 64 - 1)
    (hf : s.thread h = .busy f) (hl : f.lock = l) :
    ∃ g f, s.thread g = .busy f ∧ f.lock = l ∧ CanMove C s g f := by
  by_cases hq : f.phase = .absent
  · exact ⟨h, f, hf, hl, canMove_outside hq⟩
  · subst hl
    obtain ⟨k, pos, hS⟩ := simulated_of_run hr
    have hI := (hS.reach f.lock).inv
    have hK := hS.shows f.lock
    rw [hK.length_draws] at hb
    have hA := agrees_of_sim hS hf hq
    have hblind : ∀ t ≤ (k f.lock).issued, config.blind t = false := by
      intro t ht
      refine decide_eq_false fun hw => ?_
      have := congrArg UInt64.toNat hw
      rw [word_toNat (by omega)] at this
      have : kInvalidTicket.toNat = 2 ^ 64 - 1 := rfl
      omega
    obtain ⟨c, q, hready⟩ := hI.exists_ready hblind (c := C.side h f.lock) (p := pos h)
      ⟨fun habs => hq (hA.phase.symm.trans habs), fun hg => view.ne_gone f (hA.phase.symm.trans hg)⟩
    obtain ⟨g, fg, hfg, hlg, hcg, hpg, hqg⟩ := hS.exists_handler (ready_iff.1 hready).1
    change fg.lock = f.lock at hlg
    rw [← hlg] at hready hcg ⊢
    subst hcg hpg
    have hAg := agrees_of_sim hS hfg hqg
    by_cases hpass : fg.phase = .passed → (k fg.lock).pet.CanPass (C.side g fg.lock)
    · exact ⟨g, fg, hfg, rfl, canMove_of_ready hS hfg hqg hready hpass⟩
    · -- the section is passed but the second load would not say so: the other class is at its victim store
      push Not at hpass
      obtain ⟨q', hq'⟩ := (hS.reach fg.lock).inv.exists_flagged (hAg.phase.trans hpass.1) hpass.2
      obtain ⟨g', f', hf', hl', hc', hp', hqa⟩ := hS.exists_handler
        (l := fg.lock) (c := other (C.side g fg.lock)) (q := q') ⟨by simp [hq'], by simp [hq']⟩
      change f'.lock = fg.lock at hl'
      rw [← hl'] at hq' hc' ⊢
      subst hp'
      have hA' := agrees_of_sim hS hf' hqa
      rw [hc'] at hA'
      refine ⟨g', f', hf', rfl, canMove_of_ready hS hf' hqa ?_ ?_⟩
      · rw [hc']
        exact ready_iff.2 (by simp [Acq.Active, hq'])
      · intro hp
        rw [hA'.phase.symm.trans hq'] at hp
        cases hp

/-- The local handler is in the section, the remote one spins on the Peterson flag. -/
theorem no_deadlock_pair : ∃ (s : State Bool Unit) (f : Frame Bool Unit),
    (system Cluster.pair).Reachable s ∧ s.thread true = .busy f ∧ f.pc = .readPair ∧
    ¬ CanLeave Cluster.pair s true f ∧
    ∃ g f, s.thread g = .busy f ∧ f.lock = () ∧ CanMove Cluster.pair s g f := by
  obtain ⟨y, hy, hf, hw, hd⟩ : ∃ y ∈ State.play (fun l => { lock := l }) (exec Cluster.pair)
      (.zero {}) ((false, .call ()) :: steps false 10 ++
        (true, .call ()) :: steps true 10),
      y.1.thread true = .busy { lock := (), pc := .readPair, victim := some .rem, flag := true } ∧
      y.1.locks () =
        { remoteTail := some true, localTail := some false, remoteFlag := true,
          victim := some .rem, localFlag := true, nextTicket := 0, currentTicket := 0 } ∧
      (draws (onLock () y.2)).length = 0 := by decide
  have hrun : (system Cluster.pair).Run y.2 y.1 := State.run_of_mem_play hy
  refine ⟨y.1, _, ⟨_, hrun⟩, hf, rfl, ?_, no_deadlock hrun (by rw [hd]; decide) hf rfl⟩
  simp [CanLeave, hw]

end FARLock
end Farlock
