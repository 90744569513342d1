import Farlock.FARLockG.Safety
import Farlock.Spec.Progress

/-!
# FARLockG does not deadlock and loses no hand-over

`no_lost_hand_over`: whenever a handler is engaged with a lock, some handler engaged with it is in
its critical section, or has a step to make that is not a spin, or spins on a condition that holds;
and a raised Peterson flag always belongs to a handler that can go on or that waits in the Peterson
loop.
-/

namespace Farlock

namespace FARLockG

open Spec TwoParty
open Clients (steps)

variable {H L : Type} [DecidableEq H] [DecidableEq L] {C : Cluster H L} {B : LockConfig}
  {hB : B.Positive} {tr : List (L × Event H UInt64)} {s : State H L} {k : L → Spec.State H}
  {pos : H → ℕ} {l : L} {c : Side} {g h : H} {f : Frame H L}

/-- The program points of the loops of `LockPetersons`. -/
def Pc.Loops (pc : Pc) : Prop :=
  pc = .loadFlag ∨ pc = .loadVictim ∨ pc = .readPair ∨ pc = .readFlag ∨ pc = .readVictim

/-- The program points of the spin loops. -/
def Pc.Spins (pc : Pc) : Prop :=
  pc.Loops ∨ pc = .awaitBudget ∨ pc = .awaitGranted ∨ pc = .awaitTicket ∨ pc = .awaitReleasable

/-- The exit condition of the spin loop that handler `h` is in, in the current memory. -/
def CanLeave (C : Cluster H L) (s : State H L) (h : H) (f : Frame H L) : Prop :=
  let c := C.side h f.lock
  let w := s.locks f.lock
  let d := s.descriptor c h
  match f.pc with
  | .awaitBudget => d.budget ≠ kNoBudget
  | .loadFlag | .loadVictim => ¬ (w.remoteFlag = true ∧ w.victim = some .loc)
  | .readPair | .readFlag | .readVictim => w.localFlag ≠ true ∨ w.victim ≠ some .rem
  | .awaitGranted => d.granted = true
  | .awaitTicket => f.ticket = w.currentTicket
  | .awaitReleasable => d.releasable = true
  | _ => False

/-- Handler `h` is in its critical section, has a step to make that is not a spin, or spins on a
condition that holds. -/
def CanMove (C : Cluster H L) (B : LockConfig) (s : State H L) (h : H) (f : Frame H L) : Prop :=
  f.pc = .critical ∨ (¬ f.pc.Spins ∧ ∀ b, (exec C B s h f b).isSome) ∨ CanLeave C s h f

omit [DecidableEq H] [DecidableEq L] in
theorem loops_of_waiting (hp : f.phase = .waiting) : f.pc.Loops := by
  simp only [Frame.phase] at hp
  cases hpc : f.pc <;> simp [Pc.Loops] <;> simp [hpc] at hp

omit [DecidableEq H] [DecidableEq L] in
theorem inSection_of_rank (h6 : 6 ≤ f.phase.rank) (h9 : f.phase.rank ≤ 9)
    (hv : f.pc ≠ .storeVictim) (hl : ¬ f.pc.Loops) : f.pc.inSection = true := by
  simp only [Frame.phase] at h6 h9
  cases hpc : f.pc <;> simp only [hpc, Phase.rank] at h6 h9 <;>
    first | rfl | omega | exact absurd hpc hv | exact absurd (by simp [Pc.Loops, hpc]) hl

omit [DecidableEq H] in
/-- The loops of `LockPetersons` test what the abstract section tests. -/
theorem canLeave_loop (hS : Sim (view B) (config B hB) C tr s k pos) (hf : s.thread h = .busy f)
    (hq : f.phase ≠ .absent) (hpc : f.pc.Loops)
    (hc : (k f.lock).pet.CanPass (C.side h f.lock)) : CanLeave C s h f := by
  have hw := hS.words f.lock
  have hk := (agrees_of_sim hS hf hq).knows
  have hflag : ∀ c, (s.locks f.lock).flag c = true ↔ (k f.lock).pet.stage c ≠ .idle := fun c => by
    simp [hw.flag]
  simp only [Peterson.State.CanPass, ← hw.victim] at hc
  have hrem := hflag .rem
  have hloc := hflag .loc
  simp only [LockWords.flag] at hrem hloc
  rcases hpc with hpc | hpc | hpc | hpc | hpc <;> simp only [Frame.Knows, hpc] at hk <;>
    simp only [CanLeave, hpc, ne_eq, hrem, hloc] <;> rw [hk] at hc <;>
    simp only [other_loc, other_rem] at hc <;> tauto

/-- A handler whose acquisition is ready can move, provided that it could still pass if it is in the
loop. -/
theorem canMove_of_ready (hS : Sim (view B) (config B hB) C tr s k pos) (hf : s.thread h = .busy f)
    (hq : f.phase ≠ .absent) (hready : (k f.lock).Ready (C.side h f.lock) (pos h))
    (hpass : f.pc.Loops → f.phase = .passed → (k f.lock).pet.CanPass (C.side h f.lock)) :
    CanMove C B s h f := by
  have hA := agrees_of_sim hS hf hq
  have hI := (hS.reach f.lock).inv
  have hp := hA.phase
  have hown := hI.own (C.side h f.lock) (pos h)
  have hk := hA.knows
  obtain ⟨-, hwait, hwaiting, hqueued, hfreed⟩ := ready_iff.1 hready
  rw [hp] at hwait hwaiting hqueued hfreed
  by_cases hloop : f.pc.Loops
  · refine Or.inr (Or.inr (canLeave_loop hS hf hq hloop ?_))
    have hph : f.phase = .waiting ∨ f.phase = .passed := by
      rcases hloop with hpc | hpc | hpc | hpc | hpc <;> simp only [Frame.phase, hpc] <;>
        first | (split <;> simp) | simp
    exact hph.elim hwaiting (hpass hloop)
  -- whoever has to follow a pointer has one
  have hprev : f.phase.rank ≤ 4 → f.prev.isSome = true := fun hr => by
    rw [hA.hasPrev]
    refine hown.prev ?_ (by rwa [Acq.rank, hp])
    cases hph : f.phase <;> simp_all [Acq.rank, Phase.rank]
  have hnext : 2 ≤ ((k f.lock).acq (C.side h f.lock) (pos h + 1)).rank →
      f.next = ((k f.lock).acq (C.side h f.lock) (pos h + 1)).who → f.next.isSome = true := by
    intro hr hn
    rw [hn, Option.isSome_iff_ne_none]
    exact (hI.own _ _).who (by grind)
  cases hpc : f.pc
  all_goals simp only [Frame.phase, hpc, ne_eq, not_true_eq_false] at hq hwait hqueued hfreed hprev
  all_goals simp only [Frame.Knows, hpc] at hk
  case critical => exact Or.inl hpc
  case awaitBudget =>
    refine Or.inr (Or.inr ?_)
    simp only [CanLeave, hpc, hA.budget]
    split_ifs with hhas htold
    · intro heq
      have hlt := (budget_lt (hS.reach f.lock) hhas).2
      have htn := congrArg UInt64.toNat heq
      rw [word_toNat (by omega), show kNoBudget.toNat = 2 ^ 64 - 1 from rfl] at htn
      omega
    · intro heq
      have hlt := B.kInitBudget_lt (C.side h f.lock)
      rw [heq, show kNoBudget.toNat = 2 ^ 64 - 1 from rfl] at hlt
      omega
    · exact absurd ((hwait trivial).resolve_right hhas) fun ht => htold (Or.inl ht)
  case loadFlag | loadVictim | readPair | readFlag | readVictim =>
    exact absurd (by simp [Pc.Loops, hpc]) hloop
  case awaitGranted =>
    refine Or.inr (Or.inr ?_)
    simp only [CanLeave, hpc, hA.granted, hk, Bool.true_and, decide_eq_true_eq]
    exact (hqueued trivial).1 hk
  case awaitTicket =>
    refine Or.inr (Or.inr ?_)
    simp only [CanLeave, hpc]
    have hr : 9 ≤ ((k f.lock).acq (C.side h f.lock) (pos h)).rank := by
      simp [Acq.rank, hp, Frame.phase, hpc, Phase.rank]
    rw [hA.ticket hr, (hS.words f.lock).currentTicket, (hqueued trivial).2 hk.1]
  case awaitReleasable =>
    refine Or.inr (Or.inr ?_)
    simp only [CanLeave, hpc, hA.releasable, decide_eq_true_eq]
    exact (hfreed trivial).resolve_left hk
  case storePrevNext | loadPrevTicketValid | storePrevReleasable =>
    refine Or.inr (Or.inl ⟨by simp [Pc.Spins, Pc.Loops, hpc], fun b => ?_⟩)
    simpa only [exec, hpc, Option.isSome_map] using hprev (by decide)
  case storeNextBatchTicket =>
    refine Or.inr (Or.inl ⟨by simp [Pc.Spins, Pc.Loops, hpc], fun b => ?_⟩)
    simpa only [exec, hpc, Option.isSome_map] using hnext hk.2.1 hk.2.2.2.2
  case storeNextBudget =>
    refine Or.inr (Or.inl ⟨by simp [Pc.Spins, Pc.Loops, hpc], fun b => ?_⟩)
    simpa only [exec, hpc, Option.isSome_map] using hnext hk.2.1 hk.2.2.1
  case storeInitBudget =>
    refine Or.inr (Or.inl ⟨by simp [Pc.Spins, Pc.Loops, hpc], fun b => ?_⟩)
    simpa only [exec, hpc, Option.isSome_map] using hnext hk.1 hk.2
  case storeGranted =>
    refine Or.inr (Or.inl ⟨by simp [Pc.Spins, Pc.Loops, hpc], fun b => ?_⟩)
    simpa only [exec, hpc, Option.isSome_map] using hnext (by omega) hk.2
  case assertBudget =>
    -- the assertion holds because a handler with a ticket has a budget
    refine Or.inr (Or.inl ⟨by simp [Pc.Spins, Pc.Loops, hpc], fun b => ?_⟩)
    obtain ⟨hb, h1, hlt⟩ := budget_eq hS hf (by simp [Frame.phase, hpc, Phase.rank])
    have hpos : 0 < (s.descriptor (C.side h f.lock) h).budget := by
      rw [hb, UInt64.lt_iff_toNat_lt, word_toNat (by omega)]
      exact h1
    simp only [exec, hpc, if_pos hpos]
    rfl
  case casTail =>
    refine Or.inr (Or.inl ⟨by simp [Pc.Spins, Pc.Loops, hpc], fun b => ?_⟩)
    simp only [exec, hpc]
    split <;> rfl
  all_goals
    exact Or.inr (Or.inl ⟨by simp [Pc.Spins, Pc.Loops, hpc], fun b => by simp only [exec, hpc]; rfl⟩)

/-- Before the tail exchange there is nothing to wait for. -/
theorem canMove_outside (hout : f.phase = .absent) : CanMove C B s h f := by
  cases hpc : f.pc
  case exchangeTail =>
    refine Or.inr (Or.inl ⟨by simp [Pc.Spins, Pc.Loops, hpc], fun b => ?_⟩)
    simp only [exec, hpc]
    split <;> rfl
  case resetNext | resetTicketValid | resetBudget | resetGranted | resetReleasable =>
    exact Or.inr (Or.inl ⟨by simp [Pc.Spins, Pc.Loops, hpc], fun b => by simp only [exec, hpc]; rfl⟩)
  all_goals grind [Frame.phase]

/-- Some handler engaged with a lock can move, if there is any. -/
theorem exists_canMove (hS : Sim (view B) (config B hB) C tr s k pos) (hf : s.thread h = .busy f) :
    ∃ g f', s.thread g = .busy f' ∧ f'.lock = f.lock ∧ CanMove C B s g f' := by
  by_cases hq : f.phase = .absent
  · exact ⟨h, f, hf, rfl, canMove_outside hq⟩
  · have hI := (hS.reach f.lock).inv
    have hA := agrees_of_sim hS hf hq
    obtain ⟨c, q, hready⟩ := hI.exists_ready (fun _ _ => rfl) (c := C.side h f.lock) (p := pos h)
      ⟨fun habs => hq (hA.phase.symm.trans habs),
        fun hg => (view B).ne_gone f (hA.phase.symm.trans hg)⟩
    obtain ⟨g, fg, hfg, hlg, hcg, hpg, hqg⟩ := hS.exists_handler (ready_iff.1 hready).1
    change fg.lock = f.lock at hlg
    rw [← hlg] at hready hcg ⊢
    subst hcg hpg
    have hAg := agrees_of_sim hS hfg hqg
    by_cases hpass : fg.phase = .passed → (k fg.lock).pet.CanPass (C.side g fg.lock)
    · exact ⟨g, fg, hfg, rfl, canMove_of_ready hS hfg hqg hready fun _ => hpass⟩
    · -- the section is passed but the second load would not say so: the other class is at its victim store
      push Not at hpass
      obtain ⟨q', hq'⟩ := (hS.reach fg.lock).inv.exists_flagged (hAg.phase.trans hpass.1) hpass.2
      obtain ⟨g', f', hf', hl', hc', hp', hqa⟩ := hS.exists_handler
        (l := fg.lock) (c := other (C.side g fg.lock)) (q := q') ⟨by simp [hq'], by simp [hq']⟩
      change f'.lock = fg.lock at hl'
      rw [← hl'] at hq' hc' ⊢
      subst hp'
      have hA' := agrees_of_sim hS hf' hqa
      rw [hc'] at hA'
      refine ⟨g', f', hf', rfl, canMove_of_ready hS hf' hqa ?_ ?_⟩
      · rw [hc']
        exact ready_iff.2 (by simp [Acq.Active, hq'])
      · intro _ hp
        rw [hA'.phase.symm.trans hq'] at hp
        cases hp

/-- A raised flag belongs to a handler of its class. -/
theorem exists_flag_owner (hS : Sim (view B) (config B hB) C tr s k pos)
    (hflag : (s.locks l).flag c = true) :
    ∃ h f, s.thread h = .busy f ∧ f.lock = l ∧ C.side h l = c ∧
      ((OwnsSection C B s l h ∨ f.pc = .storeVictim) ∧ CanMove C B s h f ∨ f.pc.Loops) := by
  have hI := (hS.reach l).inv
  have hstage : (k l).pet.stage c ≠ .idle := by simpa [(hS.words l).flag] using hflag
  obtain ⟨p, hp⟩ := hI.holder c hstage
  have hact : ((k l).acq c p).Active := by
    refine ⟨fun habs => ?_, fun hg => by simp [Acq.Holds, Acq.rank, Phase.rank, hg] at hp⟩
    rw [(hI.own c p).absent habs] at hp
    simp [Acq.Holds, Acq.rank, Phase.rank] at hp
  obtain ⟨h, f, hf, hfl, rfl, rfl, hq⟩ := hS.exists_handler hact
  change f.lock = l at hfl
  subst hfl
  have hA := agrees_of_sim hS hf hq
  refine ⟨h, f, hf, rfl, rfl, ?_⟩
  by_cases hloop : f.pc.Loops
  · exact Or.inr hloop
  · left
    -- outside the loop the owner of a raised flag does not wait for anything
    have hready : (k f.lock).Ready (C.side h f.lock) (pos h) := by
      refine ready_iff.2 ⟨hact, fun hw => ?_, fun hw => ?_, fun hw => ?_, fun hw => ?_⟩
      · exact Or.inr (hp.resolve_left fun h6 => by grind).1
      · exact absurd (loops_of_waiting (hA.phase.symm.trans hw)) hloop
      · grind
      · grind
    refine ⟨?_, canMove_of_ready hS hf hq hready fun h => absurd h hloop⟩
    by_cases hv : f.pc = .storeVictim
    · exact Or.inr hv
    · refine Or.inl ?_
      rcases hp with ⟨h6, h9⟩ | ⟨hhas, h4⟩
      · rw [Acq.rank, hA.phase] at h6 h9
        exact ⟨f, hf, rfl, Or.inl (inSection_of_rank h6 h9 hv hloop)⟩
      · exact ownsSection_of_has hS hf hq hhas (by omega)

/-- No deadlock and no lost hand-over. -/
theorem no_lost_hand_over (hB : B.Positive) (hs : (system C B).Reachable s) (l : L) :
    (∀ h f, s.thread h = .busy f → f.lock = l →
      ∃ g f', s.thread g = .busy f' ∧ f'.lock = l ∧ CanMove C B s g f') ∧
    (∀ c, (s.locks l).flag c = true →
      ∃ h f, s.thread h = .busy f ∧ f.lock = l ∧ C.side h l = c ∧
        ((OwnsSection C B s l h ∨ f.pc = .storeVictim) ∧ CanMove C B s h f ∨ f.pc.Loops)) := by
  obtain ⟨tr, hr⟩ := hs
  obtain ⟨k, pos, hS⟩ := simulated_of_run hB hr
  refine ⟨fun h f hf hl => ?_, fun c hc => exists_flag_owner hS hc⟩
  subst hl
  exact exists_canMove hS hf

/-- Handler 0 has handed the section to handler 1, which has not noticed yet; handler 2 waits for
it. -/
theorem no_lost_hand_over_trio : ∃ (s : State (Fin 3) Unit) (f : Frame (Fin 3) Unit),
    (system trio ⟨2, 2⟩).Reachable s ∧ s.thread 2 = .busy f ∧ ¬ CanLeave trio s 2 f ∧
    (∃ g f', s.thread g = .busy f' ∧ f'.lock = () ∧ CanMove trio ⟨2, 2⟩ s g f') ∧
    ∃ h f', s.thread h = .busy f' ∧ f'.lock = () ∧ trio.side h () = .loc ∧
      ((OwnsSection trio ⟨2, 2⟩ s () h ∨ f'.pc = .storeVictim) ∧ CanMove trio ⟨2, 2⟩ s h f' ∨
        f'.pc.Loops) := by
  obtain ⟨y, hy, hf, hw⟩ : ∃ y ∈ playTrio ((0, .call ()) :: steps 0 10 ++
      (2, .call ()) :: steps 2 11 ++ (1, .call ()) :: steps 1 9 ++ steps 0 9),
      y.1.thread 2 = .busy { lock := (), pc := .readPair, victim := some .rem, flag := true } ∧
      y.1.locks () =
        { remoteTail := some 2, localTail := some 1, remoteFlag := true,
          victim := some .rem, localFlag := true, nextTicket := 1, currentTicket := 0 } := by decide
  have hreach : (system trio ⟨2, 2⟩).Reachable y.1 := ⟨y.2, State.run_of_mem_play hy⟩
  obtain ⟨h1, h2⟩ := no_lost_hand_over ⟨by decide, by decide⟩ hreach ()
  refine ⟨y.1, _, hreach, hf, ?_, h1 2 _ hf rfl, h2 .loc ?_⟩
  · simp [CanLeave, hw]
  · rw [hw]
    rfl

end FARLockG

end Farlock
