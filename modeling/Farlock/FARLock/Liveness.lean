import Farlock.FARLock.Traces
import Farlock.FARLockG.Safety
import Farlock.Liveness
import Mathlib

/-!
# FARLock starves nobody before its tickets run out

`lively`: the handlers of FARLock go on by themselves.  The program points of a handler that is ready
come one after the other, except for the loop of `LockPetersons`, whose loads are those of `LoopStep`
(`loops`).

* `no_null_access`: a handler at work has a next access, whatever the others do;
* `served_or_out_of_tickets`: in a fair execution every handler that has exchanged the tail of a queue
  enters the critical section, and leaves it, unless so many tickets are drawn that one of them is
  `kInvalidTicket`.
-/

namespace Farlock

namespace FARLock

open Spec TwoParty
open Clients (steps)

variable {H L : Type} [DecidableEq H] [DecidableEq L] {C : Cluster H L}
  {tr : List (L × Event H UInt64)} {s s' : State H L} {k : L → Spec.State H} {pos : H → ℕ} {h : H}
  {f f' : Frame H L} {b : Bool} {x : Option (L × Event H UInt64)}

/-- The loads in the loop of `LockPetersons`. -/
def Pc.access : Pc → Option LoopAccess
  | .loadFlag => some .loadFlag
  | .loadVictim => some .loadVictim
  | .readPair => some .readPair
  | .readFlag => some .readFlag
  | .readVictim => some .readVictim
  | _ => none

/-- No access leads back. -/
theorem phase_le (hx : exec C s h f b = some (s', x)) (hf' : s'.thread h = .busy f') :
    f.phase.rank ≤ f'.phase.rank := by
  have key : ∀ {g : Frame H L}, s'.thread = Function.update s.thread h (.busy g) →
      f.phase.rank ≤ g.phase.rank → f.phase.rank ≤ f'.phase.rank := by
    intro g hg hle
    rw [hg, Function.update_self] at hf'
    cases hf'
    exact hle
  cases hpc : f.pc
  case exchangeTail | awaitTicket =>
    simp only [exec, hpc] at hx
    split_ifs at hx <;> simp only [Option.some.injEq, Prod.mk.injEq] at hx <;> obtain ⟨rfl, -⟩ := hx
    all_goals exact key rfl (by simp only [Frame.phase, hpc]; decide)
  case casTail =>
    simp only [exec, hpc] at hx
    split_ifs at hx <;> simp only [Option.some.injEq, Prod.mk.injEq] at hx <;> obtain ⟨rfl, -⟩ := hx
    · simp at hf'
    · exact key rfl (by simp only [Frame.phase, hpc]; decide)
  case storeGranted =>
    simp only [exec, hpc, Option.map_eq_some_iff, Prod.mk.injEq] at hx
    obtain ⟨n, -, rfl, -⟩ := hx
    simp at hf'
  case storeToGetTicket =>
    simp only [exec, hpc, Option.map_eq_some_iff, Prod.mk.injEq] at hx
    obtain ⟨n, -, rfl, -⟩ := hx
    refine key rfl ?_
    rw [phase_await]
    simp only [Frame.phase, hpc]
    decide
  case storePrevNext | loadPrevTicket | storePrevReleasable =>
    simp only [exec, hpc, Option.map_eq_some_iff, Prod.mk.injEq] at hx
    obtain ⟨n, -, rfl, -⟩ := hx
    refine key rfl ?_
    simp only [Frame.phase, hpc]
    first | decide | (split_ifs <;> decide)
  case storeVictim =>
    simp only [exec, hpc, Option.some.injEq, Prod.mk.injEq] at hx
    obtain ⟨rfl, -⟩ := hx
    refine key rfl ?_
    rw [phase_loop]
    simp only [Frame.phase, hpc]
    decide
  case readPair =>
    simp only [exec, hpc, Option.some.injEq, Prod.mk.injEq] at hx
    obtain ⟨rfl, -⟩ := hx
    refine key rfl ?_
    cases b <;> simp only [Frame.phase, hpc, Bool.false_eq_true, if_true, if_false] <;> split_ifs <;>
      decide
  case readFlag | readVictim =>
    -- whoever has passed with its first load passes with the second
    simp only [exec, hpc, Option.some.injEq, Prod.mk.injEq] at hx
    obtain ⟨rfl, -⟩ := hx
    refine key rfl ?_
    simp only [Frame.test]
    simp only [Frame.phase, hpc]
    split_ifs <;> simp_all [Phase.rank]
  case testNext =>
    simp only [exec, hpc, Option.some.injEq, Prod.mk.injEq] at hx
    obtain ⟨rfl, -⟩ := hx
    refine key rfl ?_
    split_ifs
    · simp only [Frame.phase, hpc]
      decide
    · rw [phase_await]
      simp only [Frame.phase, hpc]
      decide
  all_goals
    simp only [exec, hpc, Option.some.injEq, Prod.mk.injEq] at hx
    obtain ⟨rfl, -⟩ := hx
    refine key rfl ?_
    simp only [Frame.phase, hpc]
    first | decide | (split_ifs <;> decide)

/-- An access of a handler in a queue leads on, outside of the loop of `LockPetersons` and of a spin
loop whose condition does not hold. -/
theorem ctorIdx_lt (hx : exec C s h f b = some (s', x)) (hf' : s'.thread h = .busy f')
    (hq : f.phase ≠ .absent) (hw : f.phase ≠ .waiting)
    (hleave : f.pc.Spins → f.phase ≠ .passed → CanLeave C s h f)
    (hvalue : f.pc = .awaitTicket → f.value = (s.locks f.lock).currentTicket) :
    f.pc.ctorIdx < f'.pc.ctorIdx := by
  have key : ∀ {g : Frame H L}, s'.thread = Function.update s.thread h (.busy g) →
      f.pc.ctorIdx < g.pc.ctorIdx → f.pc.ctorIdx < f'.pc.ctorIdx := by
    intro g hg hlt
    rw [hg, Function.update_self] at hf'
    cases hf'
    exact hlt
  unfold exec at hx
  unfold CanLeave at hleave
  cases hpc : f.pc
  all_goals simp only [Frame.phase, hpc, ne_eq, not_true_eq_false] at hq hw
  all_goals simp only [Pc.Spins, Frame.phase, hpc] at hleave
  all_goals simp only [hpc] at hx key ⊢
  case storePrevNext | loadPrevTicket | storePrevReleasable | storeToGetTicket =>
    simp only [Option.map_eq_some_iff, Prod.mk.injEq] at hx
    obtain ⟨n, -, rfl, -⟩ := hx
    refine key rfl ?_
    dsimp only [Frame.await]
    first | decide | (split_ifs <;> decide)
  case storeGranted =>
    simp only [Option.map_eq_some_iff, Prod.mk.injEq] at hx
    obtain ⟨n, -, rfl, -⟩ := hx
    simp at hf'
  case awaitTicket =>
    rw [if_pos (hvalue hpc)] at hx
    simp only [Option.some.injEq, Prod.mk.injEq] at hx
    obtain ⟨rfl, -⟩ := hx
    refine key rfl ?_
    dsimp only
    decide
  case casTail =>
    split_ifs at hx <;> simp only [Option.some.injEq, Prod.mk.injEq] at hx <;> obtain ⟨rfl, -⟩ := hx
    · simp at hf'
    · refine key rfl ?_
      dsimp only
      decide
  all_goals
    simp only [Option.some.injEq, Prod.mk.injEq] at hx
    obtain ⟨rfl, -⟩ := hx
  case waitToGetTicket | awaitPredecessor | awaitReleasable =>
    refine key rfl ?_
    rw [if_pos (hleave (by simp) (by simp))]
    dsimp only
    decide
  -- in the loop the handler has passed with its first load
  case readFlag =>
    refine key rfl ?_
    dsimp only [Frame.test]
    rw [if_pos (Or.inr (by simpa using hw))]
    decide
  case readVictim =>
    refine key rfl ?_
    dsimp only [Frame.test]
    rw [if_pos (Or.inl (by simpa using hw))]
    decide
  case testNext =>
    refine key rfl ?_
    dsimp only [Frame.await]
    split_ifs <;> dsimp only <;> decide
  case storeVictim =>
    refine key rfl ?_
    dsimp only
    cases C.side h f.lock <;> decide
  all_goals
    refine key rfl ?_
    dsimp only
    first | decide | (split_ifs <;> decide)

/-- A handler at work has a next access, whatever the others do. -/
theorem exec_isSome (hS : Sim view config C tr s k pos) (hf : s.thread h = .busy f) (b : Bool) :
    (exec C s h f b).isSome = true := by
  -- whoever has a pointer to follow is ready
  have hof : f.phase ≠ .absent → ¬ f.pc.Spins → f.phase ≠ .passed →
      (k f.lock).Ready (C.side h f.lock) (pos h) → (exec C s h f b).isSome = true := by
    intro hq hl hp hready
    rcases canMove_of_ready hS hf hq hready fun h => absurd h hp with hc | ⟨-, hx⟩ | hc
    · simp only [exec, hc, Option.isSome_some]
    · exact hx b
    · cases hpc : f.pc <;> simp [CanLeave, Pc.Spins, hpc] at hc hl
  cases hpc : f.pc
  case storePrevNext | loadPrevTicket | storePrevReleasable | storeToGetTicket =>
    have hq : f.phase ≠ .absent := by simp [Frame.phase, hpc]
    have hp := (agrees_of_sim hS hf hq).phase
    refine hof hq (by simp [Pc.Spins, hpc]) (by simp [Frame.phase, hpc]) ?_
    simp [State.Ready, hp, Frame.phase, hpc]
  case storeGranted =>
    have hq : f.phase ≠ .absent := by simp [Frame.phase, hpc]
    have hA := agrees_of_sim hS hf hq
    refine hof hq (by simp [Pc.Spins, hpc]) (by simp [Frame.phase, hpc]) ?_
    have hmarked : ((k f.lock).acq (C.side h f.lock) (pos h + 1)).Marked :=
      hA.marked (Or.inr hpc)
    simp [State.Ready, hA.phase, Frame.phase, hpc, hmarked]
  case exchangeTail | casTail | awaitTicket =>
    simp only [exec, hpc]
    split_ifs <;> rfl
  all_goals simp only [exec, hpc, Option.isSome_some]

/-- Whatever has happened, nobody is about to follow a null pointer. -/
theorem no_null_access (hs : (system C).Reachable s) (h : H) (f : Frame H L)
    (hf : s.thread h = .busy f) (b : Bool) : (exec C s h f b).isSome = true := by
  obtain ⟨tr, hr⟩ := hs
  obtain ⟨k, pos, hS⟩ := simulated_of_run hr
  exact exec_isSome hS hf b

/-- Handler 1 is about to store its address into the descriptor of handler 0. -/
theorem no_null_access_trio : ∃ (s : State (Fin 3) Unit) (f : Frame (Fin 3) Unit),
    (system FARLockG.trio).Reachable s ∧ s.thread 1 = .busy f ∧ f.pc = .storePrevNext ∧
    f.prev = some 0 ∧ (exec FARLockG.trio s 1 f true).isSome = true := by
  obtain ⟨y, hy, hf⟩ : ∃ y ∈ State.play (fun l => { lock := l }) (exec FARLockG.trio) (.zero {})
      ((0, .call ()) :: steps 0 6 ++
        (1, .call ()) :: steps 1 6),
      y.1.thread 1 = .busy { lock := (), pc := .storePrevNext, prev := some 0 } := by decide
  have hreach : (system FARLockG.trio).Reachable y.1 := ⟨y.2, State.run_of_mem_play hy⟩
  exact ⟨y.1, _, hreach, hf, rfl, rfl, no_null_access hreach 1 _ hf true⟩

theorem climbs (hS : Sim view config C tr s k pos) (hf : s.thread h = .busy f)
    (hq : f.phase ≠ .absent) (hw : f.phase ≠ .waiting)
    (hready : (k f.lock).Ready (C.side h f.lock) (pos h)) (hx : exec C s h f b = some (s', x))
    (hf' : s'.thread h = .busy f') : f.pc.ctorIdx < f'.pc.ctorIdx := by
  refine ctorIdx_lt hx hf' hq hw (fun hs hp => ?_) fun hpc => ?_
  · rcases canMove_of_ready hS hf hq hready (fun h => absurd h hp) with hc | ⟨hn, -⟩ | hc
    · simp [Pc.Spins, hc] at hs
    · exact absurd hs hn
    · exact hc
  · -- the ticket that it has loaded is the one that is being served
    have hA := agrees_of_sim hS hf hq
    have hp : ((k f.lock).acq (C.side h f.lock) (pos h)).phase = .queued := by
      rw [hA.phase, Frame.phase, hpc]
    have hI := (hS.reach f.lock).inv
    have hhas := (hI.own (C.side h f.lock) (pos h)).has (by simp [Acq.rank, hp, Phase.rank])
    rw [hA.value hpc, (hS.words f.lock).currentTicket,
      ((ready_iff.1 hready).2.2.2.1 hp).2 (hI.lead_of_budget rfl hhas)]

omit [DecidableEq H] [DecidableEq L] in
/-- A remote handler that has loaded both words and stays in the loop has found them against it. -/
theorem test_waiting (hp : f.test.phase = .waiting) :
    f.flag = true ∧ f.victim = some .rem ∧ f.test.pc = .readPair := by
  by_cases ht : f.flag ≠ true ∨ f.victim ≠ some .rem
  · have hpc : f.test.pc = .loadNextTicket := if_pos ht
    simp [Frame.phase, hpc] at hp
  · obtain ⟨hflag, hvictim⟩ := not_or.1 ht
    exact ⟨not_not.1 hflag, not_not.1 hvictim, if_neg ht⟩

/-- An access in the loop of `LockPetersons` that does not lead out of it. -/
theorem loops (hS : Sim view config C tr s k pos) (hf : s.thread h = .busy f)
    (hp : f.phase = .waiting) (hx : exec C s h f b = some (s', x)) (hf' : s'.thread h = .busy f')
    (hp' : f'.phase = .waiting) : ∃ a a', f.pc.access = some a ∧ f'.pc.access = some a' ∧
      LoopStep (s.locks f.lock).victim ((s.locks f.lock).flag (other (C.side h f.lock)))
        (C.side h f.lock) a a' := by
  have hA := agrees_of_sim hS hf (by simp [hp])
  have key : ∀ {g : Frame H L}, s' = s.goto h g → f' = g := by
    rintro g rfl
    rw [goto_thread, Function.update_self] at hf'
    exact (Thread.busy.inj hf').symm
  cases hpc : f.pc
  case loadFlag =>
    rw [hA.loc (Or.inl hpc)]
    simp only [exec, hpc, Option.some.injEq, Prod.mk.injEq] at hx
    obtain rfl := key hx.1.symm
    have hw : (s.locks f.lock).remoteFlag = true := by
      by_contra hno
      simp [Frame.phase, hno] at hp'
    exact ⟨_, _, rfl, by rw [if_pos hw]; rfl, .loadFlag hw⟩
  case loadVictim =>
    rw [hA.loc (Or.inr hpc)]
    simp only [exec, hpc, Option.some.injEq, Prod.mk.injEq] at hx
    obtain rfl := key hx.1.symm
    have hw : (s.locks f.lock).victim = some .loc := by
      by_contra hno
      simp [Frame.phase, hno] at hp'
    exact ⟨_, _, rfl, by rw [if_pos hw]; rfl, .loadVictim hw⟩
  case readPair =>
    rw [hA.rem (Or.inl hpc)]
    simp only [exec, hpc, Option.some.injEq, Prod.mk.injEq] at hx
    obtain rfl := key hx.1.symm
    cases b with
    | true =>
      have hw : (s.locks f.lock).victim = some .rem := by simpa [Frame.phase] using hp'
      exact ⟨_, _, rfl, rfl, .victimFirst hw⟩
    | false =>
      have hw : (s.locks f.lock).localFlag = true := by simpa [Frame.phase] using hp'
      exact ⟨_, _, rfl, rfl, .flagFirst hw⟩
  case readFlag =>
    rw [hA.rem (Or.inr (Or.inl hpc))]
    simp only [exec, hpc, Option.some.injEq, Prod.mk.injEq] at hx
    obtain rfl := key hx.1.symm
    obtain ⟨hw, -, hpc'⟩ := test_waiting hp'
    exact ⟨_, _, rfl, by rw [hpc']; rfl, .readFlag hw⟩
  case readVictim =>
    rw [hA.rem (Or.inr (Or.inr hpc))]
    simp only [exec, hpc, Option.some.injEq, Prod.mk.injEq] at hx
    obtain rfl := key hx.1.symm
    obtain ⟨-, hw, hpc'⟩ := test_waiting hp'
    exact ⟨_, _, rfl, by rw [hpc']; rfl, .readVictim hw⟩
  all_goals simp [Frame.phase, hpc] at hp

/-- FARLock goes on. -/
def lively (C : Cluster H L) : Lively C (Descriptor H) (Frame H L) where
  start l := { lock := l }
  start_lock := view_lock_start
  exec := exec C
  view := view
  config := config
  rank _ f := f.pc.ctorIdx
  loop f := f.pc.access
  limit := 40
  simulated := simulated_of_run
  access := access
  phase_le := phase_le
  rank_le _ f := ctorIdx_le f.pc
  climbs hS hf hq hw hready hx hf' _ := climbs hS hf hq hw hready hx hf'
  loops := loops

/-- In a fair execution whoever has exchanged the tail of a queue enters the critical section at some
time, and leaves it later, unless `2 ^ 64 - 1` tickets are drawn on this lock. -/
theorem served_or_out_of_tickets
    (P : State.Runs (H := H) (fun l => ({ lock := l } : Frame H L)) (exec C))
    (hP : P.Fair State.Busy) (n : ℕ) (l : L) (c : Side) (h : H)
    (he : P.event n = some (l, .arrive c h)) :
    (∃ m > n, (∃ t, P.event m = some (l, .enter c h t)) ∧
      ∃ i > m, P.event i = some (l, .leave c h)) ∨
    ∃ m, 2 ^ 64 - 1 ≤ (draws (onLock l (P.trace m))).length := by
  by_cases hb : ∃ m, 2 ^ 64 - 1 ≤ (draws (onLock l (P.trace m))).length
  · exact Or.inr hb
  · push Not at hb
    refine Or.inl ((lively C).served P hP (fun m t ht => decide_eq_false fun hw => ?_) he)
    have hlt : t < 2 ^ 64 - 1 := lt_of_le_of_lt ht (hb m)
    have htn := congrArg UInt64.toNat hw
    rw [word_toNat (by omega), show kInvalidTicket.toNat = 2 ^ 64 - 1 from rfl] at htn
    omega

/-- Two locks on node 0, with a handler there and a handler on node 1. -/
def twoLocks : Cluster Bool Bool := { Cluster.pair with home := fun _ => 0 }

/-- A local and a remote handler in turns; after their first call they use the second lock only, so
that the tickets of the first one do not run out. -/
theorem served_or_out_of_tickets_turns :
    ∃ P : State.Runs (fun l => ({ lock := l } : Frame Bool Bool)) (exec twoLocks),
      P.Fair State.Busy ∧ P.event 13 = some (false, .arrive .rem true) ∧
      (∀ m, (draws (onLock false (P.trace m))).length < 2 ^ 64 - 1) ∧
      ∃ m > 13, (∃ t, P.event m = some (false, .enter .rem true t)) ∧
        ∃ i > m, P.event i = some (false, .leave .rem true) := by
  let P : State.Runs (fun l => ({ lock := l } : Frame Bool Bool)) (exec twoLocks) :=
    Clients.alternate _ (show State.Initial (.zero {}) from ⟨fun _ => rfl, fun _ => rfl⟩)
      (fun tr s h f b hr hf => by
        obtain ⟨k, pos, hS⟩ := simulated_of_run hr
        exact exec_isSome hS hf b) fun n => decide (1 < n)
  have hP : P.Fair State.Busy := Execution.fair_of_turns fun _ => rfl
  have he : P.event 13 = some (false, .arrive .rem true) := by decide
  -- at time 54 both have left the first lock
  have hfalse : (P.state 54).thread false = .busy { lock := true, pc := .resetGranted } := by
    decide +kernel
  have htrue : (P.state 54).thread true = .idle := by decide +kernel
  have hdraws : (draws (onLock false (P.trace 54))).length = 2 := by decide +kernel
  have hquiet : ∀ h f, (P.state 54).thread h = .busy f → f.lock ≠ false := by
    rintro (- | -) f hf
    · obtain rfl := Thread.busy.inj (hfalse.symm.trans hf)
      simp
    · rw [htrue] at hf
      cases hf
  have hcall : ∀ m ≥ 54, P.act m ≠ .call false := fun m hm =>
    Clients.alternate_act_ne _ (by simpa using (by omega : 1 < m))
  clear_value P
  have hfew : ∀ m, (draws (onLock false (P.trace m))).length < 2 ^ 64 - 1 := by
    intro m
    have hle : (draws (onLock false (P.trace m))).length ≤ 2 :=
      hdraws ▸ (lively twoLocks).length_draws_le_of_quiet P hquiet hcall m
    omega
  exact ⟨P, hP, he, hfew, (served_or_out_of_tickets P hP 13 false .rem true he).resolve_right
    fun ⟨m, hm⟩ => (hfew m).not_ge hm⟩

end FARLock

end Farlock
