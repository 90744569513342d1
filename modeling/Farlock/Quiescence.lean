import Farlock.FARLock.Safety
import Farlock.FARLockG.Safety

/-!
# A lock that nobody uses is free

When the acquisitions of the abstract lock have all left, both queues are empty, the section is idle
and every ticket drawn has been served (`Inv.tail_eq_none`, `Inv.stage_eq_idle`,
`Inv.serving_eq_issued`). `quiescence` reads this off the words of a lock of FARLock and of
FARLockG.
-/

namespace Farlock

namespace Spec

open TwoParty

variable {H : Type} {B : Config} {s : State H}

/-- Nobody is in a queue. -/
def State.Empty (s : State H) : Prop := ∀ c p, ¬ (s.acq c p).Active

theorem State.Empty.gone (he : s.Empty) {c : Side} {p : ℕ} (hp : (s.acq c p).phase ≠ .absent) :
    (s.acq c p).phase = .gone := by
  by_contra hg
  exact he c p ⟨hp, hg⟩

theorem Inv.serving_eq_issued (hI : Inv B s) (he : s.Empty) : s.serving = s.issued := by
  refine le_antisymm hI.serving_le (not_lt.1 fun hlt => ?_)
  -- the ticket to be served next has a carrier that is still here
  obtain ⟨c, p, hhas, -, -, hrank⟩ := hI.live _ le_rfl hlt
  have hp : (s.acq c p).phase ≠ .absent := fun habs => by
    simp [(hI.own c p).absent habs] at hhas
  simp [Acq.rank, Phase.rank, he.gone hp] at hrank

theorem Inv.stage_eq_idle (hI : Inv B s) (he : s.Empty) (c : Side) : s.pet.stage c = .idle := by
  by_contra hst
  obtain ⟨p, hp⟩ := hI.holder c hst
  have hpres : (s.acq c p).phase ≠ .absent := by
    intro habs
    rw [Acq.Holds, (hI.own c p).absent habs] at hp
    simp [Acq.rank, Phase.rank] at hp
  simp [Acq.Holds, Acq.rank, Phase.rank, he.gone hpres] at hp

theorem Inv.tail_eq_none (hI : Inv B s) (he : s.Empty) (c : Side) : s.tail c = none := by
  unfold State.tail
  cases hn : s.arrived c with
  | zero => rfl
  | succ n => exact if_pos (he.gone ((hI.count c n).1 (by omega)))

/-- With budget one, as many acquisitions have left an empty lock as tickets were drawn. -/
theorem length_leaves [DecidableEq H] (hB : ∀ c, B.budget c = 1) (h : Reachable B s)
    (he : s.Empty) : (leaves s.log).length = s.issued := by
  have hI := h.inv
  have hhas : ∀ x ∈ leaves s.log, (s.acq x.1 x.2).has = true := by
    rintro ⟨c, p⟩ hx
    have hg := (mem_leaves h).1 hx
    exact (hI.own c p).has (by simp [Acq.rank, hg, Phase.rank])
  have hinj : ∀ x ∈ leaves s.log, ∀ y ∈ leaves s.log,
      (s.acq x.1 x.2).ticket = (s.acq y.1 y.2).ticket → x = y := by
    rintro ⟨c, p⟩ hx ⟨c', q⟩ hy heq
    obtain rfl := hI.side_of_ticket (hhas _ hx) (hhas _ hy) heq
    rcases lt_trichotomy p q with hlt | rfl | hgt
    · exact absurd heq (hI.ticket_lt_of_lt hlt (hhas _ hy) (hI.out_ne_handed (hB c))).ne
    · rfl
    · exact absurd heq.symm (hI.ticket_lt_of_lt hgt (hhas _ hx) (hI.out_ne_handed (hB c))).ne
  have hperm : ((leaves s.log).map fun x => (s.acq x.1 x.2).ticket).Perm (List.range s.issued) := by
    refine (List.perm_ext_iff_of_nodup ?_ List.nodup_range).2 fun t => ?_
    · exact (leaves_nodup h).map_on hinj
    · rw [List.mem_map, List.mem_range]
      constructor
      · rintro ⟨x, hx, rfl⟩
        exact (hI.glob x.1 x.2).lt (hhas x hx)
      · intro ht
        obtain ⟨c, p, hhas, -, rfl⟩ := exists_draw h ht
        have hp : (s.acq c p).phase ≠ .absent := fun habs => by
          simp [(hI.own c p).absent habs] at hhas
        exact ⟨(c, p), (mem_leaves h).2 (he.gone hp), rfl⟩
  simpa using hperm.length_eq

end Spec

open Spec

section Words

variable {H L D F : Type} [DecidableEq L] {V : View H L D F} {B : Config}
  {C : Cluster H L} {tr : List (L × Event H UInt64)} {s : State H L D F} {k : L → Spec.State H}
  {pos : H → ℕ} {l : L}

theorem Sim.empty (hS : Sim V B C tr s k pos)
    (hq : ∀ h f, s.thread h = .busy f → V.lock f ≠ l) : (k l).Empty := by
  intro c p ha
  obtain ⟨g, f, hf, hl, -⟩ := hS.exists_handler ha
  exact hq g f hf hl

/-- The words of a free lock on which `n` tickets were drawn in all. -/
def LockWords.Free (w : LockWords H) (n : ℕ) : Prop :=
  w.remoteTail = none ∧ w.localTail = none ∧ w.remoteFlag = false ∧ w.localFlag = false ∧
    w.currentTicket = w.nextTicket ∧ w.nextTicket.toNat = n % 2 ^ 64

theorem Sim.free (hS : Sim V B C tr s k pos)
    (hq : ∀ h f, s.thread h = .busy f → V.lock f ≠ l) : (s.locks l).Free (k l).issued := by
  have hI := (hS.reach l).inv
  have he := hS.empty hq
  have hw := hS.words l
  have hflag : ∀ c, (s.locks l).flag c = false := fun c => by
    rw [hw.flag, hI.stage_eq_idle he]
    rfl
  have htail : ∀ c, (s.locks l).tail c = none := fun c => (hw.tail c).trans (hI.tail_eq_none he c)
  refine ⟨htail .rem, htail .loc, hflag .rem, hflag .loc, ?_, ?_⟩
  · rw [hw.currentTicket, hw.nextTicket, hI.serving_eq_issued he]
  · rw [hw.nextTicket]
    simp [word]

end Words

variable {H L : Type} [DecidableEq H] [DecidableEq L] {C : Cluster H L}

/-- When no handler is inside `Lock`, the critical section or `Unlock` of lock `l`, the lock is free
again: both tails and both flags are zero and the two tickets agree.  In FARLock they count the
completed acquisitions, in FARLockG the batches, all of which have been served. -/
theorem quiescence (l : L) :
    (∀ tr s, (FARLock.system C).Run tr s → (∀ h f, s.thread h = .busy f → f.lock ≠ l) →
      (s.locks l).Free (leaves (onLock l tr)).length) ∧
    (∀ B : LockConfig, B.Positive → ∀ tr s, (FARLockG.system C B).Run tr s →
      (∀ h f, s.thread h = .busy f → f.lock ≠ l) →
      (s.locks l).Free (draws (onLock l tr)).length ∧
        (advances (onLock l tr)).length = (draws (onLock l tr)).length) := by
  constructor
  · intro tr s hr hq
    obtain ⟨k, pos, hS⟩ := FARLock.simulated_of_run hr
    rw [hS.log l, leaves_map, length_leaves (fun _ => rfl) (hS.reach l) (hS.empty hq)]
    exact hS.free hq
  · intro B hB tr s hr hq
    obtain ⟨k, pos, hS⟩ := FARLockG.simulated_of_run hB hr
    have hM := hS.shows l
    rw [hM.length_draws, hM.length_advances]
    exact ⟨hS.free hq, hM.reach.inv.serving_eq_issued (hS.empty hq)⟩

/-- One handler has been through `Lock` and `Unlock`, in FARLock and in FARLockG. -/
theorem quiescence_once :
    (∃ tr s, (FARLock.system Cluster.pair).Run tr s ∧ leaves (onLock () tr) = [(.loc, 0)] ∧
      (s.locks ()).Free 1) ∧
    ∃ tr s, (FARLockG.system FARLockG.trio ⟨2, 2⟩).Run tr s ∧
      draws (onLock () tr) = [(.loc, 0, 0)] ∧ (s.locks ()).Free 1 := by
  constructor
  · obtain ⟨y, hy, hidle, hl⟩ : ∃ y ∈ FARLock.playPair ((false, .call ()) :: Clients.steps false 21),
        (∀ h, y.1.thread h = .idle) ∧ leaves (onLock () y.2) = [(.loc, 0)] := by decide
    have hrun : (FARLock.system Cluster.pair).Run y.2 y.1 := State.run_of_mem_play hy
    have hfree := (quiescence ()).1 y.2 y.1 hrun fun h f hf => by simp [hidle h] at hf
    rw [hl] at hfree
    exact ⟨y.2, y.1, hrun, hl, hfree⟩
  · obtain ⟨y, hy, hidle, hd⟩ : ∃ y ∈ FARLockG.playTrio ((0, .call ()) :: Clients.steps 0 24),
        (∀ h, y.1.thread h = .idle) ∧ draws (onLock () y.2) = [(.loc, 0, 0)] := by decide
    have hrun : (FARLockG.system FARLockG.trio ⟨2, 2⟩).Run y.2 y.1 := State.run_of_mem_play hy
    have hfree := ((quiescence ()).2 ⟨2, 2⟩ ⟨by decide, by decide⟩ y.2 y.1 hrun fun h f hf => by
      simp [hidle h] at hf).1
    rw [hd] at hfree
    exact ⟨y.2, y.1, hrun, hd, hfree⟩

end Farlock
