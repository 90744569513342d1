import Farlock.Spec.Exclusion

/-!
# The abstract lock does not deadlock

`State.Ready` says that an acquisition can go on: it does not wait for anything, or what it waits
for has happened.  While anybody is in a queue, somebody is ready (`Inv.exists_ready`).  The search
starts at the head of a queue, goes to the other class if the head waits for the section or for its
ticket, and ends with whoever holds the one or the other there.
-/

namespace Farlock

namespace Spec

open TwoParty Peterson

variable {H : Type} {B : Config} {s : State H} {c : Side} {p : ℕ}

/-- The acquisition at place `p` of class `c` can go on. -/
def State.Ready (s : State H) (c : Side) (p : ℕ) : Prop :=
  match (s.acq c p).phase with
  | .absent | .gone => False
  | .wait => (s.pred c p).out = .told ∨ (s.acq c p).has = true
  | .waiting => s.pet.CanPass c
  | .queued => ((s.acq c p).hasPrev = true → (s.pred c p).phase = .gone) ∧
      ((s.acq c p).lead = true → (s.acq c p).ticket = s.serving)
  | .freed => (s.acq c (p + 1)).phase = .absent ∨ (s.acq c (p + 1)).Marked
  | _ => True

theorem ready_iff : s.Ready c p ↔ (s.acq c p).Active ∧
    ((s.acq c p).phase = .wait → (s.pred c p).out = .told ∨ (s.acq c p).has = true) ∧
    ((s.acq c p).phase = .waiting → s.pet.CanPass c) ∧
    ((s.acq c p).phase = .queued →
      ((s.acq c p).hasPrev = true → (s.pred c p).phase = .gone) ∧
      ((s.acq c p).lead = true → (s.acq c p).ticket = s.serving)) ∧
    ((s.acq c p).phase = .freed →
      (s.acq c (p + 1)).phase = .absent ∨ (s.acq c (p + 1)).Marked) := by
  cases hp : (s.acq c p).phase <;> simp [State.Ready, Acq.Active, hp]

/-- The head of a queue: the first acquisition that has not left. -/
theorem Inv.exists_head (hI : Inv B s) (ha : (s.acq c p).Active) :
    ∃ q ≤ p, (s.acq c q).Active ∧ ∀ r < q, (s.acq c r).phase = .gone := by
  classical
  have hex : ∃ q, (s.acq c q).Active := ⟨p, ha⟩
  refine ⟨Nat.find hex, Nat.find_min' hex ha, Nat.find_spec hex, fun r hr => ?_⟩
  have hnot := Nat.find_min hex hr
  have hlt := (hI.count c _).2 (Nat.find_spec hex).1
  have hpres := (hI.count c r).1 (hr.trans hlt)
  by_contra hg
  exact hnot ⟨hpres, hg⟩

theorem pred_gone_of_head (hq : ∀ r < p, (s.acq c r).phase = .gone) :
    (s.pred c p).phase = .gone := by
  cases p with
  | zero => rfl
  | succ p => exact hq p (Nat.lt_succ_self p)

/-- An acquisition that has served its ticket is ready, or its successor is. -/
theorem ready_of_freed (hp : (s.acq c p).phase = .freed) :
    s.Ready c p ∨ s.Ready c (p + 1) := by
  by_cases hs : (s.acq c (p + 1)).phase = .absent ∨ (s.acq c (p + 1)).Marked
  · left
    simpa only [State.Ready, hp] using hs
  · right
    have hrank : 1 ≤ (s.acq c (p + 1)).rank ∧ (s.acq c (p + 1)).rank ≤ 3 := by
      push Not at hs
      refine ⟨?_, by grind⟩
      by_contra h0
      cases h : (s.acq c (p + 1)).phase <;> simp_all [Acq.rank, Phase.rank]
    cases h : (s.acq c (p + 1)).phase <;> simp_all [State.Ready, Acq.rank, Phase.rank]

/-- Whoever stands for a raised flag is ready, unless it waits as the victim. -/
theorem Inv.ready_of_holds (hI : Inv B s) (hh : (s.acq c p).Holds) (hc : s.pet.CanPass c) :
    s.Ready c p := by
  have habs : (s.acq c p).phase ≠ .absent := fun habs => by
    rw [(hI.own c p).absent habs] at hh
    simp [Acq.Holds, Acq.rank, Phase.rank] at hh
  cases h : (s.acq c p).phase <;> simp_all [State.Ready, Acq.Holds, Acq.rank, Phase.rank]

/-- If an acquisition in the section could not pass now, the other class has raised its flag and not
completed its request. -/
theorem Inv.exists_flagged (hI : Inv B s) (hp : (s.acq c p).phase = .passed)
    (hc : ¬ s.pet.CanPass c) : ∃ q, (s.acq (other c) q).phase = .flagged := by
  obtain ⟨hne, hw⟩ := hI.pet.barred c ((hI.glob c p).passed (Or.inl hp))
  simp only [State.CanPass, not_or, not_not] at hc
  have hvictim : s.pet.victim ≠ some (other c) := fun hv =>
    other_ne c (Option.some.inj (hv.symm.trans hc.2))
  obtain ⟨q, hq⟩ := hI.holder (other c) hc.1
  refine ⟨q, ?_⟩
  have hg := hI.glob (other c) q
  have hwaiting : (s.acq (other c) q).phase ≠ .waiting := fun h => hvictim (hw (hg.waiting h))
  have hpassed := fun h => hne (hg.passed h)
  cases h : (s.acq (other c) q).phase <;> simp_all [Acq.Holds, Acq.rank, Phase.rank]

/-- If the ticket that is being served belongs to class `c`, somebody of that class is ready. -/
theorem Inv.ready_of_serving (hI : Inv B s) (hhas : (s.acq c p).has = true)
    (ht : (s.acq c p).ticket = s.serving) (hr : (s.acq c p).rank < 14) : ∃ q, s.Ready c q := by
  have hpres : (s.acq c p).phase ≠ .absent := fun habs => by
    simp [(hI.own c p).absent habs] at hhas
  obtain ⟨q, hqp, hact, hgone⟩ := hI.exists_head (c := c) (p := p) ⟨hpres, by grind⟩
  have hqhas : (s.acq c q).has = true := by
    rcases Nat.eq_or_lt_of_le hqp with rfl | hlt
    · exact hhas
    · exact hI.has_of_lt hlt hhas
  have hle : (s.acq c q).ticket ≤ s.serving := ht ▸ hI.ticket_le_of_le hqp hhas
  have hearly := (hI.own c q).early hqhas
  have hdone := (hI.glob c q).done hqhas
  have hpred := pred_gone_of_head hgone
  cases hph : (s.acq c q).phase with
  | absent => exact absurd hph hact.1
  | gone => exact absurd hph hact.2
  | freed => exact (ready_of_freed hph).elim (fun h => ⟨q, h⟩) fun h => ⟨q + 1, h⟩
  | queued =>
    refine ⟨q, ?_⟩
    simp only [State.Ready, hph]
    refine ⟨fun _ => hpred, fun _ => le_antisymm hle (not_lt.1 fun hlt => ?_)⟩
    have := hdone hlt
    grind
  | wait => exact ⟨q, by simp only [State.Ready, hph]; exact Or.inr hqhas⟩
  | ready => grind
  | flagged => grind
  | waiting => grind
  | passed => grind
  | link => exact ⟨q, by simp only [State.Ready, hph]⟩
  | look => exact ⟨q, by simp only [State.Ready, hph]⟩
  | mark => exact ⟨q, by simp only [State.Ready, hph]⟩
  | drawn => exact ⟨q, by simp only [State.Ready, hph]⟩
  | cleared => exact ⟨q, by simp only [State.Ready, hph]⟩
  | notify => exact ⟨q, by simp only [State.Ready, hph]⟩
  | critical => exact ⟨q, by simp only [State.Ready, hph]⟩

/-- While anybody is in a queue, somebody is ready, provided that no ticket drawn so far looks like
none. -/
theorem Inv.exists_ready (hI : Inv B s) (hb : ∀ t ≤ s.issued, B.blind t = false)
    (ha : (s.acq c p).Active) : ∃ c q, s.Ready c q := by
  obtain ⟨q, -, hact, hgone⟩ := hI.exists_head ha
  have hpred := pred_gone_of_head hgone
  have hl := hI.links c q
  cases hph : (s.acq c q).phase with
  | absent => exact absurd hph hact.1
  | gone => exact absurd hph hact.2
  | freed => exact (ready_of_freed hph).elim (fun h => ⟨c, q, h⟩) fun h => ⟨c, q + 1, h⟩
  | wait =>
    -- the predecessor is gone, so it has left a word, or was seen before
    refine ⟨c, q, ?_⟩
    simp only [State.Ready, hph]
    have hblind : B.blind (s.pred c q).ticket = false := by
      refine hb _ ?_
      cases q with
      | zero => simp [State.pred, sentinel]
      | succ q => exact ((hI.glob c q).lt ((hI.own c q).has (by grind))).le
    cases hout : (s.pred c q).out with
    | kept => exact absurd hph (hl.dekker (by grind) hout hblind).1
    | told => exact Or.inl rfl
    | handed => exact Or.inr (hl.handed hout).2.2.1
  | waiting =>
    -- if the other flag is up, its holder waits as the other party or does not wait at all
    by_cases hc : s.pet.CanPass c
    · exact ⟨c, q, by simpa only [State.Ready, hph] using hc⟩
    · have hother : s.pet.stage (other c) ≠ .idle := fun hi => hc (Or.inl hi)
      obtain ⟨r, hr⟩ := hI.holder (other c) hother
      have hpass := (canPass_or s.pet c).resolve_left hc
      exact ⟨other c, r, hI.ready_of_holds hr hpass⟩
  | queued =>
    have hhas := (hI.own c q).has (by grind)
    by_cases ht : (s.acq c q).ticket = s.serving
    · obtain ⟨r, hr⟩ := hI.ready_of_serving hhas ht (by grind)
      exact ⟨c, r, hr⟩
    · -- somebody carries the ticket that is being served
      have hge : s.serving ≤ (s.acq c q).ticket := by
        by_contra hlt
        have := (hI.glob c q).done hhas (by omega)
        grind
      have hlt := (hI.glob c q).lt hhas
      obtain ⟨c', r, hrhas, hrt, -, hrank⟩ := hI.live s.serving le_rfl (by omega)
      obtain ⟨r', hr'⟩ := hI.ready_of_serving hrhas hrt hrank
      exact ⟨c', r', hr'⟩
  | link => exact ⟨c, q, by simp only [State.Ready, hph]⟩
  | look => exact ⟨c, q, by simp only [State.Ready, hph]⟩
  | mark => exact ⟨c, q, by simp only [State.Ready, hph]⟩
  | ready => exact ⟨c, q, by simp only [State.Ready, hph]⟩
  | flagged => exact ⟨c, q, by simp only [State.Ready, hph]⟩
  | passed => exact ⟨c, q, by simp only [State.Ready, hph]⟩
  | drawn => exact ⟨c, q, by simp only [State.Ready, hph]⟩
  | cleared => exact ⟨c, q, by simp only [State.Ready, hph]⟩
  | notify => exact ⟨c, q, by simp only [State.Ready, hph]⟩
  | critical => exact ⟨c, q, by simp only [State.Ready, hph]⟩

end Spec
end Farlock
