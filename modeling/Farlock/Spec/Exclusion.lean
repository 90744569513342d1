import Farlock.Spec.Preserve

/-!
# Mutual exclusion in the abstract lock

* `Inv.section_unique`: the section, and with it the right to draw a ticket, has one owner;
* `Inv.owner_unique`: the lock has one owner.
-/

namespace Farlock

namespace Spec

open TwoParty Peterson

variable {H : Type} {B : Config} {s : State H} {c c' : Side} {p q : ℕ}

/-- The acquisition has the right to the section: it is past `LockPetersons`, or the section was
handed to it, and it has neither lowered the flag nor handed the section on. -/
abbrev Acq.InSection (a : Acq H) : Prop :=
  a.phase = .passed ∨ a.phase = .drawn ∨ (a.has = true ∧ a.rank ≤ 4)

/-- The acquisition owns the lock: it has entered and neither advanced the current ticket nor let
its successor go. -/
abbrev Acq.Owns (a : Acq H) : Prop := a.phase = .critical ∨ (a.phase = .freed ∧ a.out = .handed)

theorem Acq.InSection.contends {a : Acq H} (h : a.InSection) : a.Contends := by
  rcases h with h | h | h
  · exact Or.inl (by grind)
  · exact Or.inl (by grind)
  · exact Or.inr h

/-- At most one acquisition, of whichever class, is in the section. -/
theorem Inv.section_unique (h : Inv B s) (hp : (s.acq c p).InSection)
    (hq : (s.acq c' q).InSection) : c = c' ∧ p = q := by
  rcases eq_or_other c c' with rfl | rfl
  · exact ⟨rfl, h.contends_unique hp.contends hq.contends⟩
  · exact absurd ((h.glob _ q).passed hq) (h.pet.excl ((h.glob c p).passed hp))

theorem Acq.Owns.rank {a : Acq H} (h : a.Owns) : 13 ≤ a.rank ∧ a.rank ≤ 14 := by
  rcases h with h | h <;> grind -linarith

/-- The owner's ticket is the one that is being served. -/
theorem Inv.ticket_of_owns (h : Inv B s) (hp : (s.acq c p).Owns) :
    (s.acq c p).has = true ∧ (s.acq c p).ticket = s.serving := by
  have hhas : (s.acq c p).has = true := (h.own c p).has (by have := hp.rank; omega)
  have hle := (h.glob c p).le hp.rank.1
  refine ⟨hhas, le_antisymm hle (not_lt.1 fun hlt => ?_)⟩
  rcases hp with hcrit | ⟨hfreed, hout⟩
  · have := (h.glob c p).done hhas hlt
    grind
  · -- the ticket went on to the successor, which is not past it
    have hl := h.links c (p + 1)
    rw [pred_succ] at hl
    obtain ⟨-, -, hbhas, -, hbt, -⟩ := hl.handed hout
    have hb := (h.glob c (p + 1)).done hbhas (by omega)
    have := hl.order (by omega)
    simp [hfreed] at this

/-- At most one acquisition, of whichever class, owns the lock. -/
theorem Inv.owner_unique (h : Inv B s) (hp : (s.acq c p).Owns) (hq : (s.acq c' q).Owns) :
    c = c' ∧ p = q := by
  have key : ∀ {c : Side} {p q : ℕ}, p < q → (s.acq c p).Owns → ¬ (s.acq c q).Owns := by
    intro c p q hpq hp hq
    have hgone := h.gone_of_lt hpq hq.rank.1
    have := hp.rank
    grind
  obtain ⟨hphas, hpt⟩ := h.ticket_of_owns hp
  obtain ⟨hqhas, hqt⟩ := h.ticket_of_owns hq
  cases c <;> cases c'
  case loc.rem => exact absurd (hpt.trans hqt.symm) (h.cross p q hphas hqhas)
  case rem.loc => exact absurd (hqt.trans hpt.symm) (h.cross q p hqhas hphas)
  all_goals
    refine ⟨rfl, ?_⟩
    rcases lt_trichotomy p q with hlt | heq | hgt
    · exact absurd hq (key hlt hp)
    · exact heq
    · exact absurd hp (key hgt hq)

end Spec
end Farlock
