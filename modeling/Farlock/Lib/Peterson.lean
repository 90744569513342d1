import Mathlib.Tactic

/-!
# A two-party section in the manner of Peterson

Two parties share one section.  A party raises its flag, names itself the victim, and may then
pass once it has seen either the other flag down or the other party as the victim; it leaves by
lowering its flag.  The two looks of the waiting loop may be made in any order and with other
steps between them: only the moment of the successful look matters, and that is the step
`State.pass`.

* `TwoParty`: a type with two elements, each the `other` of the other one;
* `Stage`, `State`, and the moves `raise`, `request`, `pass`, `lower`;
* `Inv`: the invariant of the section, kept by every move, with mutual exclusion (`Inv.excl`)
  and freedom from deadlock (`Inv.canPass_or`);
* `Barred`: the situation in which a party cannot overtake the other, and its persistence.
-/

/-- A type with two elements, exchanged by `other`. -/
class TwoParty (P : Type) where
  other : P → P
  other_ne : ∀ p, other p ≠ p
  eq_or_other : ∀ p q, q = p ∨ q = other p

namespace TwoParty

variable {P : Type} [TwoParty P]

@[simp] theorem other_other (p : P) : other (other p) = p := by
  rcases eq_or_other (other p) p with h | h
  · exact absurd h.symm (other_ne p)
  · exact h.symm

end TwoParty

namespace Peterson

open TwoParty

/-- How far a party has come: flag down, flag up, waiting as the named victim, in the section. -/
inductive Stage
  | idle
  | flagged
  | waiting
  | passed
  deriving DecidableEq, Repr

/-- The stages of both parties and the party named as the victim. -/
structure State (P : Type) where
  stage : P → Stage
  victim : Option P

/-- Nobody has asked for the section yet. -/
def State.initial (P : Type) : State P := ⟨fun _ => .idle, none⟩

variable {P : Type} [DecidableEq P]

/-- Raise the flag. -/
def State.raise (s : State P) (p : P) : State P := { s with stage := Function.update s.stage p .flagged }

/-- Name oneself the victim; from here on the request is complete. -/
def State.request (s : State P) (p : P) : State P :=
  ⟨Function.update s.stage p .waiting, some p⟩

/-- Take the section after a successful look. -/
def State.pass (s : State P) (p : P) : State P := { s with stage := Function.update s.stage p .passed }

/-- Lower the flag. -/
def State.lower (s : State P) (p : P) : State P := { s with stage := Function.update s.stage p .idle }

section Moves

variable (s : State P) (p : P)

@[simp] theorem raise_stage (q : P) :
    (s.raise p).stage q = if q = p then .flagged else s.stage q := by
  simp [State.raise, Function.update_apply]

@[simp] theorem request_stage (q : P) :
    (s.request p).stage q = if q = p then .waiting else s.stage q := by
  simp [State.request, Function.update_apply]

@[simp] theorem pass_stage (q : P) :
    (s.pass p).stage q = if q = p then .passed else s.stage q := by
  simp [State.pass, Function.update_apply]

@[simp] theorem lower_stage (q : P) :
    (s.lower p).stage q = if q = p then .idle else s.stage q := by
  simp [State.lower, Function.update_apply]

@[simp] theorem raise_victim : (s.raise p).victim = s.victim := rfl
@[simp] theorem request_victim : (s.request p).victim = some p := rfl
@[simp] theorem pass_victim : (s.pass p).victim = s.victim := rfl
@[simp] theorem lower_victim : (s.lower p).victim = s.victim := rfl

end Moves

section Looks

variable {P : Type} [TwoParty P]

/-- The look of the waiting loop succeeds for `p`. -/
def State.CanPass (s : State P) (p : P) : Prop :=
  s.stage (other p) = .idle ∨ s.victim ≠ some p

/-- `p` is not in the section and, if it waits, it waits as the victim. -/
def State.Barred (s : State P) (p : P) : Prop :=
  s.stage p ≠ .passed ∧ (s.stage p = .waiting → s.victim = some p)

/-- The invariant of the section. -/
structure Inv (s : State P) : Prop where
  named : ∀ p, s.stage p = .waiting → s.victim ≠ none
  barred : ∀ p, s.stage p = .passed → s.Barred (other p)

variable {s : State P} {p : P}

/-- Mutual exclusion: the two parties are never both in the section. -/
theorem Inv.excl (h : Inv s) (hp : s.stage p = .passed) : s.stage (other p) ≠ .passed :=
  (h.barred p hp).1

theorem inv_initial : Inv (State.initial P) :=
  ⟨fun p h => by simp [State.initial] at h, fun p h => by simp [State.initial] at h⟩

/-- No deadlock: of two waiting parties one can pass. -/
theorem canPass_or (s : State P) (p : P) : s.CanPass p ∨ s.CanPass (other p) := by
  by_cases hv : s.victim = some p
  · exact Or.inr (Or.inr fun h => other_ne p (Option.some.inj (h.symm.trans hv)))
  · exact Or.inl (Or.inr hv)

end Looks

section Invariant

variable [TwoParty P] {s : State P} {p : P}

theorem Inv.raise (h : Inv s) : Inv (s.raise p) := by
  refine ⟨fun q hq => ?_, fun q hq => ?_⟩
  · have := h.named q
    grind [raise_stage, raise_victim]
  · have := h.barred q
    grind [State.Barred, raise_stage, raise_victim]

theorem Inv.request (h : Inv s) : Inv (s.request p) := by
  refine ⟨fun q hq => by simp, fun q hq => ?_⟩
  have hb := h.barred q
  rcases eq_or_other p q with rfl | rfl
  · simp at hq
  · simp [State.Barred]

theorem Inv.pass (h : Inv s) (hp : s.stage p = .waiting) (hc : s.CanPass p) : Inv (s.pass p) := by
  refine ⟨fun q hq => ?_, fun q hq => ?_⟩
  · have := h.named q
    grind [pass_stage, pass_victim]
  · -- the one that passes bars the other, which may be waiting but then as the victim
    have hne := other_ne p
    have hv := h.named p hp
    have hb := h.barred (other p)
    have ho := other_other p
    rcases eq_or_other p q with rfl | rfl
    · refine ⟨?_, fun hw => ?_⟩
      · grind [State.Barred, State.CanPass, pass_stage, pass_victim]
      · obtain ⟨v, hv'⟩ := Option.ne_none_iff_exists'.1 hv
        rcases eq_or_other q v with rfl | rfl <;>
          grind [State.CanPass, pass_stage, pass_victim]
    · grind [State.Barred, State.CanPass, pass_stage, pass_victim]

theorem Inv.lower (h : Inv s) : Inv (s.lower p) := by
  refine ⟨fun q hq => ?_, fun q hq => ?_⟩
  · have := h.named q
    grind [lower_stage, lower_victim]
  · have := h.barred q
    grind [State.Barred, lower_stage, lower_victim]

end Invariant

end Peterson
