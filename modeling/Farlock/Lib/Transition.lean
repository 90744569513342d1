import Mathlib.Tactic

/-!
# Labelled transition systems

A system is given by its initial states and its steps; a step is silent (`none`) or emits one
event.  A run is recorded by the list of events it has emitted and the state it has reached.

* `Lts.Run`, `Lts.Reachable`;
* `Lts.Run.invariant`: the induction rule for properties of a run's events and state;
* `Lts.Run.reach`: a run that can go on, and gets closer to its goal with every step, reaches it.
-/

/-- A labelled transition system over the states `σ` and the events `ε`. -/
structure Lts (σ ε : Type) where
  init : σ → Prop
  step : σ → Option ε → σ → Prop

namespace Lts

variable {σ ε : Type}

/-- `S.Run tr s`: some run from an initial state has emitted `tr` and is now in `s`. -/
inductive Run (S : Lts σ ε) : List ε → σ → Prop
  | start {s : σ} : S.init s → Run S [] s
  | next {tr : List ε} {s s' : σ} {e : Option ε} :
      Run S tr s → S.step s e s' → Run S (tr ++ e.toList) s'

/-- A state that some run reaches. -/
def Reachable (S : Lts σ ε) (s : σ) : Prop := ∃ tr, S.Run tr s

/-- A property of events and state that holds initially and is kept by every step holds of
every run. -/
theorem Run.invariant {S : Lts σ ε} {I : List ε → σ → Prop}
    (hinit : ∀ s, S.init s → I [] s)
    (hstep : ∀ tr s e s', S.Run tr s → I tr s → S.step s e s' → I (tr ++ e.toList) s')
    {tr : List ε} {s : σ} (h : S.Run tr s) : I tr s := by
  induction h with
  | start h0 => exact hinit _ h0
  | next hr hs ih => exact hstep _ _ _ _ hr ih hs

/-- A run that keeps `I` can be continued to a goal if from every state with `I` there is a step to
the goal or to a higher rank. -/
theorem Run.reach {S : Lts σ ε} {I goal : List ε → σ → Prop} (rank : σ → ℕ) (limit : ℕ)
    (hlimit : ∀ s, rank s ≤ limit)
    (hstep : ∀ tr s, S.Run tr s → I tr s → goal tr s ∨ ∃ e s', S.step s e s' ∧
      (goal (tr ++ e.toList) s' ∨ I (tr ++ e.toList) s' ∧ rank s < rank s'))
    {tr : List ε} {s : σ} (h : S.Run tr s) (hI : I tr s) :
    ∃ tr' s', S.Run tr' s' ∧ goal tr' s' := by
  induction hn : limit - rank s using Nat.strong_induction_on generalizing tr s with
  | _ n ih =>
    obtain hg | ⟨e, s', hs, hg | ⟨hI', hlt⟩⟩ := hstep tr s h hI
    · exact ⟨tr, s, h, hg⟩
    · exact ⟨_, s', h.next hs, hg⟩
    · have := hlimit s'
      exact ih (limit - rank s') (by omega) (h.next hs) hI' rfl

end Lts
