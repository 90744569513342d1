import Farlock.Trace
import Farlock.Spec.Lines

/-!
# What an onlooker sees of a cluster

Each handler calls `Lock` and `Unlock` on a given sequence of locks.  An onlooker sees the tail
exchanges, the fetch-and-adds on the next ticket with the tickets they return, the entries into the
critical sections and the updates of the current tickets, of all handlers on all locks, in the order
in which they happen.

* `visible`, `traces`: what is seen of a run, and what can be seen of a lock algorithm;
* `Lines.system`: the lines and rows of all locks, with handlers that are engaged with one lock at a
  time;
* `Lines.run_unique`: what has been seen determines them.
-/

namespace Farlock

variable {H L : Type}

/-- The events of a run that are seen. -/
def visible (tr : List (L × Event H UInt64)) : List (L × Event H UInt64) :=
  tr.filter fun x => x.2.Visible

@[simp] theorem visible_nil : visible ([] : List (L × Event H UInt64)) = [] := rfl

@[simp] theorem visible_append (tr tr' : List (L × Event H UInt64)) :
    visible (tr ++ tr') = visible tr ++ visible tr' :=
  List.filter_append ..

@[simp] theorem visible_single (l : L) (e : Event H UInt64) :
    visible [(l, e)] = if e.Visible then [(l, e)] else [] := by
  cases h : e.Visible <;> simp [visible, h]

section Calls

variable [DecidableEq H]

/-- The locks whose tails a handler has exchanged. -/
def arrivals (h : H) (tr : List (L × Event H UInt64)) : List L :=
  tr.filterMap fun x => match x.2 with
    | .arrive _ g => if g = h then some x.1 else none
    | _ => none

@[simp] theorem arrivals_append (h : H) (tr tr' : List (L × Event H UInt64)) :
    arrivals h (tr ++ tr') = arrivals h tr ++ arrivals h tr' :=
  List.filterMap_append

/-- Tail exchanges are seen. -/
theorem arrivals_visible (h : H) (tr : List (L × Event H UInt64)) :
    arrivals h (visible tr) = arrivals h tr := by
  rw [visible, arrivals, List.filterMap_filter]
  apply List.filterMap_congr
  rintro ⟨l, e⟩ -
  cases e <;> rfl

/-- The locks that a handler calls `Lock` on in a schedule. -/
def calls (h : H) (sched : List (H × Act L)) : List L :=
  sched.filterMap fun x => match x.2 with
    | .call l => if x.1 = h then some l else none
    | .run _ => none

/-- Draws are seen. -/
theorem length_draws_visible [DecidableEq L] (l : L) (tr : List (L × Event H UInt64)) :
    (draws (onLock l (visible tr))).length = (draws (onLock l tr)).length := by
  rw [draws, draws, length_timed, length_timed]
  congr 1
  rw [onLock, onLock, visible, List.filterMap_filterMap, List.filterMap_filter, List.filterMap_filterMap]
  apply List.filterMap_congr
  rintro ⟨l', e⟩ -
  by_cases hl : l' = l
  · cases e <;> simp [Event.Visible, Event.drawn, hl]
  · cases e <;> simp [Event.Visible, hl]

theorem length_draws_le [DecidableEq L] (l : L) (tr tr' : List (L × Event H UInt64)) :
    (draws (onLock l tr)).length ≤ (draws (onLock l (tr ++ tr'))).length := by
  have hpre := timed_prefix Event.drawn (onLock l tr) (onLock l tr')
  rw [onLock_append]
  exact hpre.length_le

end Calls

/-- What can be seen of a lock algorithm when every handler `h` calls `Lock` on the locks `P h`, one
after the other, and fewer than `2 ^ 64 - 1` tickets are drawn of each lock. -/
def traces {D F : Type} [DecidableEq H] [DecidableEq L] (start : L → F)
    (exec : State H L D F → H → F → Bool → Option (State H L D F × Option (L × Event H UInt64)))
    (P : H → List L) : Set (List (L × Event H UInt64)) :=
  { T | ∃ s₀ sched s tr, State.Initial s₀ ∧ State.play start exec s₀ sched = some (s, tr) ∧
      (∀ h, calls h sched <+: P h) ∧ (∀ l, (draws (onLock l tr)).length < 2 ^ 64 - 1) ∧
      T = visible tr }

/-! ### Lines and rows -/

namespace Lines

variable [DecidableEq H] [DecidableEq L] {C : Cluster H L}

/-- The lines and rows of all locks.  A handler that stands nowhere goes to the line of its
class. -/
def system (C : Cluster H L) : Lts (L → Lines H) (L × Event H UInt64) where
  init o := ∀ l, o l = {}
  step o x o' := ∃ l e q, x = some (l, e) ∧ e.Visible = true ∧ e.side = C.side e.who l ∧
    (∀ c h, e = .arrive c h → ∀ l', ¬ (o l').Has h) ∧ (o l).next word e = some q ∧
    o' = Function.update o l q

/-- The last step of what has been seen. -/
theorem run_snoc_iff {T : List (L × Event H UInt64)} {x : L × Event H UInt64} {o' : L → Lines H} :
    (system C).Run (T ++ [x]) o' ↔ ∃ o, (system C).Run T o ∧ (system C).step o (some x) o' := by
  constructor
  · intro h
    generalize hT : T ++ [x] = T' at h
    cases h with
    | start h0 => simp at hT
    | @next tr o _ e hr hs =>
      obtain ⟨l, e', q, rfl, -⟩ := id hs
      obtain ⟨rfl, hx⟩ := List.append_inj' hT rfl
      obtain rfl : x = (l, e') := by simpa using hx
      exact ⟨o, hr, hs⟩
  · rintro ⟨o, hr, hs⟩
    exact hr.next hs

/-- The lines and the row of each lock. -/
theorem run_onLock {T : List (L × Event H UInt64)} {o : L → Lines H} (h : (system C).Run T o) (l : L) :
    run word (onLock l T) = some (o l) := by
  induction h with
  | start h0 => rw [h0 l]; rfl
  | @next T o o' x hr hs ih =>
    obtain ⟨l', e, q, rfl, -, -, -, hq, rfl⟩ := hs
    rw [Option.toList_some, onLock_append, onLock_single]
    by_cases hl : l' = l
    · subst hl
      rw [if_pos rfl, run_snoc word ih, hq, Function.update_self]
    · rw [if_neg hl, List.append_nil, ih, Function.update_of_ne fun e => hl e.symm]

/-- What has been seen determines the lines and rows. -/
theorem run_unique {T : List (L × Event H UInt64)} {o o' : L → Lines H} (h : (system C).Run T o)
    (h' : (system C).Run T o') : o = o' :=
  funext fun l => Option.some.inj ((run_onLock h l).symm.trans (run_onLock h' l))

/-- Events that are not seen make no difference. -/
theorem run_visible (l : L) (tr : List (L × Event H UInt64)) :
    run word (onLock l (visible tr)) = run word (onLock l tr) := by
  induction tr using List.reverseRecOn with
  | nil => rfl
  | append_singleton tr x ih =>
    obtain ⟨l', e⟩ := x
    rw [visible_append, visible_single]
    cases hv : e.Visible with
    | true => rw [if_pos rfl, onLock_append, onLock_append, run_append, run_append, ih]
    | false =>
      rw [if_neg (by simp), List.append_nil, ih, onLock_append, onLock_single]
      split_ifs with hl
      · rw [run_append]
        cases run word (onLock l tr) with
        | none => rfl
        | some q =>
          rw [Option.bind_some, List.foldlM_cons, next_of_not_visible word hv]
          simp
      · rw [List.append_nil]

end Lines

end Farlock
