import Farlock.Lib.Peterson
import Farlock.Lib.Transition

/-!
# Two cohorts that share a section

The members of two parties stand in lines, one line for each party.  The first one of a line stands
for its party in a two-party section in the manner of Peterson (`Farlock.Lib.Peterson`), where the
flag of a party is up while its line is not empty.  Who leaves a line hands the section over to the
next one there together with what is left of a budget; when nothing is left, the next one has to ask
for the section again, so that the other party may have it.

* `Cohort.State`, `Cohort.Event`, `State.Enabled`, `State.apply`: what can happen, and what it does;
* `Cohort.Inv`: the invariant, kept by every event, with mutual exclusion (`Inv.excl`);
* `order`: within a party, first come, first served;
* `batch`, `bypass`: what the budgets bound;
* `no_entry_after_leave`: what happens when a budget is zero.
-/

namespace Cohort

open TwoParty

/-- What can be seen of the members `H` of the parties `P`. -/
inductive Event (H P : Type)
  /-- goes to the end of the line -/
  | arrive (c : P) (h : H)
  /-- names its party the victim -/
  | request (c : P) (h : H)
  /-- wins the section for its party -/
  | pass (c : P) (h : H)
  /-- takes its turn -/
  | enter (c : P) (h : H)
  /-- leaves the line -/
  | leave (c : P) (h : H)
  deriving DecidableEq

/-- The party of the member. -/
def Event.side {H P : Type} : Event H P → P
  | .arrive c _ => c
  | .request c _ => c
  | .pass c _ => c
  | .enter c _ => c
  | .leave c _ => c

/-- The member itself. -/
def Event.member {H P : Type} : Event H P → H
  | .arrive _ h => h
  | .request _ h => h
  | .pass _ h => h
  | .enter _ h => h
  | .leave _ h => h

/-- The lines of the parties, from the front to the back, the section, what is left of the budgets,
and whether the first one of a line is taking its turn. -/
structure State (H P : Type) where
  line : P → List H
  pet : Peterson.State P
  left : P → ℤ
  inside : P → Bool

/-- Nobody is there. -/
def State.initial (H P : Type) : State H P :=
  ⟨fun _ => [], Peterson.State.initial P, fun _ => 0, fun _ => false⟩

variable {H P : Type}

section Moves

variable [TwoParty P]

/-- The event can happen. -/
def State.Enabled (s : State H P) : Event H P → Prop
  | .arrive _ h => ∀ c, h ∉ s.line c
  | .request c h => (s.line c).head? = some h ∧ s.pet.stage c = .flagged ∧ s.left c = 0
  | .pass c h => (s.line c).head? = some h ∧ s.pet.stage c = .waiting ∧ s.pet.CanPass c
  | .enter c h => (s.line c).head? = some h ∧ s.pet.stage c = .passed ∧ s.inside c = false
  | .leave c h => (s.line c).head? = some h ∧ s.inside c = true

variable [DecidableEq P]

/-- What becomes of the section when the first one of the line of `c` leaves. -/
def State.release (s : State H P) (c : P) : Peterson.State P :=
  if (s.line c).tail = [] then s.pet.lower c
  else if 0 < s.left c - 1 then s.pet
  else s.pet.raise c

/-- What an event does; `B` are the budgets of the parties. -/
def State.apply [DecidableEq H] (B : P → ℤ) (s : State H P) : Event H P → State H P
  | .arrive c h =>
      { s with
        line := Function.update s.line c (s.line c ++ [h])
        pet := if s.line c = [] then s.pet.raise c else s.pet
        left := if s.line c = [] then Function.update s.left c 0 else s.left }
  | .request c _ => { s with pet := s.pet.request c }
  | .pass c _ => { s with pet := s.pet.pass c, left := Function.update s.left c (B c) }
  | .enter c _ => { s with inside := Function.update s.inside c true }
  | .leave c _ =>
      { line := Function.update s.line c (s.line c).tail
        pet := s.release c
        left := Function.update s.left c (s.left c - 1)
        inside := Function.update s.inside c false }

/-- The system of all runs. -/
def system [DecidableEq H] (B : P → ℤ) : Lts (State H P) (Event H P) where
  init s := s = State.initial H P
  step s e s' := ∃ x, e = some x ∧ s.Enabled x ∧ s' = s.apply B x

/-- The state after the events `tr`. -/
def after [DecidableEq H] (B : P → ℤ) (tr : List (Event H P)) : State H P :=
  tr.foldl (State.apply B) (State.initial H P)

omit [TwoParty P] in
theorem after_append [DecidableEq H] (B : P → ℤ) (tr : List (Event H P)) (e : Event H P) :
    after B (tr ++ [e]) = (after B tr).apply B e := by
  simp [after]

/-- The events determine the state. -/
theorem eq_after [DecidableEq H] {B : P → ℤ} {tr : List (Event H P)} {s : State H P}
    (hr : (system B).Run tr s) : s = after B tr := by
  refine hr.invariant (I := fun tr s => s = after B tr) (fun s hs => hs) ?_
  rintro tr s e s' - rfl ⟨x, rfl, -, rfl⟩
  exact (after_append B tr x).symm

end Moves

/-! ### The invariant -/

/-- The invariant of the two cohorts. -/
structure Inv [TwoParty P] (B : P → ℤ) (s : State H P) : Prop where
  pet : Peterson.Inv s.pet
  /-- the flag of a party is up while its line is not empty -/
  idle_iff : ∀ c, s.pet.stage c = .idle ↔ s.line c = []
  /-- the parties are disjoint, and nobody stands in line twice -/
  nodup : ∀ c, (s.line c).Nodup
  disjoint : ∀ c c' h, h ∈ s.line c → h ∈ s.line c' → c' = c
  inside : ∀ c, s.inside c = true → s.pet.stage c = .passed
  /-- who is past the section has something left of the budget, unless there was nothing to begin
  with -/
  left_le : ∀ c, s.left c ≤ max (B c) 0
  left_pos : ∀ c, s.pet.stage c = .passed → 0 < s.left c ∨ s.left c = B c
  left_waiting : ∀ c, s.pet.stage c = .waiting → s.left c = 0

section Inv

variable [TwoParty P] {B : P → ℤ} {s : State H P} {c : P} {h : H}

/-- Mutual exclusion. -/
theorem Inv.excl (hI : Inv B s) (hc : s.inside c = true) : s.inside (other c) = false := by
  by_contra ho
  rw [Bool.not_eq_false] at ho
  exact hI.pet.excl (hI.inside c hc) (hI.inside (other c) ho)

theorem inv_initial : Inv B (State.initial H P) :=
  ⟨Peterson.inv_initial, fun c => by simp [State.initial, Peterson.State.initial],
    fun c => by simp [State.initial], fun c c' h hh => by simp [State.initial] at hh,
    fun c hc => by simp [State.initial] at hc, fun c => by simp [State.initial],
    fun c hc => by simp [State.initial, Peterson.State.initial] at hc,
    fun c hc => by simp [State.initial, Peterson.State.initial] at hc⟩

variable [DecidableEq P] [DecidableEq H]

theorem Inv.arrive (hI : Inv B s) (he : s.Enabled (.arrive c h)) : Inv B (s.apply B (.arrive c h)) := by
  simp only [State.Enabled] at he
  have hmem : ∀ c' g, g ∈ (s.apply B (.arrive c h)).line c' ↔ g ∈ s.line c' ∨ c' = c ∧ g = h := by
    intro c' g
    by_cases hc : c' = c
    · subst hc
      simp [State.apply]
    · simp [State.apply, hc]
  have hidle := hI.idle_iff c
  refine ⟨?_, fun c' => ?_, fun c' => ?_, fun c1 c2 g => ?_, fun c' hin => ?_, fun c' => ?_,
    fun c' hst => ?_, fun c' hst => ?_⟩
  · simp only [State.apply]
    split_ifs
    · exact hI.pet.raise
    · exact hI.pet
  · have := hI.idle_iff c'
    by_cases hc : c' = c
    · subst hc
      by_cases hl : s.line c' = [] <;> simp [State.apply, hl, this]
    · by_cases hl : s.line c = [] <;> simp [State.apply, hl, hc, this]
  · by_cases hc : c' = c
    · subst hc
      simpa [State.apply] using (hI.nodup c').concat (he c')
    · simpa [State.apply, hc] using hI.nodup c'
  · rw [hmem, hmem]
    rintro (h1 | ⟨rfl, rfl⟩) (h2 | ⟨rfl, hg⟩)
    · exact hI.disjoint c1 c2 g h1 h2
    · exact absurd (hg ▸ h1) (he c1)
    · exact absurd h2 (he c2)
    · rfl
  · have hp := hI.inside c' hin
    simp only [State.apply]
    split_ifs with hl
    · rw [Peterson.raise_stage, if_neg]
      · exact hp
      · rintro rfl
        simp [hidle.2 hl] at hp
    · exact hp
  · have := hI.left_le c'
    by_cases hc : c' = c
    · subst hc
      by_cases hl : s.line c' = [] <;> simp [State.apply, hl, this]
    · by_cases hl : s.line c = [] <;> simp [State.apply, hl, hc, this]
  · have := hI.left_pos c'
    by_cases hl : s.line c = []
    · by_cases hc : c' = c
      · subst hc
        simp [State.apply, hl] at hst
      · simpa [State.apply, hl, hc] using this (by simpa [State.apply, hl, hc] using hst)
    · simpa [State.apply, hl] using this (by simpa [State.apply, hl] using hst)
  · have := hI.left_waiting c'
    by_cases hl : s.line c = []
    · by_cases hc : c' = c
      · subst hc
        simp [State.apply, hl] at hst
      · simpa [State.apply, hl, hc] using this (by simpa [State.apply, hl, hc] using hst)
    · simpa [State.apply, hl] using this (by simpa [State.apply, hl] using hst)

theorem Inv.request (hI : Inv B s) (he : s.Enabled (.request c h)) :
    Inv B (s.apply B (.request c h)) := by
  obtain ⟨hhd, hst, hleft⟩ := he
  refine ⟨hI.pet.request, fun c' => ?_, hI.nodup, hI.disjoint, fun c' hin => ?_, hI.left_le,
    fun c' hst' => ?_, fun c' hst' => ?_⟩
  · have := hI.idle_iff c'
    by_cases hc : c' = c
    · subst hc
      rw [hst] at this
      simpa [State.apply] using this
    · simpa [State.apply, hc] using this
  · have hp := hI.inside c' hin
    have hc : c' ≠ c := by
      rintro rfl
      simp [hst] at hp
    simpa [State.apply, hc] using hp
  · by_cases hc : c' = c
    · subst hc
      simp [State.apply] at hst'
    · exact hI.left_pos c' (by simpa [State.apply, hc] using hst')
  · by_cases hc : c' = c
    · subst hc
      exact hleft
    · exact hI.left_waiting c' (by simpa [State.apply, hc] using hst')

theorem Inv.pass (hI : Inv B s) (he : s.Enabled (.pass c h)) : Inv B (s.apply B (.pass c h)) := by
  obtain ⟨hhd, hst, hcan⟩ := he
  refine ⟨hI.pet.pass hst hcan, fun c' => ?_, hI.nodup, hI.disjoint, fun c' hin => ?_, fun c' => ?_,
    fun c' hst' => ?_, fun c' hst' => ?_⟩
  · have := hI.idle_iff c'
    by_cases hc : c' = c
    · subst hc
      rw [hst] at this
      simpa [State.apply] using this
    · simpa [State.apply, hc] using this
  · have hp := hI.inside c' hin
    by_cases hc : c' = c <;> simp [State.apply, hc, hp]
  · by_cases hc : c' = c
    · subst hc
      simp [State.apply]
    · simpa [State.apply, hc] using hI.left_le c'
  · by_cases hc : c' = c
    · subst hc
      simp [State.apply]
    · simpa [State.apply, hc] using hI.left_pos c' (by simpa [State.apply, hc] using hst')
  · by_cases hc : c' = c
    · subst hc
      simp [State.apply] at hst'
    · simpa [State.apply, hc] using hI.left_waiting c' (by simpa [State.apply, hc] using hst')

theorem Inv.enter (hI : Inv B s) (he : s.Enabled (.enter c h)) : Inv B (s.apply B (.enter c h)) := by
  obtain ⟨-, hst, -⟩ := he
  refine ⟨hI.pet, hI.idle_iff, hI.nodup, hI.disjoint, fun c' hin => ?_, hI.left_le, hI.left_pos,
    hI.left_waiting⟩
  by_cases hc : c' = c
  · rw [hc]
    exact hst
  · exact hI.inside c' (by simpa [State.apply, hc] using hin)

omit [TwoParty P] in
/-- An event of one party does not show in the other one. -/
theorem apply_of_ne {e : Event H P} (hc : c ≠ e.side) :
    (s.apply B e).line c = s.line c ∧ (s.apply B e).pet.stage c = s.pet.stage c ∧
      (s.apply B e).left c = s.left c ∧ (s.apply B e).inside c = s.inside c := by
  cases e with
  | arrive c' h =>
    by_cases hl : s.line c' = [] <;> simp_all [State.apply, Event.side]
  | leave c' h =>
    have hst : (s.release c').stage c = s.pet.stage c := by
      unfold State.release
      split_ifs <;> simp_all [Event.side]
    simp_all [State.apply, Event.side]
  | request c' h | pass c' h | enter c' h => simp_all [State.apply, Event.side]

omit [TwoParty P] in
/-- Only a request names a victim. -/
theorem apply_victim {e : Event H P} (he : ∀ c g, e ≠ .request c g) :
    (s.apply B e).pet.victim = s.pet.victim := by
  cases e with
  | arrive c' h => by_cases hl : s.line c' = [] <;> simp [State.apply, hl]
  | leave c' h =>
    simp only [State.apply, State.release]
    split_ifs <;> rfl
  | request c' h => exact absurd rfl (he c' h)
  | pass c' h | enter c' h => rfl

omit [TwoParty P] [DecidableEq H] in
/-- The stages after the first one of a line has left. -/
theorem release_stage (s : State H P) (c c' : P) :
    (s.release c).stage c' =
      if c' = c then
        if (s.line c).tail = [] then .idle
        else if 0 < s.left c - 1 then s.pet.stage c
        else .flagged
      else s.pet.stage c' := by
  unfold State.release
  split_ifs <;> simp_all

theorem Inv.leave (hI : Inv B s) (he : s.Enabled (.leave c h)) : Inv B (s.apply B (.leave c h)) := by
  obtain ⟨hhd, hin⟩ := he
  have hpassed := hI.inside c hin
  obtain ⟨t, ht⟩ := List.head?_eq_some_iff.1 hhd
  refine ⟨?_, fun c' => ?_, fun c' => ?_, fun c1 c2 g h1 h2 => ?_, fun c' hin' => ?_, fun c' => ?_,
    fun c' hst => ?_, fun c' hst => ?_⟩
  · simp only [State.apply, State.release]
    split_ifs
    · exact hI.pet.lower
    · exact hI.pet
    · exact hI.pet.raise
  · have := hI.idle_iff c'
    simp only [State.apply, release_stage]
    by_cases hc : c' = c
    · subst hc
      simp only [if_true, Function.update_self, ht, List.tail_cons, hpassed]
      split_ifs <;> simp_all
    · simp [hc, this]
  · by_cases hc : c' = c
    · subst hc
      simpa [State.apply] using (hI.nodup c').tail
    · simpa [State.apply, hc] using hI.nodup c'
  · have hsub : ∀ c', g ∈ (s.apply B (.leave c h)).line c' → g ∈ s.line c' := by
      intro c' hg
      by_cases hc : c' = c
      · subst hc
        exact List.mem_of_mem_tail (by simpa [State.apply] using hg)
      · simpa [State.apply, hc] using hg
    exact hI.disjoint c1 c2 g (hsub c1 h1) (hsub c2 h2)
  · have hc : c' ≠ c := by
      rintro rfl
      simp [State.apply] at hin'
    simp only [State.apply, release_stage, if_neg hc]
    exact hI.inside c' (by simpa [State.apply, hc] using hin')
  · by_cases hc : c' = c
    · subst hc
      have := hI.left_le c'
      simp only [State.apply, Function.update_self]
      omega
    · simpa [State.apply, hc] using hI.left_le c'
  · simp only [State.apply, release_stage] at hst ⊢
    by_cases hc : c' = c
    · subst hc
      simp only [if_true, Function.update_self] at hst ⊢
      split_ifs at hst with h1 h2
      exact Or.inl h2
    · rw [if_neg hc] at hst
      rw [Function.update_of_ne hc]
      exact hI.left_pos c' hst
  · simp only [State.apply, release_stage] at hst ⊢
    by_cases hc : c' = c
    · subst hc
      simp only [if_true] at hst
      split_ifs at hst
      rw [hpassed] at hst
      cases hst
    · rw [if_neg hc] at hst
      rw [Function.update_of_ne hc]
      exact hI.left_waiting c' hst

/-- Every event keeps the invariant. -/
theorem Inv.step {e : Event H P} (hI : Inv B s) (he : s.Enabled e) : Inv B (s.apply B e) := by
  cases e with
  | arrive c h => exact hI.arrive he
  | request c h => exact hI.request he
  | pass c h => exact hI.pass he
  | enter c h => exact hI.enter he
  | leave c h => exact hI.leave he

theorem inv_of_run {tr : List (Event H P)} (hr : (system B).Run tr s) : Inv B s := by
  refine hr.invariant (I := fun _ s => Inv B s) ?_ ?_
  · rintro s rfl
    exact inv_initial
  · rintro tr s e s' - hI ⟨x, rfl, hx, rfl⟩
    exact hI.step hx

/-- With budgets of one at least, what is left of them is never negative. -/
theorem left_nonneg {tr : List (Event H P)} (hB : ∀ c, 1 ≤ B c) (hr : (system B).Run tr s) (c : P) :
    0 ≤ s.left c := by
  refine hr.invariant (I := fun _ s => 0 ≤ s.left c) ?_ ?_
  · rintro s rfl
    exact le_rfl
  · rintro tr s e s' hr hle ⟨x, rfl, hx, rfl⟩
    have hI := inv_of_run hr
    by_cases hc : c = x.side
    · subst hc
      cases x with
      | arrive c h =>
        by_cases hl : s.line c = []
        · simp [State.apply, Event.side, hl]
        · simpa [State.apply, hl] using hle
      | request c h | enter c h => exact hle
      | pass c h =>
        have := hB c
        simp only [State.apply, Event.side, Function.update_self]
        omega
      | leave c h =>
        have := hB c
        have := hI.left_pos c (hI.inside c hx.2)
        simp only [State.apply, Event.side, Function.update_self]
        omega
    · rwa [(apply_of_ne hc).2.2.1]

end Inv

/-! ### The order within a party -/

section Runs

variable [DecidableEq P]

/-- The member of `c` that has come, if that is the event. -/
def Event.arrived (c : P) : Event H P → Option H
  | .arrive c' h => if c' = c then some h else none
  | _ => none

/-- The member of `c` that has taken its turn. -/
def Event.entered (c : P) : Event H P → Option H
  | .enter c' h => if c' = c then some h else none
  | _ => none

/-- The member of `c` that has left. -/
def Event.departed (c : P) : Event H P → Option H
  | .leave c' h => if c' = c then some h else none
  | _ => none

/-- The members of `c` that have come, in this order. -/
def arrivals (tr : List (Event H P)) (c : P) : List H := tr.filterMap (Event.arrived c)

/-- The members of `c` that have taken their turn, in this order. -/
def entries (tr : List (Event H P)) (c : P) : List H := tr.filterMap (Event.entered c)

/-- The members of `c` that have left, in this order. -/
def departures (tr : List (Event H P)) (c : P) : List H := tr.filterMap (Event.departed c)

/-- The member of `c` that is taking its turn. -/
def State.turn (s : State H P) (c : P) : Option H := if s.inside c then (s.line c).head? else none

variable [TwoParty P] [DecidableEq H] {B : P → ℤ} {s : State H P} {tr tr' : List (Event H P)} {c : P}
  {h : H}

/-- The last event of a run. -/
theorem run_concat {e : Event H P} (hr : (system B).Run (tr ++ [e]) s) :
    ∃ s0, (system B).Run tr s0 ∧ s0.Enabled e ∧ s = s0.apply B e := by
  generalize htr : tr ++ [e] = tr0 at hr
  cases hr with
  | start => simp at htr
  | @next tr1 s0 s' e0 hr0 hs =>
    obtain ⟨x, rfl, hx, rfl⟩ := hs
    obtain ⟨rfl, hxe⟩ := List.append_inj' htr rfl
    obtain rfl : e = x := by simpa using hxe
    exact ⟨s0, hr0, hx, rfl⟩

/-- First come, first served: the members of a party take their turns in the order in which they have
come, and leave in this order. -/
theorem order (hr : (system B).Run tr s) (c : P) :
    arrivals tr c = departures tr c ++ s.line c ∧
      entries tr c = departures tr c ++ (s.turn c).toList := by
  refine hr.invariant (I := fun tr s => arrivals tr c = departures tr c ++ s.line c ∧
    entries tr c = departures tr c ++ (s.turn c).toList) ?_ ?_
  · rintro s rfl
    exact ⟨rfl, rfl⟩
  · rintro tr s e s' hr ⟨harr, hent⟩ ⟨x, rfl, hx, rfl⟩
    have hI := inv_of_run hr
    simp only [arrivals, entries, departures] at harr hent ⊢
    simp only [Option.toList_some, List.filterMap_append, harr, hent]
    cases x with
    | arrive c' h =>
      by_cases hc : c' = c
      · subst hc
        cases hl : s.line c' with
        | nil =>
          have hin : s.inside c' = false := by
            by_contra hin
            have := hI.inside c' (by simpa using hin)
            rw [(hI.idle_iff c').2 hl] at this
            cases this
          simp [Event.arrived, Event.entered, Event.departed, State.apply, State.turn, hin, hl,
            List.filterMap_cons]
        | cons g t =>
          simp [Event.arrived, Event.entered, Event.departed, State.apply, State.turn, hl,
            List.filterMap_cons]
      · simp [Event.arrived, Event.entered, Event.departed, State.apply, State.turn, hc, Ne.symm hc,
          List.filterMap_cons]
    | request c' h | pass c' h =>
      simp only [Event.arrived, Event.entered, Event.departed, List.filterMap_cons,
        List.filterMap_nil, List.append_nil]
      exact ⟨rfl, rfl⟩
    | enter c' h =>
      obtain ⟨hhd, -, hin⟩ := hx
      by_cases hc : c' = c
      · subst hc
        simp [Event.arrived, Event.entered, Event.departed, State.apply, State.turn, hin, hhd,
          List.filterMap_cons]
      · simp [Event.arrived, Event.entered, Event.departed, State.apply, State.turn, hc, Ne.symm hc,
          List.filterMap_cons]
    | leave c' h =>
      obtain ⟨hhd, hin⟩ := hx
      obtain ⟨t, ht⟩ := List.head?_eq_some_iff.1 hhd
      by_cases hc : c' = c
      · subst hc
        simp [Event.arrived, Event.entered, Event.departed, State.apply, State.turn, hin, ht,
          List.filterMap_cons]
      · simp [Event.arrived, Event.entered, Event.departed, State.apply, State.turn, hc, Ne.symm hc,
          List.filterMap_cons]

/-! ### Batches and bypasses -/

/-- The entries that `c` may still make without asking for the section again. -/
def State.allowed (s : State H P) (c : P) : ℤ :=
  if s.pet.stage c = .passed then
    if s.inside c then max (s.left c - 1) 0 else max (s.left c) 1
  else 0

omit [DecidableEq H] [DecidableEq P] [TwoParty P] in
theorem allowed_congr {t : State H P} (hst : t.pet.stage c = s.pet.stage c)
    (hl : t.left c = s.left c) (hin : t.inside c = s.inside c) : t.allowed c = s.allowed c := by
  unfold State.allowed
  rw [hst, hl, hin]

omit [DecidableEq H] [DecidableEq P] [TwoParty P] in
theorem allowed_nonneg (s : State H P) (c : P) : 0 ≤ s.allowed c := by
  unfold State.allowed
  split_ifs <;> omega

/-- An event other than a pass uses up what is allowed. -/
theorem allowed_step {e : Event H P} (hI : Inv B s) (he : s.Enabled e)
    (hpass : ∀ h, e ≠ .pass c h) :
    (e.entered c).toList.length + (s.apply B e).allowed c ≤ s.allowed c := by
  -- the other party has no part in this
  have hother : ∀ t : State H P, t.pet.stage c = s.pet.stage c → t.left c = s.left c →
      t.inside c = s.inside c → (0 : ℤ) + t.allowed c ≤ s.allowed c := by
    intro t hst hl hin
    rw [allowed_congr hst hl hin, zero_add]
  cases e with
  | arrive c' h =>
    have hidle := hI.idle_iff c'
    by_cases hl : s.line c' = []
    · by_cases hc : c = c'
      · subst hc
        simp [Event.entered, State.allowed, State.apply, hl, hidle.2 hl]
      · exact hother _ (by simp [State.apply, hl, hc]) (by simp [State.apply, hl, hc]) rfl
    · exact hother _ (by simp [State.apply, hl]) (by simp [State.apply, hl]) rfl
  | request c' h =>
    by_cases hc : c = c'
    · subst hc
      simp [Event.entered, State.allowed, State.apply, he.2.1]
    · exact hother _ (by simp [State.apply, hc]) rfl rfl
  | pass c' h =>
    have hc : c ≠ c' := by
      rintro rfl
      exact hpass h rfl
    exact hother _ (by simp [State.apply, hc]) (by simp [State.apply, hc]) rfl
  | enter c' h =>
    by_cases hc : c = c'
    · subst hc
      simp only [Event.entered, State.allowed, State.apply, he.2.1, he.2.2, if_true,
        Function.update_self, Option.toList_some, List.length_singleton, Bool.false_eq_true, if_false]
      omega
    · simp only [Event.entered, if_neg (Ne.symm hc)]
      exact hother _ rfl rfl (by simp [State.apply, hc])
  | leave c' h =>
    by_cases hc : c = c'
    · subst hc
      have hpassed := hI.inside c he.2
      simp only [Event.entered, State.allowed, State.apply, release_stage, if_true, hpassed, he.2,
        Function.update_self, Option.toList_none, List.length_nil, Bool.false_eq_true, if_false]
      split_ifs <;> simp_all
    · exact hother _ (by simp [State.apply, release_stage, hc]) (by simp [State.apply, hc])
        (by simp [State.apply, hc])

/-- A batch: after the section has been won, the party makes as many entries as its budget says at
most, and one at least is allowed. -/
theorem batch (hr : (system B).Run (tr ++ .pass c h :: tr') s) (hno : ∀ g, .pass c g ∉ tr') :
    (entries tr' c).length + s.allowed c ≤ max (B c) 1 := by
  induction tr' using List.reverseRecOn generalizing s with
  | nil =>
    obtain ⟨s0, hr0, he, rfl⟩ := run_concat hr
    have hin : s0.inside c = false := by
      by_contra hin
      have := (inv_of_run hr0).inside c (by simpa using hin)
      rw [he.2.1] at this
      cases this
    simp [entries, State.allowed, State.apply, hin]
  | append_singleton tr' e ih =>
    rw [← List.cons_append, ← List.append_assoc] at hr
    obtain ⟨s0, hr0, he, rfl⟩ := run_concat hr
    have hold := ih hr0 fun g hg => hno g (List.mem_append_left _ hg)
    have hstep := allowed_step (c := c) (inv_of_run hr0) he fun g hg => hno g (by simp [hg])
    have hlen : (entries (tr' ++ [e]) c).length =
        (entries tr' c).length + (e.entered c).toList.length := by
      cases he : e.entered c <;> simp [entries, he]
    rw [hlen]
    push_cast
    omega

/-- What the other party may still do before `c`, which has asked for the section. -/
def State.ahead (B : P → ℤ) (s : State H P) (c : P) : ℤ :=
  s.allowed (other c) +
    if s.pet.stage (other c) = .waiting ∧ s.pet.victim = some c then max (B (other c)) 1 else 0

omit [DecidableEq H] in
theorem ahead_nonneg (B : P → ℤ) (s : State H P) (c : P) : 0 ≤ s.ahead B c := by
  have := allowed_nonneg s (other c)
  unfold State.ahead
  split_ifs <;> omega

/-- Party `c` has asked for the section and not used it yet. -/
def State.Asking (s : State H P) (c : P) : Prop :=
  (s.pet.stage c = .waiting ∨ s.pet.stage c = .passed) ∧ s.inside c = false

/-- Until `c` takes its turn it goes on asking. -/
theorem asking_step {e : Event H P} (hI : Inv B s) (he : s.Enabled e) (hc : s.Asking c)
    (hno : e.entered c = none) : (s.apply B e).Asking c := by
  obtain ⟨hst, hin⟩ := hc
  cases e with
  | arrive c' g =>
    refine ⟨?_, hin⟩
    by_cases hl : s.line c' = []
    · have hcc : c ≠ c' := by
        rintro rfl
        rcases hst with hst | hst <;> simp [(hI.idle_iff c).2 hl] at hst
      simpa [State.apply, hl, hcc] using hst
    · simpa [State.apply, hl] using hst
  | request c' g =>
    have hcc : c ≠ c' := by
      rintro rfl
      rcases hst with hst | hst <;> simp [he.2.1] at hst
    exact ⟨by simpa [State.apply, hcc] using hst, hin⟩
  | pass c' g =>
    refine ⟨?_, hin⟩
    by_cases hcc : c = c'
    · subst hcc
      simp [State.apply]
    · simpa [State.apply, hcc] using hst
  | enter c' g =>
    have hcc : c ≠ c' := by
      rintro rfl
      simp [Event.entered] at hno
    exact ⟨hst, by simpa [State.apply, hcc] using hin⟩
  | leave c' g =>
    have hcc : c ≠ c' := by
      rintro rfl
      simp [he.2] at hin
    exact ⟨by simpa [State.apply, release_stage, hcc] using hst, by simpa [State.apply, hcc] using hin⟩

/-- Each entry of the other party is taken off from what it may do before `c`. -/
theorem ahead_step {e : Event H P} (hI : Inv B s) (he : s.Enabled e) (hc : s.Asking c)
    (hno : e.entered c = none) :
    (e.entered (other c)).toList.length + (s.apply B e).ahead B c ≤ s.ahead B c := by
  have hoc := other_ne c
  by_cases hpass : ∃ g, e = .pass (other c) g
  · -- the other party passes because `c` is the victim, and a batch begins
    obtain ⟨g, rfl⟩ := hpass
    obtain ⟨-, hst, hcan⟩ := he
    have hv : s.pet.victim = some c := by
      have hnone := hI.pet.named _ hst
      obtain ⟨v, hv⟩ := Option.ne_none_iff_exists'.1 hnone
      rcases eq_or_other c v with rfl | rfl
      · exact hv
      · rcases hcan with hidle | hne
        · rw [other_other] at hidle
          rcases hc.1 with h | h <;> simp [hidle] at h
        · exact absurd hv hne
    have hin : s.inside (other c) = false := by
      by_contra hin
      have := hI.inside (other c) (by simpa using hin)
      rw [hst] at this
      cases this
    simp [State.ahead, State.allowed, State.apply, hst, hv, hin, Event.entered]
  · have hal := allowed_step (c := other c) hI he fun g hg => hpass ⟨g, hg⟩
    have hwait : (s.apply B e).pet.stage (other c) = .waiting ∧ (s.apply B e).pet.victim = some c →
        s.pet.stage (other c) = .waiting ∧ s.pet.victim = some c := by
      rintro ⟨hw, hv⟩
      cases e with
      | arrive c' g =>
        by_cases hl : s.line c' = []
        · by_cases hcc : other c = c'
          · simp [State.apply, hl, hcc] at hw
          · exact ⟨by simpa [State.apply, hl, hcc] using hw, by simpa [State.apply, hl] using hv⟩
        · exact ⟨by simpa [State.apply, hl] using hw, by simpa [State.apply, hl] using hv⟩
      | request c' g =>
        have hcc : c' = c := by simpa [State.apply] using hv
        subst hcc
        rcases hc.1 with h | h <;> simp [he.2.1] at h
      | pass c' g =>
        by_cases hcc : other c = c'
        · exact absurd ⟨g, by rw [hcc]⟩ hpass
        · exact ⟨by simpa [State.apply, hcc] using hw, hv⟩
      | enter c' g => exact ⟨hw, hv⟩
      | leave c' g =>
        have hv' : s.pet.victim = some c := by
          simp only [State.apply, State.release] at hv
          split_ifs at hv <;> exact hv
        by_cases hcc : other c = c'
        · subst hcc
          have hp := hI.inside _ he.2
          simp only [State.apply, release_stage, if_true] at hw
          split_ifs at hw
          rw [hp] at hw
          cases hw
        · exact ⟨by simpa [State.apply, release_stage, hcc] using hw, hv'⟩
    unfold State.ahead
    split_ifs with h1 h2
    · omega
    · exact absurd (hwait h1) h2
    · omega
    · omega

/-- After `c` has asked for the section, the other party makes as many entries as its budget says at
most before `c` makes one. -/
theorem bypass (hr : (system B).Run (tr ++ .request c h :: tr') s) (hno : entries tr' c = []) :
    s.Asking c ∧ (entries tr' (other c)).length + s.ahead B c ≤ max (B (other c)) 1 := by
  induction tr' using List.reverseRecOn generalizing s with
  | nil =>
    obtain ⟨s0, hr0, he, rfl⟩ := run_concat hr
    have hI := inv_of_run hr0
    have hin : s0.inside c = false := by
      by_contra hin
      have := hI.inside c (by simpa using hin)
      rw [he.2.1] at this
      cases this
    refine ⟨⟨Or.inl (by simp [State.apply]), hin⟩, ?_⟩
    have hle := hI.left_le (other c)
    simp only [entries, List.filterMap_nil, List.length_nil, State.ahead, State.allowed, State.apply,
      Peterson.request_stage, other_ne, if_false, Peterson.request_victim]
    split_ifs <;> simp_all
    all_goals omega
  | append_singleton tr' e ih =>
    rw [← List.cons_append, ← List.append_assoc] at hr
    obtain ⟨s0, hr0, he, rfl⟩ := run_concat hr
    have hno' : entries tr' c = [] ∧ e.entered c = none := by
      cases hec : e.entered c with
      | none => exact ⟨by simpa [entries, hec] using hno, rfl⟩
      | some g => simp [entries, hec] at hno
    obtain ⟨hask, hold⟩ := ih hr0 hno'.1
    have hI := inv_of_run hr0
    refine ⟨asking_step hI he hask hno'.2, ?_⟩
    have hstep := ahead_step hI he hask hno'.2
    have hlen : (entries (tr' ++ [e]) (other c)).length =
        (entries tr' (other c)).length + (e.entered (other c)).toList.length := by
      cases he : e.entered (other c) <;> simp [entries, he]
    rw [hlen]
    push_cast
    omega

/-! ### A budget of zero -/

/-- Party `c` has its flag up and nobody to act for it, and the other party waits as the victim if it
waits at all. -/
structure State.Dead (s : State H P) (c : P) : Prop where
  left : s.left c < 0
  stage : s.pet.stage c = .flagged
  inside : ∀ c', s.inside c' = false
  barred : s.pet.Barred (other c)

/-- That does not change any more. -/
theorem State.Dead.step {e : Event H P} (hD : s.Dead c) (hI : Inv B s) (he : s.Enabled e) :
    (s.apply B e).Dead c ∧ ∀ c', e.entered c' = none := by
  have hoc := other_ne c
  have hnopass : ∀ c', s.pet.stage c' ≠ .passed := by
    intro c' hp
    rcases eq_or_other c c' with rfl | rfl
    · simp [hD.stage] at hp
    · exact hD.barred.1 hp
  cases e with
  | arrive c' g =>
    refine ⟨?_, fun _ => rfl⟩
    by_cases hl : s.line c' = []
    · have hidle := (hI.idle_iff c').2 hl
      obtain rfl : c' = other c := by
        refine (eq_or_other c c').resolve_left ?_
        rintro rfl
        simp [hD.stage] at hidle
      refine ⟨?_, ?_, hD.inside, ?_, ?_⟩
      · simpa [State.apply, hl, Ne.symm hoc] using hD.left
      · simpa [State.apply, hl, Ne.symm hoc] using hD.stage
      · simp [State.apply, hl]
      · simp [State.apply, hl]
    · refine ⟨?_, ?_, hD.inside, ?_⟩
      · simpa [State.apply, hl] using hD.left
      · simpa [State.apply, hl] using hD.stage
      · simpa [State.apply, hl] using hD.barred
  | request c' g =>
    refine ⟨?_, fun _ => rfl⟩
    obtain rfl : c' = other c := by
      refine (eq_or_other c c').resolve_left ?_
      rintro rfl
      have := he.2.2
      have := hD.left
      omega
    refine ⟨hD.left, ?_, hD.inside, ?_, fun _ => rfl⟩
    · simpa [State.apply, Ne.symm hoc] using hD.stage
    · simp [State.apply]
  | pass c' g =>
    obtain ⟨-, hw, hcan⟩ := he
    obtain rfl : c' = other c := by
      refine (eq_or_other c c').resolve_left ?_
      rintro rfl
      simp [hD.stage] at hw
    rcases hcan with hidle | hne
    · simp [hD.stage] at hidle
    · exact absurd (hD.barred.2 hw) hne
  | enter c' g => exact absurd he.2.1 (hnopass c')
  | leave c' g =>
    have := he.2
    simp [hD.inside] at this

/-- A section that is handed over with nothing to hand over is lost. -/
theorem dead_of_leave (hI : Inv B s) (hB : B c ≤ 0) (he : s.Enabled (.leave c h))
    (hne : (s.line c).tail ≠ []) : (s.apply B (.leave c h)).Dead c := by
  have hoc := other_ne c
  have hpassed := hI.inside c he.2
  have hle := hI.left_le c
  rw [max_eq_right hB] at hle
  refine ⟨?_, ?_, fun c' => ?_, ?_⟩
  · simp only [State.apply, Function.update_self]
    omega
  · simp only [State.apply, release_stage, if_true, if_neg hne]
    rw [if_neg (by omega)]
  · rcases eq_or_other c c' with rfl | rfl
    · simp [State.apply]
    · simpa [State.apply, hoc] using hI.excl he.2
  · have hb := hI.pet.barred c hpassed
    have hv : (s.apply B (.leave c h)).pet.victim = s.pet.victim := by
      simp only [State.apply, State.release]
      split_ifs <;> rfl
    refine ⟨?_, fun hw => ?_⟩
    · simpa [State.apply, release_stage, hoc] using hb.1
    · rw [hv]
      exact hb.2 (by simpa [State.apply, release_stage, hoc] using hw)

/-- With a budget of zero for `c`, the first time that a member of `c` leaves with another one behind
it, the section is lost: nobody of either party ever takes a turn again. -/
theorem no_entry_after_leave (hr : (system B).Run (tr ++ .leave c h :: tr') s) (hB : B c ≤ 0)
    (hbehind : (departures tr c).length + 1 < (arrivals tr c).length) :
    s.Dead c ∧ ∀ c', entries tr' c' = [] := by
  induction tr' using List.reverseRecOn generalizing s with
  | nil =>
    obtain ⟨s0, hr0, he, rfl⟩ := run_concat hr
    refine ⟨dead_of_leave (inv_of_run hr0) hB he ?_, fun _ => rfl⟩
    rw [(order hr0 c).1, List.length_append] at hbehind
    intro hnil
    have := congrArg List.length hnil
    rw [List.length_tail, List.length_nil] at this
    omega
  | append_singleton tr' e ih =>
    rw [← List.cons_append, ← List.append_assoc] at hr
    obtain ⟨s0, hr0, he, rfl⟩ := run_concat hr
    obtain ⟨hD, hno⟩ := ih hr0
    obtain ⟨hD', hno'⟩ := hD.step (inv_of_run hr0) he
    refine ⟨hD', fun c' => ?_⟩
    have := hno c'
    simp only [entries] at this ⊢
    simp [this, hno']

end Runs

end Cohort
