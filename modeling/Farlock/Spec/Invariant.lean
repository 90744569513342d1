import Farlock.Spec.State

/-!
# The invariant of the abstract lock

The invariant is local: `Link` relates an acquisition to its immediate predecessor, `Own` is about
one acquisition alone, `Glob` relates it to the section and to the two ticket counters.  Everything
that is true of a whole queue follows from `Link` by induction over places.

* `Inv`;
* `Inv.admitted_of_lt`, `Inv.gone_of_lt`, `Inv.ticket_lt_of_lt`: the consequences for two places of
  one queue that need not be adjacent.
-/

namespace Farlock

namespace Spec

open TwoParty Peterson

variable {H : Type} {B : Config}

/-- What holds between an acquisition `b` and its predecessor `a`. -/
structure Link (B : Config) (a b : Acq H) : Prop where
  present : b.phase ≠ .absent → a.phase ≠ .absent
  ahead : 5 ≤ b.rank ∨ b.has = true → 11 ≤ a.rank
  told : a.out = .told → 12 ≤ a.rank ∧ 2 ≤ b.rank
  handed : a.out = .handed → 12 ≤ a.rank ∧ 2 ≤ b.rank ∧ b.has = true ∧ b.lead = false ∧
    b.ticket = a.ticket ∧ a.budget = b.budget + 1
  joined : b.has = true → b.lead = false → a.out = .handed
  offered : a.offered = true → 2 ≤ b.rank
  later : a.has = true → b.has = true → b.lead = true → a.ticket < b.ticket
  -- whoever skips its successor has been seen by it, or will be
  dekker : 12 ≤ a.rank → a.out = .kept → B.blind a.ticket = false →
    b.phase ≠ .wait ∧ (b.phase = .mark → b.seen = true)
  seen : b.phase = .mark → b.seen = true → 11 ≤ a.rank ∧ a.out ≠ .handed
  order : 13 ≤ b.rank → a.phase = .gone
  first : b.phase ≠ .absent → b.hasPrev = false → a.phase = .gone
  marked : a.phase = .gone → b.hasPrev = true → 4 ≤ b.rank

/-- What holds of one acquisition of class `c`. -/
structure Own (B : Config) (c : Side) (a : Acq H) : Prop where
  absent : a.phase = .absent → a = {}
  who : a.phase ≠ .absent → a.who ≠ none
  has : 9 ≤ a.rank → a.has = true
  early : a.has = true → a.rank ≤ 8 → a.rank ≤ 4 ∧ a.lead = false
  budget : a.has = true → 1 ≤ a.budget ∧ a.budget ≤ B.budget c
  full : a.has = true → a.lead = true → a.budget = B.budget c
  out : a.out ≠ .kept → 12 ≤ a.rank
  offered : a.offered = true → a.phase = .drawn ∧ 1 < a.budget ∨ a.out = .handed
  prev : 1 ≤ a.rank → a.rank ≤ 4 → a.hasPrev = true

/-- What holds between an acquisition, the stage `st` of its class in the section, the number `T` of
tickets drawn and the number `R` of tickets served. -/
structure Glob (st : Stage) (T R : ℕ) (a : Acq H) : Prop where
  flagged : a.phase = .flagged → st = .flagged
  waiting : a.phase = .waiting → st = .waiting
  passed : a.phase = .passed ∨ a.phase = .drawn ∨ (a.has = true ∧ a.rank ≤ 4) → st = .passed
  lt : a.has = true → a.ticket < T
  le : 13 ≤ a.rank → a.ticket ≤ R
  done : a.has = true → a.ticket < R → 14 ≤ a.rank
  freed : a.has = true → 14 ≤ a.rank → a.out ≠ .handed → a.ticket < R

/-- The acquisition that its class's flag stands for, if the flag is up. -/
abbrev Acq.Holds (a : Acq H) : Prop :=
  (6 ≤ a.rank ∧ a.rank ≤ 9) ∨ (a.has = true ∧ a.rank ≤ 4)

/-- The invariant of one lock. -/
structure Inv (B : Config) (s : State H) : Prop where
  links : ∀ c p, Link B (s.pred c p) (s.acq c p)
  own : ∀ c p, Own B c (s.acq c p)
  glob : ∀ c p, Glob (s.pet.stage c) s.issued s.serving (s.acq c p)
  pet : Peterson.Inv s.pet
  serving_le : s.serving ≤ s.issued
  count : ∀ c p, p < s.arrived c ↔ (s.acq c p).phase ≠ .absent
  holder : ∀ c, s.pet.stage c ≠ .idle → ∃ p, (s.acq c p).Holds
  cross : ∀ p q, (s.acq .loc p).has = true → (s.acq .rem q).has = true →
    (s.acq .loc p).ticket ≠ (s.acq .rem q).ticket
  -- every ticket that is not done is carried by an acquisition that has not passed it on
  live : ∀ t, s.serving ≤ t → t < s.issued → ∃ c p, (s.acq c p).has = true ∧
    (s.acq c p).ticket = t ∧ (s.acq c p).out ≠ .handed ∧ (s.acq c p).rank < 14

/-! ### Replacing one acquisition -/

section Put

variable (s : State H) (c : Side) (p : ℕ) (a : Acq H)

@[simp, grind =] theorem put_acq (c' : Side) (q : ℕ) :
    (s.put c p a).acq c' q = if c' = c ∧ q = p then a else s.acq c' q := rfl

@[simp, grind =] theorem put_pred (c' : Side) (q : ℕ) :
    (s.put c p a).pred c' q = if c' = c ∧ q = p + 1 then a else s.pred c' q := by
  cases q <;> simp [State.pred]

@[simp, grind =] theorem pred_succ : s.pred c (p + 1) = s.acq c p := rfl

@[simp, grind =] theorem put_arrived : (s.put c p a).arrived = s.arrived := rfl
@[simp, grind =] theorem put_pet : (s.put c p a).pet = s.pet := rfl
@[simp, grind =] theorem put_issued : (s.put c p a).issued = s.issued := rfl
@[simp, grind =] theorem put_serving : (s.put c p a).serving = s.serving := rfl
@[simp, grind =] theorem put_log : (s.put c p a).log = s.log := rfl

end Put

/-- The links after one acquisition is replaced: only those on its two sides are in question. -/
theorem links_put {s s' : State H} {c : Side} {p : ℕ} {a : Acq H}
    (h : ∀ c p, Link B (s.pred c p) (s.acq c p)) (hs : s'.acq = (s.put c p a).acq)
    (hl : Link B (s.pred c p) a) (hr : Link B a (s.acq c (p + 1))) (c' : Side) (q : ℕ) :
    Link B (s'.pred c' q) (s'.acq c' q) := by
  have hpred : s'.pred c' q = (s.put c p a).pred c' q := by
    cases q <;> simp [State.pred, hs]
  rw [hpred, hs, put_pred, put_acq]
  by_cases hq : c' = c ∧ q = p
  · obtain ⟨rfl, rfl⟩ := hq
    simpa using hl
  · by_cases hq' : c' = c ∧ q = p + 1
    · obtain ⟨rfl, rfl⟩ := hq'
      simpa using hr
    · simpa [hq, hq'] using h c' q

theorem own_put {s s' : State H} {c : Side} {p : ℕ} {a : Acq H}
    (h : ∀ c p, Own B c (s.acq c p)) (hs : s'.acq = (s.put c p a).acq) (ha : Own B c a)
    (c' : Side) (q : ℕ) : Own B c' (s'.acq c' q) := by
  rw [hs, put_acq]
  split_ifs with hq
  · exact hq.1 ▸ ha
  · exact h c' q

/-! ### Two places of one queue -/

section Places

variable {s : State H} {c : Side} {p q : ℕ}

theorem glob_sentinel (st : Stage) (T R : ℕ) : Glob st T R (sentinel : Acq H) := by
  constructor <;> simp [sentinel]

theorem Inv.glob_pred (h : Inv B s) (c : Side) (p : ℕ) :
    Glob (s.pet.stage c) s.issued s.serving (s.pred c p) := by
  cases p with
  | zero => exact glob_sentinel _ _ _
  | succ p => exact h.glob c p

/-- Whoever is admitted to the section, or has a ticket, finds everybody before it past it. -/
theorem Inv.admitted_of_lt (h : Inv B s) (hpq : p < q)
    (hq : 5 ≤ (s.acq c q).rank ∨ (s.acq c q).has = true) : 11 ≤ (s.acq c p).rank := by
  induction q, hpq using Nat.le_induction with
  | base => exact (h.links c (p + 1)).ahead hq
  | succ q hpq ih =>
    have hadm := (h.links c (q + 1)).ahead hq
    exact ih (Or.inl (by simpa using Nat.le_trans (by decide) hadm))

/-- Whoever has been let in finds everybody before it gone. -/
theorem Inv.gone_of_lt (h : Inv B s) (hpq : p < q) (hq : 13 ≤ (s.acq c q).rank) :
    (s.acq c p).phase = .gone := by
  induction q, hpq using Nat.le_induction with
  | base => exact (h.links c (p + 1)).order hq
  | succ q hpq ih =>
    have hgone := (h.links c (q + 1)).order hq
    rw [pred_succ] at hgone
    exact ih (by grind)

/-- The successor of an acquisition that has not left has not left either. -/
theorem Inv.succ_ne_gone (h : Inv B s) (hp : (s.acq c p).phase ≠ .gone) :
    (s.acq c (p + 1)).phase ≠ .gone := fun hg =>
  hp ((h.links c (p + 1)).order (by grind))

/-- It has found a predecessor. -/
theorem Inv.succ_hasPrev (h : Inv B s) (hp : (s.acq c p).phase ≠ .gone)
    (hs : (s.acq c (p + 1)).phase ≠ .absent) : (s.acq c (p + 1)).hasPrev = true := by
  by_contra hne
  exact hp ((h.links c (p + 1)).first hs (by simpa using hne))

theorem Inv.has_of_lt (h : Inv B s) (hpq : p < q) (hq : (s.acq c q).has = true) :
    (s.acq c p).has = true :=
  (h.own c p).has (Nat.le_trans (by decide) (h.admitted_of_lt hpq (Or.inr hq)))

theorem Inv.ticket_le_succ (h : Inv B s) (hq : (s.acq c (p + 1)).has = true) :
    (s.acq c p).ticket ≤ (s.acq c (p + 1)).ticket := by
  have hl := h.links c (p + 1)
  rw [pred_succ] at hl
  cases hlead : (s.acq c (p + 1)).lead with
  | false => exact ((hl.handed (hl.joined hq hlead)).2.2.2.2.1).ge
  | true => exact (hl.later (h.has_of_lt (Nat.lt_succ_self p) hq) hq hlead).le

/-- Tickets do not decrease along a queue. -/
theorem Inv.ticket_le_of_le (h : Inv B s) (hpq : p ≤ q) (hq : (s.acq c q).has = true) :
    (s.acq c p).ticket ≤ (s.acq c q).ticket := by
  induction q, hpq using Nat.le_induction with
  | base => exact le_rfl
  | succ q hpq ih =>
    exact (ih (h.has_of_lt (Nat.lt_succ_self q) hq)).trans (h.ticket_le_succ hq)

/-- They increase after an acquisition that did not hand its ticket on. -/
theorem Inv.ticket_lt_of_lt (h : Inv B s) (hpq : p < q) (hq : (s.acq c q).has = true)
    (ho : (s.acq c p).out ≠ .handed) : (s.acq c p).ticket < (s.acq c q).ticket := by
  have hp1 : (s.acq c (p + 1)).has = true := by
    rcases Nat.eq_or_lt_of_le hpq with rfl | hlt
    · exact hq
    · exact h.has_of_lt hlt hq
  have hl := h.links c (p + 1)
  rw [pred_succ] at hl
  have hlead : (s.acq c (p + 1)).lead = true := by
    by_contra hne
    exact ho (hl.joined hp1 (by simpa using hne))
  exact (hl.later (h.has_of_lt (Nat.lt_succ_self p) hp1) hp1 hlead).trans_le
    (h.ticket_le_of_le hpq hq)

/-- An acquisition that stands for the flag of its class, or is about to raise it, or has lowered it
without making that known. -/
abbrev Acq.Contends (a : Acq H) : Prop :=
  (5 ≤ a.rank ∧ a.rank ≤ 10) ∨ (a.has = true ∧ a.rank ≤ 4)

/-- At most one acquisition of a class contends for the section. -/
theorem Inv.contends_unique (h : Inv B s) (hp : (s.acq c p).Contends)
    (hq : (s.acq c q).Contends) : p = q := by
  have key : ∀ {p q : ℕ}, p < q → (s.acq c p).Contends → ¬ (s.acq c q).Contends := by
    intro p q hpq hp hq
    have hadm := h.admitted_of_lt hpq (hq.imp (fun hr => hr.1) fun hr => hr.1)
    rcases hp with ⟨-, hp⟩ | ⟨-, hp⟩ <;> omega
  rcases lt_trichotomy p q with hlt | heq | hgt
  · exact absurd hq (key hlt hp)
  · exact heq
  · exact absurd hp (key hgt hq)

end Places

end Spec
end Farlock
