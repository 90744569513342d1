import Farlock.Spec.History

/-!
# Batches

* `inBatch_iff`: the `i`-th batch is the set of acquisitions with ticket `i`;
* `Inv.exists_leader`, `Inv.exists_last`, `Inv.segment`, `Inv.lt_budget`: a batch is a segment of
  one queue that starts with the acquisition that drew its ticket and is no longer than the budget
  of its class;
* `map_entries_of_budget`: with budget one, entries are numbered by their tickets;
* `Reachable.split`: the states before and after a given event of the log.
-/

namespace Farlock

namespace Spec

open TwoParty Peterson

variable {H : Type} {B : Config} {s s' : State H} {c c' : Side} {p q i : ℕ}

/-- Behind an acquisition that handed on its ticket stands one with the same ticket and less
budget. -/
theorem Inv.handed (hI : Inv B s) (ho : (s.acq c p).out = .handed) :
    (s.acq c (p + 1)).has = true ∧ (s.acq c (p + 1)).ticket = (s.acq c p).ticket ∧
      (s.acq c p).budget = (s.acq c (p + 1)).budget + 1 := by
  obtain ⟨-, -, hhas, -, ht, hb⟩ := (hI.links c (p + 1)).handed ho
  exact ⟨hhas, ht, hb⟩

/-- The ticket along a chain of hand-overs. -/
theorem Inv.handed_chain (hI : Inv B s) (hpq : p ≤ q) (hp : (s.acq c p).has = true)
    (ho : ∀ r, p ≤ r → r < q → (s.acq c r).out = .handed) :
    (s.acq c q).has = true ∧ (s.acq c q).ticket = (s.acq c p).ticket := by
  induction q, hpq using Nat.le_induction with
  | base => exact ⟨hp, rfl⟩
  | succ q hpq ih =>
    obtain ⟨-, ht⟩ := ih fun r h1 h2 => ho r h1 (Nat.lt_succ_of_lt h2)
    obtain ⟨hhas, ht', -⟩ := hI.handed (ho q hpq (Nat.lt_succ_self q))
    exact ⟨hhas, ht'.trans ht⟩

/-- Between two acquisitions of a class with the same ticket everybody handed it on. -/
theorem Inv.handed_of_ticket (hI : Inv B s) (hpq : p < q) (hq : (s.acq c q).has = true)
    (ht : (s.acq c p).ticket = (s.acq c q).ticket) : (s.acq c p).out = .handed := by
  by_contra ho
  exact (hI.ticket_lt_of_lt hpq hq ho).ne ht

/-- A batch is shorter than the budget of its class. -/
theorem Inv.budget_of_ticket (hI : Inv B s) (hpq : p ≤ q) (hq : (s.acq c q).has = true)
    (ht : (s.acq c p).ticket = (s.acq c q).ticket) :
    (s.acq c p).budget = (s.acq c q).budget + (q - p) := by
  induction q, hpq using Nat.le_induction with
  | base => simp
  | succ q hpq ih =>
    have hqhas := hI.has_of_lt (Nat.lt_succ_self q) hq
    have hle := hI.ticket_le_of_le hpq hqhas
    have hle' := hI.ticket_le_succ hq
    have heq : (s.acq c q).ticket = (s.acq c (q + 1)).ticket := by omega
    have ho := hI.handed_of_ticket (Nat.lt_succ_self q) hq heq
    have := ih hqhas (by omega)
    have := (hI.handed ho).2.2
    omega

theorem Inv.lt_budget (hI : Inv B s) (hpq : p ≤ q) (hp : (s.acq c p).has = true)
    (hq : (s.acq c q).has = true) (ht : (s.acq c p).ticket = (s.acq c q).ticket) :
    q < p + B.budget c := by
  have h1 := hI.budget_of_ticket hpq hq ht
  have h2 := (hI.own c p).budget hp
  have h3 := (hI.own c q).budget hq
  omega

/-- Every acquisition with a ticket has a leader, from whom the ticket was handed along. -/
theorem Inv.exists_leader (hI : Inv B s) (hp : (s.acq c p).has = true) :
    ∃ p0 ≤ p, (s.acq c p0).has = true ∧ (s.acq c p0).lead = true ∧
      (s.acq c p0).ticket = (s.acq c p).ticket ∧
      ∀ q, p0 ≤ q → q < p → (s.acq c q).out = .handed := by
  induction p with
  | zero =>
    refine ⟨0, le_rfl, hp, ?_, rfl, by omega⟩
    by_contra hlead
    have := (hI.links c 0).joined hp (by simpa using hlead)
    simp [State.pred, sentinel] at this
  | succ p ih =>
    by_cases hlead : (s.acq c (p + 1)).lead = true
    · exact ⟨p + 1, le_rfl, hp, hlead, rfl, by omega⟩
    · have ho : (s.acq c p).out = .handed :=
        (hI.links c (p + 1)).joined hp (by simpa using hlead)
      obtain ⟨p0, hle, h1, h2, h3, h4⟩ := ih (hI.has_of_lt (Nat.lt_succ_self p) hp)
      refine ⟨p0, Nat.le_succ_of_le hle, h1, h2, h3.trans (hI.handed ho).2.1.symm, ?_⟩
      intro q hq hq'
      rcases Nat.lt_succ_iff_lt_or_eq.1 hq' with hlt | rfl
      · exact h4 q hq hlt
      · exact ho

/-- Every ticket ends with an acquisition that did not hand it on. -/
theorem Inv.exists_last (hI : Inv B s) (hp : (s.acq c p).has = true) :
    ∃ q ≥ p, (s.acq c q).has = true ∧ (s.acq c q).ticket = (s.acq c p).ticket ∧
      (s.acq c q).out ≠ .handed := by
  -- the budget goes down with each hand-over
  generalize hn : (s.acq c p).budget = n
  induction n generalizing p with
  | zero =>
    have := ((hI.own c p).budget hp).1
    omega
  | succ n ih =>
    by_cases ho : (s.acq c p).out = .handed
    · obtain ⟨hhas, ht, hb⟩ := hI.handed ho
      obtain ⟨q, hle, hq, hqt, hqo⟩ := ih hhas (by omega)
      exact ⟨q, by omega, hq, hqt.trans ht, hqo⟩
    · exact ⟨p, le_rfl, hp, rfl, ho⟩

/-- The acquisitions with the ticket of `p` are those from the one that drew it to the one that did
not hand it on. -/
theorem Inv.segment (hI : Inv B s) (hp : (s.acq c p).has = true) (hlead : (s.acq c p).lead = true)
    (hq : (s.acq c q).has = true) (hqt : (s.acq c q).ticket = (s.acq c p).ticket)
    (ho : (s.acq c q).out ≠ .handed) (r : ℕ) :
    (s.acq c r).has = true ∧ (s.acq c r).ticket = (s.acq c p).ticket ↔ p ≤ r ∧ r ≤ q := by
  constructor
  · rintro ⟨hr, ht⟩
    refine ⟨not_lt.1 fun hlt => ?_, not_lt.1 fun hlt => ?_⟩
    · obtain ⟨p, rfl⟩ := Nat.exists_eq_add_one_of_ne_zero (Nat.ne_zero_of_lt hlt)
      have hle := hI.ticket_le_of_le (Nat.le_of_lt_succ hlt) (hI.has_of_lt (Nat.lt_succ_self p) hp)
      have hle' := hI.ticket_le_succ hp
      have heq : (s.acq c p).ticket = (s.acq c (p + 1)).ticket := by omega
      have hh := hI.handed_of_ticket (Nat.lt_succ_self p) hp heq
      simp [((hI.links c (p + 1)).handed hh).2.2.2.1] at hlead
    · exact ho (hI.handed_of_ticket hlt hr (hqt.trans ht.symm))
  · rintro ⟨hpr, hrq⟩
    have hr : (s.acq c r).has = true := by
      rcases Nat.eq_or_lt_of_le hrq with rfl | hlt
      · exact hq
      · exact hI.has_of_lt hlt hq
    have h1 := hI.ticket_le_of_le hpr hr
    have h2 := hI.ticket_le_of_le hrq hq
    exact ⟨hr, by omega⟩

/-- Only one acquisition with a given ticket did not hand it on. -/
theorem Inv.last_unique (hI : Inv B s) (hp : (s.acq c p).has = true) (hq : (s.acq c q).has = true)
    (ht : (s.acq c p).ticket = (s.acq c q).ticket) (hpo : (s.acq c p).out ≠ .handed)
    (hqo : (s.acq c q).out ≠ .handed) : p = q := by
  rcases lt_trichotomy p q with hlt | heq | hgt
  · exact absurd (hI.handed_of_ticket hlt hq ht) hpo
  · exact heq
  · exact absurd (hI.handed_of_ticket hgt hp ht.symm) hqo

/-- Whoever was handed its ticket got less than the full budget with it. -/
theorem Inv.budget_lt_of_joined (hI : Inv B s) (hp : (s.acq c p).has = true)
    (hlead : (s.acq c p).lead = false) : (s.acq c p).budget < B.budget c := by
  have hout := (hI.links c p).joined hp hlead
  cases p with
  | zero => simp [State.pred, sentinel] at hout
  | succ p =>
    rw [pred_succ] at hout
    have h1 := (hI.handed hout).2.2
    have h2 := ((hI.own c p).budget (hI.has_of_lt (Nat.lt_succ_self p) hp)).2
    omega

/-- Two acquisitions with the same ticket are of the same class. -/
theorem Inv.side_of_ticket (hI : Inv B s) (hp : (s.acq c p).has = true)
    (hq : (s.acq c' q).has = true) (ht : (s.acq c p).ticket = (s.acq c' q).ticket) : c = c' := by
  cases c <;> cases c'
  case loc.rem => exact absurd ht (hI.cross p q hp hq)
  case rem.loc => exact absurd ht.symm (hI.cross q p hq hp)
  all_goals rfl

/-- With budget one nobody hands on its ticket. -/
theorem Inv.out_ne_handed (hI : Inv B s) (hB : B.budget c = 1) : (s.acq c p).out ≠ .handed := by
  intro ho
  obtain ⟨hhas, -, hb⟩ := hI.handed ho
  have h1 := ((hI.own c (p + 1)).budget hhas).1
  have h2 := ((hI.own c p).budget (hI.has_of_lt (Nat.lt_succ_self p) hhas)).2
  omega

/-- With budget one everybody draws its own ticket. -/
theorem Inv.lead_of_budget (hI : Inv B s) (hB : B.budget c = 1) (hp : (s.acq c p).has = true) :
    (s.acq c p).lead = true := by
  by_contra hlead
  have ho := (hI.links c p).joined hp (by simpa using hlead)
  cases p with
  | zero => simp [State.pred, sentinel] at ho
  | succ p => exact hI.out_ne_handed hB ho

section Log

variable [DecidableEq H]

/-- The `i`-th batch is the set of acquisitions with ticket `i`. -/
theorem inBatch_iff (h : Reachable B s) :
    InBatch s.log i c p ↔ (s.acq c p).has = true ∧ (s.acq c p).ticket = i := by
  simp only [InBatch, getElem_draws h, mem_draws h, mem_hands h]
  constructor
  · rintro ⟨p0, t, ⟨rfl, hhas, -, rfl⟩, hle, hout⟩
    exact h.inv.handed_chain hle hhas hout
  · rintro ⟨hhas, rfl⟩
    obtain ⟨p0, hle, h1, h2, h3, h4⟩ := h.inv.exists_leader hhas
    exact ⟨p0, _, ⟨rfl, h1, h2, h3⟩, hle, h4⟩

/-- Every ticket that was issued has a leader. -/
theorem exists_draw (h : Reachable B s) (hi : i < s.issued) :
    ∃ c p, (s.acq c p).has = true ∧ (s.acq c p).lead = true ∧ (s.acq c p).ticket = i := by
  have hmem : i ∈ (draws s.log).map (·.2.2) := by
    rw [map_draws h]
    exact List.mem_range.2 hi
  obtain ⟨⟨c, p, t⟩, hd, rfl⟩ := List.mem_map.1 hmem
  exact ⟨c, p, (mem_draws h).1 hd⟩

/-- With budget one, entries are numbered by their tickets. -/
theorem map_entries_of_budget (hB : ∀ c, B.budget c = 1) (h : Reachable B s) :
    (entries s.log).map (·.2.2) = List.range (entries s.log).length := by
  induction h with
  | start => rfl
  | @step s s' hr hs ih =>
    rcases hs.entries_cases hr.recorded with hd | ⟨c, p, hp, hp', hd, ht, hR⟩
    · rwa [hd]
    · have hI := hr.inv
      have hown := ((hr.step hs).inv.ticket_of_owns (c := c) (p := p) (Or.inl hp')).2
      rw [ht, hR] at hown
      have hmem : ∀ t, t < (entries s.log).length ↔
          ∃ c p, 13 ≤ (s.acq c p).rank ∧ (s.acq c p).ticket = t := by
        intro t
        rw [← List.mem_range, ← ih]
        simp only [List.mem_map, Prod.exists, mem_entries hr]
        constructor
        · rintro ⟨c, q, t, hq, rfl⟩
          exact ⟨c, q, hq⟩
        · rintro ⟨c, q, hq⟩
          exact ⟨c, q, t, hq, rfl⟩
      -- the tickets before the one being served have entered, and that one has not
      have hlen : (entries s.log).length = s.serving := by
        refine le_antisymm (not_lt.1 fun hlt => ?_) (not_lt.1 fun hlt => ?_)
        · obtain ⟨c', q, hq, hqt⟩ := (hmem _).1 hlt
          have hqhas := (hI.own c' q).has (Nat.le_trans (by decide) hq)
          have hphas := (hI.own c p).has (by grind)
          obtain rfl := hI.side_of_ticket hqhas hphas (hqt.trans hown.symm)
          rcases lt_trichotomy q p with hlt' | rfl | hgt
          · exact hI.out_ne_handed (hB c') (hI.handed_of_ticket hlt' hphas (hqt.trans hown.symm))
          · grind
          · exact hI.out_ne_handed (hB c') (hI.handed_of_ticket hgt hqhas (hown.trans hqt.symm))
        · obtain ⟨c', q, hqhas, -, hqt⟩ := exists_draw hr (hlt.trans_le hI.serving_le)
          have hdone := (hI.glob c' q).done hqhas (by omega)
          exact lt_irrefl _ ((hmem _).2 ⟨c', q, by omega, hqt⟩)
      rw [hd, List.map_append, ih, List.length_append, hlen, List.map_singleton, hown]
      exact List.range_succ.symm

end Log

/-! ### The states around an event -/

/-- Some moves from `s` to `s'`. -/
abbrev Steps (B : Config) : State H → State H → Prop := Relation.ReflTransGen (Step B)

theorem Reachable.steps (h : Reachable B s) (hs : Steps B s s') : Reachable B s' := by
  induction hs with
  | refl => exact h
  | tail _ hs ih => exact ih.step hs

/-- The states before and after an event of the log. -/
theorem Reachable.split (h : Reachable B s) {L M : List (Event H ℕ)} {e : Event H ℕ}
    (hlog : s.log = L ++ e :: M) :
    ∃ s0 s1, Reachable B s0 ∧ s0.log = L ∧ Step B s0 s1 ∧ s1.log = L ++ [e] ∧ Steps B s1 s := by
  induction h generalizing M with
  | start => simp at hlog
  | @step s s' hr hs ih =>
    obtain ⟨e', he'⟩ := hs.log_eq
    rcases List.eq_nil_or_concat M with rfl | ⟨N, x, rfl⟩
    · cases e' with
      | none =>
        obtain ⟨s0, s1, h1, h2, h3, h4, h5⟩ := ih (M := []) (by simpa [he'] using hlog)
        exact ⟨s0, s1, h1, h2, h3, h4, h5.tail hs⟩
      | some x =>
        rw [he', Option.toList_some] at hlog
        obtain ⟨hL, hx⟩ := List.append_inj' hlog rfl
        exact ⟨s, s', hr, hL, hs, by rw [he', Option.toList_some, hlog], .refl⟩
    · cases e' with
      | none =>
        obtain ⟨s0, s1, h1, h2, h3, h4, h5⟩ := ih (M := N ++ [x]) (by simpa [he'] using hlog)
        exact ⟨s0, s1, h1, h2, h3, h4, h5.tail hs⟩
      | some y =>
        rw [he', Option.toList_some, List.concat_eq_append, ← List.cons_append,
          ← List.append_assoc] at hlog
        obtain ⟨hL, -⟩ := List.append_inj' hlog rfl
        obtain ⟨s0, s1, h1, h2, h3, h4, h5⟩ := ih hL
        exact ⟨s0, s1, h1, h2, h3, h4, h5.tail hs⟩

end Spec
end Farlock
