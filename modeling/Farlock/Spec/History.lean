import Farlock.Spec.Exclusion

/-!
# The log of the abstract lock

The phase of an acquisition tells which events it has been through (`Acq.Past`), and the log holds
exactly these, each once (`Recorded`).  From this the lists of `Farlock.Event` are read off the
state:

* `mem_draws`, `mem_hands`, `mem_lowers`, `mem_entries`, `mem_advances`, `mem_leaves`;
* `map_draws`, `map_advances`: the tickets are drawn and served as `0, 1, 2, …`;
* `entries_pairwise`, `entryOrder_eq_range`: entries are in the order of tickets and, inside a
  class, of places.
-/

namespace Farlock

namespace Spec

open TwoParty Peterson

variable {H : Type} {B : Config}

/-- The acquisition has been through such an event. -/
def Acq.Past (a : Acq H) : Event H ℕ → Prop
  | .arrive _ _ => True
  | .raise _ _ => 6 ≤ a.rank ∧ (a.has = true → a.lead = true)
  | .request _ _ => 7 ≤ a.rank ∧ (a.has = true → a.lead = true)
  | .draw _ _ t => a.has = true ∧ a.lead = true ∧ a.ticket = t
  | .hand _ _ => a.out = .handed
  | .lower _ _ => 10 ≤ a.rank ∧ a.out ≠ .handed
  | .enter _ _ t => 13 ≤ a.rank ∧ a.ticket = t
  | .advance _ _ t => 14 ≤ a.rank ∧ a.out ≠ .handed ∧ a.ticket + 1 = t
  | .leave _ _ => a.phase = .gone

/-- The acquisition was made by the handler of the event and has been through it. -/
def Acq.Did (a : Acq H) (e : Event H ℕ) : Prop := a.who = some e.who ∧ a.Past e

theorem gone_iff_rank {a : Acq H} : a.phase = .gone ↔ 15 ≤ a.rank := by
  unfold Acq.rank
  cases a.phase <;> simp [Phase.rank]

/-- Between these two versions of an acquisition lies no event. -/
structure Silent (a b : Acq H) : Prop where
  has : b.has = a.has
  lead : b.lead = a.lead
  ticket : b.ticket = a.ticket
  out : b.out = .handed ↔ a.out = .handed
  rank : ∀ n ∈ [6, 7, 10, 13, 14, 15], n ≤ b.rank ↔ n ≤ a.rank

theorem Silent.past {a b : Acq H} (h : Silent a b) (e : Event H ℕ) : b.Past e ↔ a.Past e := by
  cases e with
  | arrive => exact Iff.rfl
  | raise => simp only [Acq.Past, h.has, h.lead, h.rank 6 (by simp)]
  | request => simp only [Acq.Past, h.has, h.lead, h.rank 7 (by simp)]
  | draw => simp only [Acq.Past, h.has, h.lead, h.ticket]
  | hand => simp only [Acq.Past, h.out]
  | lower => simp only [Acq.Past, ne_eq, h.out, h.rank 10 (by simp)]
  | enter => simp only [Acq.Past, h.ticket, h.rank 13 (by simp)]
  | advance => simp only [Acq.Past, ne_eq, h.out, h.ticket, h.rank 14 (by simp)]
  | leave => simp only [Acq.Past, gone_iff_rank, h.rank 15 (by simp)]

variable [DecidableEq H] {s s' : State H} {c : Side} {p : ℕ} {b : Acq H}

/-- The log holds the events that the acquisitions have been through, each once, and the places are
those of the register. -/
structure Recorded (s : State H) : Prop where
  arrived : (register s.log).arrived = s.arrived
  place : ∀ c p h, (s.acq c p).who = some h → (s.acq c p).phase ≠ .gone →
    (register s.log).place h = p
  did : ∀ p e, (p, e) ∈ stamp s.log ↔ (s.acq e.side p).Did e
  nodup : (stamp s.log).Nodup

/-- One acquisition is replaced, and at most one event takes place, which is its own. -/
theorem Recorded.put {o : Option (Event H ℕ)} (hR : Recorded s)
    (hacq : s'.acq = (s.put c p b).acq) (harr : s'.arrived = s.arrived)
    (hlog : s'.log = s.log ++ o.toList) (hwho : b.who = (s.acq c p).who)
    (hgone : (s.acq c p).phase ≠ .gone)
    (hpast : ∀ e, e.side = c → (s.acq c p).who = some e.who →
      (b.Past e ↔ (s.acq c p).Past e ∨ o = some e))
    (hnew : ∀ e, o = some e → e.side = c ∧ (s.acq c p).who = some e.who ∧
      ¬ (s.acq c p).Past e) : Recorded s' := by
  have hdid : ∀ q e, (s'.acq e.side q).Did e ↔
      (s.acq e.side q).Did e ∨ (q = p ∧ o = some e) := by
    intro q e
    rw [hacq, put_acq]
    split_ifs with hcq
    · obtain ⟨hc, rfl⟩ := hcq
      simp only [Acq.Did, hc, hwho]
      constructor
      · rintro ⟨hw, ha⟩
        exact ((hpast e hc hw).1 ha).imp (fun h => ⟨hw, h⟩) fun h => ⟨trivial, h⟩
      · rintro (⟨hw, ha⟩ | ⟨-, h0⟩)
        · exact ⟨hw, (hpast e hc hw).2 (Or.inl ha)⟩
        · have hw := (hnew e h0).2.1
          exact ⟨hw, (hpast e hc hw).2 (Or.inr h0)⟩
    · grind
  have hsame : ∀ c' q h, (s'.acq c' q).who = some h → (s'.acq c' q).phase ≠ .gone →
      (s.acq c' q).who = some h ∧ (s.acq c' q).phase ≠ .gone := by
    intro c' q h hw hg
    rw [hacq, put_acq] at hw hg
    split_ifs at hw hg with hcq
    · obtain ⟨rfl, rfl⟩ := hcq
      exact ⟨hwho ▸ hw, hgone⟩
    · exact ⟨hw, hg⟩
  cases o with
  | none =>
    simp only [Option.toList_none, List.append_nil] at hlog
    refine ⟨by rw [hlog, harr, hR.arrived], ?_, ?_, by rw [hlog]; exact hR.nodup⟩
    · intro c' q h hw hg
      obtain ⟨h1, h2⟩ := hsame c' q h hw hg
      rw [hlog]
      exact hR.place c' q h h1 h2
    · intro q e
      rw [hlog, hR.did, hdid]
      simp
  | some o =>
    obtain ⟨hside, hw0, hnot⟩ := hnew o rfl
    have hreg : register s'.log = register s.log := by
      rw [hlog, Option.toList_some, register_snoc]
      cases o with
      | arrive => exact absurd trivial hnot
      | _ => rfl
    have hplace : (register s.log).place o.who = p := hR.place c p _ hw0 hgone
    have hstamp : stamp s'.log = stamp s.log ++ [(p, o)] := by
      rw [Option.toList_some] at hlog
      rw [hlog, stamp_snoc, ← hlog, hreg, hplace]
    refine ⟨by rw [hreg, harr, hR.arrived], ?_, ?_, ?_⟩
    · intro c' q h hw hg
      obtain ⟨h1, h2⟩ := hsame c' q h hw hg
      rw [hreg]
      exact hR.place c' q h h1 h2
    · intro q e
      rw [hstamp, List.mem_append, hR.did, hdid]
      grind
    · rw [hstamp, List.nodup_append]
      refine ⟨hR.nodup, List.nodup_singleton _, ?_⟩
      rintro ⟨q, e⟩ hmem _ hin rfl
      obtain ⟨rfl, rfl⟩ : q = p ∧ e = o := by simpa using hin
      exact hnot (hside ▸ (hR.did _ _).1 hmem).2

theorem Recorded.arrive (hI : Inv B s) (hR : Recorded s) {h : H}
    (hn : ∀ c p, (s.acq c p).who = some h → (s.acq c p).phase = .gone) :
    Recorded (s.arrive c h) := by
  have habs : s.acq c (s.arrived c) = {} := (hI.own c _).absent (by
    by_contra hne
    exact absurd ((hI.count c _).2 hne) (lt_irrefl _))
  have hreg : register (s.arrive c h).log = (register s.log).next (.arrive c h) :=
    register_snoc _ _
  have hstamp : stamp (s.arrive c h).log = stamp s.log ++ [(s.arrived c, .arrive c h)] := by
    change stamp (s.log ++ [.arrive c h]) = _
    rw [stamp_snoc, register_snoc]
    simp [Register.next, Event.who, hR.arrived]
  have hacq : ∀ c' q, (s.arrive c h).acq c' q =
      if c' = c ∧ q = s.arrived c then newcomer (s.pred c (s.arrived c)) h else s.acq c' q :=
    fun _ _ => rfl
  have hfresh : ∀ e, (newcomer (s.pred c (s.arrived c)) h).Past e ↔ ∃ c h, e = .arrive c h := by
    intro e
    cases e <;> grind -linarith [Acq.Past, newcomer]
  refine ⟨?_, ?_, ?_, ?_⟩
  · rw [hreg]
    simp [Register.next, hR.arrived, State.arrive]
  · intro c' q g hw hg
    rw [hreg]
    rw [hacq] at hw hg
    simp only [Register.next, Function.update_apply, hR.arrived]
    split_ifs at hw hg with hcq
    · obtain rfl : h = g := by simpa [newcomer] using hw
      simp [hcq.2]
    · rw [if_neg]
      · exact hR.place c' q g hw hg
      · rintro rfl
        exact hg (hn _ _ hw)
  · intro q e
    rw [hstamp, List.mem_append, hR.did, hacq]
    split_ifs with hcq
    · obtain ⟨hc, rfl⟩ := hcq
      simp only [Acq.Did, hc, habs, hfresh]
      cases e <;> grind -linarith [Event.who, Event.side, newcomer]
    · have hne : (q, e) ≠ (s.arrived c, .arrive c h) := by
        rintro ⟨⟩
        exact hcq ⟨rfl, rfl⟩
      simp [hne]
  · rw [hstamp, List.nodup_append]
    refine ⟨hR.nodup, List.nodup_singleton _, ?_⟩
    rintro ⟨q, e⟩ hmem _ hin rfl
    obtain ⟨rfl, rfl⟩ : q = s.arrived c ∧ e = .arrive c h := by simpa using hin
    have := ((hR.did _ _).1 hmem).1
    simp [Event.side, habs] at this

/-- A move without an event. -/
theorem Recorded.still (hR : Recorded s) (hacq : s'.acq = (s.put c p b).acq)
    (harr : s'.arrived = s.arrived) (hlog : s'.log = s.log) (hwho : b.who = (s.acq c p).who)
    (hgone : (s.acq c p).phase ≠ .gone)
    (hpast : ∀ e, b.Past e ↔ (s.acq c p).Past e) : Recorded s' :=
  hR.put (o := none) hacq harr (by simp [hlog]) hwho hgone
    (fun e _ _ => by simp [hpast e]) (by simp)

/-- A move without an event that changes the phase alone. -/
theorem Recorded.rephase {ph ph' : Phase} (hR : Recorded s)
    (hacq : s'.acq = (s.put c p { s.acq c p with phase := ph' }).acq)
    (harr : s'.arrived = s.arrived) (hlog : s'.log = s.log) (hp : (s.acq c p).phase = ph)
    (hgone : ph ≠ .gone)
    (hrank : ∀ n ∈ [6, 7, 10, 13, 14, 15], n ≤ ph'.rank ↔ n ≤ ph.rank) : Recorded s' :=
  hR.still hacq harr hlog rfl (hp ▸ hgone)
    (Silent.past ⟨rfl, rfl, rfl, Iff.rfl, by unfold Acq.rank; rw [hp]; exact hrank⟩)

section Moves

variable {h : H} (hI : Inv B s) (hR : Recorded s)
include hI hR

theorem Recorded.join (hp : (s.acq c p).phase = .wait) (ht : (s.acq c p).has = true) :
    Recorded (s.put c p { s.acq c p with phase := .drawn }) := by
  have hlead : (s.acq c p).lead = false := ((hI.own c p).early ht (by grind)).2
  refine hR.still rfl rfl rfl rfl (by simp [hp]) fun e => ?_
  cases e <;> simp [Acq.Past, Acq.rank, Phase.rank, hp, ht, hlead]

theorem Recorded.raise (hp : (s.acq c p).phase = .ready) (hw : (s.acq c p).who = some h) :
    Recorded { s.put c p { s.acq c p with phase := .flagged } with
      pet := s.pet.raise c, log := s.log ++ [.raise c h] } := by
  have hhas : (s.acq c p).has = false := by
    by_contra hne
    have := ((hI.own c p).early (by simpa using hne) (by grind)).1
    grind
  refine hR.put (o := some (.raise c h)) rfl rfl (by simp) rfl (by simp [hp]) (fun e hc he => ?_) ?_
  · cases e <;> grind -linarith [Acq.Past, Event.who, Event.side]
  · rintro _ ⟨⟩
    exact ⟨rfl, hw, by simp [Acq.Past, Acq.rank, Phase.rank, hp]⟩

theorem Recorded.request (hp : (s.acq c p).phase = .flagged) (hw : (s.acq c p).who = some h) :
    Recorded { s.put c p { s.acq c p with phase := .waiting } with
      pet := s.pet.request c, log := s.log ++ [.request c h] } := by
  have hhas : (s.acq c p).has = false := by
    by_contra hne
    have := ((hI.own c p).early (by simpa using hne) (by grind)).1
    grind
  refine hR.put (o := some (.request c h)) rfl rfl (by simp) rfl (by simp [hp])
    (fun e hc he => ?_) ?_
  · cases e <;> grind -linarith [Acq.Past, Event.who, Event.side]
  · rintro _ ⟨⟩
    exact ⟨rfl, hw, by simp [Acq.Past, Acq.rank, Phase.rank, hp]⟩

theorem Recorded.draw (hp : (s.acq c p).phase = .passed) (hw : (s.acq c p).who = some h) :
    Recorded { s.put c p { s.acq c p with
        phase := .drawn, has := true, lead := true, ticket := s.issued, budget := B.budget c } with
      issued := s.issued + 1, log := s.log ++ [.draw c h s.issued] } := by
  have hhas : (s.acq c p).has = false := by
    by_contra hne
    have := ((hI.own c p).early (by simpa using hne) (by grind)).1
    grind
  have hout : (s.acq c p).out = .kept := by
    by_contra hne
    have := (hI.own c p).out hne
    grind
  refine hR.put (o := some (.draw c h s.issued)) rfl rfl (by simp) rfl (by simp [hp])
    (fun e hc he => ?_) ?_
  · cases e <;> grind -linarith [Acq.Past, Event.who, Event.side]
  · rintro _ ⟨⟩
    exact ⟨rfl, hw, by simp [Acq.Past, hhas]⟩

theorem Recorded.give (hp : (s.acq c p).phase = .drawn) (hw : (s.acq c p).who = some h) :
    Recorded { s.put c p (s.acq c p).giver with log := s.log ++ [.hand c h] } := by
  have hown := hI.own c p
  refine hR.put (o := some (.hand c h)) rfl rfl (by simp) rfl (by simp [hp]) (fun e hc he => ?_) ?_
  · cases e <;> grind -linarith [Acq.Past, Acq.giver, Own, Event.who, Event.side]
  · rintro _ ⟨⟩
    refine ⟨rfl, hw, fun ho => ?_⟩
    have := hown.out (by rw [show (s.acq c p).out = .handed from ho]; simp)
    grind

theorem Recorded.hand (hp : (s.acq c p).phase = .drawn) (hw : (s.acq c p).who = some h) :
    Recorded (s.hand c p h) := by
  have o1 := hI.own c (p + 1)
  have l1 : Link B (s.acq c p) (s.acq c (p + 1)) := hI.links c (p + 1)
  -- first the giver, which makes the event, then the taker
  refine (hR.give hI hp hw).still (c := c) (p := p + 1)
    (b := (s.acq c (p + 1)).taker (s.acq c p)) rfl rfl rfl ?_ ?_ fun e => ?_
  · simp [Acq.taker]
  · grind [Link]
  · simp only [put_acq, Nat.succ_ne_self, and_false, if_false]
    cases e <;> grind -linarith [Acq.Past, Acq.taker, Own, Link]

theorem Recorded.lower (hp : (s.acq c p).phase = .drawn) (hw : (s.acq c p).who = some h) :
    Recorded { s.put c p { s.acq c p with phase := .cleared } with
      pet := s.pet.lower c, log := s.log ++ [.lower c h] } := by
  have hown := hI.own c p
  refine hR.put (o := some (.lower c h)) rfl rfl (by simp) rfl (by simp [hp]) (fun e hc he => ?_) ?_
  · cases e <;> grind -linarith [Acq.Past, Own, Event.who, Event.side]
  · rintro _ ⟨⟩
    exact ⟨rfl, hw, by simp [Acq.Past, Acq.rank, Phase.rank, hp]⟩

theorem Recorded.tell (hp : (s.acq c p).phase = .notify) :
    Recorded (s.put c p { s.acq c p with phase := .queued, out := .told }) := by
  have hout : (s.acq c p).out ≠ .handed := fun ho => by
    have := (hI.own c p).out (by simp [ho])
    grind
  refine hR.still rfl rfl rfl rfl (by simp [hp]) (Silent.past ⟨rfl, rfl, rfl, ?_, ?_⟩)
  · simp [hout]
  · simp [Acq.rank, Phase.rank, hp]

omit hI in
theorem Recorded.enter {t : ℕ} (hp : (s.acq c p).phase = .queued)
    (hw : (s.acq c p).who = some h) (ht : (s.acq c p).ticket = t) :
    Recorded { s.put c p { s.acq c p with phase := .critical } with
      log := s.log ++ [.enter c h t] } := by
  refine hR.put (o := some (.enter c h t)) rfl rfl (by simp) rfl (by simp [hp])
    (fun e hc he => ?_) ?_
  · cases e <;> grind -linarith [Acq.Past, Event.who, Event.side]
  · rintro _ ⟨⟩
    exact ⟨rfl, hw, by simp [Acq.Past, Acq.rank, Phase.rank, hp]⟩

theorem Recorded.advance (hp : (s.acq c p).phase = .critical) (hw : (s.acq c p).who = some h)
    (ho : (s.acq c p).out ≠ .handed) :
    Recorded { s.put c p { s.acq c p with phase := .freed } with
      serving := s.serving + 1, log := s.log ++ [.advance c h (s.serving + 1)] } := by
  have ht := (hI.ticket_of_owns (c := c) (p := p) (Or.inl hp)).2
  refine hR.put (o := some (.advance c h (s.serving + 1))) rfl rfl (by simp) rfl (by simp [hp])
    (fun e hc he => ?_) ?_
  · cases e <;> grind -linarith [Acq.Past, Event.who, Event.side]
  · rintro _ ⟨⟩
    exact ⟨rfl, hw, by simp [Acq.Past, Acq.rank, Phase.rank, hp]⟩

omit hI in
theorem Recorded.retire (hp : (s.acq c p).phase = .critical) (ho : (s.acq c p).out = .handed) :
    Recorded (s.put c p { s.acq c p with phase := .freed }) := by
  refine hR.still rfl rfl rfl rfl (by simp [hp]) fun e => ?_
  cases e <;> simp [Acq.Past, Acq.rank, Phase.rank, hp, ho]

omit hI in
theorem Recorded.depart (hp : (s.acq c p).phase = .freed) (hw : (s.acq c p).who = some h) :
    Recorded { s.put c p { s.acq c p with phase := .gone } with
      log := s.log ++ [.leave c h] } := by
  refine hR.put (o := some (.leave c h)) rfl rfl (by simp) rfl (by simp [hp]) (fun e hc he => ?_) ?_
  · cases e <;> grind -linarith [Acq.Past, Event.who, Event.side]
  · rintro _ ⟨⟩
    exact ⟨rfl, hw, by simp [Acq.Past, hp]⟩

end Moves

/-- Every move keeps the record. -/
theorem Recorded.step (hI : Inv B s) (hR : Recorded s) (hs : Step B s s') : Recorded s' := by
  cases hs with
  | arrive c x hn => exact hR.arrive hI hn
  | link hp => exact hR.rephase rfl rfl rfl hp (by decide) (by decide)
  | look hp =>
    exact hR.still rfl rfl rfl rfl (by simp [hp])
      (Silent.past ⟨rfl, rfl, rfl, Iff.rfl, by simp [Acq.rank, Phase.rank, hp]⟩)
  | @mark c p hp =>
    refine hR.rephase rfl rfl rfl hp (by decide) ?_
    cases (s.acq c p).seen <;> decide
  | lead hp ht => exact hR.rephase rfl rfl rfl hp (by decide) (by decide)
  | join hp ht => exact hR.join hI hp ht
  | raise hp hw => exact hR.raise hI hp hw
  | request hp hw => exact hR.request hI hp hw
  | pass hp hc => exact hR.rephase rfl rfl rfl hp (by decide) (by decide)
  | draw hp hw => exact hR.draw hI hp hw
  | offer hp hl hb =>
    exact hR.still rfl rfl rfl rfl (by simp [hp])
      (Silent.past ⟨rfl, rfl, rfl, Iff.rfl, fun _ _ => Iff.rfl⟩)
  | hand hp hw ho => exact hR.hand hI hp hw
  | lower hp hw ho => exact hR.lower hI hp hw
  | publish hp => exact hR.rephase rfl rfl rfl hp (by decide) (by decide)
  | skip hp hl => exact hR.rephase rfl rfl rfl hp (by decide) (by decide)
  | tell hp hl => exact hR.tell hI hp
  | enter hp hw hg ht => exact hR.enter hp hw rfl
  | advance hp hw ho => exact hR.advance hI hp hw ho
  | retire hp ho => exact hR.retire hp ho
  | depart hp hw hs => exact hR.depart hp hw

theorem Reachable.recorded (h : Reachable B s) : Recorded s := by
  induction h with
  | start => exact ⟨rfl, by simp, fun p e => by simp [stamp, stampFrom, Acq.Did], List.nodup_nil⟩
  | step hr hs ih => exact ih.step hr.inv hs

section Lists

variable (h : Reachable B s)
include h

theorem mem_draws {t : ℕ} : (c, p, t) ∈ draws s.log ↔
    (s.acq c p).has = true ∧ (s.acq c p).lead = true ∧ (s.acq c p).ticket = t := by
  simp only [draws, mem_timed, h.recorded.did]
  constructor
  · rintro ⟨e, ⟨-, hpast⟩, rfl, hsel⟩
    cases e <;> simp [Event.drawn] at hsel
    exact hsel ▸ hpast
  · intro ha
    have hwho := (h.inv.own c p).who fun habs => by simp [(h.inv.own c p).absent habs] at ha
    obtain ⟨g, hg⟩ := Option.ne_none_iff_exists'.1 hwho
    exact ⟨.draw c g t, ⟨hg, ha⟩, rfl, rfl⟩

theorem mem_entries {t : ℕ} : (c, p, t) ∈ entries s.log ↔
    13 ≤ (s.acq c p).rank ∧ (s.acq c p).ticket = t := by
  simp only [entries, mem_timed, h.recorded.did]
  constructor
  · rintro ⟨e, ⟨-, hpast⟩, rfl, hsel⟩
    cases e <;> simp [Event.entered] at hsel
    exact hsel ▸ hpast
  · intro ha
    have hwho := (h.inv.own c p).who fun habs => by grind
    obtain ⟨g, hg⟩ := Option.ne_none_iff_exists'.1 hwho
    exact ⟨.enter c g t, ⟨hg, ha⟩, rfl, rfl⟩

theorem mem_advances {t : ℕ} : (c, p, t) ∈ advances s.log ↔
    14 ≤ (s.acq c p).rank ∧ (s.acq c p).out ≠ .handed ∧ (s.acq c p).ticket + 1 = t := by
  simp only [advances, mem_timed, h.recorded.did]
  constructor
  · rintro ⟨e, ⟨-, hpast⟩, rfl, hsel⟩
    cases e <;> simp [Event.advanced] at hsel
    exact hsel ▸ hpast
  · intro ha
    have hwho := (h.inv.own c p).who fun habs => by grind
    obtain ⟨g, hg⟩ := Option.ne_none_iff_exists'.1 hwho
    exact ⟨.advance c g t, ⟨hg, ha⟩, rfl, rfl⟩

theorem mem_hands : (c, p) ∈ hands s.log ↔ (s.acq c p).out = .handed := by
  simp only [hands, mem_marks, h.recorded.did]
  constructor
  · rintro ⟨e, ⟨-, hpast⟩, rfl, hsel⟩
    cases e <;> simp [Event.isHand] at hsel
    exact hpast
  · intro ha
    have hwho := (h.inv.own c p).who fun habs => by simp [(h.inv.own c p).absent habs] at ha
    obtain ⟨g, hg⟩ := Option.ne_none_iff_exists'.1 hwho
    exact ⟨.hand c g, ⟨hg, ha⟩, rfl, rfl⟩

theorem mem_lowers : (c, p) ∈ lowers s.log ↔
    10 ≤ (s.acq c p).rank ∧ (s.acq c p).out ≠ .handed := by
  simp only [lowers, mem_marks, h.recorded.did]
  constructor
  · rintro ⟨e, ⟨-, hpast⟩, rfl, hsel⟩
    cases e <;> simp [Event.isLower] at hsel
    exact hpast
  · intro ha
    have hwho := (h.inv.own c p).who fun habs => by grind
    obtain ⟨g, hg⟩ := Option.ne_none_iff_exists'.1 hwho
    exact ⟨.lower c g, ⟨hg, ha⟩, rfl, rfl⟩

theorem mem_leaves : (c, p) ∈ leaves s.log ↔ (s.acq c p).phase = .gone := by
  simp only [leaves, mem_marks, h.recorded.did]
  constructor
  · rintro ⟨e, ⟨-, hpast⟩, rfl, hsel⟩
    cases e <;> simp [Event.isLeave] at hsel
    exact hpast
  · intro ha
    have hwho := (h.inv.own c p).who fun habs => by simp [habs] at ha
    obtain ⟨g, hg⟩ := Option.ne_none_iff_exists'.1 hwho
    exact ⟨.leave c g, ⟨hg, ha⟩, rfl, rfl⟩

/-- An event that an acquisition goes through once is marked once. -/
theorem marks_nodup {sel : Event H ℕ → Bool} (hsel : ∀ e e', sel e = true → sel e' = true →
    e.side = e'.side → e.who = e'.who → e = e') : (marks sel s.log).Nodup := by
  rw [marks, List.Nodup, List.pairwise_filterMap]
  refine h.recorded.nodup.imp_of_mem fun {x y} hx hy hne z hz z' hz' heq => hne ?_
  obtain ⟨p, e⟩ := x
  obtain ⟨q, e'⟩ := y
  obtain ⟨he, rfl⟩ : sel e = true ∧ (e.side, p) = z := by simpa using hz
  obtain ⟨he', rfl⟩ : sel e' = true ∧ (e'.side, q) = z' := by simpa using hz'
  obtain ⟨hside, rfl⟩ : e.side = e'.side ∧ p = q := by simpa using heq
  have hw := ((h.recorded.did p e).1 hx).1
  have hw' := ((h.recorded.did p e').1 hy).1
  rw [hside] at hw
  rw [hsel e e' he he' hside (Option.some.inj (hw.symm.trans hw'))]

/-- Nobody runs `UnlockPetersons` twice. -/
theorem lowers_nodup : (lowers s.log).Nodup :=
  marks_nodup h fun e e' he he' hside hwho => by
    cases e <;> simp [Event.isLower] at he
    cases e' <;> simp [Event.isLower] at he'
    exact congrArg₂ Event.lower hside hwho

/-- Nobody returns from `Unlock` twice. -/
theorem leaves_nodup : (leaves s.log).Nodup :=
  marks_nodup h fun e e' he he' hside hwho => by
    cases e <;> simp [Event.isLeave] at he
    cases e' <;> simp [Event.isLeave] at he'
    exact congrArg₂ Event.leave hside hwho

end Lists

/-! ### One more event -/

omit [DecidableEq H] in
/-- What a move adds to the log: nothing, or an event of the mover. -/
theorem Step.log_eq (hs : Step B s s') : ∃ e : Option (Event H ℕ), s'.log = s.log ++ e.toList := by
  cases hs
  case arrive c h _ => exact ⟨some (.arrive c h), rfl⟩
  case raise c p h _ _ => exact ⟨some (.raise c h), rfl⟩
  case request c p h _ _ => exact ⟨some (.request c h), rfl⟩
  case draw c p h _ _ => exact ⟨some (.draw c h s.issued), rfl⟩
  case hand c p h _ _ _ => exact ⟨some (.hand c h), rfl⟩
  case lower c p h _ _ _ => exact ⟨some (.lower c h), rfl⟩
  case enter c p h _ _ _ _ => exact ⟨some (.enter c h (s.acq c p).ticket), rfl⟩
  case advance c p h _ _ _ => exact ⟨some (.advance c h (s.serving + 1)), rfl⟩
  case depart c p h _ _ _ => exact ⟨some (.leave c h), rfl⟩
  all_goals exact ⟨none, by simp⟩

/-- A ticketed event of a handler that is in the queue gets that handler's place. -/
theorem Recorded.timed_snoc (hR : Recorded s) {h : H} (hw : (s.acq c p).who = some h)
    (hg : (s.acq c p).phase ≠ .gone) {sel : Event H ℕ → Option ℕ} {e : Event H ℕ} {t : ℕ}
    (hsel : sel e = some t) (hwho : e.who = h) (hside : e.side = c)
    (hreg : register (s.log ++ [e]) = register s.log) :
    timed sel (s.log ++ [e]) = timed sel s.log ++ [(c, p, t)] := by
  rw [Farlock.timed_snoc, hsel, hreg, hwho, hR.place c p h hw hg, hside]
  rfl

/-- An event that is not selected. -/
theorem timed_skip (L : List (Event H ℕ)) {sel : Event H ℕ → Option ℕ} {e : Event H ℕ}
    (hsel : sel e = none) : timed sel (L ++ [e]) = timed sel L := by
  rw [Farlock.timed_snoc, hsel]
  simp

/-- The moves that draw a ticket, and the others. -/
theorem Step.draws_cases (hR : Recorded s) (hs : Step B s s') :
    (draws s'.log = draws s.log ∧ s'.issued = s.issued) ∨
    ∃ c p, (s.acq c p).phase = .passed ∧ draws s'.log = draws s.log ++ [(c, p, s.issued)] ∧
      s'.issued = s.issued + 1 := by
  cases hs
  case draw c p h hp hw =>
    exact Or.inr ⟨c, p, hp, hR.timed_snoc hw (by simp [hp]) rfl rfl rfl (register_snoc _ _), rfl⟩
  all_goals exact Or.inl ⟨by first | rfl | exact timed_skip _ rfl, rfl⟩

/-- The moves that serve a ticket, and the others. -/
theorem Step.advances_cases (hR : Recorded s) (hs : Step B s s') :
    (advances s'.log = advances s.log ∧ s'.serving = s.serving) ∨
    ∃ c p, (s.acq c p).phase = .critical ∧ (s.acq c p).out ≠ .handed ∧
      advances s'.log = advances s.log ++ [(c, p, s.serving + 1)] ∧
      s'.serving = s.serving + 1 := by
  cases hs
  case advance c p h hp hw ho =>
    exact Or.inr ⟨c, p, hp, ho, hR.timed_snoc hw (by simp [hp]) rfl rfl rfl (register_snoc _ _), rfl⟩
  all_goals exact Or.inl ⟨by first | rfl | exact timed_skip _ rfl, rfl⟩

/-- The moves into the critical section, and the others. -/
theorem Step.entries_cases (hR : Recorded s) (hs : Step B s s') :
    entries s'.log = entries s.log ∨
    ∃ c p, (s.acq c p).phase = .queued ∧ (s'.acq c p).phase = .critical ∧
      entries s'.log = entries s.log ++ [(c, p, (s.acq c p).ticket)] ∧
      (s'.acq c p).ticket = (s.acq c p).ticket ∧ s'.serving = s.serving := by
  cases hs
  case enter c p h hp hw hg ht =>
    exact Or.inr ⟨c, p, hp, by simp, hR.timed_snoc hw (by simp [hp]) rfl rfl rfl (register_snoc _ _),
      by simp, rfl⟩
  all_goals exact Or.inl (by first | rfl | exact timed_skip _ rfl)

/-! ### The order of draws, entries and updates -/

/-- Where the elements of a list are that is numbered from `k` on by `f`. -/
theorem getElem?_of_map_eq {α : Type} {l : List α} {f : α → ℕ} {n k : ℕ}
    (hl : l.map f = (List.range n).map (· + k)) {i : ℕ} {x : α} :
    l[i]? = some x ↔ f x = i + k ∧ x ∈ l := by
  have hget : ∀ j y, l[j]? = some y → f y = j + k := by
    intro j y hj
    have hmap := congrArg (·[j]?) hl
    simp only [List.getElem?_map, hj, Option.map_some] at hmap
    obtain ⟨m, hm, heq⟩ := Option.map_eq_some_iff.1 hmap.symm
    obtain ⟨hlt, rfl⟩ := List.getElem?_eq_some_iff.1 hm
    simpa using heq.symm
  constructor
  · exact fun hi => ⟨hget i x hi, List.mem_of_getElem? hi⟩
  · rintro ⟨hf, hx⟩
    obtain ⟨j, hj⟩ := List.getElem?_of_mem hx
    have := hget j x hj
    obtain rfl : j = i := by omega
    exact hj

/-- The `i`-th draw returns `i`. -/
theorem map_draws (h : Reachable B s) : (draws s.log).map (·.2.2) = List.range s.issued := by
  induction h with
  | start => rfl
  | step hr hs ih =>
    rcases hs.draws_cases hr.recorded with ⟨hd, hi⟩ | ⟨c, p, -, hd, hi⟩
    · rw [hd, hi, ih]
    · rw [hd, hi, List.map_append, ih, List.range_succ]
      rfl

theorem getElem_draws (h : Reachable B s) {i : ℕ} {t : ℕ} :
    (draws s.log)[i]? = some (c, p, t) ↔ t = i ∧ (c, p, i) ∈ draws s.log := by
  rw [getElem?_of_map_eq (k := 0) (by simpa using map_draws h), Nat.add_zero]
  exact and_congr_right fun ht => by rw [← show t = i from ht]

/-- The `i`-th update sets the current ticket to `i + 1`. -/
theorem map_advances (h : Reachable B s) :
    (advances s.log).map (·.2.2) = (List.range s.serving).map (· + 1) := by
  induction h with
  | start => rfl
  | step hr hs ih =>
    rcases hs.advances_cases hr.recorded with ⟨hd, hi⟩ | ⟨c, p, -, -, hd, hi⟩
    · rw [hd, hi, ih]
    · rw [hd, hi, List.map_append, ih, List.range_succ, List.map_append]
      rfl

theorem getElem_advances (h : Reachable B s) {i : ℕ} {t : ℕ} :
    (advances s.log)[i]? = some (c, p, t) ↔ t = i + 1 ∧ (c, p, i + 1) ∈ advances s.log := by
  rw [getElem?_of_map_eq (map_advances h)]
  exact and_congr_right fun ht => by rw [← show t = i + 1 from ht]

/-- Entries are in the order of their tickets. -/
theorem entries_pairwise (h : Reachable B s) :
    (entries s.log).Pairwise fun x y => x.2.2 ≤ y.2.2 := by
  induction h with
  | start => exact List.Pairwise.nil
  | @step s s' hr hs ih =>
    rcases hs.entries_cases hr.recorded with hd | ⟨c, p, -, hp', hd, ht, hR⟩
    · rwa [hd]
    · rw [hd, List.pairwise_append]
      refine ⟨ih, List.pairwise_singleton _ _, ?_⟩
      rintro ⟨c', q, t⟩ hmem y hy
      obtain rfl : y = (c, p, (s.acq c p).ticket) := by simpa using hy
      obtain ⟨hrank, rfl⟩ := (mem_entries hr).1 hmem
      have hown := ((hr.step hs).inv.ticket_of_owns (c := c) (p := p) (Or.inl hp')).2
      have hle := (hr.inv.glob c' q).le hrank
      rw [ht, hR] at hown
      exact hle.trans hown.ge

theorem mem_entryOrder (h : Reachable B s) {q : ℕ} :
    q ∈ entryOrder c s.log ↔ 13 ≤ (s.acq c q).rank := by
  simp only [entryOrder, List.mem_map, List.mem_filter, decide_eq_true_eq, Prod.exists]
  constructor
  · rintro ⟨_, _, t, ⟨hmem, rfl⟩, rfl⟩
    exact ((mem_entries h).1 hmem).1
  · intro hq
    exact ⟨c, q, _, ⟨(mem_entries h).2 ⟨hq, rfl⟩, rfl⟩, rfl⟩

/-- Inside a class, entries are in the order of the tail exchanges. -/
theorem entryOrder_eq_range (h : Reachable B s) (c : Side) :
    entryOrder c s.log = List.range (entryOrder c s.log).length := by
  induction h with
  | start => rfl
  | @step s s' hr hs ih =>
    rcases hs.entries_cases hr.recorded with hd | ⟨c', p, hp, hp', hd, -⟩
    · rwa [entryOrder, hd]
    · by_cases hc : c' = c
      · subst hc
        have hnew : entryOrder c' s'.log = entryOrder c' s.log ++ [p] := by
          simp [entryOrder, hd]
        -- the places that have entered are those before `p`
        have hmem : ∀ q, q < (entryOrder c' s.log).length ↔ 13 ≤ (s.acq c' q).rank := by
          intro q
          rw [← List.mem_range, ← ih, mem_entryOrder hr]
        have hlen : (entryOrder c' s.log).length = p := by
          have hnot : ¬ p < (entryOrder c' s.log).length := by
            rw [hmem]
            grind
          cases p with
          | zero => omega
          | succ p =>
            have hgone := (hr.step hs).inv.gone_of_lt (c := c') (Nat.lt_succ_self p) (by grind)
            have hrank : 13 ≤ (s.acq c' p).rank := by
              have hmem' := (mem_entries (hr.step hs) (c := c') (p := p)).2 ⟨by grind, rfl⟩
              rw [hd, List.mem_append] at hmem'
              rcases hmem' with hm | hm
              · exact ((mem_entries hr).1 hm).1
              · simp at hm
            have := (hmem p).2 hrank
            omega
        rw [hnew, ih, hlen, List.length_append, List.length_range]
        exact List.range_succ.symm
      · have hsame : entryOrder c s'.log = entryOrder c s.log := by
          simp [entryOrder, hd, hc]
        rw [hsame]
        exact ih

end Spec
end Farlock
