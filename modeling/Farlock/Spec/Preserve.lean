import Farlock.Spec.Invariant

/-!
# Every move keeps the invariant

`Refit` collects what a new version of one acquisition owes to its two neighbours and to itself;
there is one lemma for each move.  `Inv.replace` turns it into the invariant of the whole lock when
the ticket counters stay as they are.  The four moves that draw, serve or hand on a ticket or take a
new place are treated on their own.
-/

namespace Farlock

namespace Spec

open TwoParty Peterson

variable {H : Type} {B : Config}

/-- `a'` can stand between `pr` and `nx` in the queue of class `c`. -/
structure Refit (B : Config) (c : Side) (pr nx a' : Acq H) : Prop where
  left : Link B pr a'
  right : Link B a' nx
  own : Own B c a'

section Refit

variable {c : Side} {pr a nx : Acq H} (h : Refit B c pr nx a)
include h

theorem refit_link (hp : a.phase = .link) : Refit B c pr nx { a with phase := .look } := by
  obtain ⟨hl, hr, ho⟩ := h
  refine ⟨?_, ?_, ?_⟩ <;> constructor <;> grind -linarith [Link, Own]

theorem refit_look (hp : a.phase = .look) :
    Refit B c pr nx { a with phase := .mark, seen := decide pr.Published && !B.blind pr.ticket } := by
  obtain ⟨hl, hr, ho⟩ := h
  refine ⟨?_, ?_, ?_⟩ <;> constructor <;> grind -linarith [Link, Own]

theorem refit_mark (hp : a.phase = .mark) :
    Refit B c pr nx { a with phase := if a.seen then .ready else .wait } := by
  obtain ⟨hl, hr, ho⟩ := h
  refine ⟨?_, ?_, ?_⟩ <;> constructor <;> grind -linarith [Link, Own]

theorem refit_lead (hp : a.phase = .wait) (ht : pr.out = .told) :
    Refit B c pr nx { a with phase := .ready } := by
  obtain ⟨hl, hr, ho⟩ := h
  refine ⟨?_, ?_, ?_⟩ <;> constructor <;> grind -linarith [Link, Own]

theorem refit_join (hp : a.phase = .wait) (ht : a.has = true) :
    Refit B c pr nx { a with phase := .drawn } := by
  obtain ⟨hl, hr, ho⟩ := h
  refine ⟨?_, ?_, ?_⟩ <;> constructor <;> grind -linarith [Link, Own]

/-- The moves through the section change nothing for the neighbours. -/
theorem refit_section {ph : Phase} (h5 : 5 ≤ a.rank) (h8 : ph.rank ≤ 8) (h5' : 5 ≤ ph.rank)
    (h8' : a.rank ≤ 8) : Refit B c pr nx { a with phase := ph } := by
  obtain ⟨hl, hr, ho⟩ := h
  refine ⟨?_, ?_, ?_⟩ <;> constructor <;> grind -linarith [Link, Own]

theorem refit_draw {T : ℕ} (hp : a.phase = .passed)
    (ht : pr.has = true → pr.ticket < T) :
    Refit B c pr nx
      { a with phase := .drawn, has := true, lead := true, ticket := T, budget := B.budget c } := by
  obtain ⟨hl, hr, ho⟩ := h
  have hB := B.budget_pos c
  refine ⟨?_, ?_, ?_⟩ <;> constructor <;> grind -linarith [Link, Own]

theorem refit_offer (hp : a.phase = .drawn) (hn : nx.Linked) (hb : 1 < a.budget) :
    Refit B c pr nx { a with offered := true } := by
  obtain ⟨hl, hr, ho⟩ := h
  refine ⟨?_, ?_, ?_⟩ <;> constructor <;> grind -linarith [Link, Own]

theorem refit_lower (hp : a.phase = .drawn) (hoff : a.offered = false) :
    Refit B c pr nx { a with phase := .cleared } := by
  obtain ⟨hl, hr, ho⟩ := h
  refine ⟨?_, ?_, ?_⟩ <;> constructor <;> grind -linarith [Link, Own]

theorem refit_publish (hp : a.phase = .cleared) : Refit B c pr nx { a with phase := .notify } := by
  obtain ⟨hl, hr, ho⟩ := h
  refine ⟨?_, ?_, ?_⟩ <;> constructor <;> grind -linarith [Link, Own]

theorem refit_skip (hp : a.phase = .notify) (hn : ¬ nx.Linked) :
    Refit B c pr nx { a with phase := .queued } := by
  obtain ⟨hl, hr, ho⟩ := h
  refine ⟨?_, ?_, ?_⟩ <;> constructor <;> grind -linarith [Link, Own]

theorem refit_tell (hp : a.phase = .notify) (hn : nx.Linked) :
    Refit B c pr nx { a with phase := .queued, out := .told } := by
  obtain ⟨hl, hr, ho⟩ := h
  refine ⟨?_, ?_, ?_⟩ <;> constructor <;> grind -linarith [Link, Own]

theorem refit_enter (hp : a.phase = .queued) (hg : a.hasPrev = true → pr.phase = .gone) :
    Refit B c pr nx { a with phase := .critical } := by
  obtain ⟨hl, hr, ho⟩ := h
  refine ⟨?_, ?_, ?_⟩ <;> constructor <;> grind -linarith [Link, Own]

theorem refit_free (hp : a.phase = .critical) : Refit B c pr nx { a with phase := .freed } := by
  obtain ⟨hl, hr, ho⟩ := h
  refine ⟨?_, ?_, ?_⟩ <;> constructor <;> grind -linarith [Link, Own]

theorem refit_depart (hp : a.phase = .freed) (hn : Own B c nx)
    (hs : nx.phase = .absent ∨ nx.Marked) : Refit B c pr nx { a with phase := .gone } := by
  obtain ⟨hl, hr, ho⟩ := h
  refine ⟨?_, ?_, ?_⟩ <;> constructor <;> grind -linarith [Link, Own]

end Refit

/-- What the invariant says about the neighbourhood of one place. -/
theorem Inv.refit {s : State H} (h : Inv B s) (c : Side) (p : ℕ) :
    Refit B c (s.pred c p) (s.acq c (p + 1)) (s.acq c p) :=
  ⟨h.links c p, h.links c (p + 1), h.own c p⟩

/-- The new version `a'` of an acquisition carries the same ticket as `a`. -/
structure Quiet (a a' : Acq H) : Prop where
  has : a'.has = a.has
  ticket : a'.ticket = a.ticket
  out : a.out ≠ .handed → a'.out ≠ .handed
  present : a.phase ≠ .absent
  present' : a'.phase ≠ .absent

section Replace

variable {s s' : State H} {c : Side} {p : ℕ} {a' : Acq H}

theorem count_put (h : Inv B s) (hacq : s'.acq = (s.put c p a').acq)
    (harr : s'.arrived = s.arrived) (hq : Quiet (s.acq c p) a') (c' : Side) (q : ℕ) :
    q < s'.arrived c' ↔ (s'.acq c' q).phase ≠ .absent := by
  rw [hacq, harr, put_acq, h.count]
  split_ifs with hcq
  · obtain ⟨rfl, rfl⟩ := hcq
    exact iff_of_true hq.present hq.present'
  · rfl

theorem cross_put (h : Inv B s) (hacq : s'.acq = (s.put c p a').acq)
    (hq : Quiet (s.acq c p) a') (q r : ℕ) (hl : (s'.acq .loc q).has = true)
    (hr : (s'.acq .rem r).has = true) : (s'.acq .loc q).ticket ≠ (s'.acq .rem r).ticket := by
  have hsame : ∀ c' q, (s'.acq c' q).has = (s.acq c' q).has ∧
      (s'.acq c' q).ticket = (s.acq c' q).ticket := by
    intro c' q
    rw [hacq, put_acq]
    split_ifs with hcq
    · obtain ⟨rfl, rfl⟩ := hcq
      exact ⟨hq.has, hq.ticket⟩
    · exact ⟨rfl, rfl⟩
  rw [(hsame _ _).1] at hl hr
  rw [(hsame _ _).2, (hsame _ _).2]
  exact h.cross q r hl hr

/-- A ticket that is not done stays so while its carrier does not get past the release. -/
theorem live_put (h : Inv B s) (hacq : s'.acq = (s.put c p a').acq)
    (hq : Quiet (s.acq c p) a') (hlt : (s.acq c p).out ≠ .handed → (s.acq c p).rank < 14 →
      a'.rank < 14) {t : ℕ} (h2 : s.serving ≤ t) (h3 : t < s.issued) :
    ∃ c p, (s'.acq c p).has = true ∧ (s'.acq c p).ticket = t ∧ (s'.acq c p).out ≠ .handed ∧
      (s'.acq c p).rank < 14 := by
  obtain ⟨c', q, hhas, hticket, hout, hrank⟩ := h.live t h2 h3
  refine ⟨c', q, ?_⟩
  rw [hacq, put_acq]
  split_ifs with hcq
  · obtain ⟨rfl, rfl⟩ := hcq
    exact ⟨hq.has.trans hhas, hq.ticket.trans hticket, hq.out hout, hlt hout hrank⟩
  · exact ⟨hhas, hticket, hout, hrank⟩

/-- The invariant after a move that neither draws, serves nor hands on a ticket.  Such a move may
change the stage of its own class in the section if the mover is the one who contends for it. -/
theorem Inv.replace (h : Inv B s) (hacq : s'.acq = (s.put c p a').acq)
    (harr : s'.arrived = s.arrived) (hT : s'.issued = s.issued) (hR : s'.serving = s.serving)
    (hf : Refit B c (s.pred c p) (s.acq c (p + 1)) a') (hq : Quiet (s.acq c p) a')
    (hg : Glob (s'.pet.stage c) s.issued s.serving a') (hpet : Peterson.Inv s'.pet)
    (hother : ∀ c', c' ≠ c → s'.pet.stage c' = s.pet.stage c')
    (hstage : s'.pet.stage c = s.pet.stage c ∧ ((s.acq c p).Holds → a'.Holds) ∨
      (s.acq c p).Contends ∧ (s'.pet.stage c ≠ .idle → a'.Holds))
    (hlive : (s.acq c p).out ≠ .handed → (s.acq c p).rank < 14 → a'.rank < 14) : Inv B s' where
  links := links_put h.links hacq hf.left hf.right
  own := own_put h.own hacq hf.own
  serving_le := hT ▸ hR ▸ h.serving_le
  count := count_put h hacq harr hq
  cross := cross_put h hacq hq
  pet := hpet
  live t h1 h2 := live_put h hacq hq hlive (hR ▸ h1) (hT ▸ h2)
  glob c' q := by
    rw [hacq, put_acq, hT, hR]
    split_ifs with hcq
    · obtain ⟨rfl, rfl⟩ := hcq
      exact hg
    · have hold := h.glob c' q
      by_cases hc : c' = c
      · subst hc
        have hne : q ≠ p := fun e => hcq ⟨rfl, e⟩
        rcases hstage with ⟨hst, -⟩ | ⟨hcon, -⟩
        · exact hst ▸ hold
        · -- nobody else of this class depends on the stage
          have huniq : ¬ (s.acq c' q).Contends := fun hq' => hne (h.contends_unique hq' hcon)
          obtain ⟨-, -, -, g4, g5, g6, g7⟩ := hold
          constructor <;> grind -linarith
      · exact hother c' hc ▸ hold
  holder c' hst := by
    by_cases hc : c' = c
    · subst hc
      rcases hstage with ⟨heq, hkeep⟩ | ⟨-, hnew⟩
      · obtain ⟨q, hq'⟩ := h.holder c' (heq ▸ hst)
        refine ⟨q, ?_⟩
        rw [hacq, put_acq]
        split_ifs with hcq
        · exact hkeep (hcq.2 ▸ hq')
        · exact hq'
      · exact ⟨p, by rw [hacq, put_acq, if_pos ⟨rfl, rfl⟩]; exact hnew hst⟩
    · obtain ⟨q, hq'⟩ := h.holder c' (hother c' hc ▸ hst)
      exact ⟨q, by rw [hacq, put_acq, if_neg fun e => hc e.1]; exact hq'⟩

/-- The invariant after a move outside the section. -/
theorem Inv.replace_still (h : Inv B s) (hacq : s'.acq = (s.put c p a').acq)
    (harr : s'.arrived = s.arrived) (hT : s'.issued = s.issued) (hR : s'.serving = s.serving)
    (hpet : s'.pet = s.pet) (hf : Refit B c (s.pred c p) (s.acq c (p + 1)) a')
    (hq : Quiet (s.acq c p) a') (hg : Glob (s.pet.stage c) s.issued s.serving a')
    (hhold : (s.acq c p).Holds → a'.Holds)
    (hlive : (s.acq c p).out ≠ .handed → (s.acq c p).rank < 14 → a'.rank < 14) : Inv B s' :=
  h.replace hacq harr hT hR hf hq (hpet ▸ hg) (hpet ▸ h.pet) (fun _ _ => by rw [hpet])
    (Or.inl ⟨by rw [hpet], hhold⟩) hlive

end Replace

/-! ### The moves that draw, serve or hand on a ticket, and the new arrivals -/

section Special

variable {s : State H} {c : Side} {p : ℕ} {h : H}

/-- Whoever may enter carries a ticket that has come up: its own, or that of the batch it joined,
whose earlier members are gone. -/
theorem Inv.ticket_le_serving (hI : Inv B s) (hp : (s.acq c p).phase = .queued)
    (hg : (s.acq c p).hasPrev = true → (s.pred c p).phase = .gone)
    (ht : (s.acq c p).lead = true → (s.acq c p).ticket = s.serving) :
    (s.acq c p).ticket ≤ s.serving := by
  have hl := hI.links c p
  cases hlead : (s.acq c p).lead with
  | true => exact (ht hlead).le
  | false =>
    have hgone : (s.pred c p).phase = .gone := by
      cases hprev : (s.acq c p).hasPrev with
      | true => exact hg hprev
      | false => exact hl.first (by simp [hp]) hprev
    have hout := hl.joined ((hI.own c p).has (by grind)) hlead
    rw [(hl.handed hout).2.2.2.2.1]
    exact (hI.glob_pred c p).le (by grind)

theorem refit_newcomer {pr a nx : Acq H} (h : Refit B c pr nx a) (ha : a = {}) (hn : nx = {})
    (hpr : pr.phase ≠ .absent) (x : H) : Refit B c pr nx (newcomer pr x) := by
  obtain ⟨hl, hr, ho⟩ := h
  refine ⟨?_, ?_, ?_⟩ <;> constructor <;> grind -linarith [Link, Own, newcomer]

theorem Inv.arrive (hI : Inv B s) (c : Side) (h : H) : Inv B (s.arrive c h) := by
  have habs : ∀ q, s.arrived c ≤ q → s.acq c q = {} := fun q hq =>
    (hI.own c q).absent (by
      by_contra hne
      exact absurd ((hI.count c q).2 hne) (by omega))
  have hold := habs _ le_rfl
  have hpr : (s.pred c (s.arrived c)).phase ≠ .absent := by
    cases hn : s.arrived c with
    | zero => simp [State.pred, sentinel]
    | succ n => exact (hI.count c n).1 (by omega)
  have hf := refit_newcomer (hI.refit c _) hold (habs _ (by omega)) hpr h
  have hnew : ∀ c' q, (s.arrive c h).acq c' q =
      if c' = c ∧ q = s.arrived c then newcomer (s.pred c (s.arrived c)) h else s.acq c' q :=
    fun _ _ => rfl
  exact
    { links := links_put hI.links rfl hf.left hf.right
      own := own_put hI.own rfl hf.own
      pet := hI.pet
      serving_le := hI.serving_le
      glob := fun c' q => by
        have hg := hI.glob c' q
        rw [hnew]
        split_ifs with hcq
        · constructor <;> grind -linarith [newcomer]
        · exact hg
      count := fun c' q => by
        have hc := hI.count c' q
        rw [hnew]
        simp only [State.arrive, Function.update_apply]
        grind [newcomer]
      holder := fun c' hc => by
        obtain ⟨q, hq⟩ := hI.holder c' hc
        exact ⟨q, by rw [hnew]; grind⟩
      cross := fun q r hl hr => by
        have := hI.cross q r
        rw [hnew] at hl hr ⊢
        rw [hnew]
        grind [newcomer]
      live := fun t h1 h2 => by
        obtain ⟨c', q, h3⟩ := hI.live t h1 h2
        exact ⟨c', q, by rw [hnew]; grind⟩ }

theorem Inv.draw (hI : Inv B s) (hp : (s.acq c p).phase = .passed) :
    Inv B { s.put c p { s.acq c p with
          phase := .drawn, has := true, lead := true, ticket := s.issued, budget := B.budget c } with
        issued := s.issued + 1, log := s.log ++ [.draw c h s.issued] } := by
  have hst := (hI.glob c p).passed (Or.inl hp)
  have hf := refit_draw (hI.refit c p) hp (hI.glob_pred c p).lt
  have hle := hI.serving_le
  -- the mover had no ticket before, so it does not carry one that is still to be served
  have hnone : (s.acq c p).has = false := by
    by_contra hhas
    have := (hI.own c p).early (by simpa using hhas) (by grind)
    grind
  exact
    { links := links_put hI.links rfl hf.left hf.right
      own := own_put hI.own rfl hf.own
      pet := hI.pet
      serving_le := Nat.le_succ_of_le hle
      glob := fun c' q => by
        have := hI.glob c' q
        simp only [put_acq]
        split_ifs with hcq
        · constructor <;> grind -linarith
        · constructor <;> grind -linarith [Glob]
      count := fun c' q => by
        have := hI.count c' q
        simp only [put_acq]
        grind
      holder := fun c' hc => by
        obtain ⟨q, hq⟩ := hI.holder c' hc
        exact ⟨q, by simp only [put_acq]; grind⟩
      cross := fun q r hl hr => by
        have h1 := hI.cross q r
        have h2 := (hI.glob .loc q).lt
        have h3 := (hI.glob .rem r).lt
        simp only [put_acq] at hl hr ⊢
        grind
      live := fun t h1 h2 => by
        rcases Nat.lt_succ_iff_lt_or_eq.1 h2 with hlt | rfl
        · obtain ⟨c', q, h3⟩ := hI.live t h1 hlt
          exact ⟨c', q, by simp only [put_acq]; grind⟩
        · exact ⟨c, p, by simp only [put_acq]; grind [Own, hI.own c p]⟩ }

section Hand

variable {pr a b nx : Acq H} (hp : a.phase = .drawn) (hl : b.Linked) (hb : 1 < a.budget)
include hp hl hb

/-- The hand-over as seen from the giver. -/
theorem refit_giver (h : Refit B c pr b a) : Refit B c pr (b.taker a) a.giver := by
  obtain ⟨h0, h1, o0⟩ := h
  refine ⟨?_, ?_, ?_⟩ <;> constructor <;> grind -linarith [Link, Own, Acq.giver, Acq.taker]

/-- The hand-over as seen from the taker. -/
theorem refit_taker (h : Refit B c a nx b) (o0 : Own B c a) : Refit B c a.giver nx (b.taker a) := by
  obtain ⟨h1, h2, o1⟩ := h
  refine ⟨?_, ?_, ?_⟩ <;> constructor <;> grind -linarith [Link, Own, Acq.giver, Acq.taker]

end Hand

theorem Inv.hand (hI : Inv B s) (hp : (s.acq c p).phase = .drawn)
    (hoff : (s.acq c p).offered = true) : Inv B (s.hand c p h) := by
  have l1 : Link B (s.acq c p) (s.acq c (p + 1)) := hI.links c (p + 1)
  have o0 := hI.own c p
  have hl : (s.acq c (p + 1)).Linked := l1.offered hoff
  have hb : 1 < (s.acq c p).budget := by grind [Own]
  have hgiver := refit_giver hp hl hb (hI.refit c p)
  have htaker := refit_taker hp hl hb (hI.refit c (p + 1)) o0
  have g0 := hI.glob c p
  have hst := g0.passed (Or.inr (Or.inl hp))
  have hearly : (s.acq c (p + 1)).rank ≤ 4 ∧ (s.acq c (p + 1)).has = false ∧
      (s.acq c (p + 1)).out = .kept := by
    have o1 := hI.own c (p + 1)
    grind [Link, Own]
  have hnew : ∀ c' q, (s.hand c p h).acq c' q =
      if c' = c ∧ q = p + 1 then (s.acq c (p + 1)).taker (s.acq c p)
      else if c' = c ∧ q = p then (s.acq c p).giver else s.acq c' q := fun _ _ => rfl
  exact
    { links := fun c' q => by
        have hpred : (s.hand c p h).pred c' q =
            if c' = c ∧ q = p + 2 then (s.acq c (p + 1)).taker (s.acq c p)
            else if c' = c ∧ q = p + 1 then (s.acq c p).giver else s.pred c' q := by
          cases q with
          | zero => simp [State.pred]
          | succ q => simp [State.pred, hnew]
        have hold := hI.links c' q
        rw [hpred, hnew]
        by_cases hc : c' = c
        · subst hc
          rcases Nat.lt_trichotomy q (p + 1) with hlt | rfl | hgt
          · by_cases hqp : q = p
            · subst hqp
              simpa using hgiver.left
            · simpa [hqp, show q ≠ p + 1 by omega, show q ≠ p + 2 by omega] using hold
          · simpa using htaker.left
          · by_cases hqp : q = p + 2
            · subst hqp
              simpa using htaker.right
            · simpa [hqp, show q ≠ p + 1 by omega, show q ≠ p by omega] using hold
        · simpa [hc] using hold
      own := fun c' q => by
        rw [hnew]
        split_ifs with h1 h2
        · exact h1.1 ▸ htaker.own
        · exact h2.1 ▸ hgiver.own
        · exact hI.own c' q
      pet := hI.pet
      serving_le := hI.serving_le
      glob := fun c' q => by
        have hg := hI.glob c' q
        rw [hnew]
        change Glob (s.pet.stage c') s.issued s.serving _
        split_ifs with hcq hcq'
        · constructor <;> grind -linarith [Glob, Own, Acq.taker]
        · constructor <;> grind -linarith [Glob, Acq.giver]
        · exact hg
      count := fun c' q => by
        have hc := hI.count c' q
        rw [hnew]
        grind [State.hand, put_arrived, Acq.giver, Acq.taker]
      holder := fun c' hc => by
        obtain ⟨q, hq⟩ := hI.holder c' hc
        by_cases hcq : c' = c ∧ q = p
        · exact ⟨p + 1, by rw [hnew]; grind [Acq.taker]⟩
        · exact ⟨q, by rw [hnew]; grind [Acq.taker]⟩
      cross := fun q r hl hr => by
        have h1 := hI.cross q r
        have h2 := hI.cross p r
        have h3 := hI.cross q p
        rw [hnew] at hl hr ⊢
        rw [hnew]
        grind [Own, Acq.giver, Acq.taker]
      live := fun t h1 h2 => by
        obtain ⟨c', q, h3⟩ := hI.live t h1 h2
        by_cases hcq : c' = c ∧ q = p
        · exact ⟨c, p + 1, by rw [hnew]; grind [Own, Acq.taker]⟩
        · exact ⟨c', q, by rw [hnew]; grind⟩ }

theorem Inv.advance (hI : Inv B s) (hp : (s.acq c p).phase = .critical)
    (ho : (s.acq c p).out ≠ .handed) :
    Inv B { s.put c p { s.acq c p with phase := .freed } with
        serving := s.serving + 1, log := s.log ++ [.advance c h (s.serving + 1)] } := by
  have hf := refit_free (hI.refit c p) hp
  have hg := hI.glob c p
  have hhas := (hI.own c p).has (by grind)
  have htick : (s.acq c p).ticket = s.serving := by grind [Glob]
  -- everybody else with this ticket has been through
  have hdone : ∀ c' q, (s.acq c' q).has = true → (s.acq c' q).ticket = s.serving →
      ¬ (c' = c ∧ q = p) → 14 ≤ (s.acq c' q).rank := by
    intro c' q hq ht hne
    by_cases hc : c' = c
    · subst hc
      rcases lt_trichotomy q p with hlt | rfl | hgt
      · have hgone : (s.acq c' q).phase = .gone := hI.gone_of_lt (c := c') hlt (by grind)
        grind
      · exact absurd ⟨rfl, rfl⟩ hne
      · have := hI.ticket_lt_of_lt hgt hq ho
        omega
    · exfalso
      have h1 := hI.cross p q
      have h2 := hI.cross q p
      cases c <;> cases c' <;> simp_all
  exact
    { links := links_put hI.links rfl hf.left hf.right
      own := own_put hI.own rfl hf.own
      pet := hI.pet
      serving_le := Nat.succ_le_of_lt (htick ▸ hg.lt hhas)
      glob := fun c' q => by
        have h1 := hI.glob c' q
        have h2 := hdone c' q
        simp only [put_acq]
        split_ifs with hcq
        · constructor <;> grind -linarith [Glob]
        · constructor <;> grind -linarith [Glob]
      count := fun c' q => by
        have := hI.count c' q
        simp only [put_acq]
        grind
      holder := fun c' hc => by
        obtain ⟨q, hq⟩ := hI.holder c' hc
        exact ⟨q, by simp only [put_acq]; grind⟩
      cross := fun q r hl hr => by
        have h1 := hI.cross q r
        simp only [put_acq] at hl hr ⊢
        grind
      live := fun t h1 h2 => by
        obtain ⟨c', q, h3⟩ := hI.live t (by simp at h1; omega) h2
        exact ⟨c', q, by simp only [put_acq] at h1 ⊢; grind⟩ }

end Special

theorem inv_start : Inv B ({} : State H) where
  links c p := by
    cases p <;> constructor <;> simp [State.pred, sentinel, Acq.rank, Phase.rank]
  own c p := by constructor <;> simp [Acq.rank, Phase.rank]
  glob c p := by constructor <;> simp
  pet := Peterson.inv_initial
  serving_le := le_rfl
  count c p := by simp
  holder c h := by simp [Peterson.State.initial] at h
  cross p q h := by simp at h
  live t h1 h2 := by simp at h2

/-! ### The other moves -/

section Moves

variable {s : State H} {c : Side} {p : ℕ} (hI : Inv B s)
include hI

/-- The moves in front of the section: whoever was handed a ticket stays there. -/
theorem Inv.before {a' : Acq H} (h1 : 1 ≤ (s.acq c p).rank) (h4 : (s.acq c p).rank ≤ 4)
    (hf : Refit B c (s.pred c p) (s.acq c (p + 1)) a') (hhas : a'.has = (s.acq c p).has)
    (hticket : a'.ticket = (s.acq c p).ticket) (hout : a'.out = (s.acq c p).out)
    (h1' : 1 ≤ a'.rank) (h5' : a'.rank ≤ 5) (h4' : (s.acq c p).has = true → a'.rank ≤ 4) :
    Inv B (s.put c p a') := by
  have hg := hI.glob c p
  refine hI.replace_still rfl rfl rfl rfl rfl hf ⟨hhas, hticket, ?_, ?_, ?_⟩ ?_ ?_ ?_
  · rw [hout]
    exact id
  · intro habs
    rw [Acq.rank, habs] at h1
    exact absurd h1 (by decide)
  · intro habs
    rw [Acq.rank, habs] at h1'
    exact absurd h1' (by decide)
  · constructor <;> grind -linarith [Glob]
  · rintro (⟨h6, -⟩ | ⟨hh, -⟩)
    · omega
    · exact Or.inr ⟨hhas.trans hh, h4' hh⟩
  · intros
    omega

theorem Inv.link (hp : (s.acq c p).phase = .link) :
    Inv B (s.put c p { s.acq c p with phase := .look }) :=
  hI.before (by simp [Acq.rank, hp, Phase.rank]) (by simp [Acq.rank, hp, Phase.rank])
    (refit_link (hI.refit c p) hp) rfl rfl rfl (by simp [Acq.rank, Phase.rank])
    (by simp [Acq.rank, Phase.rank]) (by simp [Acq.rank, Phase.rank])

theorem Inv.look (hp : (s.acq c p).phase = .look) :
    Inv B (s.put c p { s.acq c p with
      phase := .mark
      seen := decide (s.pred c p).Published && !B.blind (s.pred c p).ticket }) :=
  hI.before (by simp [Acq.rank, hp, Phase.rank]) (by simp [Acq.rank, hp, Phase.rank])
    (refit_look (hI.refit c p) hp) rfl rfl rfl (by simp [Acq.rank, Phase.rank])
    (by simp [Acq.rank, Phase.rank]) (by simp [Acq.rank, Phase.rank])

/-- Whoever has seen the predecessor's ticket was not handed one. -/
theorem Inv.seen_not_has (hp : (s.acq c p).phase = .mark) (hseen : (s.acq c p).seen = true) :
    (s.acq c p).has = false := by
  by_contra hhas
  have hhas : (s.acq c p).has = true := by simpa using hhas
  have hlead := ((hI.own c p).early hhas (by grind)).2
  exact ((hI.links c p).seen hp hseen).2 ((hI.links c p).joined hhas hlead)

theorem Inv.mark (hp : (s.acq c p).phase = .mark) :
    Inv B (s.put c p { s.acq c p with
      phase := if (s.acq c p).seen then .ready else .wait }) := by
  have hno := hI.seen_not_has hp
  refine hI.before (by simp [Acq.rank, hp, Phase.rank]) (by simp [Acq.rank, hp, Phase.rank])
    (refit_mark (hI.refit c p) hp) rfl rfl rfl ?_ ?_ fun hhas => ?_
  case refine_3 =>
    cases hseen : (s.acq c p).seen with
    | true => simp [hno hseen] at hhas
    | false => simp [Acq.rank, Phase.rank]
  all_goals cases (s.acq c p).seen <;> simp [Acq.rank, Phase.rank]

theorem Inv.lead (hp : (s.acq c p).phase = .wait) (ht : (s.pred c p).out = .told) :
    Inv B (s.put c p { s.acq c p with phase := .ready }) := by
  have hno : (s.acq c p).has = false := by
    by_contra hhas
    have hhas : (s.acq c p).has = true := by simpa using hhas
    have hlead := ((hI.own c p).early hhas (by grind)).2
    simp [(hI.links c p).joined hhas hlead] at ht
  exact hI.before (by simp [Acq.rank, hp, Phase.rank]) (by simp [Acq.rank, hp, Phase.rank])
    (refit_lead (hI.refit c p) hp ht) rfl rfl rfl (by simp [Acq.rank, Phase.rank])
    (by simp [Acq.rank, Phase.rank]) (by simp [hno])

theorem Inv.join (hp : (s.acq c p).phase = .wait) (ht : (s.acq c p).has = true) :
    Inv B (s.put c p { s.acq c p with phase := .drawn }) := by
  have hg := hI.glob c p
  refine hI.replace_still rfl rfl rfl rfl rfl (refit_join (hI.refit c p) hp ht) ?_ ?_ ?_ ?_
  · constructor <;> grind -linarith
  · constructor <;> grind -linarith [Glob]
  · grind
  · grind

/-- The moves of the one who contends for the section. -/
theorem Inv.contend {s' : State H} {ph : Phase} (h5 : 5 ≤ (s.acq c p).rank)
    (h8 : (s.acq c p).rank ≤ 8) (h6 : 6 ≤ ph.rank) (h8' : ph.rank ≤ 8)
    (hacq : s'.acq = (s.put c p { s.acq c p with phase := ph }).acq)
    (harr : s'.arrived = s.arrived) (hT : s'.issued = s.issued) (hR : s'.serving = s.serving)
    (hpet : Peterson.Inv s'.pet) (hother : ∀ c', c' ≠ c → s'.pet.stage c' = s.pet.stage c')
    (hg : Glob (s'.pet.stage c) s.issued s.serving { s.acq c p with phase := ph }) :
    Inv B s' := by
  refine hI.replace hacq harr hT hR (refit_section (hI.refit c p) h5 h8' (by omega) h8) ?_ hg
    hpet hother (Or.inr ⟨?_, ?_⟩) ?_
  · constructor <;> grind -linarith
  · exact Or.inl ⟨h5, by omega⟩
  · exact fun _ => Or.inl ⟨h6, by simpa [Acq.rank] using h8'.trans (by decide)⟩
  · exact fun _ _ => by simpa [Acq.rank] using h8'.trans_lt (by decide)

theorem Inv.raise {l : List (Event H ℕ)} (hp : (s.acq c p).phase = .ready) :
    Inv B { s.put c p { s.acq c p with phase := .flagged } with
      pet := s.pet.raise c, log := l } := by
  have hg := hI.glob c p
  refine hI.contend (c := c) (p := p) (by grind) (by grind) (by decide) (by decide) rfl rfl rfl
    rfl hI.pet.raise (fun c' hc => by simp [hc]) ?_
  constructor <;> grind -linarith [Glob, raise_stage]

theorem Inv.request {l : List (Event H ℕ)} (hp : (s.acq c p).phase = .flagged) :
    Inv B { s.put c p { s.acq c p with phase := .waiting } with
      pet := s.pet.request c, log := l } := by
  have hg := hI.glob c p
  refine hI.contend (c := c) (p := p) (by grind) (by grind) (by decide) (by decide) rfl rfl rfl
    rfl hI.pet.request (fun c' hc => by simp [hc]) ?_
  constructor <;> grind -linarith [Glob, request_stage]

theorem Inv.pass (hp : (s.acq c p).phase = .waiting) (hc : s.pet.CanPass c) :
    Inv B { s.put c p { s.acq c p with phase := .passed } with pet := s.pet.pass c } := by
  have hg := hI.glob c p
  refine hI.contend (c := c) (p := p) (by grind) (by grind) (by decide) (by decide) rfl rfl rfl
    rfl (hI.pet.pass (hg.waiting hp) hc) (fun c' hc => by simp [hc]) ?_
  constructor <;> grind -linarith [Glob, pass_stage]

theorem Inv.offer (hp : (s.acq c p).phase = .drawn) (hl : (s.acq c (p + 1)).Linked)
    (hb : 1 < (s.acq c p).budget) : Inv B (s.put c p { s.acq c p with offered := true }) := by
  have hg := hI.glob c p
  refine hI.replace_still rfl rfl rfl rfl rfl (refit_offer (hI.refit c p) hp hl hb) ?_ ?_ ?_ ?_
  · constructor <;> grind -linarith
  · constructor <;> grind -linarith [Glob]
  · grind
  · grind

theorem Inv.lower {l : List (Event H ℕ)} (hp : (s.acq c p).phase = .drawn)
    (ho : (s.acq c p).offered = false) :
    Inv B { s.put c p { s.acq c p with phase := .cleared } with
      pet := s.pet.lower c, log := l } := by
  have hg := hI.glob c p
  refine hI.replace rfl rfl rfl rfl (refit_lower (hI.refit c p) hp ho) ?_ ?_ hI.pet.lower
    (fun c' hc => by simp [hc]) (Or.inr ⟨by grind, by simp⟩) ?_
  · constructor <;> grind -linarith
  · constructor <;> grind -linarith [Glob, lower_stage]
  · grind

/-- The moves after the section is left. -/
theorem Inv.after {s' : State H} {a' : Acq H} (h10 : 10 ≤ (s.acq c p).rank)
    (hacq : s'.acq = (s.put c p a').acq) (harr : s'.arrived = s.arrived)
    (hT : s'.issued = s.issued) (hR : s'.serving = s.serving) (hpet : s'.pet = s.pet)
    (hf : Refit B c (s.pred c p) (s.acq c (p + 1)) a') (hhas : a'.has = (s.acq c p).has)
    (hticket : a'.ticket = (s.acq c p).ticket)
    (hout : a'.out = .handed ↔ (s.acq c p).out = .handed)
    (hle : (s.acq c p).rank ≤ a'.rank) (h13 : 13 ≤ a'.rank → (s.acq c p).ticket ≤ s.serving)
    (h14 : 14 ≤ a'.rank → 14 ≤ (s.acq c p).rank ∨ (s.acq c p).out = .handed) : Inv B s' := by
  obtain ⟨-, -, -, hlt, -, hdone, hfreed⟩ := hI.glob c p
  have hlive : (s.acq c p).out ≠ .handed → (s.acq c p).rank < 14 → a'.rank < 14 := by
    intro ho hr
    by_contra hge
    rcases h14 (by omega) with h | h
    · omega
    · exact ho h
  refine hI.replace_still hacq harr hT hR hpet hf ?_ ?_ ?_ hlive
  · constructor <;> grind -linarith
  · constructor
    · grind
    · grind
    · grind
    · rw [hhas, hticket]
      exact hlt
    · rw [hticket]
      exact h13
    · rw [hhas, hticket]
      exact fun hh ht => (hdone hh ht).trans hle
    · rw [hhas, hticket]
      intro hh hr ho
      have ho' : (s.acq c p).out ≠ .handed := fun h => ho (hout.2 h)
      exact hfreed hh ((h14 hr).resolve_right ho') ho'
  · intro hh
    omega

theorem Inv.publish (hp : (s.acq c p).phase = .cleared) :
    Inv B (s.put c p { s.acq c p with phase := .notify }) :=
  hI.after (by grind) rfl rfl rfl rfl rfl (refit_publish (hI.refit c p) hp) rfl rfl Iff.rfl
    (by grind) (by simp [Acq.rank, Phase.rank]) (by simp [Acq.rank, Phase.rank])

theorem Inv.skip (hp : (s.acq c p).phase = .notify) (hl : ¬ (s.acq c (p + 1)).Linked) :
    Inv B (s.put c p { s.acq c p with phase := .queued }) :=
  hI.after (by grind) rfl rfl rfl rfl rfl (refit_skip (hI.refit c p) hp hl) rfl rfl Iff.rfl
    (by grind) (by simp [Acq.rank, Phase.rank]) (by simp [Acq.rank, Phase.rank])

theorem Inv.tell (hp : (s.acq c p).phase = .notify) (hl : (s.acq c (p + 1)).Linked) :
    Inv B (s.put c p { s.acq c p with phase := .queued, out := .told }) := by
  -- nobody hands its ticket on before it is through
  have hout : (s.acq c p).out ≠ .handed := fun ho => by
    have := (hI.own c p).out (by simp [ho])
    grind
  exact hI.after (by grind) rfl rfl rfl rfl rfl (refit_tell (hI.refit c p) hp hl) rfl rfl
    (by simp [hout]) (by grind) (by simp [Acq.rank, Phase.rank])
    (by simp [Acq.rank, Phase.rank])

theorem Inv.enter {l : List (Event H ℕ)} (hp : (s.acq c p).phase = .queued)
    (hg : (s.acq c p).hasPrev = true → (s.pred c p).phase = .gone)
    (ht : (s.acq c p).lead = true → (s.acq c p).ticket = s.serving) :
    Inv B { s.put c p { s.acq c p with phase := .critical } with log := l } :=
  hI.after (by grind) rfl rfl rfl rfl rfl (refit_enter (hI.refit c p) hp hg) rfl rfl Iff.rfl
    (by grind) (fun _ => hI.ticket_le_serving hp hg ht) (by simp [Acq.rank, Phase.rank])

theorem Inv.retire (hp : (s.acq c p).phase = .critical) (ho : (s.acq c p).out = .handed) :
    Inv B (s.put c p { s.acq c p with phase := .freed }) :=
  hI.after (by grind) rfl rfl rfl rfl rfl (refit_free (hI.refit c p) hp) rfl rfl Iff.rfl
    (by grind) (fun _ => (hI.glob c p).le (by grind)) (fun _ => Or.inr ho)

theorem Inv.depart {l : List (Event H ℕ)} (hp : (s.acq c p).phase = .freed)
    (hs : (s.acq c (p + 1)).phase = .absent ∨ (s.acq c (p + 1)).Marked) :
    Inv B { s.put c p { s.acq c p with phase := .gone } with log := l } :=
  hI.after (by grind) rfl rfl rfl rfl rfl (refit_depart (hI.refit c p) hp (hI.own c (p + 1)) hs)
    rfl rfl Iff.rfl (by grind) (fun _ => (hI.glob c p).le (by grind)) (fun _ => Or.inl (by grind))

end Moves

/-- Every move keeps the invariant. -/
theorem Inv.step {s s' : State H} (h : Inv B s) (hs : Step B s s') : Inv B s' := by
  cases hs with
  | arrive c x _ => exact h.arrive c x
  | link hp => exact h.link hp
  | look hp => exact h.look hp
  | mark hp => exact h.mark hp
  | lead hp ht => exact h.lead hp ht
  | join hp ht => exact h.join hp ht
  | raise hp _ => exact h.raise hp
  | request hp _ => exact h.request hp
  | pass hp hc => exact h.pass hp hc
  | draw hp _ => exact h.draw hp
  | offer hp hl hb => exact h.offer hp hl hb
  | hand hp _ ho => exact h.hand hp ho
  | lower hp _ ho => exact h.lower hp ho
  | publish hp => exact h.publish hp
  | skip hp hl => exact h.skip hp hl
  | tell hp hl => exact h.tell hp hl
  | enter hp _ hg ht => exact h.enter hp hg ht
  | advance hp _ ho => exact h.advance hp ho
  | retire hp ho => exact h.retire hp ho
  | depart hp _ hs => exact h.depart hp hs

theorem Reachable.inv {s : State H} (h : Reachable B s) : Inv B s := by
  induction h with
  | start => exact inv_start
  | step _ hs ih => exact ih.step hs

end Spec
end Farlock
