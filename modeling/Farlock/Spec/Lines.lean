import Farlock.Spec.Batches
import Farlock.Spec.Progress

/-!
# The abstract lock from outside: two lines and a row of tickets

With budget one for both classes, all that an onlooker can tell of a lock is the following.  There
is a line for each class; a tail exchange puts a handler at the end of the line of its class, and a
draw takes the first of one of the two lines and puts it, with the next ticket, at the end of the
row of those that hold a ticket.  The first of the row enters the critical section and leaves the
row when it advances the current ticket.

* `Event.Visible`: the events that are seen;
* `Lines`, `Lines.next`: the lines and the row, and what an event does to them;
* `Mirrors.step`, `Reachable.lines`: the abstract lock keeps to it.
-/

namespace Farlock

variable {H W : Type}

/-- Tail exchanges, draws, entries and updates of the current ticket. -/
def Event.Visible : Event H W → Bool
  | .arrive .. | .draw .. | .enter .. | .advance .. => true
  | _ => false

/-- Two lines and a row. -/
structure Lines (H : Type) where
  /-- the handlers of a class that have not drawn a ticket yet -/
  waiting : Side → List H := fun _ => []
  /-- the handlers that hold the tickets from `serving` on -/
  holding : List H := []
  /-- the first of them has entered -/
  inside : Bool := false
  serving : ℕ := 0

namespace Lines

/-- A handler stands in a line or in the row. -/
def Has (q : Lines H) (h : H) : Prop := (∃ c, h ∈ q.waiting c) ∨ h ∈ q.holding

variable [DecidableEq H] [DecidableEq W] (num : ℕ → W)

/-- What an event does; `num` says how ticket numbers are written. -/
def next (q : Lines H) : Event H W → Option (Lines H)
  | .arrive c h => some { q with waiting := Function.update q.waiting c (q.waiting c ++ [h]) }
  | .draw c h t =>
      if (q.waiting c).head? = some h ∧ t = num (q.serving + q.holding.length) then
        some { q with
          waiting := Function.update q.waiting c (q.waiting c).tail
          holding := q.holding ++ [h] }
      else none
  | .enter _ h t =>
      if q.holding.head? = some h ∧ q.inside = false ∧ t = num q.serving then
        some { q with inside := true }
      else none
  | .advance _ h t =>
      if q.holding.head? = some h ∧ q.inside = true ∧ t = num (q.serving + 1) then
        some { q with holding := q.holding.tail, inside := false, serving := q.serving + 1 }
      else none
  | _ => some q

/-- The lines after a list of events. -/
def run (L : List (Event H W)) : Option (Lines H) := L.foldlM (next num) {}

theorem run_append (L L' : List (Event H W)) :
    run num (L ++ L') = (run num L).bind fun q => L'.foldlM (next num) q :=
  List.foldlM_append

theorem run_snoc {L : List (Event H W)} {q : Lines H} (hq : run num L = some q) (e : Event H W) :
    run num (L ++ [e]) = q.next num e := by
  rw [run_append, hq, Option.bind_some, List.foldlM_cons]
  simp

theorem next_of_not_visible {e : Event H W} (he : e.Visible = false) (q : Lines H) :
    q.next num e = some q := by
  cases e <;> first | rfl | exact absurd he (by simp [Event.Visible])

end Lines

namespace Spec

open TwoParty

variable {B : Config} {s s' : State H} {c : Side} {p : ℕ} {q : Lines H} {a' : Acq H} {h : H}

/-- The acquisition has drawn its ticket and not served it. -/
abbrev Acq.Holding (a : Acq H) : Prop := 9 ≤ a.rank ∧ a.rank ≤ 13

/-- The lines and the row of a state. -/
structure Mirrors (s : State H) (q : Lines H) : Prop where
  serving : q.serving = s.serving
  issued : s.issued = s.serving + q.holding.length
  waiting : ∀ c, ∃ d, (∀ p, p < d ↔ 9 ≤ (s.acq c p).rank) ∧
    ∀ i, (q.waiting c)[i]? = (s.acq c (d + i)).who
  holding : ∀ i h, q.holding[i]? = some h ↔ ∃ c p, (s.acq c p).Holding ∧
    (s.acq c p).ticket = s.serving + i ∧ (s.acq c p).who = some h
  inside : q.inside = true ↔ ∃ c p, (s.acq c p).phase = .critical

theorem mirrors_start : Mirrors ({} : State H) {} where
  serving := rfl
  issued := rfl
  waiting _ := ⟨0, fun _ => by simp [Acq.rank, Phase.rank], fun _ => rfl⟩
  holding i h := by simp
  inside := by simp

/-- The acquisition `a'` stands in the same line as `a`, or holds the same ticket. -/
structure Alike (a a' : Acq H) : Prop where
  who : a'.who = a.who
  ticket : a'.ticket = a.ticket
  drawn : 9 ≤ a'.rank ↔ 9 ≤ a.rank
  held : a'.rank ≤ 13 ↔ a.rank ≤ 13

theorem alike_of_rank {a a' : Acq H} (hwho : a'.who = a.who) (hticket : a'.ticket = a.ticket)
    (hrank : a.rank ≤ 8 ∧ a'.rank ≤ 8 ∨ (9 ≤ a.rank ∧ a.rank ≤ 13) ∧ 9 ≤ a'.rank ∧ a'.rank ≤ 13 ∨
      14 ≤ a.rank ∧ 14 ≤ a'.rank) : Alike a a' :=
  ⟨hwho, hticket, by omega, by omega⟩

/-- A move that leaves everybody where it is in the lines and in the row. -/
theorem Mirrors.put (hM : Mirrors s q) (hacq : s'.acq = (s.put c p a').acq)
    (hT : s'.issued = s.issued) (hR : s'.serving = s.serving) (ha : Alike (s.acq c p) a') {b : Bool}
    (hb : b = true ↔ ∃ c p, (s'.acq c p).phase = .critical) :
    Mirrors s' { q with inside := b } := by
  -- nothing that is asked of an acquisition has changed
  have key : ∀ c' r, (s'.acq c' r).who = (s.acq c' r).who ∧
      (s'.acq c' r).ticket = (s.acq c' r).ticket ∧
      (9 ≤ (s'.acq c' r).rank ↔ 9 ≤ (s.acq c' r).rank) ∧
      ((s'.acq c' r).rank ≤ 13 ↔ (s.acq c' r).rank ≤ 13) := by
    intro c' r
    rw [hacq, put_acq]
    split_ifs with hc
    · obtain ⟨rfl, rfl⟩ := hc
      exact ⟨ha.who, ha.ticket, ha.drawn, ha.held⟩
    · exact ⟨rfl, rfl, Iff.rfl, Iff.rfl⟩
  refine ⟨hM.serving.trans hR.symm, by rw [hT, hR, hM.issued], fun c' => ?_, fun i h => ?_, hb⟩
  · obtain ⟨d, hd, hw⟩ := hM.waiting c'
    refine ⟨d, fun r => ?_, fun i => ?_⟩
    · rw [hd, (key c' r).2.2.1]
    · rw [hw, (key c' _).1]
  · rw [hM.holding, hR]
    refine exists_congr fun c' => exists_congr fun r => ?_
    obtain ⟨k1, k2, k3, k4⟩ := key c' r
    rw [Acq.Holding, Acq.Holding, k1, k2, k3, k4]

/-- A move that nobody sees. -/
theorem Mirrors.silent (hM : Mirrors s q) (hacq : s'.acq = (s.put c p a').acq)
    (hT : s'.issued = s.issued) (hR : s'.serving = s.serving) (ha : Alike (s.acq c p) a')
    (hcrit : a'.phase = .critical ↔ (s.acq c p).phase = .critical) : Mirrors s' q := by
  refine hM.put hacq hT hR ha ?_
  rw [hM.inside]
  refine exists_congr fun c' => exists_congr fun r => ?_
  rw [hacq, put_acq]
  split_ifs with hc
  · rw [hcrit, hc.1, hc.2]
  · rfl

/-- The first of a line: everybody in front of it has drawn. -/
theorem Mirrors.first_waiting (hM : Mirrors s q) (hh : (q.waiting c).head? = some h) :
    ∃ p, (s.acq c p).who = some h ∧ (s.acq c p).rank ≤ 8 ∧ ∀ r < p, 9 ≤ (s.acq c r).rank := by
  obtain ⟨d, hd, hw⟩ := hM.waiting c
  refine ⟨d, ?_, ?_, fun r hr => (hd r).1 hr⟩
  · rw [← hh, List.head?_eq_getElem?, hw, Nat.add_zero]
  · by_contra hlt
    exact lt_irrefl d ((hd d).2 (by omega))

/-- The first of the row has the ticket that is being served. -/
theorem Mirrors.first_holding (hM : Mirrors s q) (hh : q.holding.head? = some h) :
    ∃ c p, (s.acq c p).who = some h ∧ (s.acq c p).Holding ∧ (s.acq c p).ticket = s.serving := by
  rw [List.head?_eq_getElem?, hM.holding] at hh
  obtain ⟨c, p, hhold, ht, hw⟩ := hh
  exact ⟨c, p, hw, hhold, ht⟩

/-- Who stands somewhere. -/
theorem Mirrors.has_iff (hM : Mirrors s q) (hI : Inv B s) :
    q.Has h ↔ ∃ c p, (s.acq c p).who = some h ∧ (s.acq c p).rank ≤ 13 := by
  constructor
  · rintro (⟨c, hc⟩ | hh)
    · obtain ⟨d, hd, hw⟩ := hM.waiting c
      obtain ⟨i, hi⟩ := List.mem_iff_getElem?.1 hc
      refine ⟨c, d + i, by rw [← hw, hi], ?_⟩
      by_contra hlt
      have := (hd (d + i)).2 (by omega)
      omega
    · obtain ⟨i, hi⟩ := List.mem_iff_getElem?.1 hh
      obtain ⟨c, p, hhold, -, hw⟩ := (hM.holding i h).1 hi
      exact ⟨c, p, hw, hhold.2⟩
  · rintro ⟨c, p, hw, h13⟩
    by_cases h9 : 9 ≤ (s.acq c p).rank
    · right
      have hhas := (hI.own c p).has h9
      have hle : s.serving ≤ (s.acq c p).ticket := by
        by_contra hlt
        have := (hI.glob c p).done hhas (by omega)
        omega
      apply List.mem_iff_getElem?.2
      exact ⟨(s.acq c p).ticket - s.serving, (hM.holding _ h).2 ⟨c, p, ⟨h9, h13⟩, by omega, hw⟩⟩
    · left
      obtain ⟨d, hd, hline⟩ := hM.waiting c
      have hdp : d ≤ p := by
        by_contra hlt
        exact h9 ((hd p).1 (by omega))
      refine ⟨c, List.mem_iff_getElem?.2 ⟨p - d, ?_⟩⟩
      rw [hline, Nat.add_sub_cancel' hdp, hw]

/-! ### Who holds which ticket -/

section One

variable (hI : Inv B s) (hB : ∀ c, B.budget c = 1)
include hI hB

/-- Every acquisition has its own ticket. -/
theorem Inv.ticket_inj {c' : Side} {r : ℕ} (hp : (s.acq c p).has = true)
    (hr : (s.acq c' r).has = true) (ht : (s.acq c p).ticket = (s.acq c' r).ticket) :
    c = c' ∧ p = r := by
  have key : ∀ {c : Side} {p r : ℕ}, p < r → (s.acq c r).has = true →
      (s.acq c p).ticket ≠ (s.acq c r).ticket := fun hlt hr =>
    (hI.ticket_lt_of_lt hlt hr (hI.out_ne_handed (hB _))).ne
  cases c <;> cases c'
  case loc.rem => exact absurd ht (hI.cross p r hp hr)
  case rem.loc => exact absurd ht.symm (hI.cross r p hr hp)
  all_goals
    refine ⟨rfl, ?_⟩
    rcases lt_trichotomy p r with hlt | heq | hgt
    · exact absurd ht (key hlt hr)
    · exact heq
    · exact absurd ht.symm (key hgt hp)


end One

/-- A line ends with the latest arrival. -/
theorem Inv.length_waiting (hI : Inv B s) (c : Side) {d : ℕ}
    (hd : ∀ p, p < d ↔ 9 ≤ (s.acq c p).rank)
    (hw : ∀ i, (q.waiting c)[i]? = (s.acq c (d + i)).who) :
    d + (q.waiting c).length = s.arrived c := by
  have hnone : (s.acq c (s.arrived c)).phase = .absent := by
    by_contra hne
    exact lt_irrefl _ ((hI.count c _).2 hne)
  have habs := (hI.own c (s.arrived c)).absent hnone
  apply le_antisymm
  · by_contra hlt
    rcases Nat.lt_or_ge (s.arrived c) d with hd' | hd'
    · have := (hd _).1 hd'
      rw [habs] at this
      simp [Acq.rank, Phase.rank] at this
    · have hi : s.arrived c - d < (q.waiting c).length := by omega
      have hget := hw (s.arrived c - d)
      rw [List.getElem?_eq_getElem hi, Nat.add_sub_cancel' hd', habs] at hget
      cases hget
  · by_contra hlt
    have hget := hw (q.waiting c).length
    rw [List.getElem?_eq_none le_rfl] at hget
    exact (hI.own c _).who ((hI.count c _).1 (by omega)) hget.symm

/-- A tail exchange. -/
theorem Mirrors.arrive (hM : Mirrors s q) (hI : Inv B s) (c : Side) (h : H) :
    Mirrors (s.arrive c h)
      { q with waiting := Function.update q.waiting c (q.waiting c ++ [h]) } := by
  have hnone : (s.acq c (s.arrived c)).phase = .absent := by
    by_contra hne
    exact lt_irrefl _ ((hI.count c _).2 hne)
  have habs := (hI.own c (s.arrived c)).absent hnone
  have hnew : (newcomer (s.pred c (s.arrived c)) h).rank ≤ 5 := by
    simp only [newcomer, Acq.rank]
    split <;> simp [Phase.rank]
  have hacq : ∀ c' r, (s.arrive c h).acq c' r = if c' = c ∧ r = s.arrived c then
      newcomer (s.pred c (s.arrived c)) h else s.acq c' r := fun c' r => rfl
  refine ⟨hM.serving, hM.issued, fun c' => ?_, fun i g => ?_, ?_⟩
  · obtain ⟨d, hd, hw⟩ := hM.waiting c'
    refine ⟨d, fun r => ?_, fun i => ?_⟩
    · rw [hd, hacq]
      split_ifs with hc
      · obtain ⟨rfl, rfl⟩ := hc
        rw [habs]
        exact iff_of_false (by simp [Acq.rank, Phase.rank]) (by omega)
      · rfl
    · by_cases hc : c' = c
      · subst hc
        have hlen := hI.length_waiting c' hd hw
        dsimp only
        rw [Function.update_self, hacq]
        rcases lt_trichotomy i (q.waiting c').length with hi | hi | hi
        · rw [List.getElem?_append_left hi, if_neg (by omega), hw]
        · rw [hi, List.getElem?_concat_length, if_pos ⟨rfl, hlen⟩]
          rfl
        · rw [List.getElem?_eq_none (by simpa using hi), if_neg (by omega), ← hw,
            List.getElem?_eq_none hi.le]
      · dsimp only
        rw [Function.update_of_ne hc, hacq, if_neg fun e => hc e.1, hw]
  · rw [hM.holding]
    refine exists_congr fun c' => exists_congr fun r => ?_
    rw [hacq]
    split_ifs with hc
    · obtain ⟨rfl, rfl⟩ := hc
      rw [habs]
      refine iff_of_false (fun hh => ?_) fun hh => ?_
      · simp [Acq.Holding, Acq.rank, Phase.rank] at hh
      · have := hh.1.1
        omega
    · rfl
  · rw [hM.inside]
    refine exists_congr fun c' => exists_congr fun r => ?_
    rw [hacq]
    split_ifs with hc
    · obtain ⟨rfl, rfl⟩ := hc
      rw [habs]
      refine iff_of_false (by simp) fun hh => ?_
      rw [Acq.rank, hh] at hnew
      simp [Phase.rank] at hnew
    · rfl

section Tickets

variable [DecidableEq H] {W : Type} [DecidableEq W] (num : ℕ → W) (hM : Mirrors s q) (hI : Inv B s)
  (hB : ∀ c, B.budget c = 1)
include hM hI

/-- A draw. -/
theorem Mirrors.draw (hp : (s.acq c p).phase = .passed) (hw : (s.acq c p).who = some h)
    (hacq : s'.acq = (s.put c p a').acq) (hT : s'.issued = s.issued + 1)
    (hR : s'.serving = s.serving) (hwho : a'.who = some h) (hticket : a'.ticket = s.issued)
    (hphase : a'.phase = .drawn) :
    ∃ q', q.next num (.draw c h (num s.issued)) = some q' ∧ Mirrors s' q' := by
  obtain ⟨d, hd, hline⟩ := hM.waiting c
  -- everybody in front has drawn, so the place is the first of the line
  obtain rfl : d = p := by
    apply le_antisymm
    · by_contra hlt
      have := (hd p).1 (by omega)
      grind
    · by_contra hlt
      have := hI.admitted_of_lt (c := c) (p := d) (q := p) (by omega) (Or.inl (by grind))
      have := (hd d).2 (by omega)
      omega
  have hhead : (q.waiting c).head? = some h := by
    rw [List.head?_eq_getElem?, hline 0, Nat.add_zero, hw]
  have hacq' : ∀ c' r, s'.acq c' r = if c' = c ∧ r = d then a' else s.acq c' r := fun c' r => by
    rw [hacq, put_acq]
  have h9 : a'.rank = 9 := by rw [Acq.rank, hphase]; rfl
  have hold : ∀ c' r, (s.acq c' r).Holding → (s.acq c' r).ticket < s.serving + q.holding.length :=
    fun c' r hh => hM.issued ▸ (hI.glob c' r).lt ((hI.own c' r).has hh.1)
  have hnext : num s.issued = num (q.serving + q.holding.length) := by rw [hM.issued, hM.serving]
  refine ⟨_, if_pos ⟨hhead, hnext⟩, hM.serving.trans hR.symm, ?_, fun c' => ?_, fun i g => ?_, ?_⟩
  · dsimp only
    rw [hT, hR, hM.issued, List.length_append, List.length_singleton, Nat.add_assoc]
  · by_cases hc : c' = c
    · subst hc
      refine ⟨d + 1, fun r => ?_, fun i => ?_⟩
      · rw [hacq']
        split_ifs with hr
        · rw [h9, hr.2]
          simp
        · rw [← hd]
          have : r ≠ d := fun e => hr ⟨rfl, e⟩
          omega
      · dsimp only
        rw [Function.update_self, hacq', if_neg (by omega), List.getElem?_tail, hline,
          Nat.add_right_comm, Nat.add_assoc]
    · obtain ⟨d', hd', hline'⟩ := hM.waiting c'
      refine ⟨d', fun r => ?_, fun i => ?_⟩
      · rw [hd', hacq', if_neg fun e => hc e.1]
      · dsimp only
        rw [Function.update_of_ne hc, hacq', if_neg fun e => hc e.1, hline']
  · dsimp only
    rcases Nat.lt_or_ge i q.holding.length with hi | hi
    · rw [List.getElem?_append_left hi, hM.holding, hR]
      refine exists_congr fun c' => exists_congr fun r => ?_
      rw [hacq']
      split_ifs with hc
      · obtain ⟨rfl, rfl⟩ := hc
        refine iff_of_false (fun hh => ?_) fun hh => ?_
        · have := hh.1.1
          grind
        · rw [hticket, hM.issued] at hh
          omega
      · rfl
    · -- only the new one has a ticket as high as that
      have hother : ∀ c' r, (s'.acq c' r).Holding → (s'.acq c' r).ticket = s.serving + i →
          c' = c ∧ r = d := by
        intro c' r hh ht
        rw [hacq'] at hh ht
        by_contra hc
        rw [if_neg hc] at hh ht
        have := hold c' r hh
        omega
      rcases Nat.eq_or_lt_of_le hi with rfl | hi
      · rw [List.getElem?_concat_length, hR]
        constructor
        · intro hg
          refine ⟨c, d, ?_⟩
          rw [hacq', if_pos ⟨rfl, rfl⟩]
          exact ⟨by rw [Acq.Holding, h9]; omega, by rw [hticket, hM.issued], hwho.trans hg⟩
        · rintro ⟨c', r, hh, ht, hg⟩
          obtain ⟨rfl, rfl⟩ := hother c' r hh ht
          rwa [hacq', if_pos ⟨rfl, rfl⟩, hwho] at hg
      · rw [List.getElem?_eq_none (by simpa using hi), hR]
        refine iff_of_false (by simp) ?_
        rintro ⟨c', r, hh, ht, -⟩
        obtain ⟨rfl, rfl⟩ := hother c' r hh ht
        rw [hacq', if_pos ⟨rfl, rfl⟩, hticket, hM.issued] at ht
        omega
  · rw [hM.inside]
    refine exists_congr fun c' => exists_congr fun r => ?_
    rw [hacq']
    split_ifs with hc
    · rw [hc.1, hc.2, hphase, hp]
      simp
    · rfl


/-- An update of the current ticket. -/
theorem Mirrors.advance (hp : (s.acq c p).phase = .critical) (hw : (s.acq c p).who = some h)
    (hacq : s'.acq = (s.put c p { s.acq c p with phase := .freed }).acq)
    (hT : s'.issued = s.issued) (hR : s'.serving = s.serving + 1) :
    ∃ q', q.next num (.advance c h (num (s.serving + 1))) = some q' ∧ Mirrors s' q' := by
  have hrank : (s.acq c p).rank = 13 := by rw [Acq.rank, hp]; rfl
  obtain ⟨hhas, hserve⟩ := hI.ticket_of_owns (c := c) (p := p) (Or.inl hp)
  have hhead : q.holding.head? = some h := by
    rw [List.head?_eq_getElem?, hM.holding]
    exact ⟨c, p, by omega, hserve, hw⟩
  have hin : q.inside = true := hM.inside.2 ⟨c, p, hp⟩
  have hacq' : ∀ c' r, s'.acq c' r =
      if c' = c ∧ r = p then { s.acq c p with phase := .freed } else s.acq c' r := fun c' r => by
    rw [hacq, put_acq]
  obtain ⟨rest, hrest⟩ := List.head?_eq_some_iff.1 hhead
  refine ⟨_, if_pos ⟨hhead, hin, by rw [hM.serving]⟩, by rw [hR, hM.serving], ?_, fun c' => ?_,
    fun i g => ?_, ?_⟩
  · dsimp only
    rw [hT, hR, hM.issued, hrest, List.tail_cons, List.length_cons]
    omega
  · obtain ⟨d, hd, hline⟩ := hM.waiting c'
    refine ⟨d, fun r => ?_, fun i => ?_⟩
    · rw [hd, hacq']
      split_ifs with hc
      · rw [hc.1, hc.2, hrank]
        simp [Acq.rank, Phase.rank]
      · rfl
    · dsimp only
      rw [hline, hacq']
      split_ifs with hc
      · rw [hc.1, hc.2]
      · rfl
  · dsimp only
    rw [List.getElem?_tail, hM.holding, hR]
    refine exists_congr fun c' => exists_congr fun r => ?_
    rw [hacq']
    split_ifs with hc
    · rw [hc.1, hc.2, hserve]
      refine iff_of_false (by omega) fun hh => ?_
      simp [Acq.Holding, Acq.rank, Phase.rank] at hh
    · rw [Nat.add_assoc, Nat.add_comm 1 i]
  · refine iff_of_false (by simp) ?_
    rintro ⟨c', r, hr⟩
    rw [hacq'] at hr
    split_ifs at hr with hc
    exact hc (hI.owner_unique (Or.inl hr) (Or.inl hp))

include hB

/-- An entry. -/
theorem Mirrors.enter (hp : (s.acq c p).phase = .queued) (hw : (s.acq c p).who = some h)
    (ht : (s.acq c p).lead = true → (s.acq c p).ticket = s.serving)
    (hacq : s'.acq = (s.put c p { s.acq c p with phase := .critical }).acq)
    (hT : s'.issued = s.issued) (hR : s'.serving = s.serving) :
    ∃ q', q.next num (.enter c h (num (s.acq c p).ticket)) = some q' ∧ Mirrors s' q' := by
  have hrank : (s.acq c p).rank = 12 := by rw [Acq.rank, hp]; rfl
  have hhas : (s.acq c p).has = true := (hI.own c p).has (by omega)
  have hserve := ht (hI.lead_of_budget (hB c) hhas)
  have hhead : q.holding.head? = some h := by
    rw [List.head?_eq_getElem?, hM.holding]
    exact ⟨c, p, by omega, hserve, hw⟩
  -- whoever is inside has the ticket that is being served
  have hout : q.inside = false := by
    by_contra hin
    obtain ⟨c', r, hr⟩ := hM.inside.1 (by simpa using hin)
    obtain ⟨hrhas, hrt⟩ := hI.ticket_of_owns (c := c') (p := r) (Or.inl hr)
    obtain ⟨rfl, rfl⟩ := hI.ticket_inj hB hhas hrhas (hserve.trans hrt.symm)
    rw [hp] at hr
    cases hr
  refine ⟨_, if_pos ⟨hhead, hout, by rw [hserve, hM.serving]⟩, ?_⟩
  refine hM.put hacq hT hR (alike_of_rank rfl rfl ?_) ⟨fun _ => ⟨c, p, ?_⟩, fun _ => rfl⟩
  · rw [hrank]
    simp [Acq.rank, Phase.rank]
  · rw [hacq, put_acq, if_pos ⟨rfl, rfl⟩]

end Tickets

section Run

variable [DecidableEq H] {W : Type} [DecidableEq W] (num : ℕ → W)

/-- A move that nobody sees, with its event if it has one. -/
theorem Mirrors.quiet (hM : Mirrors s q) (hq : Lines.run num (s.log.map (Event.map num)) = some q)
    {e : Option (Event H ℕ)} (hlog : s'.log = s.log ++ e.toList) (he : ∀ x ∈ e, x.Visible = false)
    (hacq : s'.acq = (s.put c p a').acq) (hT : s'.issued = s.issued) (hR : s'.serving = s.serving)
    (ha : Alike (s.acq c p) a') (hcrit : a'.phase = .critical ↔ (s.acq c p).phase = .critical) :
    ∃ q', Lines.run num (s'.log.map (Event.map num)) = some q' ∧ Mirrors s' q' := by
  refine ⟨q, ?_, hM.silent hacq hT hR ha hcrit⟩
  rw [hlog, List.map_append]
  cases e with
  | none => simpa using hq
  | some x =>
    rw [Option.toList_some, List.map_singleton, Lines.run_snoc num hq]
    have hx := he x rfl
    exact Lines.next_of_not_visible num (by cases x <;> first | rfl | exact hx) q

/-- A move that is seen. -/
theorem exists_run_of_next {e : Event H ℕ}
    (hq : Lines.run num (s.log.map (Event.map num)) = some q) (hlog : s'.log = s.log ++ [e])
    (h : ∃ q', q.next num (e.map num) = some q' ∧ Mirrors s' q') :
    ∃ q', Lines.run num (s'.log.map (Event.map num)) = some q' ∧ Mirrors s' q' := by
  obtain ⟨q', hq', hM'⟩ := h
  refine ⟨q', ?_, hM'⟩
  rw [hlog, List.map_append, List.map_singleton, Lines.run_snoc num hq, hq']

/-- One move. -/
theorem Mirrors.step (hM : Mirrors s q) (hI : Inv B s) (hB : ∀ c, B.budget c = 1)
    (hq : Lines.run num (s.log.map (Event.map num)) = some q) (hs : Step B s s') :
    ∃ q', Lines.run num (s'.log.map (Event.map num)) = some q' ∧ Mirrors s' q' := by
  -- the moves by which a batch of more than one is made do not happen
  have hlead : ∀ {c p}, (s.acq c p).has = true → (s.acq c p).lead = true := fun h =>
    hI.lead_of_budget (hB _) h
  have hout : ∀ {c p}, (s.acq c p).out ≠ .handed := hI.out_ne_handed (hB _)
  have hbudget : ∀ {c p}, (s.acq c p).phase = .drawn → ¬ 1 < (s.acq c p).budget := by
    intro c p hp
    have h1 := ((hI.own c p).budget ((hI.own c p).has (by grind))).2
    rw [hB] at h1
    omega
  -- a change of phase in front of the draw, between draw and entry, or after the update
  have hmove : ∀ {c p a' s'} {e : Option (Event H ℕ)}, s'.log = s.log ++ e.toList →
      (∀ x ∈ e, x.Visible = false) → s'.acq = (s.put c p a').acq → s'.issued = s.issued →
      s'.serving = s.serving → Alike (s.acq c p) a' → a'.phase ≠ .critical →
      (s.acq c p).phase ≠ .critical →
      ∃ q', Lines.run num (s'.log.map (Event.map num)) = some q' ∧ Mirrors s' q' :=
    fun hlog he hacq hT hR ha h1 h2 => hM.quiet num hq hlog he hacq hT hR ha (iff_of_false h1 h2)
  cases hs with
  | arrive c h hn => exact exists_run_of_next num hq rfl ⟨_, rfl, hM.arrive hI c h⟩
  | link hp =>
    refine hmove (e := none) (by simp) (by simp) rfl rfl rfl (alike_of_rank rfl rfl ?_) ?_ ?_ <;>
      simp [Acq.rank, Phase.rank, hp]
  | look hp =>
    refine hmove (e := none) (by simp) (by simp) rfl rfl rfl (alike_of_rank rfl rfl ?_) ?_ ?_ <;>
      simp [Acq.rank, Phase.rank, hp]
  | @mark c p hp =>
    refine hmove (e := none) (by simp) (by simp) rfl rfl rfl (alike_of_rank rfl rfl ?_) ?_ ?_ <;>
      cases (s.acq c p).seen <;> simp [Acq.rank, Phase.rank, hp]
  | lead hp ht =>
    refine hmove (e := none) (by simp) (by simp) rfl rfl rfl (alike_of_rank rfl rfl ?_) ?_ ?_ <;>
      simp [Acq.rank, Phase.rank, hp]
  | join hp ht =>
    have := ((hI.own _ _).early ht (by grind)).2
    rw [hlead ht] at this
    cases this
  | @raise c p h hp hw =>
    refine hmove (e := some (.raise c h)) rfl (by simp [Event.Visible]) rfl rfl rfl
      (alike_of_rank rfl rfl ?_) ?_ ?_ <;> simp [Acq.rank, Phase.rank, hp]
  | @request c p h hp hw =>
    refine hmove (e := some (.request c h)) rfl (by simp [Event.Visible]) rfl rfl rfl
      (alike_of_rank rfl rfl ?_) ?_ ?_ <;> simp [Acq.rank, Phase.rank, hp]
  | pass hp hc =>
    refine hmove (e := none) (by simp) (by simp) rfl rfl rfl (alike_of_rank rfl rfl ?_) ?_ ?_ <;>
      simp [Acq.rank, Phase.rank, hp]
  | draw hp hw => exact exists_run_of_next num hq rfl (hM.draw num hI hp hw rfl rfl rfl hw rfl rfl)
  | offer hp hl hb => exact absurd hb (hbudget hp)
  | hand hp hw ho =>
    rcases (hI.own _ _).offered ho with ⟨-, hb⟩ | hh
    · exact absurd hb (hbudget hp)
    · exact absurd hh hout
  | @lower c p h hp hw ho =>
    refine hmove (e := some (.lower c h)) rfl (by simp [Event.Visible]) rfl rfl rfl
      (alike_of_rank rfl rfl ?_) ?_ ?_ <;> simp [Acq.rank, Phase.rank, hp]
  | publish hp =>
    refine hmove (e := none) (by simp) (by simp) rfl rfl rfl (alike_of_rank rfl rfl ?_) ?_ ?_ <;>
      simp [Acq.rank, Phase.rank, hp]
  | skip hp hl =>
    refine hmove (e := none) (by simp) (by simp) rfl rfl rfl (alike_of_rank rfl rfl ?_) ?_ ?_ <;>
      simp [Acq.rank, Phase.rank, hp]
  | tell hp hl =>
    refine hmove (e := none) (by simp) (by simp) rfl rfl rfl (alike_of_rank rfl rfl ?_) ?_ ?_ <;>
      simp [Acq.rank, Phase.rank, hp]
  | enter hp hw hg ht => exact exists_run_of_next num hq rfl (hM.enter num hI hB hp hw ht rfl rfl rfl)
  | advance hp hw ho => exact exists_run_of_next num hq rfl (hM.advance num hI hp hw rfl rfl rfl)
  | retire hp ho => exact absurd ho hout
  | @depart c p h hp hw hs =>
    refine hmove (e := some (.leave c h)) rfl (by simp [Event.Visible]) rfl rfl rfl
      (alike_of_rank rfl rfl ?_) ?_ ?_ <;> simp [Acq.rank, Phase.rank, hp]

/-- The events of the abstract lock with budget one are those of two lines and a row. -/
theorem Reachable.lines (hB : ∀ c, B.budget c = 1) (hs : Reachable B s) :
    ∃ q, Lines.run num (s.log.map (Event.map num)) = some q ∧ Mirrors s q := by
  induction hs with
  | start => exact ⟨{}, rfl, mirrors_start⟩
  | step hr hs ih =>
    obtain ⟨q, hq, hM⟩ := ih
    exact hM.step num hr.inv hB hq hs

end Run

/-! ### One handler alone

Everybody else stands still: in front of the flag store, or where only the end of the critical
section or of `Unlock` lets it go on.  Then nobody else has its flag up, and a handler that is next
does not wait for anybody. -/

/-- A phase in which an acquisition may stay while the others go on. -/
def Phase.Still (ph : Phase) : Prop :=
  ph = .absent ∨ ph = .wait ∨ ph = .ready ∨ ph = .queued ∨ ph = .critical ∨ ph = .gone

theorem Phase.Still.rank_le {ph : Phase} (h : ph.Still) (hg : ph ≠ .gone) : ph.rank ≤ 13 := by
  rcases h with rfl | rfl | rfl | rfl | rfl | rfl
  case inr.inr.inr.inr.inr => exact absurd rfl hg
  all_goals decide

theorem Phase.rank_le_of_not_still {ph : Phase} (h : ¬ ph.Still) (h5 : ph.rank ≤ 5) :
    ph.rank ≤ 3 := by
  cases ph <;> first | decide | exact absurd h5 (by decide) | exact absurd (by simp [Still]) h

section Alone

variable (hI : Inv B s) (hB : ∀ c, B.budget c = 1)
  (hrest : ∀ c' r, ¬ (c' = c ∧ r = p) → (s.acq c' r).phase.Still)
include hI hB hrest

theorem Inv.other_idle : s.pet.stage (other c) = .idle := by
  by_contra hne
  obtain ⟨r, hr⟩ := hI.holder (other c) hne
  have hstill := hrest (other c) r fun e => other_ne c e.1
  rcases hr with ⟨h6, h9⟩ | ⟨hhas, h4⟩
  · rcases hstill with h | h | h | h | h | h <;> rw [Acq.rank, h] at h6 h9 <;>
      simp [Phase.rank] at h6 h9
  · have := ((hI.own _ r).early hhas (by omega)).2
    rw [hI.lead_of_budget (hB _) hhas] at this
    cases this

/-- An acquisition whose turn it is, is ready. -/
theorem Inv.ready_alone (hblind : ∀ t ≤ s.issued, B.blind t = false) (ha : (s.acq c p).Active)
    (hfirst : (s.acq c p).phase = .wait → ∀ r < p, 9 ≤ (s.acq c r).rank)
    (hturn : (s.acq c p).phase = .queued → (s.acq c p).ticket = s.serving) : s.Ready c p := by
  refine ready_iff.2 ⟨ha, fun hp => Or.inl ?_, fun hp => Or.inl (hI.other_idle hB hrest),
    fun hp => ⟨fun _ => ?_, fun _ => hturn hp⟩, fun hp => ?_⟩
  · -- the predecessor has left the section, and was not seen to
    have hl := hI.links c p
    have hout : (s.pred c p).out ≠ .handed := by
      cases p with
      | zero => simp [State.pred, sentinel]
      | succ r => exact hI.out_ne_handed (hB c)
    cases ho : (s.pred c p).out with
    | told => rfl
    | handed => exact absurd ho hout
    | kept =>
      have hpred : 12 ≤ (s.pred c p).rank ∧ (s.pred c p).ticket ≤ s.issued := by
        cases p with
        | zero => simp [State.pred, sentinel, Acq.rank, Phase.rank]
        | succ r =>
          have h9 := hfirst hp r (by omega)
          refine ⟨?_, ((hI.glob c r).lt ((hI.own c r).has h9)).le⟩
          rw [pred_succ]
          rcases hrest c r (by omega) with h | h | h | h | h | h <;> rw [Acq.rank, h] at h9 ⊢ <;>
            simp [Phase.rank] at h9 ⊢
      exact absurd hp (hl.dekker hpred.1 ho (hblind _ hpred.2)).1
  · cases p with
    | zero => rfl
    | succ r =>
      have hhas : (s.acq c (r + 1)).has = true := (hI.own c _).has (by grind)
      have hlt := hI.ticket_lt_of_lt (Nat.lt_succ_self r) hhas (hI.out_ne_handed (hB c))
      have hdone := (hI.glob c r).done (hI.has_of_lt (Nat.lt_succ_self r) hhas) (hturn hp ▸ hlt)
      rw [pred_succ]
      rcases hrest c r (by omega) with h | h | h | h | h | h <;> rw [Acq.rank, h] at hdone <;>
        first | exact h | simp [Phase.rank] at hdone
  · rcases hrest c (p + 1) (by omega) with h | h | h | h | h | h
    · exact Or.inl h
    all_goals exact Or.inr (by rw [Acq.Marked, Acq.rank, h]; decide)

end Alone

end Spec

end Farlock
