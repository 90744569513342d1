import Farlock.Spec.Batches

/-!
# Overtaking between the classes

`Window n c p s`: the acquisition at place `p` of class `c` completed its request when `n` tickets
were drawn, and the other class has drawn at most one ticket before it since.  The window is opened
by the request and kept by every move, so it holds in every later state (`window_of_request`).
-/

namespace Farlock

namespace Spec

open TwoParty Peterson

variable {H : Type} {B : Config} {s s' : State H} {c : Side} {p n : ℕ} {h : H}

/-- Nobody of class `c` can draw a ticket before the other class has drawn one. -/
def State.Held (s : State H) (c : Side) : Prop :=
  ∀ q, (s.acq c q).phase ≠ .passed ∧ ((s.acq c q).phase = .waiting → s.pet.victim = some c)

/-- Since the request of `p`, made when `n` tickets were drawn, at most one was drawn before that of
`p`. -/
structure Window (n : ℕ) (c : Side) (p : ℕ) (h : H) (s : State H) : Prop where
  who : (s.acq c p).who = some h
  requested : 7 ≤ (s.acq c p).rank
  lead : (s.acq c p).has = true → (s.acq c p).lead = true
  le : n ≤ s.issued
  issued : (s.acq c p).rank ≤ 8 → s.issued ≤ n + 1
  held : (s.acq c p).rank ≤ 8 → s.issued = n + 1 → s.Held (other c)
  ticket : 9 ≤ (s.acq c p).rank → n ≤ (s.acq c p).ticket ∧ (s.acq c p).ticket ≤ n + 1

/-- A move that no window notices: the mover does not get into the section, and if its request is
complete it has its ticket. -/
theorem Window.put (hW : Window n c p h s) {c' : Side} {p' : ℕ} {a' : Acq H} {ph ph' : Phase}
    (hp : (s.acq c' p').phase = ph) (hp' : a'.phase = ph') (hacq : s'.acq = (s.put c' p' a').acq)
    (hT : s'.issued = s.issued) (hv : s'.pet.victim = s.pet.victim)
    (hdrawn : 7 ≤ ph.rank → 9 ≤ ph.rank ∧ 9 ≤ ph'.rank) (hout : ph'.rank ≤ 6 ∨ 9 ≤ ph'.rank)
    (hsame : 7 ≤ ph.rank → a'.who = (s.acq c' p').who ∧ a'.has = (s.acq c' p').has ∧
      a'.lead = (s.acq c' p').lead ∧ a'.ticket = (s.acq c' p').ticket) : Window n c p h s' := by
  subst hp hp'
  have hacq' : ∀ c'' q, s'.acq c'' q = if c'' = c' ∧ q = p' then a' else s.acq c'' q := by
    intro c'' q
    rw [hacq, put_acq]
  have hle : n ≤ s'.issued := hT ▸ hW.le
  by_cases hself : c = c' ∧ p = p'
  · obtain ⟨rfl, rfl⟩ := hself
    have hnew : s'.acq c p = a' := by rw [hacq', if_pos ⟨rfl, rfl⟩]
    obtain ⟨h9, h9'⟩ := hdrawn hW.requested
    obtain ⟨hwho, hhas, hlead, hticket⟩ := hsame hW.requested
    constructor
    case le => exact hle
    all_goals rw [hnew]
    case who => exact hwho.trans hW.who
    case requested => exact Nat.le_trans (by decide) h9'
    case lead =>
      rw [hhas, hlead]
      exact hW.lead
    case ticket =>
      rw [hticket]
      exact fun _ => hW.ticket h9
    case issued => exact fun h8 => absurd (h9'.trans h8) (by decide)
    case held => exact fun h8 => absurd (h9'.trans h8) (by decide)
  · have hold : s'.acq c p = s.acq c p := by rw [hacq', if_neg hself]
    have hheld : s.Held (other c) → s'.Held (other c) := by
      intro hh q
      rw [hacq', hv]
      split_ifs with hcq
      · constructor
        · rintro hp
          rw [hp] at hout
          exact absurd hout (by decide)
        · intro hp
          rw [hp] at hout
          exact absurd hout (by decide)
      · exact hh q
    constructor
    case le => exact hle
    all_goals rw [hold]
    case who => exact hW.who
    case requested => exact hW.requested
    case lead => exact hW.lead
    case ticket => exact hW.ticket
    case issued =>
      rw [hT]
      exact hW.issued
    case held =>
      rw [hT]
      exact fun h8 hn => hheld (hW.held h8 hn)

/-- Every move keeps the window. -/
theorem Window.step (hI : Inv B s) (hW : Window n c p h s) (hs : Step B s s') :
    Window n c p h s' := by
  have huniq : (s.acq c p).rank ≤ 8 → ∀ q, (s.acq c q).Contends → q = p := fun hr q hq =>
    hI.contends_unique hq (Or.inl ⟨by have := hW.requested; omega, by omega⟩)
  have huniq' : ∀ q q', (s.acq (other c) q).Contends → (s.acq (other c) q').Contends → q = q' :=
    fun q q' => hI.contends_unique
  have hne := other_ne c
  have hoo := other_other c
  cases hs with
  | arrive c' x hn =>
    have habs : (s.acq c' (s.arrived c')).phase = .absent := by
      by_contra hne
      exact lt_irrefl _ ((hI.count c' _).2 hne)
    refine hW.put habs rfl rfl rfl rfl (fun h7 => absurd h7 (by decide)) ?_
      fun h7 => absurd h7 (by decide)
    simp only [newcomer]
    split_ifs <;> decide
  | @mark c' p' hp =>
    refine hW.put hp rfl rfl rfl rfl (fun h7 => absurd h7 (by decide)) ?_
      fun h7 => absurd h7 (by decide)
    dsimp only
    split_ifs <;> decide
  | @request c' p' x hp hw =>
    obtain ⟨w1, w2, w2', w3, w4, w5, w6⟩ := hW
    rcases eq_or_other c c' with rfl | rfl
    · constructor <;> grind -linarith [State.Held, request_victim]
    · constructor <;> grind -linarith [State.Held, request_victim]
  | @pass c' p' hp hc =>
    have hstage : (s.acq c p).rank ≤ 8 → s.pet.stage c ≠ .idle := by
      intro hr hi
      have hg := hI.glob c p
      have := hW.requested
      cases hph : (s.acq c p).phase <;> grind -linarith [Glob]
    obtain ⟨w1, w2, w2', w3, w4, w5, w6⟩ := hW
    rcases eq_or_other c c' with rfl | rfl
    · constructor <;> grind -linarith [State.Held, pass_victim]
    · constructor <;> grind -linarith [State.Held, State.CanPass, pass_victim]
  | @draw c' p' x hp hw =>
    obtain ⟨w1, w2, w2', w3, w4, w5, w6⟩ := hW
    rcases eq_or_other c c' with rfl | rfl
    · constructor <;> grind -linarith [State.Held]
    · constructor <;> grind -linarith [State.Held]
  | @hand c' p' x hp hw ho =>
    have o1 := hI.own c p
    have o2 := hI.own c' (p' + 1)
    have l1 : Link B (s.acq c' p') (s.acq c' (p' + 1)) := hI.links c' (p' + 1)
    have hnew : ∀ c q, (s.hand c' p' x).acq c q =
      if c = c' ∧ q = p' + 1 then (s.acq c' (p' + 1)).taker (s.acq c' p')
      else if c = c' ∧ q = p' then (s.acq c' p').giver else s.acq c q := fun _ _ => rfl
    have hT : (s.hand c' p' x).issued = s.issued := rfl
    have hpet : (s.hand c' p' x).pet = s.pet := rfl
    obtain ⟨w1, w2, w2', w3, w4, w5, w6⟩ := hW
    constructor <;> grind -linarith [State.Held, Own, Link, Acq.giver, Acq.taker]
  | offer hp hl hb =>
    exact hW.put hp rfl rfl rfl rfl (by simp [Phase.rank, hp]) (by simp [Phase.rank, hp])
      fun _ => ⟨rfl, rfl, rfl, rfl⟩
  | link hp | look hp | lead hp | join hp | raise hp | lower hp | publish hp | skip hp | tell hp
  | enter hp | advance hp | retire hp | depart hp =>
    exact hW.put hp rfl rfl rfl rfl (by simp [Phase.rank]) (by simp [Phase.rank])
      fun _ => ⟨rfl, rfl, rfl, rfl⟩

/-- The request opens the window. -/
theorem window_of_raise (hI : Inv B s) (hp : (s.acq c p).phase = .flagged)
    (hw : (s.acq c p).who = some h) (L : List (Event H ℕ)) :
    Window s.issued c p h { s.put c p { s.acq c p with phase := .waiting } with
      pet := s.pet.request c, log := L } := by
  have ho := hI.own c p
  constructor <;> grind -linarith [Own]

theorem Window.steps (hr : Reachable B s) (hW : Window n c p h s) (hs : Steps B s s') :
    Window n c p h s' := by
  induction hs with
  | refl => exact hW
  | tail hs' h1 ih => exact ih.step (hr.steps hs').inv h1

section Log

variable [DecidableEq H] {L L' : List (Event H ℕ)}

/-- The window after a request in the log. -/
theorem window_of_request (hr : Reachable B s) (hlog : s.log = L ++ .request c h :: L') :
    ∃ s0 p, Reachable B s0 ∧ s0.log = L ∧ (s0.acq c p).phase = .flagged ∧
      Window (draws L).length c p h s := by
  obtain ⟨s0, s1, hr0, hL, hs, hL1, hsteps⟩ := hr.split hlog
  have hlen : (draws L).length = s0.issued := by
    rw [← List.length_map (·.2.2), ← hL, map_draws hr0, List.length_range]
  have hinv : ∃ p, (s0.acq c p).phase = .flagged ∧ (s0.acq c p).who = some h ∧
      s1 = { s0.put c p { s0.acq c p with phase := .waiting } with
        pet := s0.pet.request c, log := s0.log ++ [.request c h] } := by
    rw [← hL] at hL1
    cases hs with
    | @request c' p x hp hw =>
      obtain ⟨rfl, rfl⟩ : c' = c ∧ x = h := by simpa using hL1
      exact ⟨p, hp, hw, rfl⟩
    | _ => simp [State.arrive, State.hand] at hL1
  obtain ⟨p, hp, hw, rfl⟩ := hinv
  refine ⟨s0, p, hr0, hL, hp, ?_⟩
  rw [hlen]
  exact (window_of_raise hr0.inv hp hw _).steps (hr0.step hs) hsteps

/-- Until the draw of a requester at most one ticket is drawn. -/
theorem length_draws_le (hr : Reachable B s) (hlog : s.log = L ++ .request c h :: L')
    (hno : ∀ t, .draw c h t ∉ L') : (draws s.log).length ≤ (draws L).length + 1 := by
  obtain ⟨s0, p, hr0, hL, hp, hW⟩ := window_of_request hr hlog
  have hlen : (draws s.log).length = s.issued := by
    rw [← List.length_map (·.2.2), map_draws hr, List.length_range]
  rw [hlen]
  refine hW.issued (not_lt.1 fun hrank => ?_)
  have hhas := (hr.inv.own c p).has hrank
  have hmem := (hr.recorded.did p (.draw c h (s.acq c p).ticket)).2 ⟨hW.who, hhas, hW.lead hhas, rfl⟩
  rw [hlog] at hmem
  have hin := mem_of_mem_stamp hmem fun hold => by
    rw [← hL] at hold
    have hpast := ((hr0.recorded.did _ _).1 hold).2
    have := (hr0.inv.own c p).early hpast.1
    grind [Event.side]
  rcases List.mem_cons.1 hin with h' | h'
  · cases h'
  · exact hno _ h'

/-- Until the entry of a requester, those of the other class who enter under a ticket that was not
drawn at the request all have the same ticket. -/
theorem ticket_eq_of_entry (hr : Reachable B s) (hlog : s.log = L ++ .request c h :: L')
    (hno : ∀ t, .enter c h t ∉ L') {q t : ℕ} (hq : (other c, q, t) ∈ entries s.log)
    (ht : (draws L).length ≤ t) : t = (draws L).length := by
  obtain ⟨s0, p, hr0, hL, hp, hW⟩ := window_of_request hr hlog
  have hI := hr.inv
  obtain ⟨hrank, rfl⟩ := (mem_entries hr).1 hq
  have hqhas := (hI.own (other c) q).has (Nat.le_trans (by decide) hrank)
  have hqlt := (hI.glob (other c) q).lt hqhas
  by_cases h8 : (s.acq c p).rank ≤ 8
  · have := hW.issued h8
    omega
  · -- the requester has a ticket and has not entered, so its ticket is still to come
    have h12 : (s.acq c p).rank < 13 := by
      by_contra hge
      have hmem := (hr.recorded.did p (.enter c h (s.acq c p).ticket)).2
        ⟨hW.who, not_lt.1 hge, rfl⟩
      rw [hlog] at hmem
      have hin := mem_of_mem_stamp hmem fun hold => by
        rw [← hL] at hold
        have hpast := ((hr0.recorded.did _ _).1 hold).2.1
        grind [Event.side]
      rcases List.mem_cons.1 hin with h' | h'
      · cases h'
      · exact hno _ h'
    have hphas := (hI.own c p).has (by omega)
    have hpt := (hW.ticket (by omega)).2
    have hle := (hI.glob (other c) q).le hrank
    have hge : s.serving ≤ (s.acq c p).ticket := by
      by_contra hlt
      have := (hI.glob c p).done hphas (by omega)
      omega
    have hne : (s.acq (other c) q).ticket ≠ (s.acq c p).ticket := fun heq =>
      other_ne c (hI.side_of_ticket hqhas hphas heq)
    omega

/-- So there are no more of them than the budget of their class. -/
theorem encard_bypass_le (hr : Reachable B s) (hlog : s.log = L ++ .request c h :: L')
    (hno : ∀ t, .enter c h t ∉ L') :
    {q | (∃ t, (other c, q, t) ∈ entries s.log) ∧
      ∃ i, (draws L).length ≤ i ∧ InBatch s.log i (other c) q}.encard ≤ B.budget (other c) := by
  set S := {q | (∃ t, (other c, q, t) ∈ entries s.log) ∧
    ∃ i, (draws L).length ≤ i ∧ InBatch s.log i (other c) q} with hS
  have hI := hr.inv
  have hmem : ∀ q ∈ S, (s.acq (other c) q).has = true ∧
      (s.acq (other c) q).ticket = (draws L).length := by
    rintro q ⟨⟨t, ht⟩, i, hi, hb⟩
    obtain ⟨hhas, rfl⟩ := (inBatch_iff hr).1 hb
    obtain ⟨-, rfl⟩ := (mem_entries hr).1 ht
    exact ⟨hhas, ticket_eq_of_entry hr hlog hno ht hi⟩
  rcases S.eq_empty_or_nonempty with hempty | hne
  · simp [hempty]
  · -- a segment that starts at the first of them
    classical
    have hfirst := Nat.find_spec hne
    have hsub : S ⊆ Finset.Ico (Nat.find hne) (Nat.find hne + B.budget (other c)) := by
      intro q hq
      have hle := Nat.find_min' hne hq
      rw [Finset.coe_Ico, Set.mem_Ico]
      exact ⟨hle, hI.lt_budget hle (hmem _ hfirst).1 (hmem q hq).1
        ((hmem _ hfirst).2.trans (hmem q hq).2.symm)⟩
    calc S.encard ≤ (Finset.Ico (Nat.find hne) (Nat.find hne + B.budget (other c)) : Set ℕ).encard :=
          Set.encard_le_encard hsub
      _ = B.budget (other c) := by rw [Set.encard_coe_eq_coe_finsetCard, Nat.card_Ico]; simp

end Log

end Spec
end Farlock
