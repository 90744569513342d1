import Farlock.Lib.Fair
import Farlock.Spec.Progress
import Farlock.Trace

/-!
# One lock in an endless execution

At every time of an endless execution there is an abstract state that shows the events so far
(`Unfolding`).  The acquisitions only go forward, and none of them stops where it could go on.  Then
each acquisition leaves its queue at some time (`Unfolding.exists_gone`).

Every acquisition comes to its last phase (`Settled`), and this can only be one in which it waits.
The lemmas exclude these one after the other: the successor of the last holder marks itself; the
batch that is being served gets through; whoever waits for the section gets in, because the other
class, without a new request, can only use up the batches it has begun.
-/

namespace Farlock

open Spec TwoParty Peterson

variable {H W V : Type}

/-! ### Requests -/

namespace Event

/-- The class whose request completes. -/
def requested : Event H W → Option Side
  | .request c _ => some c
  | _ => none

/-- A store of the victim. -/
def isRequest : Event H W → Bool
  | .request _ _ => true
  | _ => false

@[simp] theorem requested_map (f : W → V) (e : Event H W) : (e.map f).requested = e.requested := by
  cases e <;> rfl

end Event

/-- The class that completed its request last. -/
def turn (L : List (Event H W)) : Option Side := (L.filterMap Event.requested).getLast?

theorem turn_map (f : W → V) (L : List (Event H W)) : turn (L.map (Event.map f)) = turn L := by
  unfold turn
  rw [List.filterMap_map]
  congr 2
  funext e
  exact Event.requested_map f e

theorem turn_snoc (L : List (Event H W)) (e : Event H W) :
    turn (L ++ [e]) = e.requested.or (turn L) := by
  cases he : e.requested <;> simp [turn, he]

/-- The victim is the class that completed its request last. -/
theorem Spec.victim_eq {B : Config} {s : Spec.State H} (h : Reachable B s) :
    s.pet.victim = turn s.log := by
  induction h with
  | start => rfl
  | step _ hs ih =>
    cases hs with
    | arrive | raise | request | draw | hand | lower | enter | advance | depart =>
      simp [State.arrive, State.hand, turn_snoc, Event.requested, ih]
    | _ => exact ih

variable [DecidableEq H]

/-- The acquisitions that have completed their request. -/
def requests (L : List (Event H W)) : List (Side × ℕ) := marks Event.isRequest L

theorem requests_map (f : W → V) (L : List (Event H W)) :
    requests (L.map (Event.map f)) = requests L :=
  marks_map f L fun e => by cases e <;> rfl

theorem marks_snoc (sel : Event H W → Bool) (L : List (Event H W)) (e : Event H W) :
    marks sel (L ++ [e]) = marks sel L ++
      if sel e then [(e.side, (register (L ++ [e])).place e.who)] else [] := by
  rw [marks, stamp_snoc, List.filterMap_append, marks]
  cases h : sel e <;> simp [h]

theorem marks_grow (sel : Event H W → Bool) (L L' : List (Event H W)) :
    marks sel L <+: marks sel (L ++ L') := by
  rw [marks, marks, stamp, stamp, stampFrom_append, List.filterMap_append]
  exact List.prefix_append _ _

/-- What runs under a ticket does so for ever. -/
theorem InBatch.append {L : List (Event H W)} {i p : ℕ} {c : Side} (h : InBatch L i c p)
    (L' : List (Event H W)) : InBatch (L ++ L') i c p := by
  obtain ⟨p0, t, hi, hle, hhands⟩ := h
  have hpre := timed_prefix Event.drawn L L'
  refine ⟨p0, t, Execution.getElem?_mono hpre hi, hle, fun q h1 h2 => ?_⟩
  exact (marks_grow _ L L').subset (hhands q h1 h2)

theorem Spec.mem_requests {B : Config} {s : Spec.State H} {c : Side} {p : ℕ} (h : Reachable B s) :
    (c, p) ∈ requests s.log ↔
      7 ≤ (s.acq c p).rank ∧ ((s.acq c p).has = true → (s.acq c p).lead = true) := by
  simp only [requests, mem_marks, h.recorded.did]
  constructor
  · rintro ⟨e, ⟨-, hpast⟩, rfl, hsel⟩
    cases e <;> simp [Event.isRequest] at hsel
    exact hpast
  · intro ha
    have hwho := (h.inv.own c p).who fun habs => by grind
    obtain ⟨g, hg⟩ := Option.ne_none_iff_exists'.1 hwho
    exact ⟨.request c g, ⟨hg, ha⟩, rfl, rfl⟩

/-- Nobody completes its request twice. -/
theorem Spec.requests_nodup {B : Config} {s : Spec.State H} (h : Reachable B s) :
    (requests s.log).Nodup :=
  marks_nodup h fun e e' he he' hside hwho => by
    cases e <;> simp [Event.isRequest] at he
    cases e' <;> simp [Event.isRequest] at he'
    exact congrArg₂ Event.request hside hwho

section Shows

variable {B : Config} {M : List (Event H UInt64)} {K : Spec.State H} {c : Side} {p : ℕ}

omit [DecidableEq H] in
theorem Shows.victim (hM : Shows B M K) : K.pet.victim = turn M := by
  rw [hM.log, turn_map, victim_eq hM.reach]

theorem Shows.mem_requests (hM : Shows B M K) : (c, p) ∈ requests M ↔
    7 ≤ (K.acq c p).rank ∧ ((K.acq c p).has = true → (K.acq c p).lead = true) := by
  rw [hM.log, requests_map, Spec.mem_requests hM.reach]

/-- What an acquisition has been through can be seen. -/
theorem Shows.stamp_of_did (hM : Shows B M K) {e : Event H ℕ} (hd : (K.acq e.side p).Did e) :
    (p, e.map word) ∈ stamp M := by
  rw [hM.log, stamp, stampFrom_map]
  exact List.mem_map.2 ⟨(p, e), (hM.reach.recorded.did p e).2 hd, rfl⟩

/-- What can be seen, an acquisition has been through. -/
theorem Shows.did_of_stamp (hM : Shows B M K) {e : Event H UInt64} (he : (p, e) ∈ stamp M) :
    ∃ e' : Event H ℕ, e = e'.map word ∧ (K.acq e.side p).Did e' := by
  rw [hM.log, stamp, stampFrom_map] at he
  obtain ⟨⟨q, e'⟩, hmem, heq⟩ := List.mem_map.1 he
  obtain ⟨rfl, rfl⟩ : q = p ∧ e'.map word = e := by simpa using heq
  exact ⟨e', rfl, by rw [Event.side_map]; exact (hM.reach.recorded.did q e').1 hmem⟩

/-- The handler of an acquisition stays the same. -/
theorem Shows.who_append (hM : Shows B M K) {M' : List (Event H UInt64)} {K' : Spec.State H}
    (hM' : Shows B (M ++ M') K') {h : H} (hw : (K.acq c p).who = some h) :
    (K'.acq c p).who = some h := by
  have harr : (p, .arrive c h) ∈ stamp (M ++ M') := by
    rw [stamp, stampFrom_append]
    exact List.mem_append_left _ (hM.stamp_of_did (e := .arrive c h) ⟨hw, trivial⟩)
  obtain ⟨e', he', hd⟩ := hM'.did_of_stamp harr
  have := congrArg Event.who he'
  rw [Event.who_map] at this
  exact hd.1.trans (congrArg some this.symm)

theorem Shows.requests_nodup (hM : Shows B M K) : (requests M).Nodup := by
  rw [hM.log, requests_map]
  exact Spec.requests_nodup hM.reach

end Shows

omit [DecidableEq H] in
/-- Of the tickets up to `t`, a class has no more acquisitions than its budgets allow. -/
theorem Spec.Inv.place_lt {B : Config} {s : Spec.State H} {c : Side} {p : ℕ} (hI : Spec.Inv B s)
    (hp : (s.acq c p).has = true) : p < ((s.acq c p).ticket + 1) * B.budget c := by
  induction p using Nat.strong_induction_on with
  | _ p ih =>
    obtain ⟨p0, hle, hhas, hlead, ht, -⟩ := hI.exists_leader hp
    have hlt := hI.lt_budget hle hhas hp ht
    cases p0 with
    | zero =>
      have : B.budget c ≤ ((s.acq c p).ticket + 1) * B.budget c :=
        Nat.le_mul_of_pos_left _ (Nat.succ_pos _)
      omega
    | succ q =>
      -- the batch before this one has a smaller ticket
      have hq := hI.has_of_lt (Nat.lt_succ_self q) hhas
      have hlater : (s.acq c q).ticket < (s.acq c p).ticket :=
        ht ▸ (hI.links c (q + 1)).later hq hhas hlead
      have hbound := ih q (by omega) hq
      have hmul := Nat.mul_le_mul_right (B.budget c) (Nat.succ_le_of_lt hlater)
      rw [Nat.succ_mul]
      simp only [Nat.succ_eq_add_one] at hmul
      omega

/-- The phase can be told from its rank. -/
theorem Spec.Phase.rank_injective : Function.Injective Phase.rank := by
  have key : ∀ ph : Phase, [Phase.absent, .link, .look, .mark, .wait, .ready, .flagged, .waiting,
      .passed, .drawn, .cleared, .notify, .queued, .critical, .freed, .gone][ph.rank]? =
        some ph := by
    intro ph
    cases ph <;> rfl
  intro ph ph' h
  have h' := key ph'
  rw [← h, key ph] at h'
  exact Option.some.inj h'

/-! ### Endless executions -/

/-- One lock in an endless execution: the events up to each time, and an abstract state that shows
them.  Acquisitions only go forward.  One that is ready from some time on goes on, and so does one
that waits for the section while one of the two conditions to pass holds from some time on. -/
structure Unfolding (H : Type) [DecidableEq H] (B : Config) where
  events : ℕ → List (Event H UInt64)
  state : ℕ → Spec.State H
  shows : ∀ n, Shows B (events n) (state n)
  grows : ∀ n, ∃ e : Option (Event H UInt64), events (n + 1) = events n ++ e.toList
  rank_le : ∀ n c p, ((state n).acq c p).rank ≤ ((state (n + 1)).acq c p).rank
  goes : ∀ n c p, ((state n).acq c p).phase ≠ .waiting → (∀ m ≥ n, (state m).Ready c p) →
    ∃ m ≥ n, ((state m).acq c p).phase ≠ ((state n).acq c p).phase
  passes : ∀ n c p, ((state n).acq c p).phase = .waiting →
    ((∀ m ≥ n, (state m).pet.victim ≠ some c) ∨ ∀ m ≥ n, (state m).pet.stage (other c) = .idle) →
    ∃ m ≥ n, ((state m).acq c p).phase ≠ .waiting

namespace Unfolding

variable {B : Config} (U : Unfolding H B) {c : Side} {p n m : ℕ}

theorem inv (n : ℕ) : Spec.Inv B (U.state n) := (U.shows n).reach.inv

theorem rank_mono (hnm : n ≤ m) : ((U.state n).acq c p).rank ≤ ((U.state m).acq c p).rank := by
  induction m, hnm using Nat.le_induction with
  | base => exact le_rfl
  | succ m _ ih => exact ih.trans (U.rank_le m c p)

theorem exists_events (hnm : n ≤ m) : ∃ M, U.events m = U.events n ++ M := by
  induction m, hnm using Nat.le_induction with
  | base => exact ⟨[], (List.append_nil _).symm⟩
  | succ m _ ih =>
    obtain ⟨M, hM⟩ := ih
    obtain ⟨e, he⟩ := U.grows m
    exact ⟨M ++ e.toList, by rw [he, hM, List.append_assoc]⟩

theorem gone_mono (hnm : n ≤ m) (hg : ((U.state n).acq c p).phase = .gone) :
    ((U.state m).acq c p).phase = .gone := by
  rw [gone_iff_rank] at hg ⊢
  exact hg.trans (U.rank_mono hnm)

theorem present_mono (hnm : n ≤ m) (hp : ((U.state n).acq c p).phase ≠ .absent) :
    ((U.state m).acq c p).phase ≠ .absent := by
  intro habs
  have hle := U.rank_mono (c := c) (p := p) hnm
  rw [Acq.rank, Acq.rank, habs] at hle
  exact hp (Phase.rank_injective (Nat.le_zero.1 hle))

theorem pred_gone_mono (hnm : n ≤ m) (hg : ((U.state n).pred c p).phase = .gone) :
    ((U.state m).pred c p).phase = .gone := by
  cases p with
  | zero => rfl
  | succ p => exact U.gone_mono hnm hg

/-- Whoever has a ticket keeps it. -/
theorem has_mono (hnm : n ≤ m) (hp : ((U.state n).acq c p).has = true) :
    ((U.state m).acq c p).has = true ∧
      ((U.state m).acq c p).ticket = ((U.state n).acq c p).ticket := by
  obtain ⟨M, hM⟩ := U.exists_events hnm
  refine (U.shows m).inBatch.1 ?_
  rw [hM]
  exact ((U.shows n).inBatch.2 ⟨hp, rfl⟩).append M

/-- Whoever got its ticket from its predecessor did so for ever. -/
theorem joined_mono (hnm : n ≤ m) (hp : ((U.state n).acq c p).has = true)
    (hl : ((U.state n).acq c p).lead = false) : ((U.state m).acq c p).lead = false := by
  have hout := ((U.inv n).links c p).joined hp hl
  cases p with
  | zero => cases hout
  | succ p =>
    obtain ⟨M, hM⟩ := U.exists_events hnm
    have hmem : (c, p) ∈ hands (U.events m) := by
      rw [hM]
      exact (marks_grow _ _ _).subset ((U.shows n).mem_hands.2 hout)
    exact (((U.inv m).links c (p + 1)).handed ((U.shows m).mem_hands.1 hmem)).2.2.2.1

theorem serving_mono (hnm : n ≤ m) : (U.state n).serving ≤ (U.state m).serving := by
  obtain ⟨M, hM⟩ := U.exists_events hnm
  rw [← (U.shows n).length_advances, ← (U.shows m).length_advances, hM]
  have hpre := timed_prefix Event.advanced (U.events n) M
  exact hpre.length_le

theorem issued_mono (hnm : n ≤ m) : (U.state n).issued ≤ (U.state m).issued := by
  obtain ⟨M, hM⟩ := U.exists_events hnm
  rw [← (U.shows n).length_draws, ← (U.shows m).length_draws, hM]
  have hpre := timed_prefix Event.drawn (U.events n) M
  exact hpre.length_le

/-! ### Last phases -/

/-- The acquisition stays in its phase from time `n` on. -/
def Settled (c : Side) (p n : ℕ) : Prop :=
  ∀ m ≥ n, ((U.state m).acq c p).phase = ((U.state n).acq c p).phase

theorem Settled.mono {U : Unfolding H B} (hS : U.Settled c p n) (hnm : n ≤ m) : U.Settled c p m :=
  fun i hi => (hS i (hnm.trans hi)).trans (hS m hnm).symm

/-- Finitely many acquisitions come to their last phases. -/
theorem exists_settled (c : Side) (k n : ℕ) : ∃ m ≥ n, ∀ p < k, U.Settled c p m := by
  induction k with
  | zero => exact ⟨n, le_rfl, fun p hp => absurd hp (Nat.not_lt_zero p)⟩
  | succ k ih =>
    obtain ⟨m, hm, hS⟩ := ih
    obtain ⟨i, hi, hconst⟩ := Execution.exists_const (f := fun i => ((U.state i).acq c k).rank)
      (n := m) (k := 15) (fun i j hij => U.rank_mono hij) fun i _ => by
        cases h : ((U.state i).acq c k).phase <;> simp [Acq.rank, Phase.rank, h]
    refine ⟨i, hm.trans hi, fun p hp => ?_⟩
    rcases Nat.lt_succ_iff_lt_or_eq.1 hp with hlt | rfl
    · exact (hS p hlt).mono hi
    · exact fun j hj => Phase.rank_injective (hconst j hj)

section Settled

variable {U} (hS : U.Settled c p n)
include hS

theorem Settled.not_ready (hw : ((U.state n).acq c p).phase ≠ .waiting) :
    ∃ m ≥ n, ¬ (U.state m).Ready c p := by
  by_contra hno
  push Not at hno
  obtain ⟨m, hm, hne⟩ := U.goes n c p hw hno
  exact hne (hS m hm)

/-- In its last phase an acquisition waits, if it is not gone. -/
theorem Settled.waits : ((U.state n).acq c p).phase ∈
    [Phase.absent, .wait, .waiting, .queued, .freed, .gone] := by
  by_contra hno
  obtain ⟨m, hm, hnr⟩ := hS.not_ready fun hw => hno (by simp [hw])
  refine hnr ?_
  have hph := hS m hm
  simp only [State.Ready]
  cases h : ((U.state n).acq c p).phase <;> rw [h] at hph hno <;> simp at hno <;> simp [hph]

/-- The successor of the last holder marks itself. -/
theorem Settled.not_freed : ((U.state n).acq c p).phase ≠ .freed := by
  intro hp
  obtain ⟨i, hi, hS'⟩ := U.exists_settled c (p + 2) n
  obtain ⟨m, hm, hnr⟩ := (hS.mono hi).not_ready (by rw [hS i hi, hp]; simp)
  have hph := (hS m (hi.trans hm)).trans hp
  simp only [State.Ready, hph, not_or] at hnr
  have hsucc := ((hS' (p + 1) (by omega)).mono hm).waits
  cases h : ((U.state m).acq c (p + 1)).phase <;> simp_all [Acq.rank, Phase.rank]

theorem Settled.not_wait_of_has (hhas : ((U.state n).acq c p).has = true) :
    ((U.state n).acq c p).phase ≠ .wait := by
  intro hp
  obtain ⟨m, hm, hnr⟩ := hS.not_ready (by simp [hp])
  refine hnr ?_
  simp only [State.Ready, (hS m hm).trans hp]
  exact Or.inr (U.has_mono hm hhas).1

/-- A predecessor that is gone has left a word, or was seen before. -/
theorem Settled.not_wait (hb : ∀ m, ∀ t ≤ (U.state m).issued, B.blind t = false)
    (hg : ((U.state n).pred c p).phase = .gone) : ((U.state n).acq c p).phase ≠ .wait := by
  intro hp
  obtain ⟨m, hm, hnr⟩ := hS.not_ready (by simp [hp])
  have hph := (hS m hm).trans hp
  simp only [State.Ready, hph, not_or] at hnr
  have hpred := U.pred_gone_mono hm hg
  have hl := (U.inv m).links c p
  have hblind : B.blind ((U.state m).pred c p).ticket = false := by
    refine hb m _ ?_
    cases p with
    | zero => exact Nat.zero_le _
    | succ p => exact (((U.inv m).glob c p).lt (((U.inv m).own c p).has (by grind))).le
  cases hout : ((U.state m).pred c p).out with
  | kept => exact (hl.dekker (by grind) hout hblind).1 hph
  | told => exact hnr.1 hout
  | handed => exact hnr.2 (hl.handed hout).2.2.1

end Settled

/-! ### The section -/

section Section

variable {U} (hS : U.Settled c p n) (hp : ((U.state n).acq c p).phase = .waiting)
include hS hp

/-- While an acquisition waits for the section, nobody else of its class completes a request. -/
theorem Settled.victim_ne (hnm : n ≤ m) (hv : (U.state m).pet.victim ≠ some c) :
    (U.state (m + 1)).pet.victim ≠ some c := by
  intro hv'
  rw [(U.shows m).victim] at hv
  rw [(U.shows (m + 1)).victim] at hv'
  obtain ⟨e, he⟩ := U.grows m
  have hph := (hS m hnm).trans hp
  have hph' := (hS (m + 1) (hnm.trans m.le_succ)).trans hp
  cases e with
  | none => exact hv (by rwa [he, Option.toList_none, List.append_nil] at hv')
  | some e =>
    rw [he, Option.toList_some, turn_snoc] at hv'
    cases e <;>
      simp only [Event.requested, Option.none_or, Option.some_or, Option.some.injEq] at hv'
    case request d g =>
      subst hv'
      -- the new requester would be another acquisition of the class
      set q := (register (U.events (m + 1))).place g with hq
      have hreq : requests (U.events (m + 1)) = requests (U.events m) ++ [(d, q)] := by
        rw [hq, he, Option.toList_some]
        exact marks_snoc _ _ _
      have hnew : (d, q) ∉ requests (U.events m) := by
        have hnodup := (U.shows (m + 1)).requests_nodup
        rw [hreq, List.nodup_append] at hnodup
        exact fun hmem => hnodup.2.2 _ hmem _ (List.mem_singleton_self _) rfl
      obtain ⟨h7, hlead⟩ := (U.shows (m + 1)).mem_requests.1
        (hreq ▸ List.mem_append_right _ (List.mem_singleton_self (d, q)))
      rw [(U.shows m).mem_requests] at hnew
      rcases lt_trichotomy q p with hlt | heq | hgt
      · have hadm : 11 ≤ ((U.state m).acq d q).rank :=
          (U.inv m).admitted_of_lt hlt (Or.inl (by rw [Acq.rank, hph]; decide))
        have hhas := ((U.inv m).own d q).has (by omega)
        refine hnew ⟨by omega, fun _ => ?_⟩
        by_contra hjoin
        have hjoin' := U.joined_mono m.le_succ hhas (by simpa using hjoin)
        simp [hlead (U.has_mono m.le_succ hhas).1] at hjoin'
      · have h7' : ((U.state m).acq d q).rank = 7 := by rw [Acq.rank, heq, hph]; rfl
        refine hnew ⟨h7'.ge, fun hhas => ?_⟩
        have := (((U.inv m).own d q).early hhas (by omega)).1
        omega
      · have hadm : 11 ≤ ((U.state (m + 1)).acq d p).rank :=
          (U.inv (m + 1)).admitted_of_lt hgt (Or.inl (by omega))
        rw [Acq.rank, hph'] at hadm
        exact absurd hadm (by decide)
    all_goals exact hv hv'

/-- If an acquisition of class `c` waits for the section for ever, then as the victim. -/
theorem Settled.victim_eq (hnm : n ≤ m) : (U.state m).pet.victim = some c := by
  by_contra hne
  obtain ⟨i, hi, hph⟩ := U.passes m c p ((hS m hnm).trans hp) <| Or.inl fun i hi => by
    induction i, hi using Nat.le_induction with
    | base => exact hne
    | succ i hi ih => exact hS.victim_ne hp (hnm.trans hi) ih
  exact hph ((hS i (hnm.trans hi)).trans hp)

/-- Then the other class completes no more requests. -/
theorem Settled.requests_subset (hnm : n ≤ m) {q : ℕ} (hq : (other c, q) ∈ requests (U.events m)) :
    (other c, q) ∈ requests (U.events n) := by
  induction m, hnm using Nat.le_induction with
  | base => exact hq
  | succ m hnm ih =>
    obtain ⟨e, he⟩ := U.grows m
    have hv := hS.victim_eq hp (hnm.trans m.le_succ)
    rw [(U.shows (m + 1)).victim, he] at hv
    rw [he] at hq
    cases e with
    | none => exact ih (by simpa using hq)
    | some e =>
      rw [Option.toList_some] at hq hv
      rw [requests, marks_snoc, List.mem_append] at hq
      refine hq.elim ih fun hnew => ?_
      rw [turn_snoc] at hv
      cases e <;> simp [Event.isRequest] at hnew
      case request x g =>
        obtain rfl : x = c := by simpa [Event.requested] using hv
        exact absurd hnew.1 (other_ne x)

/-- So only some of the places of the other class can ever hold the section. -/
theorem Settled.holds_lt (hnm : n ≤ m) {q : ℕ} (hq : ((U.state m).acq (other c) q).Holds) :
    q < (U.state n).arrived (other c) + B.budget (other c) + 1 := by
  have hI := U.inv m
  have hhas : ∀ r, ((U.state m).acq (other c) r).has = true →
      r < (U.state n).arrived (other c) + B.budget (other c) := by
    intro r hr
    obtain ⟨r0, hle, h0, hlead, ht, -⟩ := hI.exists_leader hr
    have h9 : 7 ≤ ((U.state m).acq (other c) r0).rank := by
      by_contra hlt
      have := ((hI.own (other c) r0).early h0 (by omega)).2
      simp [hlead] at this
    have hreq := hS.requests_subset hp hnm ((U.shows m).mem_requests.2 ⟨h9, fun _ => hlead⟩)
    have h7 := ((U.shows n).mem_requests.1 hreq).1
    have harr := ((U.inv n).count (other c) r0).2 fun habs => by
      rw [Acq.rank, habs] at h7
      exact absurd h7 (by decide)
    have := hI.lt_budget hle h0 hr ht
    omega
  rcases hq with ⟨h6, -⟩ | ⟨hq, -⟩
  · cases q with
    | zero => exact Nat.succ_pos _
    | succ q =>
      -- its predecessor had a ticket
      have hadm : 11 ≤ ((U.state m).acq (other c) q).rank :=
        hI.admitted_of_lt (Nat.lt_succ_self q) (Or.inl (le_trans (by decide) h6))
      exact Nat.succ_lt_succ (hhas q ((hI.own _ q).has (by omega)))
  · exact Nat.lt_succ_of_lt (hhas q hq)

end Section

/-- Nobody waits for the section for ever. -/
theorem Settled.not_waiting {U : Unfolding H B} (hS : U.Settled c p n) :
    ((U.state n).acq c p).phase ≠ .waiting := by
  intro hp
  obtain ⟨i, hi, hset⟩ :=
    U.exists_settled (other c) ((U.state n).arrived (other c) + B.budget (other c) + 1) n
  obtain ⟨m, hm, hph⟩ := U.passes i c p ((hS i hi).trans hp) <| Or.inr fun m hm => by
    -- a holder of the other class would wait for ever
    by_contra hne
    obtain ⟨q, hq⟩ := (U.inv m).holder (other c) hne
    have hSq := (hset q (hS.holds_lt hp (hi.trans hm) hq)).mono hm
    have hwait := hSq.waits
    cases hph : ((U.state m).acq (other c) q).phase <;> rw [hph] at hwait <;> simp at hwait
    case absent =>
      rw [((U.inv m).own (other c) q).absent hph] at hq
      simp [Acq.Holds, Acq.rank, Phase.rank] at hq
    case wait =>
      refine hSq.not_wait_of_has ?_ hph
      exact (hq.resolve_left fun h => by rw [Acq.rank, hph] at h; exact absurd h.1 (by decide)).1
    case waiting =>
      obtain ⟨j, hj, hne⟩ := U.passes m (other c) q hph <| Or.inl fun j hj => by
        rw [hS.victim_eq hp (hi.trans (hm.trans hj))]
        exact fun heq => other_ne c (Option.some.inj heq).symm
      exact hne ((hSq j hj).trans hph)
    all_goals
      simp only [Acq.Holds, Acq.rank, hph, Phase.rank] at hq
      omega
  exact hph ((hS m (hi.trans hm)).trans hp)

/-! ### Tickets -/

/-- Every ticket that is drawn is served. -/
theorem issued_le_serving (hv : ∀ m ≥ n, (U.state m).serving = (U.state n).serving) :
    (U.state n).issued ≤ (U.state n).serving := by
  by_contra hlt
  push Not at hlt
  -- everybody who can have the ticket comes to its last phase
  let k (c : Side) : ℕ := ((U.state n).serving + 1) * B.budget c
  obtain ⟨i, hi, hloc⟩ := U.exists_settled .loc (k .loc) n
  obtain ⟨j, hj, hrem⟩ := U.exists_settled .rem (k .rem) i
  have hset : ∀ c, ∀ p < k c, U.Settled c p j := fun c => by
    cases c with
    | loc => exact fun p hp => (hloc p hp).mono hj
    | rem => exact hrem
  have hnj := hi.trans hj
  have hI := U.inv j
  obtain ⟨c, p, hhas, ht, -, hrank⟩ := hI.live (U.state j).serving le_rfl <| by
    rw [hv j hnj]
    exact hlt.trans_le (U.issued_mono hnj)
  have hk := hI.place_lt hhas
  rw [ht, hv j hnj] at hk
  -- the first one of its queue is next to be served, too
  obtain ⟨q, hqp, hact, hgone⟩ := hI.exists_head (c := c) (p := p)
    ⟨fun habs => by simp [(hI.own c p).absent habs] at hhas, fun hg => by
      rw [Acq.rank, hg] at hrank
      exact absurd hrank (by decide)⟩
  have hSq := hset c q (hqp.trans_lt hk)
  have hqhas : ((U.state j).acq c q).has = true := by
    rcases Nat.eq_or_lt_of_le hqp with rfl | hlt
    · exact hhas
    · exact hI.has_of_lt hlt hhas
  have hle := hI.ticket_le_of_le hqp hhas
  have hwait := hSq.waits
  cases hph : ((U.state j).acq c q).phase <;> rw [hph] at hwait <;> simp at hwait
  case absent => exact hact.1 hph
  case gone => exact hact.2 hph
  case freed => exact hSq.not_freed hph
  case wait => exact hSq.not_wait_of_has hqhas hph
  case waiting => exact hSq.not_waiting hph
  case queued =>
    obtain ⟨m, hm, hnr⟩ := hSq.not_ready (by simp [hph])
    have hph' := (hSq m hm).trans hph
    refine hnr ?_
    simp only [State.Ready, hph']
    refine ⟨fun _ => U.pred_gone_mono hm (pred_gone_of_head hgone), fun _ => ?_⟩
    obtain ⟨hmhas, hmt⟩ := U.has_mono hm hqhas
    refine le_antisymm ?_ (not_lt.1 fun hlt' => ?_)
    · rw [hmt, hv m (hnj.trans hm), ← hv j hnj, ← ht]
      exact hle
    · have := ((U.inv m).glob c q).done hmhas hlt'
      rw [Acq.rank, hph'] at this
      exact absurd this (by decide)

/-- The first acquisition of a queue does not stay there. -/
theorem Settled.not_active {U : Unfolding H B} (hS : U.Settled c p n)
    (hb : ∀ m, ∀ t ≤ (U.state m).issued, B.blind t = false)
    (hg : ((U.state n).pred c p).phase = .gone) : ¬ ((U.state n).acq c p).Active := by
  intro hact
  have hwait := hS.waits
  cases hph : ((U.state n).acq c p).phase <;> rw [hph] at hwait <;> simp at hwait
  case absent => exact hact.1 hph
  case gone => exact hact.2 hph
  case freed => exact hS.not_freed hph
  case wait => exact hS.not_wait hb hg hph
  case waiting => exact hS.not_waiting hph
  case queued =>
    have hhas := ((U.inv n).own c p).has (by rw [Acq.rank, hph]; decide)
    have hge : ∀ m ≥ n, (U.state m).serving ≤ ((U.state n).acq c p).ticket := by
      intro m hm
      obtain ⟨hmhas, hmt⟩ := U.has_mono hm hhas
      by_contra hlt
      have := ((U.inv m).glob c p).done hmhas (by omega)
      rw [Acq.rank, (hS m hm).trans hph] at this
      exact absurd this (by decide)
    obtain ⟨i, hi, hconst⟩ := Execution.exists_const (f := fun i => (U.state i).serving)
      (fun i j hij => U.serving_mono hij) hge
    -- the ticket being served is that of the acquisition
    have hserved := U.issued_le_serving hconst
    obtain ⟨hihas, hit⟩ := U.has_mono hi hhas
    have hlt := ((U.inv i).glob c p).lt hihas
    have := hge i hi
    omega

theorem exists_gone_of_pred (hb : ∀ m, ∀ t ≤ (U.state m).issued, B.blind t = false)
    (hg : ((U.state n).pred c p).phase = .gone) (hp : ((U.state n).acq c p).phase ≠ .absent) :
    ∃ m ≥ n, ((U.state m).acq c p).phase = .gone := by
  obtain ⟨m, hm, hS⟩ := U.exists_settled c (p + 1) n
  refine ⟨m, hm, ?_⟩
  by_contra hng
  exact (hS p (Nat.lt_succ_self p)).not_active hb (U.pred_gone_mono hm hg)
    ⟨U.present_mono hm hp, hng⟩

/-- Everybody who has come leaves, as long as no ticket drawn looks like none. -/
theorem exists_gone (hb : ∀ m, ∀ t ≤ (U.state m).issued, B.blind t = false)
    (hp : ((U.state n).acq c p).phase ≠ .absent) :
    ∃ m ≥ n, ((U.state m).acq c p).phase = .gone := by
  induction p with
  | zero => exact U.exists_gone_of_pred hb rfl hp
  | succ p ih =>
    -- those in front leave first
    obtain ⟨m, hm, hg⟩ := ih (((U.inv n).links c (p + 1)).present hp)
    obtain ⟨i, hi, hgone⟩ := U.exists_gone_of_pred hb (p := p + 1) hg (U.present_mono hm hp)
    exact ⟨i, hm.trans hi, hgone⟩

/-! ### The events of one acquisition -/

theorem who_mono (hnm : n ≤ m) {h : H} (hw : ((U.state n).acq c p).who = some h) :
    ((U.state m).acq c p).who = some h := by
  obtain ⟨M, hM⟩ := U.exists_events hnm
  exact (U.shows n).who_append (hM ▸ U.shows m) hw

/-- What is seen at time `m` and not at time `n` has happened in between. -/
theorem exists_event (hnm : n ≤ m) {e : Event H UInt64} (hm : (p, e) ∈ stamp (U.events m))
    (hn : (p, e) ∉ stamp (U.events n)) : ∃ i ≥ n, i < m ∧ (p, e) ∉ stamp (U.events i) ∧
      (p, e) ∈ stamp (U.events (i + 1)) ∧ U.events (i + 1) = U.events i ++ [e] := by
  induction m, hnm using Nat.le_induction with
  | base => exact absurd hm hn
  | succ m hnm ih =>
    by_cases hin : (p, e) ∈ stamp (U.events m)
    · obtain ⟨i, hi, him, hrest⟩ := ih hin
      exact ⟨i, hi, him.trans m.lt_succ_self, hrest⟩
    · refine ⟨m, hnm, m.lt_succ_self, hin, hm, ?_⟩
      obtain ⟨x, hx⟩ := U.grows m
      rw [hx] at hm ⊢
      cases x with
      | none => exact absurd (by simpa using hm) hin
      | some x =>
        rw [Option.toList_some, stamp_snoc, List.mem_append] at hm
        have hnew := List.mem_singleton.1 (hm.resolve_left hin)
        rw [Option.toList_some, (Prod.mk.inj hnew).2]

/-- Whoever takes a place in a queue enters the critical section at some time, and leaves it
later. -/
theorem exists_entry (hb : ∀ m, ∀ t ≤ (U.state m).issued, B.blind t = false) {h : H}
    (he : U.events (n + 1) = U.events n ++ [.arrive c h]) :
    ∃ m > n, (∃ t, U.events (m + 1) = U.events m ++ [.enter c h t]) ∧
      ∃ i > m, U.events (i + 1) = U.events i ++ [.leave c h] := by
  -- the new acquisition
  set p := (register (U.events (n + 1))).place h with hp
  have hstamp : (p, .arrive c h) ∈ stamp (U.events (n + 1)) := by
    rw [hp, he, stamp_snoc]
    exact List.mem_append_right _ (List.mem_singleton_self _)
  have hwho : ∀ m > n, ((U.state m).acq c p).who = some h := by
    intro m hm
    obtain ⟨e', he', hd⟩ := (U.shows (n + 1)).did_of_stamp hstamp
    cases e' <;> simp [Event.map] at he'
    obtain ⟨rfl, rfl⟩ := he'
    exact U.who_mono hm hd.1
  have hpres : ((U.state (n + 1)).acq c p).phase ≠ .absent := fun habs => by
    have := hwho (n + 1) n.lt_succ_self
    rw [((U.inv (n + 1)).own c p).absent habs] at this
    cases this
  have habs : ((U.state n).acq c p).phase = .absent := by
    have harr : p = (U.state n).arrived c := by
      rw [hp, he, register_snoc, ← (U.shows n).reach.recorded.arrived, (U.shows n).log,
        register_map]
      simp [Register.next]
    by_contra hne
    exact absurd (((U.inv n).count c p).2 hne) (by omega)
  -- it leaves at some time, and so has entered
  obtain ⟨m, hm, hg⟩ := U.exists_gone hb hpres
  have hdid : ∀ i > n, ((U.state i).acq c p).phase = .gone → i ≤ m →
      (p, .enter c h (word ((U.state m).acq c p).ticket)) ∈ stamp (U.events i) ∧
      (p, .leave c h) ∈ stamp (U.events i) := by
    intro i hi hgi him
    have hihas : ((U.state i).acq c p).has = true :=
      ((U.inv i).own c p).has (by rw [Acq.rank, hgi]; decide)
    rw [(U.has_mono him hihas).2]
    refine ⟨(U.shows i).stamp_of_did (e := .enter c h _) ⟨hwho i hi, ?_, rfl⟩,
      (U.shows i).stamp_of_did (e := .leave c h) ⟨hwho i hi, hgi⟩⟩
    rw [gone_iff_rank] at hgi
    exact Nat.le_trans (by decide) hgi
  have hnot : ∀ e : Event H UInt64, e.side = c → (p, e) ∉ stamp (U.events n) := by
    rintro e rfl hmem
    obtain ⟨e', -, hd⟩ := (U.shows n).did_of_stamp hmem
    have := hd.1
    rw [((U.inv n).own _ p).absent habs] at this
    cases this
  obtain ⟨hen, hle⟩ := hdid m hm hg le_rfl
  obtain ⟨i, hi, him, hinot, -, hie⟩ := U.exists_event (n.le_succ.trans hm) hen (hnot _ rfl)
  obtain ⟨j, hj, -, -, hjin, hje⟩ := U.exists_event (n.le_succ.trans hm) hle (hnot _ rfl)
  have hni : n < i := by
    refine lt_of_le_of_ne hi fun heq => ?_
    subst heq
    have := List.append_cancel_left (he.symm.trans hie)
    simp at this
  have hij : i < j := by
    rcases lt_trichotomy i j with hlt | rfl | hgt
    · exact hlt
    · have := List.append_cancel_left (hie.symm.trans hje)
      simp at this
    · obtain ⟨e', he', hd⟩ := (U.shows (j + 1)).did_of_stamp hjin
      cases e' <;> simp [Event.map] at he'
      exact absurd (hdid i hni (U.gone_mono hgt hd.2) him.le).1 hinot
  exact ⟨i, hni, ⟨_, hie⟩, j, hij, hje⟩

end Unfolding

end Farlock
