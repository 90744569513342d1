import Farlock.FARLockG.Steps
import Farlock.Trace

/-!
# FARLockG: mutual exclusion, the way of the section, order of service

* `exclusion_in_batches`: at most one handler is in the critical section of a lock, also when a
  batch passes it on by `granted_` alone;
* `section_handed_along`: the Peterson section has one owner, each batch lowers the flag once, and
  the fetch-and-adds on `next_ticket_` do not overlap;
* `overtaking_by_batch`: the critical section is entered in the order of the tail exchanges inside a
  class, and a complete request is overtaken by at most one batch of the other class.
-/

namespace Farlock

namespace FARLockG

open Spec TwoParty
open Clients (steps)

variable {H L : Type} [DecidableEq L] {C : Cluster H L} {B : LockConfig} {hB : B.Positive}
  {tr : List (L × Event H UInt64)} {s s' : State H L} {k : L → Spec.State H} {pos : H → ℕ} {l : L}
  {g h : H} {f : Frame H L}

/-- The events on each lock are those of an abstract run. -/
theorem exists_shows [DecidableEq H] (hB : B.Positive) (hr : (system C B).Run tr s) (l : L) :
    ∃ K, Shows (config B hB) (onLock l tr) K := by
  obtain ⟨k, pos, hS⟩ := simulated_of_run hB hr
  exact ⟨k l, hS.shows l⟩

/-! ### The critical section -/

/-- Handler `h` has returned from `Lock` on `l` and has not released it: with `ticket_valid_` set
the release is the store of `current_ticket_`, otherwise the store of `granted_` for the
successor. -/
def InCritical (C : Cluster H L) (s : State H L) (l : L) (h : H) : Prop :=
  ∃ f, s.thread h = .busy f ∧ f.lock = l ∧
    ((f.pc = .critical ∨ f.pc = .loadTicketValid ∨ f.pc = .loadCurrent ∨ f.pc = .storeCurrent) ∨
      (f.pc = .testNextUnlock ∨ f.pc = .casTail ∨ f.pc = .awaitReleasable ∨ f.pc = .loadNextUnlock ∨
        f.pc = .storeGranted) ∧ (s.descriptor (C.side h l) h).ticketValid = false)

/-- Whoever is in the critical section owns the abstract lock. -/
theorem InCritical.owns (hS : Sim (view B) (config B hB) C tr s k pos)
    (hh : InCritical C s l h) : ∃ f, s.thread h = .busy f ∧ f.lock = l ∧ f.phase ≠ .absent ∧
      ((k l).acq (C.side h l) (pos h)).Owns := by
  obtain ⟨f, hf, rfl, hpc⟩ := hh
  have hph : f.phase = .critical ∨ f.phase = .freed ∧
      (s.descriptor (C.side h f.lock) h).ticketValid = false := by
    rcases hpc with hpc | ⟨hpc, hv⟩
    · left
      rcases hpc with hpc | hpc | hpc | hpc <;> simp [Frame.phase, hpc]
    · refine Or.inr ⟨?_, hv⟩
      rcases hpc with hpc | hpc | hpc | hpc | hpc <;> simp [Frame.phase, hpc]
  have hq : f.phase ≠ .absent := by rcases hph with hp | ⟨hp, -⟩ <;> simp [hp]
  have hA := agrees_of_sim hS hf hq
  refine ⟨f, hf, rfl, hq, ?_⟩
  rcases hph with hp | ⟨hp, hv⟩
  · exact Or.inl (hA.phase.trans hp)
  · have hp' := hA.phase.trans hp
    have hr : 11 ≤ ((k f.lock).acq (C.side h f.lock) (pos h)).rank := by grind
    rw [hA.ticketValid] at hv
    simp only [hr, true_and, decide_eq_false_iff_not, not_not] at hv
    exact Or.inr ⟨hp', hv⟩

/-- Mutual exclusion. -/
theorem exclusion_in_batches [DecidableEq H] (hB : B.Positive) (hs : (system C B).Reachable s)
    (hg : InCritical C s l g) (hh : InCritical C s l h) : g = h := by
  obtain ⟨tr, hr⟩ := hs
  obtain ⟨k, pos, hS⟩ := simulated_of_run hB hr
  obtain ⟨fg, hfg, hlg, hqg, hog⟩ := hg.owns hS
  obtain ⟨fh, hfh, rfl, hqh, hoh⟩ := hh.owns hS
  exact hS.eq_of_place hfg hqg hfh hqh hlg ((hS.reach fh.lock).inv.owner_unique hog hoh)

/-- One lock, on node 0, with the handlers 0 and 1 there and the handler 2 on node 1. -/
def trio : Cluster (Fin 3) Unit where
  node h := if h = 2 then 1 else 0
  home _ := 0
  localAddress h := 64 + 64 * h.val.toUInt64
  remoteAddress h := 64 + 64 * h.val.toUInt64
  localAddress_ne_zero := by decide
  localAddress_inj := by decide
  remoteAddress_ne_zero := by decide
  remoteAddress_lt := by decide
  remoteAddress_inj := by decide

/-- The play of a schedule on this cluster with budgets of two. -/
abbrev playTrio (sched : List (Fin 3 × Act Unit)) :
    Option (State (Fin 3) Unit × List (Unit × Event (Fin 3) UInt64)) :=
  State.play (fun l => { lock := l }) (exec trio ⟨2, 2⟩) (.zero {}) sched

/-- Handler 1 has returned from `Lock` after the grant by handler 0, whose ticket it shares. -/
theorem exclusion_in_batches_trio : ∃ s : State (Fin 3) Unit,
    (system trio ⟨2, 2⟩).Reachable s ∧ InCritical trio s () 1 ∧
    ∀ h, InCritical trio s () h → h = 1 := by
  obtain ⟨y, hy, hf⟩ : ∃ y ∈ playTrio ((0, .call ()) :: steps 0 12 ++
      (1, .call ()) :: steps 1 9 ++ steps 0 8 ++ steps 1 7 ++ steps 0 7 ++ steps 1 1),
      y.1.thread 1 = .busy { lock := (), pc := .critical, prev := some 0, ticketFromPrev := true } := by
    decide
  have hreach : (system trio ⟨2, 2⟩).Reachable y.1 := ⟨y.2, State.run_of_mem_play hy⟩
  have hin : InCritical trio y.1 () 1 := ⟨_, hf, rfl, Or.inl (Or.inl rfl)⟩
  exact ⟨y.1, hreach, hin, fun h hh => exclusion_in_batches ⟨by decide, by decide⟩ hreach hh hin⟩

/-! ### The Peterson section -/

/-- The program points between `LockPetersons`, or the receipt of a batch ticket, and
`UnlockPetersons`, or the last store into the successor's descriptor. -/
def Pc.inSection : Pc → Bool
  | .loadNextTicket | .storeNextTicket | .testNext | .assertBudget | .testLast | .clearFlagFull
  | .loadNextBatch | .storeNextBatchTicket | .loadNextBudget | .loadBudget | .storeNextBudget
  | .clearFlag => true
  | _ => false

/-- The program points at which a pair of batch ticket and budget may have been written to the
handler and is not received yet. -/
def Pc.awaitsPair : Pc → Bool
  | .loadPrevTicketValid | .storePrevReleasable | .awaitBudget | .testBudget
  | .loadBatchTicket => true
  | _ => false

/-- Handler `h` has the right to the Peterson section of `l`: it is inside, or a pair of batch
ticket and budget was just written to it. -/
def OwnsSection (C : Cluster H L) (B : LockConfig) (s : State H L) (l : L) (h : H) : Prop :=
  ∃ f, s.thread h = .busy f ∧ f.lock = l ∧
    (f.pc.inSection = true ∨
      f.pc.awaitsPair = true ∧ (s.descriptor (C.side h l) h).budget ≠ kNoBudget ∧
        (s.descriptor (C.side h l) h).budget ≠ B.kInitBudget (C.side h l))

/-- Handler `h` is at its fetch-and-add on `next_ticket_`. -/
def AtFetchAdd (s : State H L) (l : L) (h : H) : Prop :=
  ∃ f, s.thread h = .busy f ∧ f.lock = l ∧ (f.pc = .loadNextTicket ∨ f.pc = .storeNextTicket)

omit [DecidableEq L] in
theorem AtFetchAdd.ownsSection (hh : AtFetchAdd s l h) : OwnsSection C B s l h := by
  obtain ⟨f, hf, hl, hpc⟩ := hh
  refine ⟨f, hf, hl, Or.inl ?_⟩
  rcases hpc with hpc | hpc <;> rw [hpc] <;> rfl

omit [DecidableEq L] in
theorem inSection_of_drawn (hp : f.phase = .drawn) : f.pc.inSection = true := by
  simp only [Frame.phase] at hp
  cases hpc : f.pc <;> simp only [hpc] at hp <;> first | rfl | cases hp | skip
  all_goals split at hp <;> cases hp

omit [DecidableEq L] in
theorem awaitsPair_iff : f.pc.awaitsPair = true ↔ 2 ≤ f.phase.rank ∧ f.phase.rank ≤ 4 := by
  simp only [Frame.phase]
  cases hpc : f.pc <;> simp only [Pc.awaitsPair] <;> first | decide | split <;> decide

/-- The right to the section is that of the abstract lock. -/
theorem OwnsSection.inSection (hS : Sim (view B) (config B hB) C tr s k pos)
    (hh : OwnsSection C B s l h) : ∃ f, s.thread h = .busy f ∧ f.lock = l ∧ f.phase ≠ .absent ∧
      ((k l).acq (C.side h l) (pos h)).InSection := by
  obtain ⟨f, hf, rfl, hpc | ⟨hpc, hb, hb'⟩⟩ := hh
  · have hph : f.phase = .passed ∨ f.phase = .drawn := by
      cases hp : f.pc <;> simp [hp, Pc.inSection] at hpc <;> simp [Frame.phase, hp]
    have hq : f.phase ≠ .absent := by rcases hph with hp | hp <;> simp [hp]
    have hA := agrees_of_sim hS hf hq
    rw [← hA.phase] at hph
    exact ⟨f, hf, rfl, hq, hph.imp_right Or.inl⟩
  · have hph := awaitsPair_iff.1 hpc
    have hq : f.phase ≠ .absent := fun habs => by simp [habs, Phase.rank] at hph
    have hA := agrees_of_sim hS hf hq
    refine ⟨f, hf, rfl, hq, Or.inr (Or.inr ⟨?_, by rw [Acq.rank, hA.phase]; exact hph.2⟩)⟩
    -- without a ticket the budget would be one of the two values
    by_contra hhas
    rw [hA.budget, if_neg hhas] at hb hb'
    split_ifs at hb hb' <;> simp_all

theorem rank_le_of_ne_drawn {a : Acq H} (hr : a.rank ≤ 9) (hne : a.phase ≠ .drawn) :
    a.rank ≤ 8 := by
  cases hp : a.phase <;> simp_all [Acq.rank, Phase.rank]

/-- Whoever has a ticket and has not left the section has the right to it. -/
theorem ownsSection_of_has (hS : Sim (view B) (config B hB) C tr s k pos)
    (hf : s.thread h = .busy f) (hq : f.phase ≠ .absent)
    (hhas : ((k f.lock).acq (C.side h f.lock) (pos h)).has = true)
    (hr : ((k f.lock).acq (C.side h f.lock) (pos h)).rank ≤ 9) : OwnsSection C B s f.lock h := by
  have hA := agrees_of_sim hS hf hq
  have hK := hS.reach f.lock
  have hown := hK.inv.own (C.side h f.lock) (pos h)
  by_cases h9 : f.phase = .drawn
  · exact ⟨f, hf, rfl, Or.inl (inSection_of_drawn h9)⟩
  · obtain ⟨h4, hlead⟩ := hown.early hhas (rank_le_of_ne_drawn hr (hA.phase ▸ h9))
    have hlink := hK.inv.links (C.side h f.lock) (pos h)
    have h2 := (hlink.handed (hlink.joined hhas hlead)).2.1
    have hb : (s.descriptor (C.side h f.lock) h).budget =
        word ((k f.lock).acq (C.side h f.lock) (pos h)).budget := by rw [hA.budget, if_pos hhas]
    refine ⟨f, hf, rfl, Or.inr ⟨?_, ?_, ?_⟩⟩
    · rw [Acq.rank, hA.phase] at h2 h4
      exact awaitsPair_iff.2 ⟨h2, h4⟩
    · rw [hb]
      intro heq
      have hlt := (budget_lt hK hhas).2
      have htn := congrArg UInt64.toNat heq
      rw [word_toNat (by omega), show kNoBudget.toNat = 2 ^ 64 - 1 from rfl] at htn
      omega
    · rw [hb]
      exact word_budget_ne hK hhas hlead

section Batch

variable [DecidableEq H] {i p : ℕ} {c : Side} {t : UInt64}
  (hS : Sim (view B) (config B hB) C tr s k pos) (hl : Shows (config B hB) (onLock l tr) (k l))
include hS hl

/-- A batch has lowered the flag exactly once and owns nothing any more, or it has not and one of
its members has the right to the section. -/
theorem lowered_or_owned (hi : (draws (onLock l tr))[i]? = some (c, p, t)) :
    ((∃! q, InBatch (onLock l tr) i c q ∧ (c, q) ∈ lowers (onLock l tr)) ∧
      ∀ h, OwnsSection C B s l h → C.side h l = c →
        ¬ InBatch (onLock l tr) i c ((register (onLock l tr)).place h)) ∨
    (∀ q, InBatch (onLock l tr) i c q → (c, q) ∉ lowers (onLock l tr)) ∧
      ∃ h, OwnsSection C B s l h ∧ C.side h l = c ∧
        InBatch (onLock l tr) i c ((register (onLock l tr)).place h) := by
  have hI := hl.reach.inv
  obtain ⟨-, hmem⟩ := hl.getElem_draws.1 hi
  obtain ⟨hhas, -, hpt⟩ := (Spec.mem_draws hl.reach).1 hmem
  obtain ⟨q, -, hq, hqt, ho⟩ := hI.exists_last hhas
  rw [hpt] at hqt
  simp only [hl.inBatch, hl.mem_lowers]
  by_cases hr : 10 ≤ ((k l).acq c q).rank
  · refine Or.inl ⟨⟨q, ⟨⟨hq, hqt⟩, hr, ho⟩, ?_⟩, ?_⟩
    · rintro q' ⟨⟨hq', hqt'⟩, -, ho'⟩
      exact hI.last_unique hq' hq (hqt'.trans hqt.symm) ho' ho
    · rintro h hh rfl ⟨hhas', ht'⟩
      obtain ⟨f, hf, rfl, hqf, hin⟩ := hh.inSection hS
      have hA := agrees_of_sim hS hf hqf
      have hlow : ((k f.lock).acq (C.side h f.lock) (pos h)).rank ≤ 9 := by
        rcases hin with hin | hin | ⟨-, hin⟩ <;> grind -linarith
      have hpl := hl.place hA.who fun hg => by grind
      rw [hpl] at hhas' ht'
      have ho' : ((k f.lock).acq (C.side h f.lock) (pos h)).out ≠ .handed := fun ho' => by
        have := (hI.own (C.side h f.lock) (pos h)).out (by simp [ho'])
        omega
      have := hI.last_unique hhas' hq (ht'.trans hqt.symm) ho' ho
      rw [this] at hlow
      omega
  · refine Or.inr ⟨?_, ?_⟩
    · rintro q' ⟨hq', hqt'⟩ ⟨hr', ho'⟩
      exact hr (hI.last_unique hq' hq (hqt'.trans hqt.symm) ho' ho ▸ hr')
    · have hne : ((k l).acq c q).phase ≠ .absent := fun habs => by
        simp [(hI.own c q).absent habs] at hq
      obtain ⟨h, f, hf, hfl, hc, rfl, hqf⟩ := hS.exists_handler (l := l) (c := c) (q := q)
        ⟨hne, fun hg => by grind⟩
      change f.lock = l at hfl
      subst hfl hc
      have hA := agrees_of_sim hS hf hqf
      refine ⟨h, ownsSection_of_has hS hf hqf hq (by omega), rfl, ?_⟩
      rw [hl.place hA.who fun hg => by grind]
      exact ⟨hq, hqt⟩

/-- Whoever is about to raise the flag finds it lowered by all batches of its class. -/
theorem lowered_of_storeFlag (hf : s.thread h = .busy f) (hfl : f.lock = l)
    (hpc : f.pc = .storeFlag) (hi : (draws (onLock l tr))[i]? = some (C.side h l, p, t)) :
    ∃ q, InBatch (onLock l tr) i (C.side h l) q ∧ (C.side h l, q) ∈ lowers (onLock l tr) := by
  subst hfl
  have hph : f.phase = .ready := by simp [Frame.phase, hpc]
  have hp := (agrees_of_sim hS hf (by simp [hph])).phase.trans hph
  have hI := hl.reach.inv
  obtain ⟨-, hmem⟩ := hl.getElem_draws.1 hi
  obtain ⟨hhas, -, hpt⟩ := (Spec.mem_draws hl.reach).1 hmem
  obtain ⟨q, -, hq, hqt, ho⟩ := hI.exists_last hhas
  refine ⟨q, hl.inBatch.2 ⟨hq, hqt.trans hpt⟩, hl.mem_lowers.2 ⟨?_, ho⟩⟩
  -- a member that is not past the section would keep the handler from getting here
  rcases lt_trichotomy q (pos h) with hlt | rfl | hgt
  · have := hI.admitted_of_lt hlt (Or.inl (by rw [Acq.rank, hp]; decide))
    omega
  · have := (hI.own (C.side h f.lock) (pos h)).early hq (by grind)
    grind
  · have := hI.admitted_of_lt hgt (Or.inr hq)
    grind

end Batch

/-- The Peterson section goes along a batch without being lost or shared. -/
theorem section_handed_along [DecidableEq H] (hB : B.Positive) (hr : (system C B).Run tr s) (l : L) :
    (∀ g h, OwnsSection C B s l g → OwnsSection C B s l h → g = h) ∧
    (lowers (onLock l tr)).Nodup ∧
    (∀ (i : ℕ) c p t, (draws (onLock l tr))[i]? = some (c, p, t) →
      ((∃! q, InBatch (onLock l tr) i c q ∧ (c, q) ∈ lowers (onLock l tr)) ∧
        ∀ h, OwnsSection C B s l h → C.side h l = c →
          ¬ InBatch (onLock l tr) i c ((register (onLock l tr)).place h)) ∨
      (∀ q, InBatch (onLock l tr) i c q → (c, q) ∉ lowers (onLock l tr)) ∧
        ∃ h, OwnsSection C B s l h ∧ C.side h l = c ∧
          InBatch (onLock l tr) i c ((register (onLock l tr)).place h)) ∧
    (∀ h f, s.thread h = .busy f → f.lock = l → f.pc = .storeFlag →
      ∀ (i : ℕ) p t, (draws (onLock l tr))[i]? = some (C.side h l, p, t) →
        ∃ q, InBatch (onLock l tr) i (C.side h l) q ∧ (C.side h l, q) ∈ lowers (onLock l tr)) ∧
    (∀ g h, AtFetchAdd s l g → AtFetchAdd s l h → g = h) ∧
    (∀ (i : ℕ) (t : UInt64), ((onLock l tr).filterMap Event.drawn)[i]? = some t →
      t.toNat = i % 2 ^ 64) := by
  obtain ⟨k, pos, hS⟩ := simulated_of_run hB hr
  have hl := hS.shows l
  have huniq : ∀ g h, OwnsSection C B s l g → OwnsSection C B s l h → g = h := by
    intro g h hg hh
    obtain ⟨fg, hfg, hlg, hqg, hig⟩ := hg.inSection hS
    obtain ⟨fh, hfh, rfl, hqh, hih⟩ := hh.inSection hS
    exact hS.eq_of_place hfg hqg hfh hqh hlg ((hS.reach fh.lock).inv.section_unique hig hih)
  refine ⟨huniq, ?_, fun i c p t hi => lowered_or_owned hS hl hi,
    fun h f hf hfl hpc i p t hi => lowered_of_storeFlag hS hl hf hfl hpc hi,
    fun g h hg hh => huniq g h hg.ownsSection hh.ownsSection, fun i t hi => ?_⟩
  · rw [hl.log, lowers_map]
    exact lowers_nodup hl.reach
  · rw [hl.drawn, List.getElem?_map, Option.map_eq_some_iff] at hi
    obtain ⟨n, hn, rfl⟩ := hi
    obtain ⟨-, rfl⟩ := List.getElem?_eq_some_iff.1 hn
    rw [List.getElem_range]
    exact UInt64.toNat_ofNat'

/-- Handler 0 has just handed the section and its ticket to handler 1. -/
theorem section_handed_along_trio :
    ∃ (s : State (Fin 3) Unit) (tr : List (Unit × Event (Fin 3) UInt64)),
    (system trio ⟨2, 2⟩).Run tr s ∧ OwnsSection trio ⟨2, 2⟩ s () 1 ∧
    (∀ h, OwnsSection trio ⟨2, 2⟩ s () h → h = 1) ∧
    (draws (onLock () tr))[0]? = some (.loc, 0, 0) ∧
    ∃ h, OwnsSection trio ⟨2, 2⟩ s () h ∧ InBatch (onLock () tr) 0 .loc
      ((register (onLock () tr)).place h) := by
  obtain ⟨y, hy, hf, hb, hd, hlow⟩ : ∃ y ∈ playTrio ((0, .call ()) :: steps 0 12 ++
      (1, .call ()) :: steps 1 9 ++ steps 0 7),
      y.1.thread 1 = .busy { lock := (), pc := .awaitBudget, prev := some 0 } ∧
      (y.1.descriptor .loc 1).budget = 1 ∧ (draws (onLock () y.2))[0]? = some (.loc, 0, 0) ∧
      lowers (onLock () y.2) = [] := by decide
  have hrun : (system trio ⟨2, 2⟩).Run y.2 y.1 := State.run_of_mem_play hy
  have hside : trio.side 1 () = .loc := rfl
  have hown : OwnsSection trio ⟨2, 2⟩ y.1 () 1 :=
    ⟨_, hf, rfl, Or.inr ⟨rfl, by rw [hside, hb]; decide, by rw [hside, hb]; decide⟩⟩
  obtain ⟨h1, -, h3, -⟩ := section_handed_along ⟨by decide, by decide⟩ hrun ()
  refine ⟨y.1, y.2, hrun, hown, fun h hh => h1 h 1 hh hown, hd, ?_⟩
  rcases h3 0 _ _ _ hd with ⟨⟨q, ⟨-, hq⟩, -⟩, -⟩ | ⟨-, h, hh, -, hin⟩
  · simp [hlow] at hq
  · exact ⟨h, hh, hin⟩

/-! ### The order of service -/

/-- Inside a class the critical section is entered in the order of the tail exchanges.  From the
moment when handler `h` has completed its request until it enters, at most as many acquisitions as
the other class's budget allows enter under tickets of that class that were not drawn then. -/
theorem overtaking_by_batch [DecidableEq H] (hB : B.Positive) (hr : (system C B).Run tr s) (l : L) :
    (∀ c, entryOrder c (onLock l tr) = List.range (entryOrder c (onLock l tr)).length) ∧
    ∀ tr₁ tr₂ c h, tr = tr₁ ++ (l, .request c h) :: tr₂ → (∀ t, (l, .enter c h t) ∉ tr₂) →
      {q | (∃ t, (other c, q, t) ∈ entries (onLock l tr)) ∧
        ∃ i, (draws (onLock l tr₁)).length ≤ i ∧
          InBatch (onLock l tr) i (other c) q}.encard ≤ (B.kInitBudget (other c)).toNat := by
  obtain ⟨K, hK⟩ := exists_shows hB hr l
  constructor
  · intro c
    rw [hK.log, entryOrder_map]
    exact entryOrder_eq_range hK.reach c
  · rintro tr₁ tr₂ c h rfl hno
    have hlog : onLock l (tr₁ ++ (l, .request c h) :: tr₂) =
        onLock l tr₁ ++ .request c h :: onLock l tr₂ := by simp
    rw [hlog] at hK ⊢
    exact hK.encard_bypass_le fun t ht => hno t (mem_onLock.1 ht)

/-- Handler 0 is in the section when handlers 2 and 1 come; it hands the section to handler 1. -/
def overtaken : List (Fin 3 × Act Unit) :=
  (0, .call ()) :: steps 0 10 ++ (2, .call ()) :: steps 2 9 ++ (1, .call ()) :: steps 1 9 ++
    steps 0 10 ++ steps 1 7 ++ steps 0 7 ++ steps 1 1

/-- Handler 2 has completed its request; handler 0, in the section then, draws a ticket and shares
it with handler 1, and both enter before handler 2. -/
theorem overtaking_by_batch_trio :
    ∃ (s : State (Fin 3) Unit) (tr₁ tr₂ : List (Unit × Event (Fin 3) UInt64)),
    (system trio ⟨2, 2⟩).Run (tr₁ ++ ((), .request .rem 2) :: tr₂) s ∧
    draws (onLock () tr₁) = [] ∧
    entryOrder .loc (onLock () (tr₁ ++ ((), .request .rem 2) :: tr₂)) = [0, 1] ∧
    {q | (∃ t, (.loc, q, t) ∈ entries (onLock () (tr₁ ++ ((), .request .rem 2) :: tr₂))) ∧
      ∃ i, (draws (onLock () tr₁)).length ≤ i ∧
        InBatch (onLock () (tr₁ ++ ((), .request .rem 2) :: tr₂)) i .loc q}.encard ≤ 2 := by
  obtain ⟨y, hy, hev⟩ : ∃ y ∈ playTrio overtaken,
      y.2 = [((), .arrive .loc 0), ((), .raise .loc 0), ((), .request .loc 0), ((), .arrive .rem 2),
          ((), .raise .rem 2)] ++ ((), .request .rem 2) ::
        [((), .arrive .loc 1), ((), .draw .loc 0 0), ((), .hand .loc 0), ((), .lower .loc 1),
          ((), .enter .loc 0 0), ((), .leave .loc 0), ((), .enter .loc 1 0)] := by decide
  have hrun := State.run_of_mem_play hy
  rw [hev] at hrun
  obtain ⟨-, h2⟩ := overtaking_by_batch (B := ⟨2, 2⟩) ⟨by decide, by decide⟩ hrun ()
  exact ⟨y.1, _, _, hrun, by decide, by decide, h2 _ _ .rem 2 rfl (by simp)⟩

end FARLockG

end Farlock
