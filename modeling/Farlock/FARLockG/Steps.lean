import Farlock.FARLockG.Refinement
import Farlock.Spec.Batches

/-!
# Every step of FARLockG is a move of the abstract lock

One lemma for each group of program points, and `simulated_of_run` for whole runs.
-/

namespace Farlock

namespace FARLockG

open Spec

variable {H L : Type} [DecidableEq L] {C : Cluster H L} {B : LockConfig} {hB : B.Positive}
  {tr : List (L × Event H UInt64)} {s s' : State H L} {k : L → Spec.State H} {pos : H → ℕ} {h : H}
  {f : Frame H L} {b : Bool} {x : Option (L × Event H UInt64)}

/-- Some abstract states go along with `s`. -/
def Simulated (C : Cluster H L) (B : LockConfig) (hB : B.Positive) (tr : List (L × Event H UInt64))
    (s : State H L) : Prop :=
  ∃ k pos, Sim (view B) (config B hB) C tr s k pos

/-- What is known about a handler in a queue. -/
theorem agrees_of_sim (hS : Sim (view B) (config B hB) C tr s k pos) (hf : s.thread h = .busy f)
    (hq : f.phase ≠ .absent) :
    Agrees B (C.side h f.lock) h f (s.descriptor (C.side h f.lock) h)
      ((k f.lock).pred (C.side h f.lock) (pos h)) ((k f.lock).acq (C.side h f.lock) (pos h))
      ((k f.lock).acq (C.side h f.lock) (pos h + 1)) (k f.lock).issued (k f.lock).serving :=
  hS.queued h f hf hq

/-- The predecessor of a handler that has not let it go is still there. -/
theorem pred_present (hS : Sim (view B) (config B hB) C tr s k pos) (hf : s.thread h = .busy f)
    (hq : f.phase ≠ .absent) (h1 : 1 ≤ f.phase.rank) (h3 : f.phase.rank ≤ 3) :
    ((k f.lock).pred (C.side h f.lock) (pos h)).phase ≠ .gone ∧
      ∃ n, f.prev = some n ∧ ((k f.lock).pred (C.side h f.lock) (pos h)).who = some n := by
  have hA := agrees_of_sim hS hf hq
  have hI := (hS.reach f.lock).inv
  have hp := hA.phase
  have hhas := (hI.own (C.side h f.lock) (pos h)).prev (by grind) (by grind)
  refine ⟨fun hg => ?_, ?_⟩
  · have := (hI.links (C.side h f.lock) (pos h)).marked hg hhas
    grind
  · obtain ⟨n, hn⟩ := Option.isSome_iff_exists.1 (hA.hasPrev.trans hhas)
    exact ⟨n, hn, (hA.prev (by grind)).symm.trans hn⟩

/-- The number of acquisitions that may still join is a small one. -/
theorem budget_lt {K : Spec.State H} (hK : Reachable (config B hB) K) {c : Side} {p : ℕ}
    (hhas : (K.acq c p).has = true) : 1 ≤ (K.acq c p).budget ∧ (K.acq c p).budget < 2 ^ 32 := by
  have hb := (hK.inv.own c p).budget hhas
  have := B.kInitBudget_lt c
  simp only [config] at hb
  omega

/-- Whoever was handed its ticket does not find the full budget with it. -/
theorem word_budget_ne {K : Spec.State H} (hK : Reachable (config B hB) K) {c : Side} {p : ℕ}
    (hhas : (K.acq c p).has = true) (hlead : (K.acq c p).lead = false) :
    word (K.acq c p).budget ≠ B.kInitBudget c := fun heq => by
  have hlt := hK.inv.budget_lt_of_joined hhas hlead
  have hb := budget_lt hK hhas
  have htn := congrArg UInt64.toNat heq
  rw [word_toNat (by omega)] at htn
  simp only [config] at hlt
  omega

/-- A successor that was handed no ticket has drawn its own, with the full budget. -/
theorem word_budget_of_out {K : Spec.State H} (hK : Reachable (config B hB) K) {c : Side} {p : ℕ}
    (ho : (K.acq c p).out ≠ .handed) (hhas : (K.acq c (p + 1)).has = true) :
    word (K.acq c (p + 1)).budget = B.kInitBudget c := by
  have hlead : (K.acq c (p + 1)).lead = true := by
    by_contra hne
    exact ho ((hK.inv.links c (p + 1)).joined hhas (by simpa using hne))
  rw [(hK.inv.own c (p + 1)).full hhas hlead]
  exact word_toNat_self _

/-- Nobody in front of whom the ticket is drawn has offered it. -/
theorem offered_of_out {K : Spec.State H} (hK : Reachable (config B hB) K) {c : Side} {p : ℕ}
    (hp : (K.acq c p).phase ≠ .drawn) (ho : (K.acq c p).out ≠ .handed) :
    (K.acq c p).offered = false := by
  by_contra hoff
  rcases (hK.inv.own c p).offered (by simpa using hoff) with ⟨hd, -⟩ | hd
  · exact hp hd
  · exact ho hd

section Steps

variable [DecidableEq H] (hS : Sim (view B) (config B hB) C tr s k pos) (hf : s.thread h = .busy f)
include hS hf

theorem simulated_own (hq : f.phase ≠ .absent) {f' : Frame H L} {w' : LockWords H}
    {d' : Descriptor H} {e : Option (Event H ℕ)} {K' : Spec.State H} {a' : Acq H}
    (hstep : Step (config B hB) (k f.lock) K')
    (hacq : K'.acq = ((k f.lock).put (C.side h f.lock) (pos h) a').acq)
    (hlog : K'.log = (k f.lock).log ++ e.toList) (hlock : LockOk w' K') (hl : f'.lock = f.lock)
    (hself : Agrees B (C.side h f.lock) h f' d' ((k f.lock).pred (C.side h f.lock) (pos h)) a'
      ((k f.lock).acq (C.side h f.lock) (pos h + 1)) K'.issued K'.serving)
    (hpred : SamePred ((k f.lock).acq (C.side h f.lock) (pos h)) a')
    (hsucc : SameSucc ((k f.lock).acq (C.side h f.lock) (pos h)) a')
    (hT : K'.issued = (k f.lock).issued ∨ f.phase = .passed)
    (hR : K'.serving = (k f.lock).serving ∨
      (k f.lock).serving ≤ K'.serving ∧ f.phase = .critical)
    (hs' : s' = ((s.setLock f.lock w').setDescriptor (C.side h f.lock) h d').goto h f') :
    Simulated C B hB (tr ++ ((e.map (Event.map word)).map fun x => (f.lock, x)).toList) s' :=
  hs' ▸ ⟨_, _, hS.own hf hq hstep hacq hlog hlock hl hself hpred hsucc hT hR⟩

theorem simulated_stay (hq : f.phase ≠ .absent) {f' : Frame H L} (hl : f'.lock = f.lock)
    (hself : Agrees B (C.side h f.lock) h f' (s.descriptor (C.side h f.lock) h)
      ((k f.lock).pred (C.side h f.lock) (pos h)) ((k f.lock).acq (C.side h f.lock) (pos h))
      ((k f.lock).acq (C.side h f.lock) (pos h + 1)) (k f.lock).issued (k f.lock).serving) :
    Simulated C B hB (tr ++ Option.toList none) (s.goto h f') := by
  rw [Option.toList_none, List.append_nil]
  exact ⟨_, _, hS.stay hf hq hl hself⟩

/-- A step that changes nothing but registers, and leaves the ticket alone. -/
theorem simulated_go (hq : f.phase ≠ .absent) {f' : Frame H L} (hp : f'.phase = f.phase)
    (hl : f'.lock = f.lock) (hprev : f'.prev = f.prev)
    (hfrom : f'.ticketFromPrev = f.ticketFromPrev) (ht : f'.ticket = f.ticket)
    (hb : f'.pc ≠ .storeBudget) (hb' : f.pc ≠ .storeBudget)
    (hk : f'.Knows (C.side h f.lock) ((k f.lock).pred (C.side h f.lock) (pos h))
      ((k f.lock).acq (C.side h f.lock) (pos h)) ((k f.lock).acq (C.side h f.lock) (pos h + 1))
      (k f.lock).issued (k f.lock).serving) :
    Simulated C B hB (tr ++ Option.toList none) (s.goto h f') :=
  simulated_stay hS hf hq hl ((agrees_of_sim hS hf hq).go hp hprev hfrom (fun _ => ht)
    (iff_of_false hb hb') hk)

/-- `prev->next_ = descriptor` -/
theorem sim_storePrevNext (hpc : f.pc = .storePrevNext) (hex : exec C B s h f b = some (s', x)) :
    Simulated C B hB (tr ++ x.toList) s' := by
  have hph : f.phase = .link := by simp [Frame.phase, hpc]
  have hq : f.phase ≠ .absent := by simp [hph]
  have hA := agrees_of_sim hS hf hq
  have hp := hA.phase.trans hph
  obtain ⟨hg, n, hprev, hw⟩ := pred_present hS hf hq (by simp [hph, Phase.rank])
    (by simp [hph, Phase.rank])
  simp only [exec, hpc, hprev, Option.map_some, Option.some.injEq, Prod.mk.injEq] at hex
  obtain ⟨rfl, rfl⟩ := hex
  exact ⟨_, _, hS.storePrev (e := none) hf hq (Step.link hp) rfl (by simp)
    ((hS.words f.lock).quiet (by rfl) (by grind)) hg hw rfl
    (by simp) (hprev ▸ hA.link hpc)
    (fun fn pr T R hn => Agrees.linked_by hn hp hA.who)
    (samePred_phase (by simp [view, hp]) (by simp)) rfl rfl⟩

/-- `ticket = prev->ticket_valid_` -/
theorem sim_loadPrevTicketValid (hpc : f.pc = .loadPrevTicketValid)
    (hex : exec C B s h f b = some (s', x)) : Simulated C B hB (tr ++ x.toList) s' := by
  have hph : f.phase = .look := by simp [Frame.phase, hpc]
  have hq : f.phase ≠ .absent := by simp [hph]
  have hA := agrees_of_sim hS hf hq
  have hp := hA.phase.trans hph
  obtain ⟨hg, n, hprev, hw⟩ := pred_present hS hf hq (by simp [hph, Phase.rank])
    (by simp [hph, Phase.rank])
  simp only [exec, hpc, hprev, Option.map_some, Option.some.injEq, Prod.mk.injEq] at hex
  obtain ⟨rfl, rfl⟩ := hex
  obtain ⟨fn, hn, hln, hcn, hpn, hqn⟩ := hS.pred_busy hg hw
  have hAn := agrees_of_sim hS hn hqn
  have hln : fn.lock = f.lock := hln
  rw [hln, hcn] at hAn
  have hvalid : (s.descriptor (C.side h f.lock) n).ticketValid =
      (decide ((k f.lock).pred (C.side h f.lock) (pos h)).Published &&
        !(config B hB).blind ((k f.lock).pred (C.side h f.lock) (pos h)).ticket) := by
    rw [hAn.ticketValid, hpn, pred_succ]
    exact (Bool.and_true _).symm
  have hA' := hA.look hpc (s.descriptor (C.side h f.lock) n).ticketValid
  rw [hvalid, hprev] at hA'
  rw [hvalid]
  exact simulated_own hS hf hq (e := none) (Step.look hp) rfl (by simp)
    ((hS.words f.lock).quiet (by rfl) (by grind)) (by rfl) hA'
    ⟨rfl, rfl, by grind, rfl, fun _ => rfl⟩
    ⟨fun _ => rfl, by simp, by grind, by grind⟩ (Or.inl rfl) (Or.inl rfl)
    (by simp)

/-- `prev->releasable_ = kTrue` -/
theorem sim_storePrevReleasable (hpc : f.pc = .storePrevReleasable)
    (hex : exec C B s h f b = some (s', x)) : Simulated C B hB (tr ++ x.toList) s' := by
  have hph : f.phase = .mark := by simp [Frame.phase, hpc]
  have hq : f.phase ≠ .absent := by simp [hph]
  have hA := agrees_of_sim hS hf hq
  have hp := hA.phase.trans hph
  obtain ⟨hg, n, hprev, hw⟩ := pred_present hS hf hq (by simp [hph, Phase.rank])
    (by simp [hph, Phase.rank])
  simp only [exec, hpc, hprev, Option.map_some, Option.some.injEq, Prod.mk.injEq] at hex
  obtain ⟨rfl, rfl⟩ := hex
  have hA' := hA.mark hpc
  exact ⟨_, _, hS.storePrev (e := none) hf hq (Step.mark hp) rfl (by simp)
    ((hS.words f.lock).quiet (by rfl) (by grind)) hg hw rfl
    (by dsimp only; split <;> simp) (hprev ▸ hA')
    (fun fn pr T R hn => Agrees.marked_by hn hp)
    (samePred_phase (by simp [view, hp]) (by split <;> simp)) rfl rfl⟩

/-- The loop on `budget_ == -1` -/
theorem sim_awaitBudget (hpc : f.pc = .awaitBudget) (hex : exec C B s h f b = some (s', x)) :
    Simulated C B hB (tr ++ x.toList) s' := by
  have hph : f.phase = .wait := by simp [Frame.phase, hpc]
  have hq : f.phase ≠ .absent := by simp [hph]
  have hA := agrees_of_sim hS hf hq
  have hp := hA.phase.trans hph
  simp only [exec, hpc, Option.some.injEq, Prod.mk.injEq] at hex
  obtain ⟨rfl, rfl⟩ := hex
  by_cases hd : (s.descriptor (C.side h f.lock) h).budget = kNoBudget
  · rw [if_pos hd, ← hpc]
    exact simulated_stay hS hf hq rfl hA
  · rw [if_neg hd]
    refine simulated_go hS hf hq (by rw [hph]; rfl) rfl rfl rfl rfl (by simp) (by simp [hpc])
      ?_
    rw [hA.budget] at hd
    simp only [Frame.Knows]
    grind

/-- `if (descriptor.budget_ != kInitBudget_)` -/
theorem sim_testBudget (hpc : f.pc = .testBudget) (hex : exec C B s h f b = some (s', x)) :
    Simulated C B hB (tr ++ x.toList) s' := by
  have hph : f.phase = .wait := by simp [Frame.phase, hpc]
  have hq : f.phase ≠ .absent := by simp [hph]
  have hA := agrees_of_sim hS hf hq
  have hp := hA.phase.trans hph
  have hI := (hS.reach f.lock).inv
  have hk := hA.knows
  simp only [Frame.Knows, hpc] at hk
  simp only [exec, hpc, Option.some.injEq, Prod.mk.injEq] at hex
  obtain ⟨rfl, rfl⟩ := hex
  -- whoever was handed a ticket got less than the full budget with it
  have hless : ((k f.lock).acq (C.side h f.lock) (pos h)).has = true →
      (s.descriptor (C.side h f.lock) h).budget ≠ B.kInitBudget (C.side h f.lock) := by
    intro hhas heq
    have hlead := ((hI.own (C.side h f.lock) (pos h)).early hhas (by grind)).2
    rw [hA.budget, if_pos hhas] at heq
    exact word_budget_ne (hS.reach f.lock) hhas hlead heq
  by_cases hd : (s.descriptor (C.side h f.lock) h).budget = B.kInitBudget (C.side h f.lock)
  · rw [if_neg (by simpa using hd)]
    have hhas : ((k f.lock).acq (C.side h f.lock) (pos h)).has ≠ true := fun hh => hless hh hd
    exact simulated_own hS hf hq (e := none) (Step.lead hp (hk.resolve_right hhas)) rfl (by simp)
      ((hS.words f.lock).quiet (by rfl) (by grind)) (by rfl) (hA.lead hpc)
      (samePred_phase (by simp [hp]) (by simp))
      (sameSucc_of_rank rfl (by grind) (by grind)) (Or.inl rfl) (Or.inl rfl) (by simp)
  · rw [if_pos hd]
    refine simulated_go hS hf hq (by rw [hph]; rfl) rfl rfl rfl rfl (by simp) (by simp [hpc])
      ?_
    rw [hA.budget] at hd
    simp only [Frame.Knows]
    grind

/-- `ticket = descriptor.batch_ticket_` -/
theorem sim_loadBatchTicket (hpc : f.pc = .loadBatchTicket)
    (hex : exec C B s h f b = some (s', x)) : Simulated C B hB (tr ++ x.toList) s' := by
  have hph : f.phase = .wait := by simp [Frame.phase, hpc]
  have hq : f.phase ≠ .absent := by simp [hph]
  have hA := agrees_of_sim hS hf hq
  have hp := hA.phase.trans hph
  have hown := (hS.reach f.lock).inv.own (C.side h f.lock) (pos h)
  have hhas := hA.knows
  simp only [Frame.Knows, hpc] at hhas
  simp only [exec, hpc, Option.some.injEq, Prod.mk.injEq] at hex
  obtain ⟨rfl, rfl⟩ := hex
  have hkept : ((k f.lock).acq (C.side h f.lock) (pos h)).out ≠ .handed := fun ho => by
    have := hown.out (by simp [ho])
    grind
  have hoff := offered_of_out (hS.reach f.lock) (c := C.side h f.lock) (p := pos h) (by simp [hp])
    hkept
  exact simulated_own hS hf hq (e := none) (Step.join hp hhas) rfl (by simp)
    ((hS.words f.lock).quiet (by rfl) (by grind)) (by rfl)
    (hA.join hpc (hown.early hhas (by grind)).2 (hown.prev (by grind) (by grind)) hoff)
    (samePred_phase (by simp [hp]) (by simp))
    (sameSucc_of_rank rfl (by grind) (by grind)) (Or.inl rfl) (Or.inl rfl) (by simp)

/-- `descriptor.budget_ = kInitBudget_` -/
theorem sim_storeBudget (hpc : f.pc = .storeBudget) (hex : exec C B s h f b = some (s', x)) :
    Simulated C B hB (tr ++ x.toList) s' := by
  have hph : f.phase = .ready := by simp [Frame.phase, hpc]
  have hq : f.phase ≠ .absent := by simp [hph]
  have hA := agrees_of_sim hS hf hq
  have hp := hA.phase.trans hph
  have hown := (hS.reach f.lock).inv.own (C.side h f.lock) (pos h)
  have hhas : ((k f.lock).acq (C.side h f.lock) (pos h)).has = false := by
    by_contra hh
    have := hown.early (by simpa using hh) (by grind)
    grind
  simp only [exec, hpc, Option.some.injEq, Prod.mk.injEq] at hex
  obtain ⟨rfl, rfl⟩ := hex
  rw [Option.toList_none, List.append_nil]
  exact ⟨_, _, hS.keep hf hq rfl (hA.setBudget hpc hhas)⟩

/-- `LockPetersons`: the store of the flag -/
theorem sim_storeFlag (hpc : f.pc = .storeFlag) (hex : exec C B s h f b = some (s', x)) :
    Simulated C B hB (tr ++ x.toList) s' := by
  have hph : f.phase = .ready := by simp [Frame.phase, hpc]
  have hq : f.phase ≠ .absent := by simp [hph]
  have hA := agrees_of_sim hS hf hq
  have hp := hA.phase.trans hph
  simp only [exec, hpc, Option.some.injEq, Prod.mk.injEq] at hex
  obtain ⟨rfl, rfl⟩ := hex
  exact simulated_own hS hf hq (e := some (.raise _ h)) (Step.raise hp hA.who) rfl rfl
    ((hS.words f.lock).raise (by rfl) (by grind) _) (by rfl) (hA.raise hpc)
    (samePred_phase (by simp [hp]) (by simp))
    (sameSucc_of_rank rfl (by grind) (by grind)) (Or.inl rfl) (Or.inl rfl) (by simp)

/-- `LockPetersons`: the store of the victim -/
theorem sim_storeVictim (hpc : f.pc = .storeVictim) (hex : exec C B s h f b = some (s', x)) :
    Simulated C B hB (tr ++ x.toList) s' := by
  have hph : f.phase = .flagged := by simp [Frame.phase, hpc]
  have hq : f.phase ≠ .absent := by simp [hph]
  have hA := agrees_of_sim hS hf hq
  have hp := hA.phase.trans hph
  simp only [exec, hpc, Option.some.injEq, Prod.mk.injEq] at hex
  obtain ⟨rfl, rfl⟩ := hex
  have hst := ((hS.reach f.lock).inv.glob _ _).flagged hp
  exact simulated_own hS hf hq (e := some (.request _ h)) (Step.request hp hA.who) rfl rfl
    ((hS.words f.lock).request (by rfl) (by grind) _ (by simp [hst])) (by rfl)
    (hA.request hpc) (samePred_phase (by simp [hp]) (by simp))
    (sameSucc_of_rank rfl (by grind) (by grind)) (Or.inl rfl) (Or.inl rfl) (by simp)

/-- A load of the loop of `LockPetersons` that succeeds. -/
theorem simulated_pass (hp : f.phase = .waiting) {f' : Frame H L} (hp' : f'.phase = .passed)
    (hpass : (k f.lock).pet.CanPass (C.side h f.lock)) (hl : f'.lock = f.lock)
    (hprev : f'.prev = f.prev) (hfrom : f'.ticketFromPrev = f.ticketFromPrev)
    (hpc : f'.pc = .loadNextTicket ∨
      (f'.pc = .readFlag ∨ f'.pc = .readVictim) ∧ C.side h f.lock = .rem) :
    Simulated C B hB (tr ++ Option.toList none) (s.goto h f') := by
  have hq : f.phase ≠ .absent := by simp [hp]
  have hA := agrees_of_sim hS hf hq
  have hph := hA.phase.trans hp
  have hst := ((hS.reach f.lock).inv.glob _ _).waiting hph
  have hA' := hA.pass hp hp' hprev hfrom (by
    rcases hpc with hpc | ⟨hpc | hpc, hc⟩ <;> simp only [Frame.Knows, hpc] <;> exact hc)
  exact simulated_own hS hf hq (e := none) (Step.pass hph hpass) rfl (by simp)
    ((hS.words f.lock).pass (by rfl) (by grind) (by simp [hst])) hl hA'
    (samePred_phase (by simp [hph]) (by simp)) (sameSucc_of_rank rfl (by grind) (by grind))
    (Or.inl rfl) (Or.inl rfl) (by simp)

/-- A load of the loop of `LockPetersons` that changes nothing. -/
theorem simulated_loop (hp : f.phase = .waiting ∨ f.phase = .passed) {f' : Frame H L}
    (hp' : f'.phase = f.phase) (hl : f'.lock = f.lock) (hprev : f'.prev = f.prev)
    (hfrom : f'.ticketFromPrev = f.ticketFromPrev) (ht : f'.ticket = f.ticket)
    (hpc : f'.pc = .loadNextTicket ∨
      (f'.pc = .loadFlag ∨ f'.pc = .loadVictim) ∧ C.side h f.lock = .loc ∨
      (f'.pc = .readPair ∨ f'.pc = .readFlag ∨ f'.pc = .readVictim) ∧ C.side h f.lock = .rem) :
    Simulated C B hB (tr ++ Option.toList none) (s.goto h f') := by
  have hq : f.phase ≠ .absent := by rcases hp with hp | hp <;> simp [hp]
  have hne : ∀ g : Frame H L, g.phase = .waiting ∨ g.phase = .passed → g.pc ≠ .storeBudget :=
    fun g hg hpc => by simp [Frame.phase, hpc] at hg
  refine simulated_go hS hf hq hp' hl hprev hfrom ht (hne f' (hp' ▸ hp)) (hne f hp) ?_
  rcases hpc with hpc | ⟨hpc | hpc, hc⟩ | ⟨hpc | hpc | hpc, hc⟩ <;>
    simp only [Frame.Knows, hpc] <;> exact hc

/-- The loop of `LockPetersonsLocal` -/
theorem sim_loopLocal (hpc : f.pc = .loadFlag ∨ f.pc = .loadVictim)
    (hex : exec C B s h f b = some (s', x)) : Simulated C B hB (tr ++ x.toList) s' := by
  have hp : f.phase = .waiting := by rcases hpc with hpc | hpc <;> simp [Frame.phase, hpc]
  have hA := agrees_of_sim hS hf (by simp [hp])
  have hc : C.side h f.lock = .loc := by
    have hk := hA.knows
    rcases hpc with hpc | hpc <;> simpa only [Frame.Knows, hpc] using hk
  have hw := hS.words f.lock
  rcases hpc with hpc | hpc
  · simp only [exec, hpc, Option.some.injEq, Prod.mk.injEq] at hex
    obtain ⟨rfl, rfl⟩ := hex
    have hflag := hw.flag .rem
    by_cases hr : (s.locks f.lock).remoteFlag = true
    · rw [if_pos hr]
      exact simulated_loop hS hf (Or.inl hp) (by simp [Frame.phase, hpc]) rfl rfl rfl rfl
        (Or.inr (Or.inl ⟨Or.inr rfl, hc⟩))
    · rw [if_neg hr]
      refine simulated_pass hS hf hp (by simp [Frame.phase]) (Or.inl ?_) rfl rfl rfl (Or.inl rfl)
      rw [hc, other_loc]
      simpa [LockWords.flag, hr] using hflag
  · simp only [exec, hpc, Option.some.injEq, Prod.mk.injEq] at hex
    obtain ⟨rfl, rfl⟩ := hex
    by_cases hv : (s.locks f.lock).victim = some .loc
    · rw [if_pos hv]
      exact simulated_loop hS hf (Or.inl hp) (by simp [Frame.phase, hpc]) rfl rfl rfl rfl
        (Or.inr (Or.inl ⟨Or.inl rfl, hc⟩))
    · rw [if_neg hv]
      refine simulated_pass hS hf hp (by simp [Frame.phase]) (Or.inr ?_) rfl rfl rfl (Or.inl rfl)
      rw [hc, ← hw.victim]
      exact hv

/-- The loop of `LockPetersonsRemote`: the first load of a round -/
theorem sim_readPair (hpc : f.pc = .readPair) (hex : exec C B s h f b = some (s', x)) :
    Simulated C B hB (tr ++ x.toList) s' := by
  have hp : f.phase = .waiting := by simp [Frame.phase, hpc]
  have hA := agrees_of_sim hS hf (by simp [hp])
  have hc : C.side h f.lock = .rem := by
    have hk := hA.knows
    simpa only [Frame.Knows, hpc] using hk
  have hw := hS.words f.lock
  simp only [exec, hpc, Option.some.injEq, Prod.mk.injEq] at hex
  obtain ⟨rfl, rfl⟩ := hex
  cases b
  · rw [if_neg (by simp)]
    have hflag := hw.flag .loc
    by_cases hr : (s.locks f.lock).localFlag = true
    · exact simulated_loop hS hf (Or.inl hp) (by rw [hp]; simp [Frame.phase, hr]) rfl rfl rfl rfl
        (Or.inr (Or.inr ⟨Or.inr (Or.inr rfl), hc⟩))
    · refine simulated_pass hS hf hp (by simp [Frame.phase, hr]) (Or.inl ?_) rfl rfl rfl
        (Or.inr ⟨Or.inr rfl, hc⟩)
      rw [hc, other_rem]
      simpa [LockWords.flag, hr] using hflag
  · rw [if_pos rfl]
    by_cases hv : (s.locks f.lock).victim = some .rem
    · exact simulated_loop hS hf (Or.inl hp) (by rw [hp]; simp [Frame.phase, hv]) rfl rfl rfl rfl
        (Or.inr (Or.inr ⟨Or.inr (Or.inl rfl), hc⟩))
    · refine simulated_pass hS hf hp (by simp [Frame.phase, hv]) (Or.inr ?_) rfl rfl rfl
        (Or.inr ⟨Or.inl rfl, hc⟩)
      rw [hc, ← hw.victim]
      exact hv

/-- The loop of `LockPetersonsRemote`: the second load of a round, and the test -/
theorem sim_readSecond (hpc : f.pc = .readFlag ∨ f.pc = .readVictim)
    (hex : exec C B s h f b = some (s', x)) : Simulated C B hB (tr ++ x.toList) s' := by
  have hp : f.phase = .waiting ∨ f.phase = .passed := by
    rcases hpc with hpc | hpc <;> simp only [Frame.phase, hpc] <;> split <;> simp
  have hA := agrees_of_sim hS hf (by rcases hp with hp | hp <;> simp [hp])
  have hc : C.side h f.lock = .rem := by
    have hk := hA.knows
    rcases hpc with hpc | hpc <;> simpa only [Frame.Knows, hpc] using hk
  have hw := hS.words f.lock
  -- the section was passed at the first load, or is passed now, or the round starts again
  have key : ∀ f' : Frame H L, f'.lock = f.lock → f'.prev = f.prev →
      f'.ticketFromPrev = f.ticketFromPrev → f'.ticket = f.ticket →
      (f.phase = .passed → f'.flag ≠ true ∨ f'.victim ≠ some .rem) →
      (f.phase = .waiting → f'.flag ≠ true ∨ f'.victim ≠ some .rem →
        (k f.lock).pet.CanPass (C.side h f.lock)) →
      Simulated C B hB (tr ++ Option.toList none) (s.goto h f'.test) := by
    intro f' hl hprev hfrom hticket h1 h2
    by_cases ht : f'.flag ≠ true ∨ f'.victim ≠ some .rem
    · have htest : f'.test = { f' with pc := .loadNextTicket } := by rw [Frame.test, if_pos ht]
      rw [htest]
      rcases hp with hp | hp
      · exact simulated_pass hS hf hp (by simp [Frame.phase]) (h2 hp ht) hl hprev hfrom (Or.inl rfl)
      · exact simulated_loop hS hf (Or.inr hp) (by rw [hp]; rfl) hl hprev hfrom hticket (Or.inl rfl)
    · have htest : f'.test = { f' with pc := .readPair } := by rw [Frame.test, if_neg ht]
      rw [htest]
      rcases hp with hp | hp
      · exact simulated_loop hS hf (Or.inl hp) (by rw [hp]; rfl) hl hprev hfrom hticket
          (Or.inr (Or.inr ⟨Or.inl rfl, hc⟩))
      · exact absurd (h1 hp) ht
  rcases hpc with hpc | hpc
  · simp only [exec, hpc, Option.some.injEq, Prod.mk.injEq] at hex
    obtain ⟨rfl, rfl⟩ := hex
    have hflag := hw.flag .loc
    refine key _ rfl rfl rfl rfl (fun hpass => Or.inr ?_) fun hwait ht => Or.inl ?_
    · simp only [Frame.phase, hpc] at hpass
      grind
    · simp only [Frame.phase, hpc] at hwait
      rw [hc, other_rem]
      grind [LockWords.flag]
  · simp only [exec, hpc, Option.some.injEq, Prod.mk.injEq] at hex
    obtain ⟨rfl, rfl⟩ := hex
    refine key _ rfl rfl rfl rfl (fun hpass => Or.inl ?_) fun hwait ht => Or.inr ?_
    · simp only [Frame.phase, hpc] at hpass
      grind
    · simp only [Frame.phase, hpc] at hwait
      rw [hc, ← hw.victim]
      grind

/-- The fetch-and-add on `next_ticket_`: the load -/
theorem sim_loadNextTicket (hpc : f.pc = .loadNextTicket)
    (hex : exec C B s h f b = some (s', x)) : Simulated C B hB (tr ++ x.toList) s' := by
  have hph : f.phase = .passed := by simp [Frame.phase, hpc]
  have hq : f.phase ≠ .absent := by simp [hph]
  have hA := agrees_of_sim hS hf hq
  have hp := hA.phase.trans hph
  simp only [exec, hpc, Option.some.injEq, Prod.mk.injEq] at hex
  obtain ⟨rfl, rfl⟩ := hex
  refine simulated_stay hS hf hq (by rfl) (hA.go (by rw [hph]; rfl) rfl rfl (by grind)
    (by simp [hpc]) ?_)
  simpa only [Frame.Knows] using (hS.words f.lock).nextTicket

/-- The fetch-and-add on `next_ticket_`: the store -/
theorem sim_storeNextTicket (hpc : f.pc = .storeNextTicket)
    (hex : exec C B s h f b = some (s', x)) : Simulated C B hB (tr ++ x.toList) s' := by
  have hph : f.phase = .passed := by simp [Frame.phase, hpc]
  have hq : f.phase ≠ .absent := by simp [hph]
  have hA := agrees_of_sim hS hf hq
  have hp := hA.phase.trans hph
  have hown := (hS.reach f.lock).inv.own (C.side h f.lock) (pos h)
  have hhas : ((k f.lock).acq (C.side h f.lock) (pos h)).has = false := by
    by_contra hh
    have := hown.early (by simpa using hh) (by grind)
    grind
  have hkept : ((k f.lock).acq (C.side h f.lock) (pos h)).out ≠ .handed := fun ho => by
    have := hown.out (by simp [ho])
    grind
  have hoff := offered_of_out (hS.reach f.lock) (c := C.side h f.lock) (p := pos h) (by simp [hp])
    hkept
  have ht := hA.knows
  simp only [Frame.Knows, hpc] at ht
  simp only [exec, hpc, ht, word_succ, Option.some.injEq, Prod.mk.injEq] at hex
  obtain ⟨rfl, rfl⟩ := hex
  have hA' := hA.draw hpc hhas hoff (word_toNat_self (B.kInitBudget (C.side h f.lock)))
    ((k f.lock).issued + 1) (k f.lock).serving
  rw [ht] at hA'
  exact simulated_own hS hf hq (e := some (.draw _ h (k f.lock).issued)) (Step.draw hp hA.who) rfl rfl
    ((hS.words f.lock).draw (by rfl) (by grind) _) (by rfl) hA'
    ⟨rfl, rfl, by grind, rfl, fun ho => by simp [hoff] at ho⟩
    (sameSucc_of_rank rfl (by grind) (by grind)) (Or.inr hph)
    (Or.inl rfl) (by simp)

omit [DecidableEq H] in
/-- `next_` is set as soon as the successor has linked itself. -/
theorem next_isSome (hq : f.phase ≠ .absent) :
    (s.descriptor (C.side h f.lock) h).next.isSome = true ↔
      ((k f.lock).acq (C.side h f.lock) (pos h + 1)).Linked := by
  rw [(agrees_of_sim hS hf hq).next]
  by_cases hl : ((k f.lock).acq (C.side h f.lock) (pos h + 1)).Linked
  · rw [if_pos hl, Option.isSome_iff_ne_none]
    exact iff_of_true (((hS.reach f.lock).inv.own _ _).who (by grind)) hl
  · rw [if_neg hl]
    simpa using hl

/-- `got_ticket: if (descriptor.next_)` -/
theorem sim_testNext (hpc : f.pc = .testNext) (hex : exec C B s h f b = some (s', x)) :
    Simulated C B hB (tr ++ x.toList) s' := by
  have hph : f.phase = .drawn := by simp [Frame.phase, hpc]
  have hq : f.phase ≠ .absent := by simp [hph]
  have hk := (agrees_of_sim hS hf hq).knows
  simp only [Frame.Knows, hpc] at hk
  have hn := next_isSome hS hf hq
  simp only [exec, hpc, Option.some.injEq, Prod.mk.injEq] at hex
  obtain ⟨rfl, rfl⟩ := hex
  by_cases hl : ((k f.lock).acq (C.side h f.lock) (pos h + 1)).Linked
  · rw [if_pos (hn.2 hl)]
    split_ifs with hc
    · exact simulated_go hS hf hq (by rw [hph]; rfl) rfl rfl rfl rfl (by simp) (by simp [hpc])
        (by simpa only [Frame.Knows] using ⟨hk, hl⟩)
    · exact simulated_go hS hf hq (by rw [hph]; rfl) rfl rfl rfl rfl (by simp) (by simp [hpc])
        (by simpa only [Frame.Knows] using ⟨hk, hl⟩)
  · rw [if_neg (mt hn.1 hl)]
    exact simulated_go hS hf hq (by rw [hph]; rfl) rfl rfl rfl rfl (by simp) (by simp [hpc])
      (by simpa only [Frame.Knows] using hk)

/-- `assert(descriptor.budget_ > 0)` -/
theorem sim_assertBudget (hpc : f.pc = .assertBudget) (hex : exec C B s h f b = some (s', x)) :
    Simulated C B hB (tr ++ x.toList) s' := by
  have hph : f.phase = .drawn := by simp [Frame.phase, hpc]
  have hq : f.phase ≠ .absent := by simp [hph]
  have hk := (agrees_of_sim hS hf hq).knows
  simp only [Frame.Knows, hpc] at hk
  simp only [exec, hpc, Option.ite_none_right_eq_some, Option.some.injEq, Prod.mk.injEq] at hex
  obtain ⟨-, rfl, rfl⟩ := hex
  exact simulated_go hS hf hq (by rw [hph]; rfl) rfl rfl rfl rfl (by simp) (by simp [hpc])
    (by simpa only [Frame.Knows] using hk)

omit [DecidableEq H] in
/-- The own `budget_` once the ticket is there. -/
theorem budget_eq (hq : 9 ≤ f.phase.rank) :
    (s.descriptor (C.side h f.lock) h).budget =
      word ((k f.lock).acq (C.side h f.lock) (pos h)).budget ∧
    1 ≤ ((k f.lock).acq (C.side h f.lock) (pos h)).budget ∧
    ((k f.lock).acq (C.side h f.lock) (pos h)).budget < 2 ^ 32 := by
  have hA := agrees_of_sim hS hf (by grind)
  have hp := hA.phase
  have hhas := ((hS.reach f.lock).inv.own (C.side h f.lock) (pos h)).has (by rwa [Acq.rank, hp])
  exact ⟨by rw [hA.budget, if_pos hhas], budget_lt (hS.reach f.lock) hhas⟩

/-- `if (descriptor.budget_ == 1)` -/
theorem sim_testLast (hpc : f.pc = .testLast) (hex : exec C B s h f b = some (s', x)) :
    Simulated C B hB (tr ++ x.toList) s' := by
  have hph : f.phase = .drawn := by simp [Frame.phase, hpc]
  have hq : f.phase ≠ .absent := by simp [hph]
  have hk := (agrees_of_sim hS hf hq).knows
  simp only [Frame.Knows, hpc] at hk
  obtain ⟨hbud, hpos, hlt⟩ := budget_eq hS hf (by rw [hph]; decide)
  simp only [exec, hpc, Option.some.injEq, Prod.mk.injEq] at hex
  obtain ⟨rfl, rfl⟩ := hex
  by_cases h1 : (s.descriptor (C.side h f.lock) h).budget = 1
  · rw [if_pos h1]
    exact simulated_go hS hf hq (by rw [hph]; rfl) rfl rfl rfl rfl (by simp) (by simp [hpc])
      (by simpa only [Frame.Knows] using hk)
  · rw [if_neg h1]
    have hmore : 1 < ((k f.lock).acq (C.side h f.lock) (pos h)).budget := by
      refine lt_of_le_of_ne hpos fun heq => h1 ?_
      rw [hbud, ← heq]
      rfl
    split_ifs with hc
    · exact simulated_go hS hf hq (by rw [hph]; rfl) rfl rfl rfl rfl (by simp) (by simp [hpc])
        (by simpa only [Frame.Knows] using ⟨hk.1, hk.2, hmore, fun hc' => by simp [hc] at hc'⟩)
    · exact simulated_go hS hf hq (by rw [hph]; rfl) rfl rfl rfl rfl (by simp) (by simp [hpc])
        (by simpa only [Frame.Knows] using ⟨hk.2, fun hc' => absurd hc' hc, fun _ => ⟨hk.1, hmore⟩⟩)

/-- `UnlockPetersons` -/
theorem sim_clearFlag (hpc : f.pc = .clearFlag ∨ f.pc = .clearFlagFull)
    (hex : exec C B s h f b = some (s', x)) : Simulated C B hB (tr ++ x.toList) s' := by
  have hph : f.phase = .drawn := by rcases hpc with hpc | hpc <;> simp [Frame.phase, hpc]
  have hq : f.phase ≠ .absent := by simp [hph]
  have hA := agrees_of_sim hS hf hq
  have hp := hA.phase.trans hph
  have hk := hA.knows
  rcases hpc with hpc | hpc <;> simp only [Frame.Knows, hpc] at hk <;>
    simp only [exec, hpc, Option.some.injEq, Prod.mk.injEq] at hex <;> obtain ⟨rfl, rfl⟩ := hex
  · exact simulated_own hS hf hq (e := some (.lower _ h)) (Step.lower hp hA.who hk) rfl rfl
      ((hS.words f.lock).lower (by rfl) (by grind) _) (by rfl) (hA.lower hpc)
      (samePred_phase (by simp [hp]) (by simp))
      (sameSucc_of_rank rfl (by grind) (by grind)) (Or.inl rfl) (Or.inl rfl) (by simp)
  · exact simulated_own hS hf hq (e := some (.lower _ h)) (Step.lower hp hA.who hk.1) rfl rfl
      ((hS.words f.lock).lower (by rfl) (by grind) _) (by rfl) (hA.lowerFull hpc)
      (samePred_phase (by simp [hp]) (by simp))
      (sameSucc_of_rank rfl (by grind) (by grind)) (Or.inl rfl) (Or.inl rfl) (by simp)

omit [DecidableEq H] in
/-- Nobody has handed its ticket on before it is through with the section. -/
theorem out_ne_handed (hq : f.phase ≠ .absent) (hr : f.phase.rank < 12) :
    ((k f.lock).acq (C.side h f.lock) (pos h)).out ≠ .handed := fun ho => by
  have h12 := ((hS.reach f.lock).inv.own (C.side h f.lock) (pos h)).out (by simp [ho])
  have hp := (agrees_of_sim hS hf hq).phase
  rw [Acq.rank, hp] at h12
  omega

/-- `descriptor.ticket_valid_ = kTrue` -/
theorem sim_storeTicketValid (hpc : f.pc = .storeTicketValid ∨ f.pc = .storeTicketValidFull)
    (hex : exec C B s h f b = some (s', x)) : Simulated C B hB (tr ++ x.toList) s' := by
  have hph : f.phase = .cleared := by rcases hpc with hpc | hpc <;> simp [Frame.phase, hpc]
  have hq : f.phase ≠ .absent := by simp [hph]
  have hA := agrees_of_sim hS hf hq
  have hp := hA.phase.trans hph
  have ho := out_ne_handed hS hf hq (by rw [hph]; decide)
  rcases hpc with hpc | hpc <;> simp only [exec, hpc, Option.some.injEq, Prod.mk.injEq] at hex <;>
    obtain ⟨rfl, rfl⟩ := hex
  · exact simulated_own hS hf hq (e := none) (Step.publish hp) rfl (by simp)
      ((hS.words f.lock).quiet (by rfl) (by grind)) (by rfl) (hA.publish hpc ho)
      (samePred_phase (by simp [hp]) (by simp))
      (sameSucc_of_rank rfl (by grind) (by grind)) (Or.inl rfl) (Or.inl rfl) (by simp)
  · exact simulated_own hS hf hq (e := none) (Step.publish hp) rfl (by simp)
      ((hS.words f.lock).quiet (by rfl) (by grind)) (by rfl) (hA.publishFull hpc ho)
      (samePred_phase (by simp [hp]) (by simp))
      (sameSucc_of_rank rfl (by grind) (by grind)) (Or.inl rfl) (Or.inl rfl) (by simp)

/-- The loads before the two stores of the batch hand-over -/
theorem sim_loadHand (hpc : f.pc = .loadNextBatch ∨ f.pc = .loadNextBudget ∨ f.pc = .loadBudget)
    (hex : exec C B s h f b = some (s', x)) : Simulated C B hB (tr ++ x.toList) s' := by
  have hph : f.phase = .drawn := by rcases hpc with hpc | hpc | hpc <;> simp [Frame.phase, hpc]
  have hq : f.phase ≠ .absent := by simp [hph]
  have hA := agrees_of_sim hS hf hq
  have hk := hA.knows
  obtain ⟨hbud, -, -⟩ := budget_eq hS hf (by rw [hph]; decide)
  rcases hpc with hpc | hpc | hpc <;> simp only [Frame.Knows, hpc] at hk <;>
    simp only [exec, hpc, Option.some.injEq, Prod.mk.injEq] at hex <;> obtain ⟨rfl, rfl⟩ := hex
  · refine simulated_go hS hf hq (by rw [hph]; rfl) rfl rfl rfl rfl (by simp) (by simp [hpc]) ?_
    simp only [Frame.Knows]
    exact ⟨hk.1, hk.2.1, hk.2.2.1, hk.2.2.2, by rw [hA.next, if_pos hk.2.1]⟩
  · refine simulated_go hS hf hq (by rw [hph]; rfl) rfl rfl rfl rfl (by simp) (by simp [hpc]) ?_
    simp only [Frame.Knows]
    exact ⟨hk.2.1, fun _ => ⟨hk.1, by rw [hA.next, if_pos hk.2.1]⟩, fun hc => by simp [hk.2.2] at hc⟩
  · split_ifs with hc
    · refine simulated_go hS hf hq (by rw [hph]; rfl) rfl rfl rfl rfl (by simp) (by simp [hpc]) ?_
      simp only [Frame.Knows, hbud]
      exact ⟨(hk.2.1 hc).1, hk.1, (hk.2.1 hc).2, trivial⟩
    · have hc' : C.side h f.lock = .rem := by cases hc' : C.side h f.lock <;> simp_all
      refine simulated_go hS hf hq (by rw [hph]; rfl) rfl rfl rfl rfl (by simp) (by simp [hpc]) ?_
      simp only [Frame.Knows, hbud]
      exact ⟨(hk.2.2 hc').1, hk.1, (hk.2.2 hc').2, fun _ => trivial⟩

omit [DecidableEq H] in
/-- The successor of a handler that has not left the section. -/
theorem succ_waits (hph : f.phase = .drawn)
    (hl : 2 ≤ ((k f.lock).acq (C.side h f.lock) (pos h + 1)).rank) :
    ((k f.lock).acq (C.side h f.lock) (pos h + 1)).has = false ∧
    ((k f.lock).acq (C.side h f.lock) (pos h + 1)).rank ≤ 4 ∧
    ((k f.lock).acq (C.side h f.lock) (pos h + 1)).phase ≠ .gone ∧
    ∃ n, ((k f.lock).acq (C.side h f.lock) (pos h + 1)).who = some n := by
  have hI := (hS.reach f.lock).inv
  have hp := (agrees_of_sim hS hf (by simp [hph])).phase.trans hph
  have hadm : ¬ 11 ≤ ((k f.lock).acq (C.side h f.lock) (pos h)).rank := by grind
  have hlink := hI.links (C.side h f.lock) (pos h + 1)
  refine ⟨?_, ?_, hI.succ_ne_gone (by simp [hp]), Option.ne_none_iff_exists'.1
    ((hI.own _ _).who (by grind))⟩
  · by_contra hh
    exact hadm (hlink.ahead (Or.inr (by simpa using hh)))
  · by_contra hh
    exact hadm (hlink.ahead (Or.inl (by omega)))

/-- `next_->batch_ticket_ = ticket` -/
theorem sim_storeNextBatchTicket (hpc : f.pc = .storeNextBatchTicket)
    (hex : exec C B s h f b = some (s', x)) : Simulated C B hB (tr ++ x.toList) s' := by
  have hph : f.phase = .drawn := by simp [Frame.phase, hpc]
  have hq : f.phase ≠ .absent := by simp [hph]
  have hA := agrees_of_sim hS hf hq
  have hp := hA.phase.trans hph
  have hk := hA.knows
  simp only [Frame.Knows, hpc] at hk
  obtain ⟨hoff, hl, hmore, -, hnext⟩ := hk
  obtain ⟨hhas, hr, hng, n, hw⟩ := succ_waits hS hf hph hl
  simp only [exec, hpc, hnext, hw, Option.map_some, Option.some.injEq, Prod.mk.injEq] at hex
  obtain ⟨rfl, rfl⟩ := hex
  have ht := hA.ticket (by grind)
  have hA' := hA.offer hpc
  rw [ht, hnext, hw] at hA'
  rw [ht]
  have hq' := (view B).phase_eq hA'
  exact ⟨_, _, hS.storeNext (e := none) hf hq (Step.offer hp hl hmore) rfl (by simp)
    ((hS.words f.lock).quiet (by rfl) Iff.rfl) hng hw
    (Or.inr ⟨_, rfl, by rfl, by rw [← hq']; simp [hp], hA'⟩)
    (fun fn nx T R hn => Agrees.offered_by hn hhas)
    ⟨fun _ => rfl, id, Iff.rfl, Iff.rfl⟩ rfl rfl rfl⟩

/-- `next_->budget_ = budget_ - 1` -/
theorem sim_storeNextBudget (hpc : f.pc = .storeNextBudget)
    (hex : exec C B s h f b = some (s', x)) : Simulated C B hB (tr ++ x.toList) s' := by
  have hph : f.phase = .drawn := by simp [Frame.phase, hpc]
  have hq : f.phase ≠ .absent := by simp [hph]
  have hA := agrees_of_sim hS hf hq
  have hp := hA.phase.trans hph
  have hk := hA.knows
  simp only [Frame.Knows, hpc] at hk
  obtain ⟨hoff, hl, hnext, hless⟩ := hk
  obtain ⟨hhas, hr, hng, n, hw⟩ := succ_waits hS hf hph hl
  have hI := (hS.reach f.lock).inv
  have hmore : 1 < ((k f.lock).acq (C.side h f.lock) (pos h)).budget := by
    rcases (hI.own (C.side h f.lock) (pos h)).offered hoff with ⟨-, hlt⟩ | ho
    · exact hlt
    · exact absurd ho (out_ne_handed hS hf hq (by rw [hph]; decide))
  have hoff' := offered_of_out (hS.reach f.lock) (c := C.side h f.lock) (p := pos h + 1)
    (by grind) (fun ho => by
      have := (hI.own (C.side h f.lock) (pos h + 1)).out (by simp [ho])
      omega)
  simp only [exec, hpc, hnext, hw, hless, Option.map_some, Option.some.injEq, Prod.mk.injEq] at hex
  obtain ⟨rfl, rfl⟩ := hex
  have htaker : SameSucc ((k f.lock).acq (C.side h f.lock) (pos h + 1))
      (((k f.lock).acq (C.side h f.lock) (pos h + 1)).taker
        ((k f.lock).acq (C.side h f.lock) (pos h))) := ⟨fun _ => rfl, id, Iff.rfl, Iff.rfl⟩
  have hA' := (hA.hand hpc).congr (SamePred.refl _) htaker (Or.inl rfl) (Or.inl rfl)
  have hgive : LockOk (s.locks f.lock) ((k f.lock).put (C.side h f.lock) (pos h)
      ((k f.lock).acq (C.side h f.lock) (pos h)).giver) :=
    (hS.words f.lock).quiet rfl (by simp [Acq.giver, hp])
  have hlock : LockOk (s.locks f.lock) ((k f.lock).hand (C.side h f.lock) (pos h) h) :=
    hgive.logged (by simp [Acq.taker]) (by simp [Acq.taker]) _
  have hrank : 4 ≤ ((k f.lock).acq (C.side h f.lock) (pos h)).rank := by grind
  exact ⟨_, _, hS.hand (e := some (.hand _ h)) hf hq (Step.hand hp hA.who hoff) rfl rfl hlock hng hw
    rfl (by rw [← (view B).phase_eq hA']; simp [Acq.giver]) hA'
    (fun fn nx T R hn => Agrees.handed_by hn hhas hr hoff (by simp [hp]) hmore) rfl
    (sameSucc_of_rank rfl hrank (by grind [Acq.giver]))
    ⟨rfl, rfl, Iff.rfl, rfl, fun ho => by simp [view, hoff'] at ho⟩ rfl rfl⟩

/-- `if (descriptor.next_)` after the section is left -/
theorem sim_testNextAgain (hpc : f.pc = .testNextAgain) (hex : exec C B s h f b = some (s', x)) :
    Simulated C B hB (tr ++ x.toList) s' := by
  have hph : f.phase = .notify := by simp [Frame.phase, hpc]
  have hq : f.phase ≠ .absent := by simp [hph]
  have hA := agrees_of_sim hS hf hq
  have hp := hA.phase.trans hph
  have hn := next_isSome hS hf hq
  have ho := out_ne_handed hS hf hq (by rw [hph]; decide)
  simp only [exec, hpc, Option.some.injEq, Prod.mk.injEq] at hex
  obtain ⟨rfl, rfl⟩ := hex
  by_cases hl : ((k f.lock).acq (C.side h f.lock) (pos h + 1)).Linked
  · rw [if_pos (hn.2 hl)]
    exact simulated_go hS hf hq (by rw [hph]; rfl) rfl rfl rfl rfl (by simp) (by simp [hpc])
      (by simpa only [Frame.Knows] using hl)
  · rw [if_neg (mt hn.1 hl)]
    exact simulated_own hS hf hq (e := none) (Step.skip hp hl) rfl (by simp)
      ((hS.words f.lock).quiet (by rfl) (by grind)) (by rfl) (hA.await hph ho ho)
      (samePred_phase (by simp [hp]) (by simp))
      (sameSucc_of_rank rfl (by grind) (by grind)) (Or.inl rfl) (Or.inl rfl) (by simp)

theorem sim_loadNext (hpc : f.pc = .loadNext) (hex : exec C B s h f b = some (s', x)) :
    Simulated C B hB (tr ++ x.toList) s' := by
  have hph : f.phase = .notify := by simp [Frame.phase, hpc]
  have hq : f.phase ≠ .absent := by simp [hph]
  have hA := agrees_of_sim hS hf hq
  have hl := hA.knows
  simp only [Frame.Knows, hpc] at hl
  simp only [exec, hpc, Option.some.injEq, Prod.mk.injEq] at hex
  obtain ⟨rfl, rfl⟩ := hex
  refine simulated_go hS hf hq (by rw [hph]; rfl) rfl rfl rfl rfl (by simp) (by simp [hpc]) ?_
  simp only [Frame.Knows]
  exact ⟨hl, by rw [hA.next, if_pos hl]⟩

/-- `next_->budget_ = kInitBudget_` -/
theorem sim_storeInitBudget (hpc : f.pc = .storeInitBudget)
    (hex : exec C B s h f b = some (s', x)) : Simulated C B hB (tr ++ x.toList) s' := by
  have hph : f.phase = .notify := by simp [Frame.phase, hpc]
  have hq : f.phase ≠ .absent := by simp [hph]
  have hA := agrees_of_sim hS hf hq
  have hp := hA.phase.trans hph
  have hI := (hS.reach f.lock).inv
  have hk := hA.knows
  simp only [Frame.Knows, hpc] at hk
  obtain ⟨hl, hnext⟩ := hk
  have ho := out_ne_handed hS hf hq (by rw [hph]; decide)
  obtain ⟨n, hw⟩ := Option.ne_none_iff_exists'.1
    ((hI.own (C.side h f.lock) (pos h + 1)).who (by grind))
  simp only [exec, hpc, hnext, hw, Option.map_some, Option.some.injEq, Prod.mk.injEq] at hex
  obtain ⟨rfl, rfl⟩ := hex
  have hng := hI.succ_ne_gone (c := C.side h f.lock) (p := pos h) (by simp [hp])
  have hfull := word_budget_of_out (hS.reach f.lock) ho
  have hA' := hA.await (o := .told) hph (by simp) ho
  have hq' := (view B).phase_eq hA'
  have hrank : 4 ≤ ((k f.lock).acq (C.side h f.lock) (pos h)).rank := by grind
  exact ⟨_, _, hS.storeNext (e := none) hf hq (Step.tell hp hl) rfl (by simp)
    ((hS.words f.lock).quiet (by rfl) (by grind)) hng hw
    (Or.inr ⟨f.await, rfl, rfl, by rw [← hq']; simp, hA'⟩)
    (fun fn nx T R hn => Agrees.told_by hn (by simp [view, hp]) hfull)
    (sameSucc_of_rank rfl hrank (by grind)) rfl rfl rfl⟩

/-- The loop on `granted_`, and the return of `Lock` for a handler that was handed its ticket -/
theorem sim_awaitGranted (hpc : f.pc = .awaitGranted) (hex : exec C B s h f b = some (s', x)) :
    Simulated C B hB (tr ++ x.toList) s' := by
  have hph : f.phase = .queued := by simp [Frame.phase, hpc]
  have hq : f.phase ≠ .absent := by simp [hph]
  have hA := agrees_of_sim hS hf hq
  have hp := hA.phase.trans hph
  have hhas := ((hS.reach f.lock).inv.own (C.side h f.lock) (pos h)).has (by grind)
  have hfrom := hA.ticketFromPrev
  have hr : 9 ≤ ((k f.lock).acq (C.side h f.lock) (pos h)).rank := by grind
  simp only [hr, decide_true, Bool.true_and] at hfrom
  simp only [exec, hpc] at hex
  split_ifs at hex with hd hprev
  · simp only [Option.some.injEq, Prod.mk.injEq] at hex
    obtain ⟨rfl, rfl⟩ := hex
    rw [hA.granted] at hd
    have hlead : ((k f.lock).acq (C.side h f.lock) (pos h)).lead = false := by
      simpa [hprev] using hfrom.symm
    have hA' := hA.enterGranted hpc hprev hhas
    rw [hA.ticket hr] at hA' ⊢
    exact simulated_own hS hf hq (e := some (.enter _ h _))
      (Step.enter hp hA.who (fun _ => by simp at hd; exact hd.2) (by simp [hlead])) rfl rfl
      ((hS.words f.lock).logged (by rfl) (by grind) _) (by rfl) hA'
      (samePred_phase (by simp [hp]) (by simp))
      (sameSucc_of_rank rfl (by grind) (by grind)) (Or.inl rfl) (Or.inl rfl) (by simp)
  · simp only [Option.some.injEq, Prod.mk.injEq] at hex
    obtain ⟨rfl, rfl⟩ := hex
    rw [hA.granted] at hd
    refine simulated_go hS hf hq (by rw [hph]; rfl) rfl rfl rfl rfl (by simp) (by simp [hpc]) ?_
    simp only [Frame.Knows]
    exact ⟨by simpa [hprev] using hfrom, fun _ => by simp at hd; exact hd.2⟩
  · simp only [Option.some.injEq, Prod.mk.injEq] at hex
    obtain ⟨rfl, rfl⟩ := hex
    exact simulated_stay hS hf hq rfl hA

/-- The loop on `current_ticket_` -/
theorem sim_awaitTicket (hpc : f.pc = .awaitTicket) (hex : exec C B s h f b = some (s', x)) :
    Simulated C B hB (tr ++ x.toList) s' := by
  have hph : f.phase = .queued := by simp [Frame.phase, hpc]
  have hq : f.phase ≠ .absent := by simp [hph]
  have hA := agrees_of_sim hS hf hq
  have hp := hA.phase.trans hph
  have hk := hA.knows
  simp only [Frame.Knows, hpc] at hk
  have ht := hA.ticket (by grind)
  simp only [exec, hpc, Option.some.injEq, Prod.mk.injEq] at hex
  obtain ⟨rfl, rfl⟩ := hex
  by_cases hv : f.ticket = (s.locks f.lock).currentTicket
  · rw [if_pos hv]
    rw [ht, (hS.words f.lock).currentTicket] at hv
    have hdue := hS.ticket_eq_serving hp hv
    refine simulated_go hS hf hq (by rw [hph]; rfl) rfl rfl rfl rfl (by simp) (by simp [hpc]) ?_
    simp only [Frame.Knows]
    exact ⟨hk.1, hk.2, hdue.le⟩
  · rw [if_neg hv, ← hpc]
    exact simulated_stay hS hf hq rfl hA

/-- `descriptor.batch_ticket_ = ticket`, and the return of `Lock` for a leader -/
theorem sim_storeBatchTicket (hpc : f.pc = .storeBatchTicket)
    (hex : exec C B s h f b = some (s', x)) : Simulated C B hB (tr ++ x.toList) s' := by
  have hph : f.phase = .queued := by simp [Frame.phase, hpc]
  have hq : f.phase ≠ .absent := by simp [hph]
  have hA := agrees_of_sim hS hf hq
  have hp := hA.phase.trans hph
  have hI := (hS.reach f.lock).inv
  have hk := hA.knows
  simp only [Frame.Knows, hpc] at hk
  obtain ⟨hlead, hgone, hle⟩ := hk
  have hhas := (hI.own (C.side h f.lock) (pos h)).has (by grind)
  -- the ticket that has come up stays until its batch is through
  have hdue : ((k f.lock).acq (C.side h f.lock) (pos h)).ticket = (k f.lock).serving := by
    refine le_antisymm hle (not_lt.1 fun hlt => ?_)
    have := (hI.glob (C.side h f.lock) (pos h)).done hhas hlt
    grind
  have hoff : ((k f.lock).pred (C.side h f.lock) (pos h)).offered = false := by
    have hlink := hI.links (C.side h f.lock) (pos h)
    cases hpos : pos h with
    | zero => rfl
    | succ p =>
      rw [hpos] at hlink hlead hhas
      rw [pred_succ] at hlink ⊢
      have hadm := hlink.ahead (Or.inr hhas)
      refine offered_of_out (hS.reach f.lock) (by grind) fun ho => ?_
      simp [(hlink.handed ho).2.2.2.1] at hlead
  simp only [exec, hpc, Option.some.injEq, Prod.mk.injEq] at hex
  obtain ⟨rfl, rfl⟩ := hex
  have hA' := hA.enter hpc hoff
  rw [hA.ticket (by grind)] at hA' ⊢
  exact simulated_own hS hf hq (e := some (.enter _ h _))
    (Step.enter hp hA.who hgone fun _ => hdue) rfl rfl
    ((hS.words f.lock).logged (by rfl) (by grind) _) (by rfl) hA'
    (samePred_phase (by simp [hp]) (by simp))
    (sameSucc_of_rank rfl (by grind) (by grind)) (Or.inl rfl) (Or.inl rfl) (by simp)

theorem sim_critical (hpc : f.pc = .critical) (hex : exec C B s h f b = some (s', x)) :
    Simulated C B hB (tr ++ x.toList) s' := by
  have hph : f.phase = .critical := by simp [Frame.phase, hpc]
  have hq : f.phase ≠ .absent := by simp [hph]
  simp only [exec, hpc, Option.some.injEq, Prod.mk.injEq] at hex
  obtain ⟨rfl, rfl⟩ := hex
  exact simulated_go hS hf hq (by rw [hph]; rfl) rfl rfl rfl rfl (by simp) (by simp [hpc])
    (by simp only [Frame.Knows])

/-- `if (descriptor.ticket_valid_ == kTrue)` -/
theorem sim_loadTicketValid (hpc : f.pc = .loadTicketValid)
    (hex : exec C B s h f b = some (s', x)) : Simulated C B hB (tr ++ x.toList) s' := by
  have hph : f.phase = .critical := by simp [Frame.phase, hpc]
  have hq : f.phase ≠ .absent := by simp [hph]
  have hA := agrees_of_sim hS hf hq
  have hp := hA.phase.trans hph
  have hr : 11 ≤ ((k f.lock).acq (C.side h f.lock) (pos h)).rank := by grind
  have hv := hA.ticketValid
  simp only [hr, true_and] at hv
  simp only [exec, hpc, Option.some.injEq, Prod.mk.injEq] at hex
  obtain ⟨rfl, rfl⟩ := hex
  by_cases hd : (s.descriptor (C.side h f.lock) h).ticketValid = true
  · rw [if_pos hd]
    refine simulated_go hS hf hq (by rw [hph]; rfl) rfl rfl rfl rfl (by simp) (by simp [hpc]) ?_
    simp only [Frame.Knows]
    simpa [hv] using hd
  · rw [if_neg hd]
    have ho : ((k f.lock).acq (C.side h f.lock) (pos h)).out = .handed := by simpa [hv] using hd
    exact simulated_own hS hf hq (e := none) (Step.retire hp ho) rfl (by simp)
      ((hS.words f.lock).quiet (by rfl) (by grind)) (by rfl) (hA.retire hpc)
      (samePred_phase (by simp [hp]) (by simp))
      (sameSucc_of_rank rfl (by grind) (by grind)) (Or.inl rfl) (Or.inl rfl) (by simp)

/-- The load of the own ticket in `Unlock` -/
theorem sim_loadCurrent (hpc : f.pc = .loadCurrent) (hex : exec C B s h f b = some (s', x)) :
    Simulated C B hB (tr ++ x.toList) s' := by
  have hph : f.phase = .critical := by simp [Frame.phase, hpc]
  have hq : f.phase ≠ .absent := by simp [hph]
  have hA := agrees_of_sim hS hf hq
  have hp := hA.phase.trans hph
  have hk := hA.knows
  simp only [Frame.Knows, hpc] at hk
  have hhas := ((hS.reach f.lock).inv.own (C.side h f.lock) (pos h)).has (by grind)
  simp only [exec, hpc, Option.some.injEq, Prod.mk.injEq] at hex
  obtain ⟨rfl, rfl⟩ := hex
  refine simulated_go hS hf hq (by rw [hph]; rfl) rfl rfl rfl rfl (by simp) (by simp [hpc]) ?_
  simp only [Frame.Knows]
  exact ⟨hk, hA.batch hhas (Or.inr (by grind))⟩

/-- The store of `current_ticket_` -/
theorem sim_storeCurrent (hpc : f.pc = .storeCurrent) (hex : exec C B s h f b = some (s', x)) :
    Simulated C B hB (tr ++ x.toList) s' := by
  have hph : f.phase = .critical := by simp [Frame.phase, hpc]
  have hq : f.phase ≠ .absent := by simp [hph]
  have hA := agrees_of_sim hS hf hq
  have hp := hA.phase.trans hph
  have hk := hA.knows
  simp only [Frame.Knows, hpc] at hk
  have hown := ((hS.reach f.lock).inv.ticket_of_owns (Or.inl hp)).2
  have hv : f.value = word (k f.lock).serving := by rw [hk.2, hown]
  simp only [exec, hpc, hv, word_succ, Option.some.injEq, Prod.mk.injEq] at hex
  obtain ⟨rfl, rfl⟩ := hex
  have hA' := hA.advance hpc ((k f.lock).serving + 1)
  rw [hv] at hA'
  exact simulated_own hS hf hq (e := some (.advance _ h _)) (Step.advance hp hA.who hk.1) rfl rfl
    ((hS.words f.lock).advance (by rfl) (by grind) _) (by rfl) hA'
    (samePred_phase (by simp [hp]) (by simp))
    (sameSucc_of_rank rfl (by grind) (by grind)) (Or.inl rfl)
    (Or.inr ⟨Nat.le_succ _, hph⟩) (by simp)

/-- `if (descriptor.next_ == nullptr)` -/
theorem sim_testNextUnlock (hpc : f.pc = .testNextUnlock) (hex : exec C B s h f b = some (s', x)) :
    Simulated C B hB (tr ++ x.toList) s' := by
  have hph : f.phase = .freed := by simp [Frame.phase, hpc]
  have hq : f.phase ≠ .absent := by simp [hph]
  have hn := next_isSome hS hf hq
  simp only [exec, hpc, Option.some.injEq, Prod.mk.injEq] at hex
  obtain ⟨rfl, rfl⟩ := hex
  by_cases hl : ((k f.lock).acq (C.side h f.lock) (pos h + 1)).Linked
  · rw [if_pos (hn.2 hl)]
    refine simulated_go hS hf hq (by rw [hph]; rfl) rfl rfl rfl rfl (by simp) (by simp [hpc]) ?_
    simp only [Frame.Knows]
    grind
  · rw [if_neg (mt hn.1 hl)]
    exact simulated_go hS hf hq (by rw [hph]; rfl) rfl rfl rfl rfl (by simp) (by simp [hpc])
      (by simp only [Frame.Knows])

/-- The compare-and-swap of the tail to null -/
theorem sim_casTail (hpc : f.pc = .casTail) (hex : exec C B s h f b = some (s', x)) :
    Simulated C B hB (tr ++ x.toList) s' := by
  have hph : f.phase = .freed := by simp [Frame.phase, hpc]
  have hq : f.phase ≠ .absent := by simp [hph]
  have htail : (s.locks f.lock).tail (C.side h f.lock) = some h ↔
      ((k f.lock).acq (C.side h f.lock) (pos h + 1)).phase = .absent := hS.tail_iff hf hq
  simp only [exec, hpc] at hex
  split_ifs at hex with ht
  · simp only [Option.some.injEq, Prod.mk.injEq] at hex
    obtain ⟨rfl, rfl⟩ := hex
    obtain ⟨k', hS'⟩ := hS.leave hf hph (htail.1 ht)
    exact ⟨k', _, hS'⟩
  · simp only [Option.some.injEq, Prod.mk.injEq] at hex
    obtain ⟨rfl, rfl⟩ := hex
    refine simulated_go hS hf hq (by rw [hph]; rfl) rfl rfl rfl rfl (by simp) (by simp [hpc]) ?_
    simp only [Frame.Knows]
    exact mt htail.2 ht

/-- The loop on `releasable_` -/
theorem sim_awaitReleasable (hpc : f.pc = .awaitReleasable)
    (hex : exec C B s h f b = some (s', x)) : Simulated C B hB (tr ++ x.toList) s' := by
  have hph : f.phase = .freed := by simp [Frame.phase, hpc]
  have hq : f.phase ≠ .absent := by simp [hph]
  have hA := agrees_of_sim hS hf hq
  simp only [exec, hpc, Option.some.injEq, Prod.mk.injEq] at hex
  obtain ⟨rfl, rfl⟩ := hex
  by_cases hd : (s.descriptor (C.side h f.lock) h).releasable = true
  · rw [if_pos hd]
    refine simulated_go hS hf hq (by rw [hph]; rfl) rfl rfl rfl rfl (by simp) (by simp [hpc]) ?_
    simp only [Frame.Knows]
    simpa [hA.releasable] using hd
  · rw [if_neg hd, ← hpc]
    exact simulated_stay hS hf hq rfl hA

theorem sim_loadNextUnlock (hpc : f.pc = .loadNextUnlock) (hex : exec C B s h f b = some (s', x)) :
    Simulated C B hB (tr ++ x.toList) s' := by
  have hph : f.phase = .freed := by simp [Frame.phase, hpc]
  have hq : f.phase ≠ .absent := by simp [hph]
  have hA := agrees_of_sim hS hf hq
  have hk := hA.knows
  simp only [Frame.Knows, hpc] at hk
  simp only [exec, hpc, Option.some.injEq, Prod.mk.injEq] at hex
  obtain ⟨rfl, rfl⟩ := hex
  refine simulated_go hS hf hq (by rw [hph]; rfl) rfl rfl rfl rfl (by simp) (by simp [hpc]) ?_
  simp only [Frame.Knows]
  exact ⟨hk, by rw [hA.next, if_pos (by omega)]⟩

/-- `next_->granted_ = kTrue` -/
theorem sim_storeGranted (hpc : f.pc = .storeGranted) (hex : exec C B s h f b = some (s', x)) :
    Simulated C B hB (tr ++ x.toList) s' := by
  have hph : f.phase = .freed := by simp [Frame.phase, hpc]
  have hq : f.phase ≠ .absent := by simp [hph]
  have hA := agrees_of_sim hS hf hq
  have hp := hA.phase.trans hph
  have hI := (hS.reach f.lock).inv
  have hk := hA.knows
  simp only [Frame.Knows, hpc] at hk
  obtain ⟨hm, hnext⟩ := hk
  have hpres : ((k f.lock).acq (C.side h f.lock) (pos h + 1)).phase ≠ .absent := by grind
  obtain ⟨n, hw⟩ := Option.ne_none_iff_exists'.1 ((hI.own (C.side h f.lock) (pos h + 1)).who hpres)
  simp only [exec, hpc, hnext, hw, Option.map_some, Option.some.injEq, Prod.mk.injEq] at hex
  obtain ⟨rfl, rfl⟩ := hex
  have hne : ((k f.lock).acq (C.side h f.lock) (pos h)).phase ≠ .gone := by simp [hp]
  have hprev := hI.succ_hasPrev hne hpres
  have hlock := (hS.words f.lock).depart (p := pos h) hI (by rw [hp]; simp)
    (b := { (k f.lock).acq (C.side h f.lock) (pos h) with phase := .gone }) rfl
    ((k f.lock).log ++ [.leave (C.side h f.lock) h])
  rw [if_neg hpres] at hlock
  have hrank : 4 ≤ ((k f.lock).acq (C.side h f.lock) (pos h)).rank := by grind
  exact ⟨_, _, hS.storeNext (e := some (.leave _ h)) hf hq (Step.depart hp hA.who (Or.inr hm)) rfl rfl
    hlock (hI.succ_ne_gone hne) hw (Or.inl ⟨rfl, rfl⟩)
    (fun fn nx T R hn => Agrees.granted_by hn hprev)
    (sameSucc_of_rank rfl hrank (by grind)) rfl rfl rfl⟩

/-- The stores before the tail exchange, and a failed round of `Exchange` -/
theorem simulated_outside (hout : f.phase = .absent) {f' : Frame H L} {d' : Descriptor H}
    (hout' : f'.phase = .absent) (hl : f'.lock = f.lock) (hfresh : Fresh f' d') :
    Simulated C B hB (tr ++ Option.toList none)
      ((s.setDescriptor (C.side h f.lock) h d').goto h f') := by
  rw [Option.toList_none, List.append_nil]
  refine ⟨k, pos, hS.outside (h := h) (fun g hg => ?_) rfl rfl (fun c g hg => by simp [hg]) hout' ?_⟩
  · obtain rfl : f = g := by simpa using hf.symm.trans hg
    exact hout
  · change Fresh f' _
    simpa [view, hl] using hfresh

theorem sim_reset (hpc : f.pc = .resetNext ∨ f.pc = .resetTicketValid ∨ f.pc = .resetBudget ∨
    f.pc = .resetGranted ∨ f.pc = .resetReleasable) (hex : exec C B s h f b = some (s', x)) :
    Simulated C B hB (tr ++ x.toList) s' := by
  have hout : f.phase = .absent := by
    rcases hpc with hpc | hpc | hpc | hpc | hpc <;> simp [Frame.phase, hpc]
  have hF : Fresh f (s.descriptor (C.side h f.lock) h) := hS.fresh h f hf hout
  rcases hpc with hpc | hpc | hpc | hpc | hpc <;>
  · simp only [exec, hpc, Option.some.injEq, Prod.mk.injEq] at hex
    obtain ⟨rfl, rfl⟩ := hex
    refine simulated_outside hS hf hout (by simp [Frame.phase]) (by rfl) ?_
    obtain ⟨⟩ := hF
    constructor <;> grind -linarith

/-- The tail exchange -/
theorem sim_exchangeTail (hpc : f.pc = .exchangeTail) (hex : exec C B s h f b = some (s', x)) :
    Simulated C B hB (tr ++ x.toList) s' := by
  have hout : f.phase = .absent := by simp [Frame.phase, hpc]
  have hF : Fresh f (s.descriptor (C.side h f.lock) h) := hS.fresh h f hf hout
  simp only [exec, hpc] at hex
  by_cases hr : C.side h f.lock = .loc ∨ (s.locks f.lock).tail (C.side h f.lock) = f.expected
  · simp only [if_pos hr, Option.some.injEq, Prod.mk.injEq] at hex
    obtain ⟨rfl, rfl⟩ := hex
    obtain ⟨hgone, hwho, hout', hoff⟩ := (hS.reach f.lock).inv.pred_tail (C.side h f.lock)
    rw [(hS.words f.lock).tail]
    have hA := hF.arrive (B := B) (c := C.side h f.lock) hpc hgone hwho hout' hoff h
      (k f.lock).issued (k f.lock).serving
    exact ⟨_, _, hS.arrive hf hout (by rfl) (fun l hl => by simp [show l ≠ f.lock from hl])
      (by simp [view]) rfl rfl
      (fun habs => newcomer_ne_absent _ h (hA.phase.trans habs)) hA⟩
  · simp only [if_neg hr, Option.some.injEq, Prod.mk.injEq] at hex
    obtain ⟨rfl, rfl⟩ := hex
    have hF' : Fresh { f with expected := (s.locks f.lock).tail (C.side h f.lock) }
        (s.descriptor (C.side h f.lock) h) := by
      obtain ⟨⟩ := hF
      constructor <;> grind -linarith
    have key := simulated_outside hS hf hout (by simp [Frame.phase, hpc]) (by rfl) hF'
    simpa [hpc] using key

end Steps

/-- One step of one handler. -/
theorem Simulated.step [DecidableEq H] (hS : Simulated C B hB tr s)
    (hs : (system C B).step s x s') : Simulated C B hB (tr ++ x.toList) s' := by
  obtain ⟨k, pos, hS⟩ := hS
  obtain ⟨h, a, hs⟩ := hs
  obtain ⟨l, -, hf, rfl, rfl⟩ | ⟨b, f, -, hf, hs⟩ := State.step_cases hs
  · rw [Option.toList_none, List.append_nil]
    refine ⟨k, pos, hS.outside (h := h) (by simp [hf]) rfl rfl (fun _ _ _ => rfl) rfl ?_⟩
    constructor <;> simp
  · cases hpc : f.pc with
    | resetNext => exact sim_reset hS hf (by simp [hpc]) hs
    | resetTicketValid => exact sim_reset hS hf (by simp [hpc]) hs
    | resetBudget => exact sim_reset hS hf (by simp [hpc]) hs
    | resetGranted => exact sim_reset hS hf (by simp [hpc]) hs
    | resetReleasable => exact sim_reset hS hf (by simp [hpc]) hs
    | exchangeTail => exact sim_exchangeTail hS hf hpc hs
    | storePrevNext => exact sim_storePrevNext hS hf hpc hs
    | loadPrevTicketValid => exact sim_loadPrevTicketValid hS hf hpc hs
    | storePrevReleasable => exact sim_storePrevReleasable hS hf hpc hs
    | awaitBudget => exact sim_awaitBudget hS hf hpc hs
    | testBudget => exact sim_testBudget hS hf hpc hs
    | loadBatchTicket => exact sim_loadBatchTicket hS hf hpc hs
    | storeBudget => exact sim_storeBudget hS hf hpc hs
    | storeFlag => exact sim_storeFlag hS hf hpc hs
    | storeVictim => exact sim_storeVictim hS hf hpc hs
    | loadFlag => exact sim_loopLocal hS hf (Or.inl hpc) hs
    | loadVictim => exact sim_loopLocal hS hf (Or.inr hpc) hs
    | readPair => exact sim_readPair hS hf hpc hs
    | readFlag => exact sim_readSecond hS hf (Or.inl hpc) hs
    | readVictim => exact sim_readSecond hS hf (Or.inr hpc) hs
    | loadNextTicket => exact sim_loadNextTicket hS hf hpc hs
    | storeNextTicket => exact sim_storeNextTicket hS hf hpc hs
    | testNext => exact sim_testNext hS hf hpc hs
    | assertBudget => exact sim_assertBudget hS hf hpc hs
    | testLast => exact sim_testLast hS hf hpc hs
    | clearFlagFull => exact sim_clearFlag hS hf (Or.inr hpc) hs
    | storeTicketValidFull => exact sim_storeTicketValid hS hf (Or.inr hpc) hs
    | loadNextBatch => exact sim_loadHand hS hf (Or.inl hpc) hs
    | storeNextBatchTicket => exact sim_storeNextBatchTicket hS hf hpc hs
    | loadNextBudget => exact sim_loadHand hS hf (Or.inr (Or.inl hpc)) hs
    | loadBudget => exact sim_loadHand hS hf (Or.inr (Or.inr hpc)) hs
    | storeNextBudget => exact sim_storeNextBudget hS hf hpc hs
    | clearFlag => exact sim_clearFlag hS hf (Or.inl hpc) hs
    | storeTicketValid => exact sim_storeTicketValid hS hf (Or.inl hpc) hs
    | testNextAgain => exact sim_testNextAgain hS hf hpc hs
    | loadNext => exact sim_loadNext hS hf hpc hs
    | storeInitBudget => exact sim_storeInitBudget hS hf hpc hs
    | awaitGranted => exact sim_awaitGranted hS hf hpc hs
    | awaitTicket => exact sim_awaitTicket hS hf hpc hs
    | storeBatchTicket => exact sim_storeBatchTicket hS hf hpc hs
    | critical => exact sim_critical hS hf hpc hs
    | loadTicketValid => exact sim_loadTicketValid hS hf hpc hs
    | loadCurrent => exact sim_loadCurrent hS hf hpc hs
    | storeCurrent => exact sim_storeCurrent hS hf hpc hs
    | testNextUnlock => exact sim_testNextUnlock hS hf hpc hs
    | casTail => exact sim_casTail hS hf hpc hs
    | awaitReleasable => exact sim_awaitReleasable hS hf hpc hs
    | loadNextUnlock => exact sim_loadNextUnlock hS hf hpc hs
    | storeGranted => exact sim_storeGranted hS hf hpc hs

/-- Every run of FARLockG is simulated by the abstract lock. -/
theorem simulated_of_run [DecidableEq H] (hB : B.Positive) (hr : (system C B).Run tr s) :
    Simulated C B hB tr s :=
  hr.invariant (I := Simulated C B hB) (fun _ h0 => Sim.start h0)
    (fun _ _ _ _ _ hS hs => hS.step hs)

end FARLockG

end Farlock
