import Farlock.FARLock.Refinement
import Farlock.Spec.Batches

/-!
# Every step of FARLock is a move of the abstract lock

One lemma for each group of program points, and `Simulated.run` for whole runs.
-/

namespace Farlock

namespace FARLock

open Spec

variable {H L : Type} [DecidableEq L] {C : Cluster H L} {tr : List (L × Event H UInt64)}
  {s s' : State H L} {k : L → Spec.State H} {pos : H → ℕ} {h : H} {f : Frame H L} {b : Bool}
  {x : Option (L × Event H UInt64)}

/-- Some abstract states go along with `s`. -/
def Simulated (C : Cluster H L) (tr : List (L × Event H UInt64)) (s : State H L) : Prop :=
  ∃ k pos, Sim view config C tr s k pos

/-- What is known about a handler in a queue. -/
theorem agrees_of_sim (hS : Sim view config C tr s k pos) (hf : s.thread h = .busy f)
    (hq : f.phase ≠ .absent) :
    Agrees (C.side h f.lock) h f (s.descriptor (C.side h f.lock) h)
      ((k f.lock).pred (C.side h f.lock) (pos h)) ((k f.lock).acq (C.side h f.lock) (pos h))
      ((k f.lock).acq (C.side h f.lock) (pos h + 1)) (k f.lock).issued (k f.lock).serving :=
  hS.queued h f hf hq

/-- The predecessor of a handler that has not let it go is still there. -/
theorem pred_present (hS : Sim view config C tr s k pos) (hf : s.thread h = .busy f)
    (hq : f.phase ≠ .absent) (h1 : 1 ≤ f.phase.rank) (h3 : f.phase.rank ≤ 3) :
    ((k f.lock).pred (C.side h f.lock) (pos h)).phase ≠ .gone ∧
      ∃ n, f.prev = some n ∧ ((k f.lock).pred (C.side h f.lock) (pos h)).who = some n := by
  have hA := agrees_of_sim hS hf hq
  have hI := (hS.reach f.lock).inv
  have hp := hA.phase
  have hhas := (hI.own (C.side h f.lock) (pos h)).prev (by grind) (by grind)
  refine ⟨fun hg => ?_, ?_⟩
  · have := (hI.links (C.side h f.lock) (pos h)).marked hg hhas
    grind
  · obtain ⟨n, hn⟩ := Option.isSome_iff_exists.1 (hA.hasPrev.trans hhas)
    exact ⟨n, hn, (hA.prev (by grind)).symm.trans hn⟩

section Steps

variable [DecidableEq H] (hS : Sim view config C tr s k pos) (hf : s.thread h = .busy f)
include hS hf

theorem simulated_own (hq : f.phase ≠ .absent) {f' : Frame H L} {w' : LockWords H}
    {d' : Descriptor H} {e : Option (Event H ℕ)} {K' : Spec.State H} {a' : Acq H}
    (hstep : Step config (k f.lock) K')
    (hacq : K'.acq = ((k f.lock).put (C.side h f.lock) (pos h) a').acq)
    (hlog : K'.log = (k f.lock).log ++ e.toList) (hlock : LockOk w' K') (hl : f'.lock = f.lock)
    (hself : Agrees (C.side h f.lock) h f' d' ((k f.lock).pred (C.side h f.lock) (pos h)) a'
      ((k f.lock).acq (C.side h f.lock) (pos h + 1)) K'.issued K'.serving)
    (hpred : SamePred ((k f.lock).acq (C.side h f.lock) (pos h)) a')
    (hsucc : SameSucc ((k f.lock).acq (C.side h f.lock) (pos h)) a')
    (hT : K'.issued = (k f.lock).issued ∨ f.phase = .passed)
    (hR : K'.serving = (k f.lock).serving ∨
      (k f.lock).serving ≤ K'.serving ∧ f.phase = .critical)
    (hs' : s' = ((s.setLock f.lock w').setDescriptor (C.side h f.lock) h d').goto h f') :
    Simulated C (tr ++ ((e.map (Event.map word)).map fun x => (f.lock, x)).toList) s' :=
  hs' ▸ ⟨_, _, hS.own hf hq hstep hacq hlog hlock hl hself hpred hsucc hT hR⟩

theorem simulated_stay (hq : f.phase ≠ .absent) {f' : Frame H L} (hl : f'.lock = f.lock)
    (hself : Agrees (C.side h f.lock) h f' (s.descriptor (C.side h f.lock) h)
      ((k f.lock).pred (C.side h f.lock) (pos h)) ((k f.lock).acq (C.side h f.lock) (pos h))
      ((k f.lock).acq (C.side h f.lock) (pos h + 1)) (k f.lock).issued (k f.lock).serving) :
    Simulated C (tr ++ Option.toList none) (s.goto h f') := by
  rw [Option.toList_none, List.append_nil]
  exact ⟨_, _, hS.stay hf hq hl hself⟩

/-- `prev->next_ = descriptor` -/
theorem sim_storePrevNext (hpc : f.pc = .storePrevNext) (hex : exec C s h f b = some (s', x)) :
    Simulated C (tr ++ x.toList) s' := by
  have hph : f.phase = .link := by simp [Frame.phase, hpc]
  have hq : f.phase ≠ .absent := by simp [hph]
  have hA := agrees_of_sim hS hf hq
  have hp := hA.phase.trans hph
  obtain ⟨hg, n, hprev, hw⟩ := pred_present hS hf hq (by simp [hph, Phase.rank])
    (by simp [hph, Phase.rank])
  simp only [exec, hpc, hprev, Option.map_some, Option.some.injEq, Prod.mk.injEq] at hex
  obtain ⟨rfl, rfl⟩ := hex
  exact ⟨_, _, hS.storePrev (e := none) hf hq (Step.link hp) rfl (by simp)
    ((hS.words f.lock).quiet (by rfl) (by grind)) hg hw rfl
    (by simp) (hprev ▸ hA.link hpc)
    (fun fn pr T R hn => Agrees.linked_by hn hp hA.who)
    (samePred_phase (by simp [view, hp]) (by simp)) rfl rfl⟩

/-- `ticket = prev->ticket_` -/
theorem sim_loadPrevTicket (hpc : f.pc = .loadPrevTicket) (hex : exec C s h f b = some (s', x)) :
    Simulated C (tr ++ x.toList) s' := by
  have hph : f.phase = .look := by simp [Frame.phase, hpc]
  have hq : f.phase ≠ .absent := by simp [hph]
  have hA := agrees_of_sim hS hf hq
  have hp := hA.phase.trans hph
  obtain ⟨hg, n, hprev, hw⟩ := pred_present hS hf hq (by simp [hph, Phase.rank])
    (by simp [hph, Phase.rank])
  simp only [exec, hpc, hprev, Option.map_some, Option.some.injEq, Prod.mk.injEq] at hex
  obtain ⟨rfl, rfl⟩ := hex
  obtain ⟨fn, hn, hln, hcn, hpn, hqn⟩ := hS.pred_busy hg hw
  have hAn := agrees_of_sim hS hn hqn
  have hln : fn.lock = f.lock := hln
  rw [hln, hcn] at hAn
  have hb : (decide ((k f.lock).pred (C.side h f.lock) (pos h)).Published &&
      !config.blind ((k f.lock).pred (C.side h f.lock) (pos h)).ticket) = true ↔
      (s.descriptor (C.side h f.lock) n).ticket ≠ kInvalidTicket := by
    have hout := (hS.reach f.lock).inv.out_ne_handed (c := C.side h f.lock) (p := pos n) rfl
    rw [hAn.ticket, hpn, pred_succ]
    grind [config]
  have hA' := hA.look hpc hb
  rw [hprev] at hA'
  exact simulated_own hS hf hq (e := none) (Step.look hp) rfl (by simp)
    ((hS.words f.lock).quiet (by rfl) (by grind)) (by rfl) hA'
    ⟨rfl, rfl, by grind, rfl, fun _ => rfl⟩
    ⟨fun _ => rfl, by simp, by grind, by grind⟩ (Or.inl rfl) (Or.inl rfl)
    (by simp)

/-- `prev->releasable_ = kTrue` -/
theorem sim_storePrevReleasable (hpc : f.pc = .storePrevReleasable)
    (hex : exec C s h f b = some (s', x)) : Simulated C (tr ++ x.toList) s' := by
  have hph : f.phase = .mark := by simp [Frame.phase, hpc]
  have hq : f.phase ≠ .absent := by simp [hph]
  have hA := agrees_of_sim hS hf hq
  have hp := hA.phase.trans hph
  obtain ⟨hg, n, hprev, hw⟩ := pred_present hS hf hq (by simp [hph, Phase.rank])
    (by simp [hph, Phase.rank])
  simp only [exec, hpc, hprev, Option.map_some, Option.some.injEq, Prod.mk.injEq] at hex
  obtain ⟨rfl, rfl⟩ := hex
  have hA' := hA.mark hpc
  exact ⟨_, _, hS.storePrev (e := none) hf hq (Step.mark hp) rfl (by simp)
    ((hS.words f.lock).quiet (by rfl) (by grind)) hg hw rfl
    (by dsimp only; split <;> simp) (hprev ▸ hA')
    (fun fn pr T R hn => Agrees.marked_by hn hp)
    (samePred_phase (by simp [view, hp]) (by split <;> simp)) rfl rfl⟩

/-- `WaitToGetTicket` -/
theorem sim_waitToGetTicket (hpc : f.pc = .waitToGetTicket)
    (hex : exec C s h f b = some (s', x)) : Simulated C (tr ++ x.toList) s' := by
  have hph : f.phase = .wait := by simp [Frame.phase, hpc]
  have hq : f.phase ≠ .absent := by simp [hph]
  have hA := agrees_of_sim hS hf hq
  have hp := hA.phase.trans hph
  simp only [exec, hpc, Option.some.injEq, Prod.mk.injEq] at hex
  obtain ⟨rfl, rfl⟩ := hex
  by_cases hd : (s.descriptor (C.side h f.lock) h).toGetTicket = true
  · have hout : ((k f.lock).pred (C.side h f.lock) (pos h)).out = .told := by
      simpa [hA.toGetTicket] using hd
    rw [if_pos hd]
    exact simulated_own hS hf hq (e := none) (Step.lead hp hout) rfl (by simp)
      ((hS.words f.lock).quiet (by rfl) (by grind)) (by rfl) (hA.lead hpc)
      (samePred_phase (by simp [hp]) (by simp))
      (sameSucc_of_rank rfl (by grind) (by grind)) (Or.inl rfl) (Or.inl rfl) (by simp)
  · rw [if_neg hd, ← hpc]
    exact simulated_stay hS hf hq rfl hA

/-- `LockPetersons`: the store of the flag -/
theorem sim_storeFlag (hpc : f.pc = .storeFlag) (hex : exec C s h f b = some (s', x)) :
    Simulated C (tr ++ x.toList) s' := by
  have hph : f.phase = .ready := by simp [Frame.phase, hpc]
  have hq : f.phase ≠ .absent := by simp [hph]
  have hA := agrees_of_sim hS hf hq
  have hp := hA.phase.trans hph
  simp only [exec, hpc, Option.some.injEq, Prod.mk.injEq] at hex
  obtain ⟨rfl, rfl⟩ := hex
  exact simulated_own hS hf hq (e := some (.raise _ h)) (Step.raise hp hA.who) rfl rfl
    ((hS.words f.lock).raise (by rfl) (by grind) _) (by rfl) (hA.raise hpc)
    (samePred_phase (by simp [hp]) (by simp))
    (sameSucc_of_rank rfl (by grind) (by grind)) (Or.inl rfl) (Or.inl rfl) (by simp)

/-- `LockPetersons`: the store of the victim -/
theorem sim_storeVictim (hpc : f.pc = .storeVictim) (hex : exec C s h f b = some (s', x)) :
    Simulated C (tr ++ x.toList) s' := by
  have hph : f.phase = .flagged := by simp [Frame.phase, hpc]
  have hq : f.phase ≠ .absent := by simp [hph]
  have hA := agrees_of_sim hS hf hq
  have hp := hA.phase.trans hph
  simp only [exec, hpc, Option.some.injEq, Prod.mk.injEq] at hex
  obtain ⟨rfl, rfl⟩ := hex
  have hst := ((hS.reach f.lock).inv.glob _ _).flagged hp
  exact simulated_own hS hf hq (e := some (.request _ h)) (Step.request hp hA.who) rfl rfl
    ((hS.words f.lock).request (by rfl) (by grind) _ (by simp [hst])) (by rfl)
    (hA.request hpc) (samePred_phase (by simp [hp]) (by simp))
    (sameSucc_of_rank rfl (by grind) (by grind)) (Or.inl rfl) (Or.inl rfl) (by simp)

/-- A load of the loop of `LockPetersons` that succeeds. -/
theorem simulated_pass (hp : f.phase = .waiting) {f' : Frame H L} (hp' : f'.phase = .passed)
    (hpass : (k f.lock).pet.CanPass (C.side h f.lock)) (hl : f'.lock = f.lock)
    (hprev : f'.prev = f.prev) (hpc : f'.pc = .loadNextTicket ∨ C.side h f.lock = .rem ∧
      (f'.pc = .readFlag ∨ f'.pc = .readVictim)) :
    Simulated C (tr ++ Option.toList none) (s.goto h f') := by
  have hq : f.phase ≠ .absent := by simp [hp]
  have hA := agrees_of_sim hS hf hq
  have hph := hA.phase.trans hp
  have hst := ((hS.reach f.lock).inv.glob _ _).waiting hph
  have hA' := hA.loop (by simp [hp, Phase.rank]) (Or.inr hp') hprev (by grind) (by grind) (by grind)
  rw [hp'] at hA'
  exact simulated_own hS hf hq (e := none) (Step.pass hph hpass) rfl (by simp)
    ((hS.words f.lock).pass (by rfl) (by grind) (by simp [hst])) hl hA'
    (samePred_phase (by simp [hph]) (by simp)) (sameSucc_of_rank rfl (by grind) (by grind))
    (Or.inl rfl) (Or.inl rfl) (by simp)

/-- A load of the loop of `LockPetersons` that changes nothing. -/
theorem simulated_loop (hp : f.phase = .waiting ∨ f.phase = .passed) {f' : Frame H L}
    (hp' : f'.phase = f.phase) (hl : f'.lock = f.lock) (hprev : f'.prev = f.prev)
    (hloc : f'.pc = .loadFlag ∨ f'.pc = .loadVictim → C.side h f.lock = .loc)
    (hrem : f'.pc = .readPair ∨ f'.pc = .readFlag ∨ f'.pc = .readVictim → C.side h f.lock = .rem)
    (hdraw : f'.pc ≠ .storeNextTicket) :
    Simulated C (tr ++ Option.toList none) (s.goto h f') := by
  have hq : f.phase ≠ .absent := by rcases hp with hp | hp <;> simp [hp]
  have hA := agrees_of_sim hS hf hq
  have hA' := hA.loop (by rcases hp with hp | hp <;> simp [hp, Phase.rank]) (hp' ▸ hp) hprev hloc hrem hdraw
  rw [hp', ← hA.phase] at hA'
  exact simulated_stay hS hf hq hl hA'

/-- The loop of `LockPetersonsLocal` -/
theorem sim_loopLocal (hpc : f.pc = .loadFlag ∨ f.pc = .loadVictim)
    (hex : exec C s h f b = some (s', x)) : Simulated C (tr ++ x.toList) s' := by
  have hp : f.phase = .waiting := by rcases hpc with hpc | hpc <;> simp [Frame.phase, hpc]
  have hA := agrees_of_sim hS hf (by simp [hp])
  have hc := hA.loc hpc
  have hw := hS.words f.lock
  rcases hpc with hpc | hpc
  · simp only [exec, hpc, Option.some.injEq, Prod.mk.injEq] at hex
    obtain ⟨rfl, rfl⟩ := hex
    have hflag := hw.flag .rem
    by_cases hr : (s.locks f.lock).remoteFlag = true
    · rw [if_pos hr]
      exact simulated_loop hS hf (Or.inl hp) (by simp [Frame.phase, hpc]) rfl rfl (fun _ => hc)
        (by simp) (by simp)
    · rw [if_neg hr]
      refine simulated_pass hS hf hp (by simp [Frame.phase]) (Or.inl ?_) rfl rfl (Or.inl rfl)
      rw [hc, other_loc]
      simpa [LockWords.flag, hr] using hflag
  · simp only [exec, hpc, Option.some.injEq, Prod.mk.injEq] at hex
    obtain ⟨rfl, rfl⟩ := hex
    by_cases hv : (s.locks f.lock).victim = some .loc
    · rw [if_pos hv]
      exact simulated_loop hS hf (Or.inl hp) (by simp [Frame.phase, hpc]) rfl rfl (fun _ => hc)
        (by simp) (by simp)
    · rw [if_neg hv]
      refine simulated_pass hS hf hp (by simp [Frame.phase]) (Or.inr ?_) rfl rfl (Or.inl rfl)
      rw [hc, ← hw.victim]
      exact hv

/-- The loop of `LockPetersonsRemote`: the first load of a round -/
theorem sim_readPair (hpc : f.pc = .readPair) (hex : exec C s h f b = some (s', x)) :
    Simulated C (tr ++ x.toList) s' := by
  have hp : f.phase = .waiting := by simp [Frame.phase, hpc]
  have hA := agrees_of_sim hS hf (by simp [hp])
  have hc := hA.rem (Or.inl hpc)
  have hw := hS.words f.lock
  simp only [exec, hpc, Option.some.injEq, Prod.mk.injEq] at hex
  obtain ⟨rfl, rfl⟩ := hex
  cases b
  · rw [if_neg (by simp)]
    have hflag := hw.flag .loc
    by_cases hr : (s.locks f.lock).localFlag = true
    · exact simulated_loop hS hf (Or.inl hp) (by rw [hp]; simp [Frame.phase, hr]) rfl rfl (by simp)
        (fun _ => hc) (by simp)
    · refine simulated_pass hS hf hp (by simp [Frame.phase, hr]) (Or.inl ?_) rfl rfl
        (Or.inr ⟨hc, Or.inr rfl⟩)
      rw [hc, other_rem]
      simpa [LockWords.flag, hr] using hflag
  · rw [if_pos rfl]
    by_cases hv : (s.locks f.lock).victim = some .rem
    · exact simulated_loop hS hf (Or.inl hp) (by rw [hp]; simp [Frame.phase, hv]) rfl rfl (by simp)
        (fun _ => hc) (by simp)
    · refine simulated_pass hS hf hp (by simp [Frame.phase, hv]) (Or.inr ?_) rfl rfl
        (Or.inr ⟨hc, Or.inl rfl⟩)
      rw [hc, ← hw.victim]
      exact hv

/-- The loop of `LockPetersonsRemote`: the second load of a round, and the test -/
theorem sim_readSecond (hpc : f.pc = .readFlag ∨ f.pc = .readVictim)
    (hex : exec C s h f b = some (s', x)) : Simulated C (tr ++ x.toList) s' := by
  have hp : f.phase = .waiting ∨ f.phase = .passed := by
    rcases hpc with hpc | hpc <;> simp only [Frame.phase, hpc] <;> split <;> simp
  have hA := agrees_of_sim hS hf (by rcases hp with hp | hp <;> simp [hp])
  have hc := hA.rem (Or.inr hpc)
  have hw := hS.words f.lock
  -- the section was passed at the first load, or is passed now, or the round starts again
  have key : ∀ f' : Frame H L, f'.lock = f.lock → f'.prev = f.prev →
      (f.phase = .passed → f'.flag ≠ true ∨ f'.victim ≠ some .rem) →
      (f.phase = .waiting → f'.flag ≠ true ∨ f'.victim ≠ some .rem →
        (k f.lock).pet.CanPass (C.side h f.lock)) →
      Simulated C (tr ++ Option.toList none) (s.goto h f'.test) := by
    intro f' hl hprev h1 h2
    by_cases ht : f'.flag ≠ true ∨ f'.victim ≠ some .rem
    · have htest : f'.test = { f' with pc := .loadNextTicket } := by rw [Frame.test, if_pos ht]
      rw [htest]
      rcases hp with hp | hp
      · exact simulated_pass hS hf hp (by simp [Frame.phase]) (h2 hp ht) hl hprev (Or.inl rfl)
      · exact simulated_loop hS hf (Or.inr hp) (by rw [hp]; rfl) hl hprev (by simp)
          (by simp) (by simp)
    · have htest : f'.test = { f' with pc := .readPair } := by rw [Frame.test, if_neg ht]
      rw [htest]
      rcases hp with hp | hp
      · exact simulated_loop hS hf (Or.inl hp) (by rw [hp]; rfl) hl hprev (by simp)
          (fun _ => hc) (by simp)
      · exact absurd (h1 hp) ht
  rcases hpc with hpc | hpc
  · simp only [exec, hpc, Option.some.injEq, Prod.mk.injEq] at hex
    obtain ⟨rfl, rfl⟩ := hex
    have hflag := hw.flag .loc
    refine key _ rfl rfl (fun hpass => Or.inr ?_) fun hwait ht => Or.inl ?_
    · simp only [Frame.phase, hpc] at hpass
      grind
    · simp only [Frame.phase, hpc] at hwait
      rw [hc, other_rem]
      grind [LockWords.flag]
  · simp only [exec, hpc, Option.some.injEq, Prod.mk.injEq] at hex
    obtain ⟨rfl, rfl⟩ := hex
    refine key _ rfl rfl (fun hpass => Or.inl ?_) fun hwait ht => Or.inr ?_
    · simp only [Frame.phase, hpc] at hpass
      grind
    · simp only [Frame.phase, hpc] at hwait
      rw [hc, ← hw.victim]
      grind

/-- The fetch-and-add on `next_ticket_`: the load -/
theorem sim_loadNextTicket (hpc : f.pc = .loadNextTicket) (hex : exec C s h f b = some (s', x)) :
    Simulated C (tr ++ x.toList) s' := by
  have hph : f.phase = .passed := by simp [Frame.phase, hpc]
  have hq : f.phase ≠ .absent := by simp [hph]
  have hA := agrees_of_sim hS hf hq
  simp only [exec, hpc, Option.some.injEq, Prod.mk.injEq] at hex
  obtain ⟨rfl, rfl⟩ := hex
  rw [(hS.words f.lock).nextTicket]
  exact simulated_stay hS hf hq (by rfl) (hA.loadNextTicket hpc)

/-- The fetch-and-add on `next_ticket_`: the store -/
theorem sim_storeNextTicket (hpc : f.pc = .storeNextTicket)
    (hex : exec C s h f b = some (s', x)) : Simulated C (tr ++ x.toList) s' := by
  have hph : f.phase = .passed := by simp [Frame.phase, hpc]
  have hq : f.phase ≠ .absent := by simp [hph]
  have hA := agrees_of_sim hS hf hq
  have hp := hA.phase.trans hph
  have hown := (hS.reach f.lock).inv.own (C.side h f.lock) (pos h)
  have hoff : ((k f.lock).acq (C.side h f.lock) (pos h)).offered ≠ true := fun ho => by
    rcases hown.offered ho with ⟨hd, -⟩ | hd
    · simp [hp] at hd
    · exact (hS.reach f.lock).inv.out_ne_handed rfl hd
  have ht := hA.drawing hpc
  simp only [exec, hpc, ht, word_succ, Option.some.injEq, Prod.mk.injEq] at hex
  obtain ⟨rfl, rfl⟩ := hex
  have hA' := hA.draw hpc 1 ((k f.lock).issued + 1) (k f.lock).serving
  rw [ht] at hA'
  exact simulated_own hS hf hq (e := some (.draw _ h (k f.lock).issued)) (Step.draw hp hA.who) rfl rfl
    ((hS.words f.lock).draw (by rfl) (by grind) _) (by rfl) hA'
    ⟨rfl, rfl, by grind, rfl, fun ho => absurd ho hoff⟩
    (sameSucc_of_rank rfl (by grind) (by grind)) (Or.inr hph)
    (Or.inl rfl) (by simp)

/-- `UnlockPetersons` -/
theorem sim_clearFlag (hpc : f.pc = .clearFlag) (hex : exec C s h f b = some (s', x)) :
    Simulated C (tr ++ x.toList) s' := by
  have hph : f.phase = .drawn := by simp [Frame.phase, hpc]
  have hq : f.phase ≠ .absent := by simp [hph]
  have hA := agrees_of_sim hS hf hq
  have hp := hA.phase.trans hph
  have hI := (hS.reach f.lock).inv
  have hoff : ((k f.lock).acq (C.side h f.lock) (pos h)).offered = false := by
    by_contra ho
    have hown := hI.own (C.side h f.lock) (pos h)
    have hb := (hown.budget (hown.has (by grind))).2
    rcases hown.offered (by simpa using ho) with ⟨-, hlt⟩ | hd
    · simp only [config] at hb
      omega
    · exact (hS.reach f.lock).inv.out_ne_handed rfl hd
  simp only [exec, hpc, Option.some.injEq, Prod.mk.injEq] at hex
  obtain ⟨rfl, rfl⟩ := hex
  exact simulated_own hS hf hq (e := some (.lower _ h)) (Step.lower hp hA.who hoff) rfl rfl
    ((hS.words f.lock).lower (by rfl) (by grind) _) (by rfl) (hA.lower hpc)
    (samePred_phase (by simp [hp]) (by simp))
    (sameSucc_of_rank rfl (by grind) (by grind)) (Or.inl rfl) (Or.inl rfl) (by simp)

/-- `descriptor.ticket_ = ticket` -/
theorem sim_storeTicket (hpc : f.pc = .storeTicket) (hex : exec C s h f b = some (s', x)) :
    Simulated C (tr ++ x.toList) s' := by
  have hph : f.phase = .cleared := by simp [Frame.phase, hpc]
  have hq : f.phase ≠ .absent := by simp [hph]
  have hA := agrees_of_sim hS hf hq
  have hp := hA.phase.trans hph
  simp only [exec, hpc, Option.some.injEq, Prod.mk.injEq] at hex
  obtain ⟨rfl, rfl⟩ := hex
  exact simulated_own hS hf hq (e := none) (Step.publish hp) rfl (by simp)
    ((hS.words f.lock).quiet (by rfl) (by grind)) (by rfl) (hA.publish hpc)
    (samePred_phase (by simp [hp]) (by simp))
    (sameSucc_of_rank rfl (by grind) (by grind)) (Or.inl rfl) (Or.inl rfl) (by simp)

/-- `if (descriptor.next_)` after the ticket is published -/
theorem sim_testNext (hpc : f.pc = .testNext) (hex : exec C s h f b = some (s', x)) :
    Simulated C (tr ++ x.toList) s' := by
  have hph : f.phase = .notify := by simp [Frame.phase, hpc]
  have hq : f.phase ≠ .absent := by simp [hph]
  have hA := agrees_of_sim hS hf hq
  have hp := hA.phase.trans hph
  simp only [exec, hpc, Option.some.injEq, Prod.mk.injEq] at hex
  obtain ⟨rfl, rfl⟩ := hex
  by_cases hl : ((k f.lock).acq (C.side h f.lock) (pos h + 1)).Linked
  · have hown := (hS.reach f.lock).inv.own (C.side h f.lock) (pos h + 1)
    have hn : (s.descriptor (C.side h f.lock) h).next.isSome = true := by
      rw [hA.next, if_pos hl]
      exact Option.isSome_iff_ne_none.2 (hown.who (by grind))
    rw [if_pos hn]
    exact simulated_stay hS hf hq (by rfl)
      (hA.next_pc (by rw [hph]; rfl) (Or.inl ⟨rfl, hl⟩))
  · have hn : ¬ (s.descriptor (C.side h f.lock) h).next.isSome = true := by
      rw [hA.next, if_neg hl]
      simp
    rw [if_neg hn]
    have hA' := hA.await (o := ((k f.lock).acq (C.side h f.lock) (pos h)).out)
      hph
    exact simulated_own hS hf hq (e := none) (Step.skip hp hl) rfl (by simp)
      ((hS.words f.lock).quiet (by rfl) (by grind)) (by rfl) hA'
      (samePred_phase (by simp [hp]) (by simp))
      (sameSucc_of_rank rfl (by grind) (by grind)) (Or.inl rfl) (Or.inl rfl) (by simp)

theorem sim_loadNext (hpc : f.pc = .loadNext) (hex : exec C s h f b = some (s', x)) :
    Simulated C (tr ++ x.toList) s' := by
  have hph : f.phase = .notify := by simp [Frame.phase, hpc]
  have hq : f.phase ≠ .absent := by simp [hph]
  have hA := agrees_of_sim hS hf hq
  simp only [exec, hpc, Option.some.injEq, Prod.mk.injEq] at hex
  obtain ⟨rfl, rfl⟩ := hex
  exact simulated_stay hS hf hq (by rfl) (hA.loadNext hpc)

/-- `next_->to_get_ticket_ = kTrue` -/
theorem sim_storeToGetTicket (hpc : f.pc = .storeToGetTicket)
    (hex : exec C s h f b = some (s', x)) : Simulated C (tr ++ x.toList) s' := by
  have hph : f.phase = .notify := by simp [Frame.phase, hpc]
  have hq : f.phase ≠ .absent := by simp [hph]
  have hA := agrees_of_sim hS hf hq
  have hp := hA.phase.trans hph
  have hI := (hS.reach f.lock).inv
  have hl := hA.linked (Or.inr hpc)
  obtain ⟨n, hw⟩ := Option.ne_none_iff_exists'.1
    ((hI.own (C.side h f.lock) (pos h + 1)).who (by grind))
  simp only [exec, hpc, hA.succ (Or.inl hpc), hw, Option.map_some, Option.some.injEq,
    Prod.mk.injEq] at hex
  obtain ⟨rfl, rfl⟩ := hex
  -- the successor is not gone, since this handler is not
  have hng := hI.succ_ne_gone (c := C.side h f.lock) (p := pos h) (by simp [hp])
  have hA' := hA.await (o := .told) hph
  have hawait : f.await.phase ≠ .absent := by simp [← hA'.phase]
  have hrank : 4 ≤ ((k f.lock).acq (C.side h f.lock) (pos h)).rank := by grind
  exact ⟨_, _, hS.storeNext (e := none) hf hq (Step.tell hp hl) rfl (by simp)
    ((hS.words f.lock).quiet (by rfl) (by grind)) hng hw
    (Or.inr ⟨f.await, rfl, rfl, hawait, hA'⟩)
    (fun fn nx T R hn => Agrees.told_by hn (by simp [view, hp]))
    (sameSucc_of_rank rfl hrank (by grind)) rfl rfl rfl⟩

/-- `AwaitPredecessor` -/
theorem sim_awaitPredecessor (hpc : f.pc = .awaitPredecessor)
    (hex : exec C s h f b = some (s', x)) : Simulated C (tr ++ x.toList) s' := by
  have hph : f.phase = .queued := by simp [Frame.phase, hpc]
  have hq : f.phase ≠ .absent := by simp [hph]
  have hA := agrees_of_sim hS hf hq
  simp only [exec, hpc, Option.some.injEq, Prod.mk.injEq] at hex
  obtain ⟨rfl, rfl⟩ := hex
  by_cases hd : (s.descriptor (C.side h f.lock) h).granted = true
  · rw [if_pos hd]
    rw [hA.granted] at hd
    exact simulated_stay hS hf hq (by rfl) (hA.next_pc (by rw [hph]; rfl)
      (Or.inr (Or.inl ⟨rfl, fun _ => by simp at hd; exact hd.2⟩)))
  · rw [if_neg hd, ← hpc]
    exact simulated_stay hS hf hq rfl hA

/-- `AwaitTicket`: the load of the own ticket -/
theorem sim_loadTicket (hpc : f.pc = .loadTicket) (hex : exec C s h f b = some (s', x)) :
    Simulated C (tr ++ x.toList) s' := by
  have hph : f.phase = .queued := by simp [Frame.phase, hpc]
  have hq : f.phase ≠ .absent := by simp [hph]
  have hA := agrees_of_sim hS hf hq
  simp only [exec, hpc, Option.some.injEq, Prod.mk.injEq] at hex
  obtain ⟨rfl, rfl⟩ := hex
  exact simulated_stay hS hf hq (by rfl) (hA.loadTicket hpc)

/-- `AwaitTicket`: the load of the current ticket, and the entry into the critical section -/
theorem sim_awaitTicket (hpc : f.pc = .awaitTicket) (hex : exec C s h f b = some (s', x)) :
    Simulated C (tr ++ x.toList) s' := by
  have hph : f.phase = .queued := by simp [Frame.phase, hpc]
  have hq : f.phase ≠ .absent := by simp [hph]
  have hA := agrees_of_sim hS hf hq
  have hp := hA.phase.trans hph
  have hw := hS.words f.lock
  simp only [exec, hpc] at hex
  split_ifs at hex with hv
  · simp only [Option.some.injEq, Prod.mk.injEq] at hex
    obtain ⟨rfl, rfl⟩ := hex
    rw [hA.value hpc, hw.currentTicket] at hv
    have ht := hS.ticket_eq_serving hp hv
    have hA' := hA.enter hpc
    rw [hA.value hpc] at hA' ⊢
    exact simulated_own hS hf hq (e := some (.enter _ h _))
      (Step.enter hp hA.who (hA.turn (Or.inr hpc)) fun _ => ht) rfl rfl
      (hw.logged (by rfl) (by grind) _) (by rfl) hA'
      (samePred_phase (by simp [hp]) (by simp))
      (sameSucc_of_rank rfl (by grind) (by grind)) (Or.inl rfl) (Or.inl rfl) (by simp)
  · simp only [Option.some.injEq, Prod.mk.injEq] at hex
    obtain ⟨rfl, rfl⟩ := hex
    exact simulated_stay hS hf hq (by rfl) (hA.next_pc (by rw [hph]; rfl)
      (Or.inr (Or.inl ⟨rfl, hA.turn (Or.inr hpc)⟩)))

theorem sim_critical (hpc : f.pc = .critical) (hex : exec C s h f b = some (s', x)) :
    Simulated C (tr ++ x.toList) s' := by
  have hph : f.phase = .critical := by simp [Frame.phase, hpc]
  have hq : f.phase ≠ .absent := by simp [hph]
  have hA := agrees_of_sim hS hf hq
  simp only [exec, hpc, Option.some.injEq, Prod.mk.injEq] at hex
  obtain ⟨rfl, rfl⟩ := hex
  exact simulated_stay hS hf hq (by rfl) (hA.next_pc (by rw [hph]; rfl) (by simp))

/-- `Unlock`: the load of the current ticket, or of the own one, which is the same -/
theorem sim_loadCurrent (hpc : f.pc = .loadCurrent) (hex : exec C s h f b = some (s', x)) :
    Simulated C (tr ++ x.toList) s' := by
  have hph : f.phase = .critical := by simp [Frame.phase, hpc]
  have hq : f.phase ≠ .absent := by simp [hph]
  have hA := agrees_of_sim hS hf hq
  have hp := hA.phase.trans hph
  have hown := (hS.reach f.lock).inv.ticket_of_owns (Or.inl hp)
  have hcur : (if C.side h f.lock = .loc then (s.locks f.lock).currentTicket
      else (s.descriptor (C.side h f.lock) h).ticket) = word (k f.lock).serving := by
    have hrank : 11 ≤ ((k f.lock).acq (C.side h f.lock) (pos h)).rank := by grind
    rw [hA.ticket, if_pos hrank, hown.2, (hS.words f.lock).currentTicket, ite_self]
  simp only [exec, hpc, hcur, Option.some.injEq, Prod.mk.injEq] at hex
  obtain ⟨rfl, rfl⟩ := hex
  exact simulated_stay hS hf hq (by rfl) (hA.loadCurrent hpc)

/-- `Unlock`: the store of the current ticket -/
theorem sim_storeCurrent (hpc : f.pc = .storeCurrent) (hex : exec C s h f b = some (s', x)) :
    Simulated C (tr ++ x.toList) s' := by
  have hph : f.phase = .critical := by simp [Frame.phase, hpc]
  have hq : f.phase ≠ .absent := by simp [hph]
  have hA := agrees_of_sim hS hf hq
  have hp := hA.phase.trans hph
  simp only [exec, hpc, hA.current hpc, word_succ, Option.some.injEq, Prod.mk.injEq] at hex
  obtain ⟨rfl, rfl⟩ := hex
  have hA' := hA.advance hpc ((k f.lock).serving + 1)
  rw [hA.current hpc] at hA'
  exact simulated_own hS hf hq (e := some (.advance _ h _))
    (Step.advance hp hA.who ((hS.reach f.lock).inv.out_ne_handed rfl)) rfl rfl
    ((hS.words f.lock).advance (by rfl) (by grind) _) (by rfl) hA'
    (samePred_phase (by simp [hp]) (by simp))
    (sameSucc_of_rank rfl (by grind) (by grind)) (Or.inl rfl)
    (Or.inr ⟨Nat.le_succ _, hph⟩) (by simp)

/-- `if (descriptor.next_ == nullptr)` -/
theorem sim_testNextUnlock (hpc : f.pc = .testNextUnlock) (hex : exec C s h f b = some (s', x)) :
    Simulated C (tr ++ x.toList) s' := by
  have hph : f.phase = .freed := by simp [Frame.phase, hpc]
  have hq : f.phase ≠ .absent := by simp [hph]
  have hA := agrees_of_sim hS hf hq
  simp only [exec, hpc, Option.some.injEq, Prod.mk.injEq] at hex
  obtain ⟨rfl, rfl⟩ := hex
  by_cases hn : (s.descriptor (C.side h f.lock) h).next.isSome = true
  · rw [if_pos hn]
    have hpres : ((k f.lock).acq (C.side h f.lock) (pos h + 1)).phase ≠ .absent := fun habs => by
      rw [hA.next, if_neg (by grind)] at hn
      simp at hn
    exact simulated_stay hS hf hq (by rfl) (hA.next_pc (by rw [hph]; rfl) (by simp [hpres]))
  · rw [if_neg hn]
    exact simulated_stay hS hf hq (by rfl) (hA.next_pc (by rw [hph]; rfl) (by simp))

/-- The compare-and-swap of the tail to null -/
theorem sim_casTail (hpc : f.pc = .casTail) (hex : exec C s h f b = some (s', x)) :
    Simulated C (tr ++ x.toList) s' := by
  have hph : f.phase = .freed := by simp [Frame.phase, hpc]
  have hq : f.phase ≠ .absent := by simp [hph]
  have hA := agrees_of_sim hS hf hq
  have htail : (s.locks f.lock).tail (C.side h f.lock) = some h ↔
      ((k f.lock).acq (C.side h f.lock) (pos h + 1)).phase = .absent := hS.tail_iff hf hq
  simp only [exec, hpc] at hex
  split_ifs at hex with ht
  · simp only [Option.some.injEq, Prod.mk.injEq] at hex
    obtain ⟨rfl, rfl⟩ := hex
    obtain ⟨k', hS'⟩ := hS.leave hf hph (htail.1 ht)
    exact ⟨k', _, hS'⟩
  · simp only [Option.some.injEq, Prod.mk.injEq] at hex
    obtain ⟨rfl, rfl⟩ := hex
    exact simulated_stay hS hf hq (by rfl)
      (hA.next_pc (by rw [hph]; rfl) (by simp [← htail, ht]))

/-- The loop on `releasable_` -/
theorem sim_awaitReleasable (hpc : f.pc = .awaitReleasable)
    (hex : exec C s h f b = some (s', x)) : Simulated C (tr ++ x.toList) s' := by
  have hph : f.phase = .freed := by simp [Frame.phase, hpc]
  have hq : f.phase ≠ .absent := by simp [hph]
  have hA := agrees_of_sim hS hf hq
  simp only [exec, hpc, Option.some.injEq, Prod.mk.injEq] at hex
  obtain ⟨rfl, rfl⟩ := hex
  by_cases hd : (s.descriptor (C.side h f.lock) h).releasable = true
  · rw [if_pos hd]
    have hm : 4 ≤ ((k f.lock).acq (C.side h f.lock) (pos h + 1)).rank := by
      simpa [hA.releasable] using hd
    exact simulated_stay hS hf hq (by rfl) (hA.next_pc (by rw [hph]; rfl) (by simp [hm]))
  · rw [if_neg hd, ← hpc]
    exact simulated_stay hS hf hq rfl hA

theorem sim_loadNextUnlock (hpc : f.pc = .loadNextUnlock) (hex : exec C s h f b = some (s', x)) :
    Simulated C (tr ++ x.toList) s' := by
  have hph : f.phase = .freed := by simp [Frame.phase, hpc]
  have hq : f.phase ≠ .absent := by simp [hph]
  have hA := agrees_of_sim hS hf hq
  simp only [exec, hpc, Option.some.injEq, Prod.mk.injEq] at hex
  obtain ⟨rfl, rfl⟩ := hex
  exact simulated_stay hS hf hq (by rfl) (hA.loadNextUnlock hpc)

/-- `next_->granted_ = kTrue` -/
theorem sim_storeGranted (hpc : f.pc = .storeGranted) (hex : exec C s h f b = some (s', x)) :
    Simulated C (tr ++ x.toList) s' := by
  have hph : f.phase = .freed := by simp [Frame.phase, hpc]
  have hq : f.phase ≠ .absent := by simp [hph]
  have hA := agrees_of_sim hS hf hq
  have hp := hA.phase.trans hph
  have hI := (hS.reach f.lock).inv
  have hm := hA.marked (Or.inr hpc)
  have hpres : ((k f.lock).acq (C.side h f.lock) (pos h + 1)).phase ≠ .absent := by grind
  obtain ⟨n, hw⟩ := Option.ne_none_iff_exists'.1 ((hI.own (C.side h f.lock) (pos h + 1)).who hpres)
  simp only [exec, hpc, hA.succ (Or.inr hpc), hw, Option.map_some, Option.some.injEq,
    Prod.mk.injEq] at hex
  obtain ⟨rfl, rfl⟩ := hex
  have hne : ((k f.lock).acq (C.side h f.lock) (pos h)).phase ≠ .gone := by simp [hp]
  have hprev := hI.succ_hasPrev hne hpres
  have hlock := (hS.words f.lock).depart (p := pos h) hI (by rw [hp]; simp)
    (b := { (k f.lock).acq (C.side h f.lock) (pos h) with phase := .gone }) rfl
    ((k f.lock).log ++ [.leave (C.side h f.lock) h])
  rw [if_neg hpres] at hlock
  have hrank : 4 ≤ ((k f.lock).acq (C.side h f.lock) (pos h)).rank := by grind
  exact ⟨_, _, hS.storeNext (e := some (.leave _ h)) hf hq (Step.depart hp hA.who (Or.inr hm)) rfl rfl
    hlock (hI.succ_ne_gone hne) hw (Or.inl ⟨rfl, rfl⟩)
    (fun fn nx T R hn => Agrees.granted_by hn hprev)
    (sameSucc_of_rank rfl hrank (by grind)) rfl rfl rfl⟩

/-- The stores before the tail exchange, and a failed round of `Exchange` -/
theorem simulated_outside (hout : f.phase = .absent) {f' : Frame H L} {d' : Descriptor H}
    (hout' : f'.phase = .absent) (hl : f'.lock = f.lock) (hfresh : Fresh f' d') :
    Simulated C (tr ++ Option.toList none)
      ((s.setDescriptor (C.side h f.lock) h d').goto h f') := by
  rw [Option.toList_none, List.append_nil]
  refine ⟨k, pos, hS.outside (h := h) (fun g hg => ?_) rfl rfl (fun c g hg => by simp [hg]) hout' ?_⟩
  · obtain rfl : f = g := by simpa using hf.symm.trans hg
    exact hout
  · change Fresh f' _
    simpa [view, hl] using hfresh

theorem sim_reset (hpc : f.pc = .resetNext ∨ f.pc = .resetTicket ∨ f.pc = .resetToGetTicket ∨
    f.pc = .resetGranted ∨ f.pc = .resetReleasable) (hex : exec C s h f b = some (s', x)) :
    Simulated C (tr ++ x.toList) s' := by
  have hout : f.phase = .absent := by
    rcases hpc with hpc | hpc | hpc | hpc | hpc <;> simp [Frame.phase, hpc]
  have hF : Fresh f (s.descriptor (C.side h f.lock) h) := hS.fresh h f hf hout
  rcases hpc with hpc | hpc | hpc | hpc | hpc <;>
  · simp only [exec, hpc, Option.some.injEq, Prod.mk.injEq] at hex
    obtain ⟨rfl, rfl⟩ := hex
    refine simulated_outside hS hf hout (by simp [Frame.phase]) (by rfl) ?_
    obtain ⟨⟩ := hF
    constructor <;> grind -linarith

/-- The tail exchange -/
theorem sim_exchangeTail (hpc : f.pc = .exchangeTail) (hex : exec C s h f b = some (s', x)) :
    Simulated C (tr ++ x.toList) s' := by
  have hout : f.phase = .absent := by simp [Frame.phase, hpc]
  have hF : Fresh f (s.descriptor (C.side h f.lock) h) := hS.fresh h f hf hout
  simp only [exec, hpc] at hex
  by_cases hr : C.side h f.lock = .loc ∨ (s.locks f.lock).tail (C.side h f.lock) = f.expected
  · simp only [if_pos hr, Option.some.injEq, Prod.mk.injEq] at hex
    obtain ⟨rfl, rfl⟩ := hex
    obtain ⟨hgone, hwho, hout', -⟩ := (hS.reach f.lock).inv.pred_tail (C.side h f.lock)
    rw [(hS.words f.lock).tail]
    have hA := hF.arrive (c := C.side h f.lock) hpc hgone hwho hout' h (k f.lock).issued
      (k f.lock).serving
    exact ⟨_, _, hS.arrive hf hout (by rfl) (fun l hl => by simp [show l ≠ f.lock from hl])
      (by simp [view]) rfl rfl
      (fun habs => newcomer_ne_absent _ h (hA.phase.trans habs)) hA⟩
  · simp only [if_neg hr, Option.some.injEq, Prod.mk.injEq] at hex
    obtain ⟨rfl, rfl⟩ := hex
    have hF' : Fresh { f with expected := (s.locks f.lock).tail (C.side h f.lock) }
        (s.descriptor (C.side h f.lock) h) := by
      obtain ⟨⟩ := hF
      constructor <;> grind -linarith
    have key := simulated_outside hS hf hout (by simp [Frame.phase, hpc]) (by rfl) hF'
    simpa [hpc] using key

end Steps

/-- One step of one handler. -/
theorem Simulated.step [DecidableEq H] (hS : Simulated C tr s) (hs : (system C).step s x s') :
    Simulated C (tr ++ x.toList) s' := by
  obtain ⟨k, pos, hS⟩ := hS
  obtain ⟨h, a, hs⟩ := hs
  obtain ⟨l, -, hf, rfl, rfl⟩ | ⟨b, f, -, hf, hs⟩ := State.step_cases hs
  · rw [Option.toList_none, List.append_nil]
    refine ⟨k, pos, hS.outside (h := h) (by simp [hf]) rfl rfl (fun _ _ _ => rfl) rfl ?_⟩
    constructor <;> simp
  · cases hpc : f.pc with
    | resetNext => exact sim_reset hS hf (by simp [hpc]) hs
    | resetTicket => exact sim_reset hS hf (by simp [hpc]) hs
    | resetToGetTicket => exact sim_reset hS hf (by simp [hpc]) hs
    | resetGranted => exact sim_reset hS hf (by simp [hpc]) hs
    | resetReleasable => exact sim_reset hS hf (by simp [hpc]) hs
    | exchangeTail => exact sim_exchangeTail hS hf hpc hs
    | storePrevNext => exact sim_storePrevNext hS hf hpc hs
    | loadPrevTicket => exact sim_loadPrevTicket hS hf hpc hs
    | storePrevReleasable => exact sim_storePrevReleasable hS hf hpc hs
    | waitToGetTicket => exact sim_waitToGetTicket hS hf hpc hs
    | storeFlag => exact sim_storeFlag hS hf hpc hs
    | storeVictim => exact sim_storeVictim hS hf hpc hs
    | loadFlag => exact sim_loopLocal hS hf (Or.inl hpc) hs
    | loadVictim => exact sim_loopLocal hS hf (Or.inr hpc) hs
    | readPair => exact sim_readPair hS hf hpc hs
    | readFlag => exact sim_readSecond hS hf (Or.inl hpc) hs
    | readVictim => exact sim_readSecond hS hf (Or.inr hpc) hs
    | loadNextTicket => exact sim_loadNextTicket hS hf hpc hs
    | storeNextTicket => exact sim_storeNextTicket hS hf hpc hs
    | clearFlag => exact sim_clearFlag hS hf hpc hs
    | storeTicket => exact sim_storeTicket hS hf hpc hs
    | testNext => exact sim_testNext hS hf hpc hs
    | loadNext => exact sim_loadNext hS hf hpc hs
    | storeToGetTicket => exact sim_storeToGetTicket hS hf hpc hs
    | awaitPredecessor => exact sim_awaitPredecessor hS hf hpc hs
    | loadTicket => exact sim_loadTicket hS hf hpc hs
    | awaitTicket => exact sim_awaitTicket hS hf hpc hs
    | critical => exact sim_critical hS hf hpc hs
    | loadCurrent => exact sim_loadCurrent hS hf hpc hs
    | storeCurrent => exact sim_storeCurrent hS hf hpc hs
    | testNextUnlock => exact sim_testNextUnlock hS hf hpc hs
    | casTail => exact sim_casTail hS hf hpc hs
    | awaitReleasable => exact sim_awaitReleasable hS hf hpc hs
    | loadNextUnlock => exact sim_loadNextUnlock hS hf hpc hs
    | storeGranted => exact sim_storeGranted hS hf hpc hs

/-- Every run of FARLock is simulated by the abstract lock. -/
theorem simulated_of_run [DecidableEq H] (hr : (system C).Run tr s) : Simulated C tr s :=
  hr.invariant (I := Simulated C) (fun _ h0 => Sim.start h0)
    (fun _ _ _ _ _ hS hs => hS.step hs)

end FARLock
end Farlock
