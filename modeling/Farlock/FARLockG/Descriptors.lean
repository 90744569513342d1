import Farlock.FARLockG.Safety
import Mathlib

/-!
# FARLockG: the descriptors can be used again, and the budgets passed on

The accesses to another handler's descriptor go through `prev` or `next_` (`Frame.throughPrev`,
`Frame.throughNext`); all other steps commute with changes of that descriptor
(`exec_setDescriptor`).

* `descriptors_reused_in_batches`: the owner is then always in the acquisition next to that of the
  accessing handler, nobody is left with a pointer to the descriptor of a handler that has returned
  from `Unlock`, and a late store of the initial budget changes nothing;
* `budgets_in_range`: what a handler writes into `budget_` of its successor.
-/

namespace Farlock

namespace FARLockG

open Spec
open Clients (steps)

variable {H L : Type}

/-- The descriptor that the next access of a handler reaches through `prev`. -/
def Frame.throughPrev (f : Frame H L) : Option H :=
  match f.pc with
  | .storePrevNext | .loadPrevTicketValid | .storePrevReleasable => f.prev
  | _ => none

/-- The descriptor that the next access of a handler reaches through the loaded `next_`. -/
def Frame.throughNext (f : Frame H L) : Option H :=
  match f.pc with
  | .storeNextBatchTicket | .storeNextBudget | .storeInitBudget | .storeGranted => f.next
  | _ => none

theorem inQueue_iff {f : Frame H L} : f.pc.inQueue = true ↔ f.phase ≠ .absent := by
  unfold Frame.phase
  cases f.pc <;> simp only [Pc.inQueue] <;> first | decide | (split <;> decide)

/-- Handler `g` has a pointer to the descriptor of `h` that a later step of its `Lock` or `Unlock`
may follow: the `prev` that it has not finished with, a `next_` that it has loaded, or the one in
its own descriptor.  `LockLocal` loads `next_` once more between its two stores. -/
def Follows (C : Cluster H L) (s : State H L) (g h : H) : Prop :=
  ∃ f, s.thread g = .busy f ∧ (f.throughPrev = some h ∨ f.throughNext = some h ∨
    f.pc.inQueue = true ∧ (s.descriptor (C.side g f.lock) g).next = some h ∨
    f.pc = .loadBudget ∧ C.side g f.lock = .loc ∧ f.next = some h)

variable [DecidableEq H] [DecidableEq L] {C : Cluster H L} {B : LockConfig}
  {tr : List (L × Event H UInt64)} {s : State H L}

/-- Handler `n` is in the acquisition that has place `p` among those of class `c` on lock `l`. -/
def Engaged (C : Cluster H L) (tr : List (L × Event H UInt64)) (s : State H L) (l : L) (c : Side)
    (p : ℕ) (n : H) : Prop :=
  Queued s l n ∧ C.side n l = c ∧ (register (onLock l tr)).place n = p

/-- A step that does not go through a pointer to `n` neither reads nor writes the descriptors of
`n`. -/
theorem exec_setDescriptor {h n : H} {f : Frame H L} (hne : n ≠ h) (hp : f.throughPrev ≠ some n)
    (hn : f.throughNext ≠ some n) (c : Side) (d : Descriptor H) (b : Bool) :
    exec C B (s.setDescriptor c n d) h f b =
      (exec C B s h f b).map fun y => (y.1.setDescriptor c n d, y.2) := by
  have hd : ∀ c' g, g ≠ n → (s.setDescriptor c n d).descriptor c' g = s.descriptor c' g := by
    intro c' g hg
    simp [hg]
  have hcomm : ∀ c' g d', g ≠ n → (s.setDescriptor c n d).setDescriptor c' g d' =
      (s.setDescriptor c' g d').setDescriptor c n d := by
    intro c' g d' hg
    exact setDescriptor_comm s c n d hg c' d'
  cases hpc : f.pc
  case storePrevNext | loadPrevTicketValid | storePrevReleasable =>
    cases hprev : f.prev with
    | none => simp [exec, hpc, hprev]
    | some p =>
      have hpn : p ≠ n := by simpa [Frame.throughPrev, hpc, hprev] using hp
      simp only [exec, hpc, hprev, Option.map_some, hd _ _ hpn, hcomm _ _ _ hpn]
      rfl
  case storeNextBatchTicket | storeNextBudget | storeInitBudget | storeGranted =>
    cases hnext : f.next with
    | none => simp [exec, hpc, hnext]
    | some p =>
      have hpn : p ≠ n := by simpa [Frame.throughNext, hpc, hnext] using hn
      simp only [exec, hpc, hnext, Option.map_some, hd _ _ hpn, hcomm _ _ _ hpn]
      rfl
  case exchangeTail | assertBudget | awaitGranted | casTail =>
    simp only [exec, hpc, hd _ _ hne.symm, setDescriptor_locks, apply_ite (Option.map _),
      Option.map_some, Option.map_none]
    rfl
  all_goals
    simp only [exec, hpc, hd _ _ hne.symm, setDescriptor_locks, hcomm _ _ _ hne.symm, Option.map_some]
    rfl

/-- The acquisitions in the queues belong to handlers that are engaged in them. -/
theorem engaged_of_acq {hB : B.Positive} {k : L → Spec.State H} {pos : H → ℕ}
    (hS : Sim (view B) (config B hB) C tr s k pos)
    {l : L} {c : Side} {p : ℕ} {n : H} (hw : ((k l).acq c p).who = some n)
    (hg : ((k l).acq c p).phase ≠ .gone) : Engaged C tr s l c p n := by
  obtain ⟨f, hf, hl, hc, hq, hp⟩ := hS.exists_of_who hw hg
  exact ⟨⟨f, hf, hl, inQueue_iff.2 hq⟩, hc, hp⟩

section Neighbours

variable {hB : B.Positive} {k : L → Spec.State H} {pos : H → ℕ} {g n : H} {f : Frame H L}
  (hS : Sim (view B) (config B hB) C tr s k pos) (hf : s.thread g = .busy f)
include hS hf

/-- Behind `prev` is the acquisition just before. -/
theorem engaged_of_throughPrev (hn : f.throughPrev = some n) :
    f.pc.inQueue = true ∧ ∃ p, pos g = p + 1 ∧ Engaged C tr s f.lock (C.side g f.lock) p n := by
  have hpc : f.prev = some n ∧ 1 ≤ f.phase.rank ∧ f.phase.rank ≤ 3 := by
    unfold Frame.throughPrev at hn
    unfold Frame.phase
    split at hn <;> simp_all [Phase.rank]
  obtain ⟨hprev, h1, h3⟩ := hpc
  have hq : f.phase ≠ .absent := fun habs => by simp [habs, Phase.rank] at h1
  obtain ⟨hg, m, hm, hw⟩ := pred_present hS hf hq h1 h3
  obtain rfl : n = m := Option.some.inj (hprev.symm.trans hm)
  refine ⟨inQueue_iff.2 hq, ?_⟩
  cases hpos : pos g with
  | zero => simp [hpos, State.pred, sentinel] at hg
  | succ p =>
    rw [hpos, pred_succ] at hg hw
    exact ⟨p, rfl, engaged_of_acq hS hw hg⟩

/-- The successor of an acquisition in a queue. -/
theorem engaged_of_succ (hq : f.phase ≠ .absent)
    (hw : ((k f.lock).acq (C.side g f.lock) (pos g + 1)).who = some n) :
    Engaged C tr s f.lock (C.side g f.lock) (pos g + 1) n := by
  obtain ⟨f', hf', hl, hc, hq', hp⟩ := hS.exists_of_succ hf hq hw
  exact ⟨⟨f', hf', hl, inQueue_iff.2 hq'⟩, hc, hp⟩

/-- Behind a loaded `next_` is the acquisition just after. -/
theorem engaged_of_throughNext (hn : f.throughNext = some n) :
    f.pc.inQueue = true ∧ Engaged C tr s f.lock (C.side g f.lock) (pos g + 1) n := by
  have hpc : f.next = some n ∧ f.phase ≠ .absent := by
    unfold Frame.throughNext at hn
    unfold Frame.phase
    split at hn <;> simp_all
  have hk := (agrees_of_sim hS hf hpc.2).knows
  have hsucc : f.next = ((k f.lock).acq (C.side g f.lock) (pos g + 1)).who := by
    unfold Frame.throughNext at hn
    unfold Frame.Knows at hk
    split at hn <;> simp_all
  exact ⟨inQueue_iff.2 hpc.2, engaged_of_succ hS hf hpc.2 (hsucc.symm.trans hpc.1)⟩

/-- It is there also while `LockLocal` loads the budget. -/
theorem engaged_of_loadBudget (hpc : f.pc = .loadBudget) (hc : C.side g f.lock = .loc)
    (hn : f.next = some n) : Engaged C tr s f.lock (C.side g f.lock) (pos g + 1) n := by
  have hq : f.phase ≠ .absent := by simp [Frame.phase, hpc]
  have hk := (agrees_of_sim hS hf hq).knows
  simp only [Frame.Knows, hpc] at hk
  exact engaged_of_succ hS hf hq ((hk.2.1 hc).2.symm.trans hn)

/-- And it is behind the `next_` of the handler's own descriptor. -/
theorem engaged_of_next (hq : f.pc.inQueue = true)
    (hn : (s.descriptor (C.side g f.lock) g).next = some n) :
    Engaged C tr s f.lock (C.side g f.lock) (pos g + 1) n := by
  have hq := inQueue_iff.1 hq
  rw [(agrees_of_sim hS hf hq).next] at hn
  split_ifs at hn with hl
  exact engaged_of_succ hS hf hq hn

end Neighbours

/-- A handler that has the budget it goes on with: it has stored the initial one or was handed its
ticket. -/
def Pc.hasBudget : Pc → Bool
  | .loadPrevTicketValid | .storePrevReleasable | .awaitBudget | .storeBudget => false
  | pc => pc.inQueue && pc ≠ .storePrevNext

omit [DecidableEq H] in
/-- A late store of the initial budget finds it there when the successor has gone ahead. -/
theorem budget_of_late_store {hB : B.Positive} {k : L → Spec.State H} {pos : H → ℕ} {g n : H}
    {f fn : Frame H L} (hS : Sim (view B) (config B hB) C tr s k pos)
    (hf : s.thread g = .busy f) (hpc : f.pc = .storeInitBudget) (hn : f.next = some n)
    (hfn : s.thread n = .busy fn) (hb : fn.pc.hasBudget = true) :
    (s.descriptor (C.side g f.lock) n).budget = B.kInitBudget (C.side g f.lock) := by
  have hph : f.phase = .notify := by simp [Frame.phase, hpc]
  have hA := agrees_of_sim hS hf (by simp [hph])
  have hp := hA.phase.trans hph
  have hI := (hS.reach f.lock).inv
  have hk := hA.knows
  simp only [Frame.Knows, hpc] at hk
  -- the successor is the acquisition just after
  obtain ⟨fn', hfn', hl, hc, hpos, hq⟩ := hS.active f.lock (C.side g f.lock) (pos g + 1) n
    (hk.2.symm.trans hn) (hI.succ_ne_gone (by simp [hp]))
  obtain rfl : fn = fn' := by simpa [hfn] using hfn'
  change fn.lock = f.lock at hl
  have hAn := agrees_of_sim hS hfn hq
  rw [hl, hc, hpos, pred_succ] at hAn
  -- nobody has told it yet that it has to draw a ticket
  have hkept : ((k f.lock).acq (C.side g f.lock) (pos g)).out = .kept := by
    by_contra hne
    have := (hI.own (C.side g f.lock) (pos g)).out hne
    simp [Acq.rank, hp, Phase.rank] at this
  rw [hAn.budget]
  cases hhas : ((k f.lock).acq (C.side g f.lock) (pos g + 1)).has with
  | true =>
    rw [if_pos rfl]
    exact word_budget_of_out (hS.reach f.lock) (by simp [hkept]) hhas
  | false =>
    have hkn := hAn.knows
    have hrank : 5 ≤ fn.phase.rank ∧ fn.pc ≠ .storeBudget := by
      unfold Frame.Knows at hkn
      unfold Frame.phase
      cases hpn : fn.pc <;> simp_all [Pc.hasBudget, Pc.inQueue]
      all_goals first | decide | (split_ifs <;> decide)
    rw [if_neg (by simp), if_pos (Or.inr ⟨by rw [Acq.rank, hAn.phase]; exact hrank.1, hrank.2⟩)]

/-- The budget that a handler passes on is the configured one less its position in the batch. -/
theorem budget_of_position {hB : B.Positive} {k : L → Spec.State H} {pos : H → ℕ} {g : H}
    {f : Frame H L} (hS : Sim (view B) (config B hB) C tr s k pos) (hf : s.thread g = .busy f)
    (hpc : f.pc = .storeNextBudget) :
    ∃ i p t, (draws (onLock f.lock tr))[i]? = some (C.side g f.lock, p, t) ∧
      InBatch (onLock f.lock tr) i (C.side g f.lock) (pos g) ∧ p ≤ pos g ∧
      f.budget.toNat + (pos g - p) + 1 = (B.kInitBudget (C.side g f.lock)).toNat := by
  have hph : f.phase = .drawn := by simp [Frame.phase, hpc]
  have hA := agrees_of_sim hS hf (by simp [hph])
  have hp := hA.phase.trans hph
  have hM := hS.shows f.lock
  have hI := hM.reach.inv
  have hk := hA.knows
  simp only [Frame.Knows, hpc] at hk
  obtain ⟨-, -, -, hbud⟩ := hk
  have hhas := (hI.own (C.side g f.lock) (pos g)).has (by simp [Acq.rank, hp, Phase.rank])
  have hlt := budget_lt hM.reach hhas
  obtain ⟨p, hle, hphas, hlead, ht, -⟩ := hI.exists_leader hhas
  have hsum := hI.budget_of_ticket hle hhas ht
  rw [(hI.own _ _).full hphas hlead] at hsum
  change (B.kInitBudget (C.side g f.lock)).toNat = _ at hsum
  refine ⟨_, p, _, hM.getElem_draws.2 ⟨rfl, (Spec.mem_draws hM.reach).2 ⟨hphas, hlead, ht⟩⟩,
    hM.inBatch.2 ⟨hhas, rfl⟩, hle, ?_⟩
  rw [hbud, word_pred hlt.1, word_toNat (by omega), hsum]
  omega

/-- The descriptors are safe to use again, and late stores are harmless.  While a handler is
outside, no other handler has a pointer to its descriptor that it may still follow.  Whenever a
handler goes through `prev`, the owner is in the acquisition just before its own; whenever it goes
through `next_`, the owner is in the acquisition just after its own.  No other step touches the
descriptor of another handler.  A store of the initial budget that comes after the successor has
gone ahead leaves everything as it is, and the budget passed on is the one that the position in the
batch calls for. -/
theorem descriptors_reused_in_batches (hB : B.Positive) (hr : (system C B).Run tr s) :
    (∀ h, s.thread h = .idle → ∀ g, ¬ Follows C s g h) ∧
    (∀ g f n, s.thread g = .busy f → f.throughPrev = some n → ∃ p,
      Engaged C tr s f.lock (C.side g f.lock) p n ∧
        Engaged C tr s f.lock (C.side g f.lock) (p + 1) g) ∧
    (∀ g f n, s.thread g = .busy f → f.throughNext = some n → ∃ p,
      Engaged C tr s f.lock (C.side g f.lock) p g ∧
        Engaged C tr s f.lock (C.side g f.lock) (p + 1) n) ∧
    (∀ g f n, s.thread g = .busy f → n ≠ g → f.throughPrev ≠ some n → f.throughNext ≠ some n →
      ∀ c d b, exec C B (s.setDescriptor c n d) g f b =
        (exec C B s g f b).map fun y => (y.1.setDescriptor c n d, y.2)) ∧
    (∀ g f n fn, s.thread g = .busy f → f.pc = .storeInitBudget → f.next = some n →
      s.thread n = .busy fn → fn.pc.hasBudget = true →
      (s.descriptor (C.side g f.lock) n).budget = B.kInitBudget (C.side g f.lock) ∧
        ∀ b, exec C B s g f b = some (s.goto g f.await, none)) ∧
    (∀ g f, s.thread g = .busy f → f.pc = .storeNextBudget → ∃ i p t,
      (draws (onLock f.lock tr))[i]? = some (C.side g f.lock, p, t) ∧
      InBatch (onLock f.lock tr) i (C.side g f.lock) ((register (onLock f.lock tr)).place g) ∧
      p ≤ (register (onLock f.lock tr)).place g ∧
      f.budget.toNat + ((register (onLock f.lock tr)).place g - p) + 1 =
        (B.kInitBudget (C.side g f.lock)).toNat) := by
  obtain ⟨k, pos, hS⟩ := simulated_of_run hB hr
  have hself : ∀ {g f}, s.thread g = .busy f → f.pc.inQueue = true →
      Engaged C tr s f.lock (C.side g f.lock) (pos g) g := fun {g f} hf hq =>
    ⟨⟨f, hf, rfl, hq⟩, rfl, hS.place_eq hf (inQueue_iff.1 hq)⟩
  refine ⟨?_, ?_, ?_, fun g f n _ hne hp hn c d b => exec_setDescriptor hne hp hn c d b, ?_, ?_⟩
  · rintro h hidle g ⟨f, hf, hn | hn | ⟨hq, hn⟩ | ⟨hpc, hc, hn⟩⟩
    · obtain ⟨-, p, -, ⟨f', hf', -⟩, -⟩ := engaged_of_throughPrev hS hf hn
      simp [hidle] at hf'
    · obtain ⟨-, ⟨f', hf', -⟩, -⟩ := engaged_of_throughNext hS hf hn
      simp [hidle] at hf'
    · obtain ⟨⟨f', hf', -⟩, -⟩ := engaged_of_next hS hf hq hn
      simp [hidle] at hf'
    · obtain ⟨⟨f', hf', -⟩, -⟩ := engaged_of_loadBudget hS hf hpc hc hn
      simp [hidle] at hf'
  · intro g f n hf hn
    obtain ⟨hq, p, hpos, hE⟩ := engaged_of_throughPrev hS hf hn
    exact ⟨p, hE, hpos ▸ hself hf hq⟩
  · intro g f n hf hn
    obtain ⟨hq, hE⟩ := engaged_of_throughNext hS hf hn
    exact ⟨pos g, hself hf hq, hE⟩
  · intro g f n fn hf hpc hn hfn hb
    have hbud := budget_of_late_store hS hf hpc hn hfn hb
    refine ⟨hbud, fun b => ?_⟩
    simp only [exec, hpc, hn, Option.map_some]
    rw [← hbud, setDescriptor_self]
  · intro g f hf hpc
    have hplace : (register (onLock f.lock tr)).place g = pos g :=
      hS.place_eq hf (by simp [view, Frame.phase, hpc])
    rw [hplace]
    exact budget_of_position hS hf hpc

/-- Handler 0 is about to store the initial budget for handler 1, which has gone ahead and stored it
itself. -/
theorem descriptors_reused_in_batches_trio : ∃ (s : State (Fin 3) Unit)
    (tr : List (Unit × Event (Fin 3) UInt64)) (f f' : _), (system trio ⟨2, 2⟩).Run tr s ∧
    s.thread 0 = .busy f ∧ f.pc = .storeInitBudget ∧ f.next = some 1 ∧ s.thread 1 = .busy f' ∧
    f'.pc = .storeFlag ∧ (s.descriptor .loc 1).budget = 2 ∧
    (∃ p, Engaged trio tr s () .loc p 0 ∧ Engaged trio tr s () .loc (p + 1) 1) := by
  obtain ⟨y, hy, hf, hf'⟩ : ∃ y ∈ playTrio ((0, .call ()) :: steps 0 15 ++ (1, .call ()) :: steps 1 7 ++
      steps 0 2 ++ steps 1 3),
      y.1.thread 0 = .busy { lock := (), pc := .storeInitBudget, next := some 1 } ∧
      y.1.thread 1 = .busy { lock := (), pc := .storeFlag, prev := some 0, valid := true } := by decide
  have hrun : (system trio ⟨2, 2⟩).Run y.2 y.1 := State.run_of_mem_play hy
  obtain ⟨-, -, h3, -, h5, -⟩ := descriptors_reused_in_batches ⟨by decide, by decide⟩ hrun
  exact ⟨y.1, y.2, _, _, hrun, hf, rfl, rfl, hf', rfl, (h5 0 _ 1 _ hf rfl rfl hf' rfl).1,
    h3 0 _ 1 hf rfl⟩

/-! ### The range of the budgets -/

/-- What is written into the budgets.  A handler that hands on its ticket writes a value below the
configured one, next to the batch ticket and while it holds the section; the configured value is
written by a handler that has left the section.  The assertion of `LockRemote` holds. -/
structure BudgetsOk (C : Cluster H L) (B : LockConfig) (tr : List (L × Event H UInt64))
    (s : State H L) : Prop where
  passed_on : ∀ h f, s.thread h = .busy f → f.pc = .storeNextBudget →
    1 ≤ f.budget.toNat ∧ f.budget.toNat < (B.kInitBudget (C.side h f.lock)).toNat ∧
    f.budget ≠ kNoBudget ∧
    (∃ n, f.next = some n ∧ (s.descriptor (C.side h f.lock) n).batchTicket = f.ticket) ∧
    OwnsSection C B s f.lock h ∧ (s.locks f.lock).flag (C.side h f.lock) = true
  initial : ∀ h f, s.thread h = .busy f → f.pc = .storeInitBudget →
    1 ≤ (B.kInitBudget (C.side h f.lock)).toNat ∧ B.kInitBudget (C.side h f.lock) ≠ kNoBudget ∧
    ¬ OwnsSection C B s f.lock h ∧
    (C.side h f.lock, (register (onLock f.lock tr)).place h) ∈ lowers (onLock f.lock tr)
  asserted : ∀ h f, s.thread h = .busy f → f.pc = .assertBudget →
    0 < (s.descriptor (C.side h f.lock) h).budget

theorem kInitBudget_ne (B : LockConfig) (c : Side) : B.kInitBudget c ≠ kNoBudget := fun heq => by
  have hlt := B.kInitBudget_lt c
  rw [heq] at hlt
  revert hlt
  decide

/-- With budgets of at least one everything written into the budgets is in range. -/
theorem budgets_in_range (hB : B.Positive) (hr : (system C B).Run tr s) : BudgetsOk C B tr s := by
  obtain ⟨k, pos, hS⟩ := simulated_of_run hB hr
  refine ⟨?_, ?_, ?_⟩
  · intro h f hf hpc
    have hph : f.phase = .drawn := by simp [Frame.phase, hpc]
    have hA := agrees_of_sim hS hf (by simp [hph])
    have hp := hA.phase.trans hph
    have hI := (hS.reach f.lock).inv
    have hk := hA.knows
    simp only [Frame.Knows, hpc] at hk
    obtain ⟨hoff, hl, hnext, hbud⟩ := hk
    have hown := hI.own (C.side h f.lock) (pos h)
    have hhas := hown.has (by simp [Acq.rank, hp, Phase.rank])
    have hlt := budget_lt (hS.reach f.lock) hhas
    have hone : 1 < ((k f.lock).acq (C.side h f.lock) (pos h)).budget := by
      rcases hown.offered hoff with ⟨-, hone⟩ | hout
      · exact hone
      · exact absurd hout (out_ne_handed hS hf (by simp [hph]) (by rw [hph]; decide))
    have hle := (hown.budget hhas).2
    change _ ≤ (B.kInitBudget (C.side h f.lock)).toNat at hle
    have hval : f.budget.toNat = ((k f.lock).acq (C.side h f.lock) (pos h)).budget - 1 := by
      rw [hbud, word_pred hlt.1, word_toNat (by omega)]
    obtain ⟨-, -, hng, n, hw⟩ := succ_waits hS hf hph hl
    obtain ⟨fn, hfn, hln, hc, hpos, hq⟩ := hS.active f.lock _ _ n hw hng
    have hAn := agrees_of_sim hS hfn hq
    change fn.lock = f.lock at hln
    rw [hln, hc, hpos, pred_succ] at hAn
    refine ⟨by omega, by omega, ?_, ⟨n, hnext.trans hw, ?_⟩, ⟨f, hf, rfl, Or.inl (by rw [hpc]; rfl)⟩,
      ?_⟩
    · intro heq
      rw [heq, show kNoBudget.toNat = 2 ^ 64 - 1 from rfl] at hval
      omega
    · rw [hAn.offered hoff, hA.ticket (by simp [Acq.rank, hp, Phase.rank])]
    · rw [(hS.words f.lock).flag, (hI.glob _ _).passed (Or.inr (Or.inl hp))]
      rfl
  · intro h f hf hpc
    have hph : f.phase = .notify := by simp [Frame.phase, hpc]
    have hA := agrees_of_sim hS hf (by simp [hph])
    have hp := hA.phase.trans hph
    have hM := hS.shows f.lock
    refine ⟨B.one_le_kInitBudget hB _, kInitBudget_ne B _, fun hown => ?_, ?_⟩
    · obtain ⟨-, -, -, -, hin⟩ := hown.inSection hS
      rcases hin with hin | hin | ⟨-, hin⟩ <;> simp [hp, Acq.rank, Phase.rank] at hin
    · have hplace : (register (onLock f.lock tr)).place h = pos h :=
        hS.place_eq hf (by simp [view, hph])
      rw [hplace, hM.mem_lowers]
      exact ⟨by simp [Acq.rank, hp, Phase.rank],
        out_ne_handed hS hf (by simp [hph]) (by rw [hph]; decide)⟩
  · intro h f hf hpc
    have hph : f.phase = .drawn := by simp [Frame.phase, hpc]
    obtain ⟨hbud, hpos, hlt⟩ := budget_eq hS hf (by rw [hph]; decide)
    rw [hbud, UInt64.lt_iff_toNat_lt, word_toNat (by omega)]
    exact hpos

/-- Handler 0 is about to hand its ticket to handler 1 with a budget of one. -/
theorem budgets_in_range_trio : ∃ (s : State (Fin 3) Unit) (tr : List (Unit × Event (Fin 3) UInt64))
    (f : _), (system trio ⟨2, 2⟩).Run tr s ∧ s.thread 0 = .busy f ∧ f.pc = .storeNextBudget ∧
    f.budget = 1 ∧ OwnsSection trio ⟨2, 2⟩ s () 0 ∧ BudgetsOk trio ⟨2, 2⟩ tr s := by
  obtain ⟨y, hy, hf⟩ : ∃ y ∈ playTrio ((0, .call ()) :: steps 0 12 ++ (1, .call ()) :: steps 1 9 ++
      steps 0 6),
      y.1.thread 0 = .busy { lock := (), pc := .storeNextBudget, next := some 1, budget := 1 } := by
    decide
  have hrun : (system trio ⟨2, 2⟩).Run y.2 y.1 := State.run_of_mem_play hy
  have hok := budgets_in_range ⟨by decide, by decide⟩ hrun
  exact ⟨y.1, y.2, _, hrun, hf, rfl, rfl, (hok.passed_on 0 _ hf rfl).2.2.2.2.1, hok⟩

theorem address_ne_zero (h : Bool) : (if h then 64 else 128 : UInt64) ≠ 0 := by
  cases h <;> decide

theorem address_lt (h : Bool) : (if h then 64 else 128 : UInt64).toNat < 2 ^ 48 := by
  cases h <;> decide

/-- One lock on node 0 and two handlers on node 1. -/
def away : Cluster Bool Unit where
  node _ := 1
  home _ := 0
  localAddress h := if h then 64 else 128
  remoteAddress h := if h then 64 else 128
  localAddress_ne_zero := address_ne_zero
  localAddress_inj := by decide
  remoteAddress_ne_zero := address_ne_zero
  remoteAddress_lt := address_lt
  remoteAddress_inj := by decide

/-- With a local budget of zero a local handler writes `-1` into the budget of its successor, which
waits for something else; with a remote budget of zero the assertion of `LockRemote` fails. -/
theorem budget_zero :
    (∃ tr s, (system trio ⟨0, 1⟩).Run tr s ∧ ¬ BudgetsOk trio ⟨0, 1⟩ tr s) ∧
    ∃ tr s, (system away ⟨1, 0⟩).Run tr s ∧ ¬ BudgetsOk away ⟨1, 0⟩ tr s := by
  constructor
  · obtain ⟨y, hy, hf⟩ : ∃ y ∈ State.play (fun l => { lock := l }) (exec trio ⟨0, 1⟩) (.zero {})
        ((0, .call ()) :: steps 0 12 ++ (1, .call ()) :: steps 1 9 ++ steps 0 6),
        y.1.thread 0 = .busy
          { lock := (), pc := .storeNextBudget, next := some 1, budget := kNoBudget } := by
      decide
    exact ⟨y.2, y.1, State.run_of_mem_play hy, fun hok => (hok.passed_on 0 _ hf rfl).2.2.1 rfl⟩
  · obtain ⟨y, hy, hf, hb⟩ : ∃ y ∈ State.play (fun l => { lock := l }) (exec away ⟨1, 0⟩) (.zero {})
        ((false, .call ()) :: steps false 13 ++ (true, .call ()) ::
          steps true 9 ++ [(false, .run true)]),
        y.1.thread false = .busy { lock := (), pc := .assertBudget, victim := some .rem } ∧
        (y.1.descriptor .rem false).budget = 0 := by decide
    refine ⟨y.2, y.1, State.run_of_mem_play hy, fun hok => ?_⟩
    have hlt := hok.asserted false _ hf rfl
    rw [show (y.1.descriptor (away.side false ()) false).budget = 0 from hb] at hlt
    exact absurd hlt (by decide)

end FARLockG

end Farlock
