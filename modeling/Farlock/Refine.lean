import Farlock.Cluster
import Farlock.Spec.Preserve

/-!
# What the two locks share in their refinement of the abstract lock

* `Spec.State.tail`: the tail of a queue as the abstract state determines it;
* `LockOk`: the words of a lock hold what the abstract state says;
* `SamePred`, `SameSucc`: the aspects of an acquisition that its successor and its predecessor can
  notice in the shared memory.
-/

namespace Farlock

open TwoParty

variable {H : Type}

namespace Spec

/-- The last acquisition of the queue of class `c`, if it has not left yet. -/
def State.tail (K : State H) (c : Side) : Option H :=
  if (K.pred c (K.arrived c)).phase = .gone then none else (K.pred c (K.arrived c)).who

/-- A successor cannot tell `a` from `a'`. -/
structure SamePred (a a' : Acq H) : Prop where
  who : a'.who = a.who
  out : a'.out = a.out
  gone : a'.phase = .gone ↔ a.phase = .gone
  offered : a'.offered = a.offered
  ticket : a.offered = true → a'.ticket = a.ticket

/-- A predecessor cannot tell `a` from `a'`. -/
structure SameSucc (a a' : Acq H) : Prop where
  who : 2 ≤ a.rank → a'.who = a.who
  absent : a'.phase = .absent → a.phase = .absent
  linked : 2 ≤ a'.rank ↔ 2 ≤ a.rank
  marked : 4 ≤ a'.rank ↔ 4 ≤ a.rank

theorem SamePred.refl (a : Acq H) : SamePred a a := ⟨rfl, rfl, Iff.rfl, rfl, fun _ => rfl⟩

theorem SameSucc.refl (a : Acq H) : SameSucc a a := ⟨fun _ => rfl, id, Iff.rfl, Iff.rfl⟩

/-- Another phase, not the last one, makes no difference to the successor. -/
theorem samePred_phase {a : Acq H} (hp : a.phase ≠ .gone) {ph : Phase} (hph : ph ≠ .gone) :
    SamePred a { a with phase := ph } :=
  ⟨rfl, rfl, iff_of_false hph hp, rfl, fun _ => rfl⟩

/-- Once the predecessor is let go it notices nothing any more. -/
theorem sameSucc_of_rank {a a' : Acq H} (hwho : a'.who = a.who) (h : 4 ≤ a.rank)
    (h' : 4 ≤ a'.rank) : SameSucc a a' := by
  refine ⟨fun _ => hwho, fun habs => ?_, ?_, iff_of_true h' h⟩
  · grind
  · exact iff_of_true (Nat.le_trans (by decide) h') (Nat.le_trans (by decide) h)

theorem newcomer_ne_absent (pr : Acq H) (h : H) : (newcomer pr h).phase ≠ .absent := by
  simp only [newcomer]
  split <;> simp

/-- A newcomer behind somebody is not visible yet. -/
theorem sameSucc_newcomer {pr : Acq H} (hpr : pr.phase ≠ .gone) (h : H) :
    SameSucc {} (newcomer pr h) := by
  constructor <;> simp [newcomer, hpr, Acq.rank, Phase.rank]

section Tail

variable {B : Config} {K K' : State H} {c : Side} {p : ℕ} {a' : Acq H}

theorem pred_of_acq (hacq : K'.acq = (K.put c p a').acq) (c' : Side) (q : ℕ) :
    K'.pred c' q = if c' = c ∧ q = p + 1 then a' else K.pred c' q := by
  cases q with
  | zero => simp [State.pred]
  | succ q => simp [State.pred, hacq]

/-- The tail stays while nobody arrives or leaves. -/
theorem tail_put (hacq : K'.acq = (K.put c p a').acq) (harr : K'.arrived = K.arrived)
    (hwho : a'.who = (K.acq c p).who)
    (hgone : a'.phase = .gone ↔ (K.acq c p).phase = .gone) (c' : Side) :
    K'.tail c' = K.tail c' := by
  unfold State.tail
  rw [harr, pred_of_acq hacq]
  split_ifs with hc h1 h2 h2
  · rfl
  · obtain ⟨rfl, hp⟩ := hc
    rw [hp, pred_succ] at h2
    exact absurd (hgone.1 h1) h2
  · obtain ⟨rfl, hp⟩ := hc
    rw [hp, pred_succ] at h2
    exact absurd (hgone.2 h2) h1
  · obtain ⟨rfl, hp⟩ := hc
    rw [hp, pred_succ, hwho]
  · rfl
  · rfl

theorem tail_arrive (K : State H) (c : Side) (h : H) (c' : Side) :
    (K.arrive c h).tail c' = if c' = c then some h else K.tail c' := by
  by_cases hc : c' = c
  · subst hc
    have hphase : (newcomer (K.pred c' (K.arrived c')) h).phase ≠ .gone := by grind [newcomer]
    have hpred : (K.arrive c' h).pred c' ((K.arrive c' h).arrived c') =
        newcomer (K.pred c' (K.arrived c')) h := by
      simp [State.arrive, State.pred]
    rw [State.tail, hpred, if_neg hphase, if_pos rfl]
    rfl
  · have hne : (K.arrive c h).arrived c' = K.arrived c' := by
      simp [State.arrive, Function.update_of_ne hc]
    have hpred : (K.arrive c h).pred c' (K.arrived c') = K.pred c' (K.arrived c') := by
      rw [pred_of_acq (show (K.arrive c h).acq = _ from rfl), if_neg fun e => hc e.1]
    simp [State.tail, hne, hpred, hc]

/-- The place after an acquisition is empty exactly when that acquisition is the tail. -/
theorem Inv.succ_absent_iff (hI : Inv B K) (hp : (K.acq c p).phase ≠ .absent) :
    (K.acq c (p + 1)).phase = .absent ↔ K.arrived c = p + 1 := by
  have h1 := hI.count c p
  have h2 := hI.count c (p + 1)
  constructor
  · intro h
    have : ¬ p + 1 < K.arrived c := fun hlt => h2.1 hlt h
    have := h1.2 hp
    omega
  · intro h
    by_contra hne
    have := h2.2 hne
    omega

theorem tail_depart (hI : Inv B K) (hacq : K'.acq = (K.put c p a').acq)
    (harr : K'.arrived = K.arrived) (hgone : a'.phase = .gone)
    (hp : (K.acq c p).phase ≠ .absent) (c' : Side) :
    K'.tail c' =
      if c' = c ∧ (K.acq c (p + 1)).phase = .absent then none else K.tail c' := by
  unfold State.tail
  rw [harr, pred_of_acq hacq]
  simp only [hI.succ_absent_iff hp]
  by_cases hc : c' = c
  · subst hc
    by_cases ha : K.arrived c' = p + 1
    · simp [ha, hgone]
    · simp [ha]
  · simp [hc]

theorem exists_tail (ht : K.tail c ≠ none) :
    ∃ p, K.arrived c = p + 1 ∧ (K.acq c p).phase ≠ .gone ∧ K.tail c = (K.acq c p).who := by
  unfold State.tail at ht ⊢
  cases hn : K.arrived c with
  | zero => simp [hn, State.pred, sentinel] at ht
  | succ p =>
    refine ⟨p, rfl, ?_⟩
    rw [hn, pred_succ] at ht
    by_cases hg : (K.acq c p).phase = .gone
    · simp [hg] at ht
    · simp [hg]

/-- A handler that finds null at the tail finds everybody gone. -/
theorem Inv.pred_tail (hI : Inv B K) (c : Side) :
    (K.tail c = none ↔ (K.pred c (K.arrived c)).phase = .gone) ∧
      (K.tail c ≠ none → K.tail c = (K.pred c (K.arrived c)).who) ∧
      (K.pred c (K.arrived c)).out ≠ .told ∧ (K.pred c (K.arrived c)).offered = false := by
  refine ⟨?_, ?_, ?_, ?_⟩
  · unfold State.tail
    cases hn : K.arrived c with
    | zero => simp [State.pred, sentinel]
    | succ p =>
      have hwho := (hI.own c p).who ((hI.count c p).1 (by omega))
      rw [pred_succ]
      split_ifs with hg <;> simp [hg, hwho]
  · unfold State.tail
    split_ifs <;> simp
  · -- whoever told its successor something has one
    cases hn : K.arrived c with
    | zero => simp [State.pred, sentinel]
    | succ p =>
      intro ht
      have hl := (hI.links c (p + 1)).told ht
      have := (hI.count c (p + 1)).2 (by grind)
      omega
  · cases hn : K.arrived c with
    | zero => rfl
    | succ p =>
      by_contra ho
      have hl := (hI.links c (p + 1)).offered (by simpa using ho)
      have := (hI.count c (p + 1)).2 (by grind)
      omega

end Tail

end Spec

open Spec

/-- The words of a lock hold what the abstract state says. -/
structure LockOk (w : LockWords H) (K : Spec.State H) : Prop where
  tail : ∀ c, w.tail c = K.tail c
  flag : ∀ c, w.flag c = decide (K.pet.stage c ≠ .idle)
  victim : w.victim = K.pet.victim
  nextTicket : w.nextTicket = word K.issued
  currentTicket : w.currentTicket = word K.serving

theorem lockOk_start : LockOk ({} : LockWords H) {} where
  tail c := by cases c <;> rfl
  flag c := by cases c <;> rfl
  victim := rfl
  nextTicket := rfl
  currentTicket := rfl

section Words

variable {w : LockWords H} {K : Spec.State H} {c : Side} {p : ℕ} {a' : Acq H}

/-- The words after a move that keeps everybody in the queues. -/
theorem LockOk.put {w' : LockWords H} {K' : Spec.State H} (h : LockOk w K)
    (hacq : K'.acq = (K.put c p a').acq) (harr : K'.arrived = K.arrived)
    (hwho : a'.who = (K.acq c p).who) (hgone : a'.phase = .gone ↔ (K.acq c p).phase = .gone)
    (htail : ∀ c, w'.tail c = w.tail c)
    (hflag : ∀ c, w'.flag c = decide (K'.pet.stage c ≠ .idle)) (hvictim : w'.victim = K'.pet.victim)
    (hnext : w'.nextTicket = word K'.issued) (hcurrent : w'.currentTicket = word K'.serving) :
    LockOk w' K' where
  tail c' := by rw [htail, h.tail, tail_put hacq harr hwho hgone]
  flag := hflag
  victim := hvictim
  nextTicket := hnext
  currentTicket := hcurrent

variable (h : LockOk w K) (hwho : a'.who = (K.acq c p).who)
  (hgone : a'.phase = .gone ↔ (K.acq c p).phase = .gone) (log : List (Event H ℕ))
include h hwho hgone

theorem LockOk.quiet : LockOk w (K.put c p a') :=
  h.put rfl rfl hwho hgone (fun _ => rfl) h.flag h.victim h.nextTicket h.currentTicket

theorem LockOk.raise :
    LockOk (w.setFlag c true) { K.put c p a' with pet := K.pet.raise c, log := log } := by
  refine h.put rfl rfl hwho hgone (by simp) (fun c' => ?_) (by simp [h.victim])
    (by simp [h.nextTicket]) (by simp [h.currentTicket])
  by_cases hc : c' = c
  · simp [hc]
  · simp [hc, h.flag]

theorem LockOk.request (hst : K.pet.stage c ≠ .idle) :
    LockOk { w with victim := some c }
      { K.put c p a' with pet := K.pet.request c, log := log } := by
  refine h.put rfl rfl hwho hgone (fun c' => by cases c' <;> rfl) (fun c' => ?_) rfl h.nextTicket
    h.currentTicket
  have hf := h.flag c'
  by_cases hc : c' = c
  · subst hc
    cases c' <;> simp_all [LockWords.flag]
  · cases c' <;> simp_all [LockWords.flag]

theorem LockOk.pass (hst : K.pet.stage c ≠ .idle) :
    LockOk w { K.put c p a' with pet := K.pet.pass c } := by
  refine h.put rfl rfl hwho hgone (fun _ => rfl) (fun c' => ?_) h.victim h.nextTicket h.currentTicket
  by_cases hc : c' = c
  · simp [hc, h.flag, hst]
  · simp [hc, h.flag]

theorem LockOk.draw :
    LockOk { w with nextTicket := word (K.issued + 1) }
      { K.put c p a' with issued := K.issued + 1, log := log } :=
  h.put rfl rfl hwho hgone (fun c' => by cases c' <;> rfl)
    (fun c' => by rw [put_pet, ← h.flag c']; cases c' <;> rfl) h.victim rfl h.currentTicket

theorem LockOk.lower :
    LockOk (w.setFlag c false) { K.put c p a' with pet := K.pet.lower c, log := log } := by
  refine h.put rfl rfl hwho hgone (by simp) (fun c' => ?_) (by simp [h.victim])
    (by simp [h.nextTicket]) (by simp [h.currentTicket])
  by_cases hc : c' = c
  · simp [hc]
  · simp [hc, h.flag]

theorem LockOk.logged : LockOk w { K.put c p a' with log := log } :=
  h.put rfl rfl hwho hgone (fun _ => rfl) h.flag h.victim h.nextTicket h.currentTicket

theorem LockOk.advance :
    LockOk { w with currentTicket := word (K.serving + 1) }
      { K.put c p a' with serving := K.serving + 1, log := log } :=
  h.put rfl rfl hwho hgone (fun c' => by cases c' <;> rfl)
    (fun c' => by rw [put_pet, ← h.flag c']; cases c' <;> rfl) h.victim h.nextTicket rfl

end Words

/-- The words after the last step of `Unlock`: the tail is set to null if nobody is behind. -/
theorem LockOk.depart {B : Config} {w : LockWords H} {K : Spec.State H} {c : Side} {p : ℕ}
    {b : Acq H} (h : LockOk w K) (hI : Spec.Inv B K) (hp : (K.acq c p).phase ≠ .absent)
    (hgone : b.phase = .gone) (log : List (Event H ℕ)) :
    LockOk (if (K.acq c (p + 1)).phase = .absent then w.setTail c none else w)
      { K.put c p b with log := log } := by
  have htail : ∀ c', ({ K.put c p b with log := log } : Spec.State H).tail c' = _ :=
    tail_depart hI rfl rfl hgone hp
  split_ifs with habs
  · refine ⟨fun c' => ?_, fun c' => by rw [LockWords.flag_setTail, h.flag]; rfl,
      by simp [h.victim], by simp [h.nextTicket], by simp [h.currentTicket]⟩
    rw [htail, LockWords.tail_setTail, h.tail]
    simp [habs]
  · refine ⟨fun c' => ?_, h.flag, h.victim, h.nextTicket, h.currentTicket⟩
    rw [htail, h.tail]
    simp [habs]

/-! ### Words and ticket numbers -/

theorem word_toNat {n : ℕ} (hn : n < 2 ^ 64) : (word n).toNat = n := by
  rw [word, UInt64.toNat_ofNat', Nat.mod_eq_of_lt hn]

theorem word_toNat_self (x : UInt64) : word x.toNat = x := by
  simp [word]

theorem word_succ (n : ℕ) : word n + 1 = word (n + 1) := by
  simp [word]

theorem word_pred {n : ℕ} (hn : 1 ≤ n) : word n - 1 = word (n - 1) := by
  obtain ⟨m, rfl⟩ := Nat.exists_eq_succ_of_ne_zero (Nat.one_le_iff_ne_zero.1 hn)
  rw [Nat.succ_eq_add_one, ← word_succ, Nat.add_sub_cancel, UInt64.add_sub_cancel]

theorem word_inj {m n : ℕ} (hm : m < 2 ^ 64) (hn : n < 2 ^ 64) (h : word m = word n) : m = n := by
  have hmod : m % 2 ^ 64 = n % 2 ^ 64 := by simpa [word] using congrArg UInt64.toNat h
  rwa [Nat.mod_eq_of_lt hm, Nat.mod_eq_of_lt hn] at hmod

end Farlock
