import Farlock.ThirdParty.Machine
import Farlock.Lib.Handover

/-!
# RdmaSpinLock (`third_party/locks/rdma_spin_lock.h`)

The simplest baseline: `Lock` swaps the word of the lock from `UNLOCKED` to `LOCKED` until that
succeeds, `Unlock` writes `UNLOCKED`.

* `exclusion`: mutual exclusion; the word says whether somebody has the lock;
* `deadlock_free`: in a fair execution somebody enters while anybody tries to;
* `not_starvation_free`: but a handler can be passed over for ever, whoever it is.
-/

namespace Farlock

namespace RdmaSpinLock

/-- The next access of a handler inside `Lock` or `Unlock`. -/
inductive Pc
  /-- `CompareAndSwap(lock_, UNLOCKED, LOCKED)` -/
  | compareAndSwap
  /-- `Lock` has returned, `Unlock` is not called yet -/
  | critical
  /-- the write of `UNLOCKED` -/
  | writeUnlocked
  deriving DecidableEq, Repr

/-- The local data of a handler inside `Lock` or `Unlock`. -/
structure Frame (L : Type) where
  lock : L
  pc : Pc := .compareAndSwap
  deriving DecidableEq

/-- The words of the locks, which hold `LOCKED` or `UNLOCKED`. -/
abbrev Memory (L : Type) := L → Bool

/-- The states of a cluster that uses RdmaSpinLock. -/
abbrev State (H L : Type) := Machine (Memory L) H (Frame L)

/-- The local data of a handler that calls `Lock`. -/
def Frame.start {L : Type} (l : L) : Frame L := { lock := l }

variable {H L : Type} [DecidableEq H] [DecidableEq L]

/-- The next access of handler `h` with frame `f`. -/
def exec (m : Memory L) (h : H) (f : Frame L) (_ : Bool) :
    Option (Memory L × Thread (Frame L) × Option (Handover.Event H L)) :=
  match f.pc with
  | .compareAndSwap =>
      if m f.lock = false then
        some (Function.update m f.lock true, .busy { f with pc := .critical },
          some (.enter f.lock h))
      else some (m, .busy f, none)
  | .critical => some (m, .busy { f with pc := .writeUnlocked }, none)
  | .writeUnlocked => some (Function.update m f.lock false, .idle, some (.leave f.lock h))

/-- All locks are free. -/
def Zeroed (m : Memory L) : Prop := ∀ l, m l = false

/-- The system of all interleavings of the handlers. -/
def system (H L : Type) [DecidableEq H] [DecidableEq L] :
    Lts (State H L) (Handover.Event H L) :=
  Machine.system Zeroed (Frame.start (L := L)) exec

/-- The endless executions. -/
abbrev Runs (H L : Type) [DecidableEq H] [DecidableEq L] :=
  Machine.Runs (H := H) (Zeroed (L := L)) Frame.start exec

/-- The thread has lock `l`. -/
def holds : Thread (Frame L) → L → Prop
  | .idle, _ => False
  | .busy f, l => f.lock = l ∧ f.pc ≠ .compareAndSwap

/-- How far a handler has come. -/
def Pc.rank : Pc → ℕ
  | .compareAndSwap => 0
  | .critical => 1
  | .writeUnlocked => 2

theorem Pc.rank_le (pc : Pc) : pc.rank ≤ 2 := by
  cases pc <;> simp [Pc.rank]

/-- Handler `h` has lock `l`. -/
def Has (s : State H L) (l : L) (h : H) : Prop := holds (s.thread h) l

/-- At most one handler has a lock, and the word of the lock says whether one has. -/
structure Inv (s : State H L) : Prop where
  excl : ∀ l g h, Has s l g → Has s l h → g = h
  word : ∀ l, s.memory l = true ↔ ∃ h, Has s l h

/-! ### Safety -/

section Safety

variable {s s' : State H L} {m m' : Memory L} {h g : H} {l : L} {f : Frame L} {b : Bool}
  {t : Thread (Frame L)} {e : Option (Handover.Event H L)} {a : Act L}

omit [DecidableEq H] in
/-- What an access can be. -/
theorem exec_cases (hx : exec m h f b = some (m', t, e)) :
    (f.pc = .compareAndSwap ∧ m f.lock = false ∧ m' = Function.update m f.lock true ∧
      t = .busy { f with pc := .critical } ∧ e = some (.enter f.lock h)) ∨
    (f.pc = .compareAndSwap ∧ m f.lock = true ∧ m' = m ∧ t = .busy f ∧ e = none) ∨
    (f.pc = .critical ∧ m' = m ∧ t = .busy { f with pc := .writeUnlocked } ∧ e = none) ∨
    (f.pc = .writeUnlocked ∧ m' = Function.update m f.lock false ∧ t = .idle ∧
      e = some (.leave f.lock h)) := by
  unfold exec at hx
  cases hpc : f.pc <;> simp only [hpc] at hx
  case compareAndSwap =>
    cases hm : m f.lock <;> simp [hm] at hx <;> obtain ⟨rfl, rfl, rfl⟩ := hx <;> simp
  all_goals
    simp only [Option.some.injEq, Prod.mk.injEq] at hx
    obtain ⟨rfl, rfl, rfl⟩ := hx
    simp

omit [DecidableEq L] in
theorem has_update {thread : H → Thread (Frame L)} :
    Has (⟨m, Function.update thread h t⟩ : State H L) l g ↔
      if g = h then holds t l else holds (thread g) l := by
  by_cases hg : g = h
  · subst hg
    simp [Has]
  · simp [Has, hg]

/-- A handler that takes a free lock. -/
theorem Inv.take (hI : Inv s) (hh : ∀ l, ¬ Has s l h) (hl : s.memory l = false)
    (ht : ∀ l', holds t l' ↔ l' = l) :
    Inv ⟨Function.update s.memory l true, Function.update s.thread h t⟩ := by
  have hfree : ∀ g, ¬ Has s l g := by
    intro g hg
    simp [(hI.word l).2 ⟨g, hg⟩] at hl
  refine ⟨fun l' x y hx hy => ?_, fun l' => ?_⟩
  · rw [has_update] at hx hy
    have := hI.excl l' x y
    simp only [Has] at this hfree hh
    split_ifs at hx hy <;> grind
  · simp only [has_update]
    have := hI.word l'
    simp only [Has] at this hfree hh
    by_cases hl' : l' = l
    · subst hl'
      simp only [Function.update_self, true_iff]
      exact ⟨h, by simp [ht]⟩
    · simp only [Function.update_of_ne hl', this]
      constructor
      · rintro ⟨x, hx⟩
        refine ⟨x, ?_⟩
        rw [if_neg]
        · exact hx
        · rintro rfl
          exact hh l' hx
      · rintro ⟨x, hx⟩
        refine ⟨x, ?_⟩
        split_ifs at hx with hxh
        · exact absurd ((ht l').1 hx) hl'
        · exact hx

omit [DecidableEq L] in
/-- A handler that goes on with the lock that it has or has not. -/
theorem Inv.keep (hI : Inv s) (ht : ∀ l, holds t l ↔ Has s l h) :
    Inv ⟨s.memory, Function.update s.thread h t⟩ := by
  have hhas : ∀ l g, Has (⟨s.memory, Function.update s.thread h t⟩ : State H L) l g ↔ Has s l g := by
    intro l g
    rw [has_update]
    split_ifs with hg
    · rw [hg, ht]
    · rfl
  exact ⟨fun l x y hx hy => hI.excl l x y ((hhas l x).1 hx) ((hhas l y).1 hy),
    fun l => by simp only [hhas]; exact hI.word l⟩

/-- A handler that gives its lock back. -/
theorem Inv.release (hI : Inv s) (hh : ∀ l', Has s l' h ↔ l' = l) :
    Inv ⟨Function.update s.memory l false, Function.update s.thread h .idle⟩ := by
  have hhas : ∀ l' g, Has (⟨Function.update s.memory l false, Function.update s.thread h .idle⟩ :
      State H L) l' g ↔ g ≠ h ∧ Has s l' g := by
    intro l' g
    rw [has_update]
    split_ifs with hg <;> simp [hg, holds, Has]
  refine ⟨fun l' x y hx hy => hI.excl l' x y ((hhas l' x).1 hx).2 ((hhas l' y).1 hy).2, fun l' => ?_⟩
  simp only [hhas]
  by_cases hl' : l' = l
  · subst hl'
    simp only [Function.update_self, Bool.false_eq_true, false_iff, not_exists, not_and]
    exact fun g hg hhg => hg (hI.excl l' g h hhg ((hh l').2 rfl))
  · rw [Function.update_of_ne hl', hI.word l']
    refine exists_congr fun g => ⟨fun hg => ⟨?_, hg⟩, fun hg => hg.2⟩
    rintro rfl
    exact hl' ((hh l').1 hg)

theorem Inv.step (hI : Inv s) (hs : Machine.step Frame.start exec s h a = some (s', e)) : Inv s' := by
  obtain ⟨l, -, hidle, -, rfl⟩ | ⟨b, f, m, t, -, hf, hx, rfl⟩ := Machine.step_cases hs
  · exact hI.keep fun l' => by simp [holds, Has, Frame.start, hidle]
  · have hhas : ∀ l, Has s l h ↔ f.lock = l ∧ f.pc ≠ .compareAndSwap := fun l => by
      simp [Has, hf, holds]
    obtain ⟨hpc, hm, rfl, rfl, -⟩ | ⟨hpc, -, rfl, rfl, -⟩ | ⟨hpc, rfl, rfl, -⟩ | ⟨hpc, rfl, rfl, -⟩ :=
      exec_cases hx
    · exact hI.take (fun l => by simp [hhas, hpc]) hm fun l => by simp [holds, eq_comm]
    · exact hI.keep fun l => by simp [hhas, holds]
    · exact hI.keep fun l => by simp [hhas, holds, hpc]
    · exact hI.release fun l => by simp [hhas, hpc, eq_comm]

theorem inv_of_run {tr : List (Handover.Event H L)} (hr : (system H L).Run tr s) : Inv s := by
  refine hr.invariant (I := fun _ s => Inv s) (fun s hs => ?_) fun tr s e s' _ hI hstep => ?_
  · have hno : ∀ l h, ¬ Has s l h := fun l h => by simp [Has, hs.2 h, holds]
    exact ⟨fun l g h hg => absurd hg (hno l g), fun l => by simp [hs.1 l, hno]⟩
  · obtain ⟨h, a, ha⟩ := hstep
    exact hI.step ha

/-- Mutual exclusion, and the word of a lock says whether a handler has it. -/
theorem exclusion {tr : List (Handover.Event H L)} (hr : (system H L).Run tr s) (l : L) :
    (∀ g h, Has s l g → Has s l h → g = h) ∧ (s.memory l = true ↔ ∃ h, Has s l h) :=
  ⟨(inv_of_run hr).excl l, (inv_of_run hr).word l⟩

/-- One handler has the lock, the other one tries to take it. -/
theorem exclusion_pair : ∃ tr s, (system Bool Unit).Run tr s ∧ Has s () false ∧ ¬ Has s () true ∧
    s.memory () = true := by
  obtain ⟨y, hy, hf⟩ : ∃ y ∈ Machine.play Frame.start exec ⟨fun _ => false, fun _ => .idle⟩
      ([(false, .call ()), (true, .call ())] ++ Clients.steps false 1 ++ Clients.steps true 2),
      y.1.thread false = .busy { lock := (), pc := .critical } := by decide
  have hr : (system Bool Unit).Run y.2 y.1 := Machine.run_of_mem_play (fun _ => rfl) hy
  have hhas : Has y.1 () false := by simp [Has, hf, holds]
  obtain ⟨hexcl, hword⟩ := exclusion hr ()
  exact ⟨y.2, y.1, hr, hhas, fun h => by simpa using hexcl _ _ hhas h, hword.2 ⟨_, hhas⟩⟩

end Safety

/-! ### Fair executions -/

section Fair

variable {P : Runs H L} {n m : ℕ} {l : L} {g h : H}

/-- Somebody has entered its critical section of lock `l` from time `n` to time `m`. -/
def Entry (P : Runs H L) (l : L) (n m : ℕ) : Prop :=
  ∃ i ≥ n, i < m ∧ ∃ g, P.event i = some (.enter l g)

theorem Entry.mono {m' : ℕ} (he : Entry P l n m) (hm : m ≤ m') : Entry P l n m' := by
  obtain ⟨i, hi, him, hg⟩ := he
  exact ⟨i, hi, by omega, hg⟩

/-- What a step does to a lock: it enters, it leaves, or the word stays. -/
theorem word_step (P : Runs H L) (n : ℕ) (l : L) :
    (∃ g, P.event n = some (.enter l g)) ∨ (P.state (n + 1)).memory l = false ∨
      (P.state (n + 1)).memory l = (P.state n).memory l := by
  obtain ⟨l', -, -, -, hs⟩ | ⟨b, f, m, t, -, -, hx, hs⟩ := Machine.step_cases (P.next n)
  · exact Or.inr (Or.inr (by rw [hs]))
  · by_cases hl : l = f.lock
    · subst hl
      obtain ⟨-, -, -, -, he⟩ | ⟨-, -, rfl, -, -⟩ | ⟨-, rfl, -, -⟩ | ⟨-, rfl, -, -⟩ := exec_cases hx
      · exact Or.inl ⟨_, he⟩
      · exact Or.inr (Or.inr (by rw [hs]))
      · exact Or.inr (Or.inr (by rw [hs]))
      · exact Or.inr (Or.inl (by rw [hs]; simp))
    · obtain ⟨-, -, rfl, -, -⟩ | ⟨-, -, rfl, -, -⟩ | ⟨-, rfl, -, -⟩ | ⟨-, rfl, -, -⟩ := exec_cases hx <;>
        exact Or.inr (Or.inr (by simp [hs, hl]))

/-- A handler that tries to take lock `l` goes on trying, or enters. -/
theorem trying_step (hf : (P.state n).thread h = .busy { lock := l }) :
    (∃ g, P.event n = some (.enter l g)) ∨ (P.state (n + 1)).thread h = .busy { lock := l } := by
  by_cases hag : P.agent n = h
  · obtain ⟨l', -, hidle, -⟩ | ⟨b, f, m, t, -, hf', hx, hs⟩ := Machine.step_cases (P.next n)
    · rw [hag, hf] at hidle
      cases hidle
    · obtain rfl : f = { lock := l } := by simpa [hag, hf] using hf'.symm
      obtain ⟨-, -, -, -, he⟩ | ⟨-, -, -, rfl, -⟩ | ⟨hpc, -⟩ | ⟨hpc, -⟩ := exec_cases hx
      · exact Or.inl ⟨_, he⟩
      · exact Or.inr (by simp [hs, hag])
      · cases hpc
      · cases hpc
  · exact Or.inr ((Machine.thread_of_ne (P.next n) (Ne.symm hag)).trans hf)

/-- While the lock is free, the next try succeeds. -/
theorem entry_of_free (hP : P.Fair Machine.Busy) (hf : (P.state n).thread h = .busy { lock := l })
    (hw : (P.state n).memory l = false) : ∃ m > n, Entry P l n m := by
  refine hP.eventually (h := h) (I := fun m => (P.state m).thread h = .busy { lock := l } ∧
    (P.state m).memory l = false) ⟨hf, hw⟩ (fun m _ hI => ⟨_, hI.1⟩) (fun m hm hI => ?_)
    fun m hm hI hag => ?_
  · obtain he | hw' := word_step P m l
    · exact Or.inr ⟨m, hm, Nat.lt_succ_self m, he⟩
    · obtain he | hf' := trying_step hI.1
      · exact Or.inr ⟨m, hm, Nat.lt_succ_self m, he⟩
      · exact Or.inl ⟨hf', hw'.elim id fun h => h.trans hI.2⟩
  · obtain ⟨l', -, hidle, -⟩ | ⟨b, f, m', t, -, hf', hx, hs⟩ := Machine.step_cases (P.next m)
    · rw [hag, hI.1] at hidle
      cases hidle
    · obtain rfl : f = { lock := l } := by simpa [hag, hI.1] using hf'.symm
      obtain ⟨-, -, -, -, he⟩ | ⟨-, hw', -⟩ | ⟨hpc, -⟩ | ⟨hpc, -⟩ := exec_cases hx
      · exact ⟨m, hm, Nat.lt_succ_self m, _, he⟩
      · simp [hI.2] at hw'
      · cases hpc
      · cases hpc

/-- A lock that is taken is given back. -/
theorem exists_free (hP : P.Fair Machine.Busy) (n : ℕ) (l : L) :
    ∃ m ≥ n, (P.state m).memory l = false := by
  cases hw : (P.state n).memory l with
  | false => exact ⟨n, le_rfl, hw⟩
  | true =>
    obtain ⟨g, hg⟩ := ((inv_of_run (Clients.run_trace P n)).word l).1 hw
    have hbusy : ∀ {m}, Has (P.state m) l g →
        ∃ f, (P.state m).thread g = .busy f ∧ f.lock = l ∧ f.pc ≠ .compareAndSwap := by
      intro m hm
      cases hf : (P.state m).thread g with
      | idle => simp [Has, hf, holds] at hm
      | busy f => exact ⟨f, rfl, by simpa [Has, hf, holds] using hm⟩
    have key : ∃ m > n, (P.state m).memory l = false := by
      refine hP.reach (h := g) (I := fun m => Has (P.state m) l g)
        (fun m => ((P.state m).thread g).rank fun f => f.pc.rank) 2 hg
        (fun m _ hI => (hbusy hI).imp fun f hf => hf.1)
        (fun m _ _ => Thread.rank_le (fun f => f.pc.rank_le) _) fun m _ hI => ?_
      obtain ⟨f, hf, rfl, hpc⟩ := hbusy hI
      by_cases hag : P.agent m = g
      · obtain ⟨l', -, hidle, -⟩ | ⟨b, f', m', t, -, hf', hx, hs⟩ := Machine.step_cases (P.next m)
        · simp [hag, hf] at hidle
        · obtain rfl : f = f' := by simpa [hag, hf] using hf'
          obtain ⟨hpc', -⟩ | ⟨hpc', -⟩ | ⟨hpc', -, rfl, -⟩ | ⟨-, rfl, -, -⟩ := exec_cases hx
          · exact absurd hpc' hpc
          · exact absurd hpc' hpc
          · right
            simp [hs, hag, hf, Has, holds, Pc.rank, hpc']
          · exact Or.inl (by simp [hs])
      · right
        have hth := Machine.thread_of_ne (P.next m) (Ne.symm hag)
        exact ⟨by rwa [Has, hth], by rw [hth], fun h => absurd h hag⟩
    exact key.imp fun m hm => ⟨hm.1.le, hm.2⟩

/-- In a fair execution, while a handler tries to take a lock, some handler enters its critical
section of it. -/
theorem deadlock_free (hP : P.Fair Machine.Busy) (n : ℕ) (l : L) (h : H)
    (hf : (P.state n).thread h = .busy { lock := l }) :
    ∃ m ≥ n, ∃ g, P.event m = some (.enter l g) := by
  obtain ⟨m, hm, hw⟩ := exists_free hP n l
  have htry : ∀ m ≥ n, Entry P l n m ∨ (P.state m).thread h = .busy { lock := l } := by
    intro m hm
    induction m, hm using Nat.le_induction with
    | base => exact Or.inr hf
    | succ m hm ih =>
      obtain he | hf' := ih
      · exact Or.inl (he.mono (Nat.le_succ m))
      · exact (trying_step hf').imp (fun he => ⟨m, hm, Nat.lt_succ_self m, he⟩) id
  obtain ⟨i, hi, -, he⟩ | hf' := htry m hm
  · exact ⟨i, hi, he⟩
  · obtain ⟨j, -, i, hi, -, he⟩ := entry_of_free hP hf' hw
    exact ⟨i, by omega, he⟩

end Fair

/-- Two handlers in turns. -/
theorem deadlock_free_turns : ∃ P : Runs Bool Unit, P.Fair Machine.Busy ∧
    (P.state 5).thread true = .busy { lock := () } ∧
    ∃ m ≥ 5, ∃ g, P.event m = some (.enter () g) := by
  let P : Runs Bool Unit := Machine.alternate (m := fun _ => false) (fun _ => rfl)
    (fun tr s h f b _ _ => by
      cases hpc : f.pc <;> simp only [exec, hpc, Option.isSome_some]
      split <;> rfl) fun _ => ()
  have hP : P.Fair Machine.Busy := Execution.fair_of_turns fun _ => rfl
  have hf : (P.state 5).thread true = .busy { lock := () } := by decide
  exact ⟨P, hP, hf, deadlock_free hP 5 () true hf⟩

/-! ### Starvation -/

section Starvation

/-- Handler `g` takes lock `l` and gives it back in four steps, and handler `h` has a try after the
second one. -/
def cycle (g h : H) (l : L) (k : ℕ) : State H L where
  memory := Function.update (fun _ => false) l (decide (2 ≤ k))
  thread x :=
    if x = h then .busy { lock := l }
    else if x = g then
      match k with
      | 0 => .idle
      | 1 => .busy { lock := l }
      | 2 | 3 => .busy { lock := l, pc := .critical }
      | _ => .busy { lock := l, pc := .writeUnlocked }
    else .idle

theorem cycle_eq {g h : H} {l : L} {k j : ℕ} {m : Memory L} {t : Thread (Frame L)}
    (hm : m = (cycle g h l j).memory) (ht : (cycle g h l j).thread g = t) :
    (⟨m, Function.update (cycle g h l k).thread g t⟩ : State H L) = cycle g h l j := by
  subst hm ht
  have : Function.update (cycle g h l k).thread g ((cycle g h l j).thread g) =
      (cycle g h l j).thread := by
    funext x
    by_cases hx : x = g
    · subst hx
      simp
    · simp [cycle, hx]
  rw [this]

/-- One step of the cycle. -/
theorem cycle_step {g h : H} (hgh : g ≠ h) (l : L) {k : ℕ} (hk : k < 5) :
    Machine.step Frame.start exec (cycle g h l k) (if k = 2 then h else g)
        (if k = 0 then .call l else .run true) =
      some (cycle g h l ((k + 1) % 5),
        if k = 1 then some (.enter l g) else if k = 4 then some (.leave l g) else none) := by
  have hmem : ∀ k, (cycle g h l k).memory l = decide (2 ≤ k) := fun k => by simp [cycle]
  obtain rfl | rfl | rfl | rfl | rfl : k = 0 ∨ k = 1 ∨ k = 2 ∨ k = 3 ∨ k = 4 := by omega
  · have hf : (cycle g h l 0).thread g = .idle := by simp [cycle, hgh]
    have key := Machine.step_call Frame.start exec (l := l) hf
    rw [cycle_eq (j := 1) (by simp [cycle]) (by simp [cycle, hgh, Frame.start])] at key
    exact key
  · have hf : (cycle g h l 1).thread g = .busy { lock := l } := by simp [cycle, hgh]
    have key := Machine.step_run Frame.start exec (b := true) hf
      (x := (Function.update (cycle g h l 1).memory l true, .busy { lock := l, pc := .critical },
        some (.enter l g))) (by simp [exec, hmem])
    rw [cycle_eq (j := 2) (by simp [cycle]) (by simp [cycle, hgh])] at key
    exact key
  · have hf : (cycle g h l 2).thread h = .busy { lock := l } := by simp [cycle]
    have key := Machine.step_run Frame.start exec (b := true) hf
      (x := ((cycle g h l 2).memory, .busy { lock := l }, none)) (by simp [exec, hmem])
    rw [← hf, Function.update_eq_self] at key
    exact key
  · have hf : (cycle g h l 3).thread g = .busy { lock := l, pc := .critical } := by
      simp [cycle, hgh]
    have key := Machine.step_run Frame.start exec (b := true) hf
      (x := ((cycle g h l 3).memory, .busy { lock := l, pc := .writeUnlocked }, none)) rfl
    rw [cycle_eq (j := 4) (by simp [cycle]) (by simp [cycle, hgh])] at key
    exact key
  · have hf : (cycle g h l 4).thread g = .busy { lock := l, pc := .writeUnlocked } := by
      simp [cycle, hgh]
    have key := Machine.step_run Frame.start exec (b := true) hf
      (x := (Function.update (cycle g h l 4).memory l false, .idle, some (.leave l g))) rfl
    rw [cycle_eq (j := 0) (by simp [cycle]) (by simp [cycle, hgh])] at key
    exact key

/-- The endless execution that goes round in `cycle`. -/
def unfair {g h : H} (hgh : g ≠ h) (l : L) : Runs H L where
  state
    | 0 => ⟨fun _ => false, fun _ => .idle⟩
    | n + 1 => cycle g h l (n % 5)
  agent
    | 0 => h
    | n + 1 => if n % 5 = 2 then h else g
  act
    | 0 => .call l
    | n + 1 => if n % 5 = 0 then .call l else .run true
  event
    | 0 => none
    | n + 1 =>
        if n % 5 = 1 then some (.enter l g) else if n % 5 = 4 then some (.leave l g) else none
  start := ⟨fun _ => rfl, fun _ => rfl⟩
  next
    | 0 => by
      have key := Machine.step_call Frame.start (exec (H := H)) (l := l)
        (s := ⟨fun _ => false, fun _ => .idle⟩) (h := h) rfl
      rw [key]
      congr 2
      simp only [cycle, Nat.zero_mod, Machine.mk.injEq]
      refine ⟨by simp, funext fun x => ?_⟩
      by_cases hx : x = h
      · simp [hx, Frame.start]
      · simp [hx]
    | n + 1 => by
      have key := cycle_step hgh l (Nat.mod_lt n (by decide : 0 < 5))
      rwa [Nat.mod_add_mod] at key

/-- A handler can be passed over for ever: for any two handlers there is a fair execution in which the
one calls `Lock` and never enters, while the other one enters again and again. -/
theorem not_starvation_free {g h : H} (hgh : g ≠ h) (l : L) :
    ∃ P : Runs H L, P.Fair Machine.Busy ∧ (∀ n, ∃ m ≥ n, P.event m = some (.enter l g)) ∧
      ∀ n ≥ 1, (P.state n).thread h = .busy { lock := l } := by
  refine ⟨unfair hgh l, fun x n hbusy => ?_, fun n => ?_, fun n hn => ?_⟩
  · by_cases hxg : x = g
    · exact ⟨5 * n + 1, by omega, by simp [unfair, hxg]⟩
    · by_cases hxh : x = h
      · have : (5 * n + 2) % 5 = 2 := by omega
        exact ⟨5 * n + 2 + 1, by omega, by simp [unfair, hxh, this]⟩
      · obtain ⟨f, hf⟩ := hbusy (n + 1) (Nat.le_succ n)
        simp [unfair, cycle, hxg, hxh] at hf
  · refine ⟨5 * n + 2, by omega, ?_⟩
    have : (5 * n + 1) % 5 = 1 := by omega
    simp [unfair, this]
  · obtain ⟨n, rfl⟩ : ∃ k, n = k + 1 := ⟨n - 1, by omega⟩
    simp [unfair, cycle]

theorem not_starvation_free_pair : ∃ P : Runs Bool Unit, P.Fair Machine.Busy ∧
    (∀ n, ∃ m ≥ n, P.event m = some (.enter () false)) ∧
      ∀ n ≥ 1, (P.state n).thread true = .busy { lock := () } :=
  not_starvation_free (by decide) ()

end Starvation

end RdmaSpinLock

end Farlock
