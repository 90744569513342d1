import Mathlib
import Farlock.ThirdParty.ALock.Safety

/-!
# ALock starves nobody

In a fair execution, with budgets of one at least, every handler that has exchanged the tail of a queue
enters the critical section and leaves it.  The first handler of a queue may wait at three places.  Its
budget is there already when it becomes the first one.  Its successor links itself by its own next step.
In the loops of Peterson's algorithm it waits for a word that lets it pass: if the other class gives
`victim` away, that stays so; otherwise only finitely many handlers of the other class overtake, and
then the queue of the other class stays empty.
-/

namespace Farlock

namespace ALock

open TwoParty

variable {H L : Type} [DecidableEq H] [DecidableEq L] {C : Cluster H L} {B : LockConfig}

/-! ### How far a handler has come -/

/-- The program points of the loops of Peterson's algorithm. -/
def Pc.inLoop : Pc → Bool
  | .loadTail | .loadVictim | .readPair | .readTail | .readVictim => true
  | _ => false

/-- How far a handler has come inside `Lock` and `Unlock`, with the loops as one place. -/
def Frame.rank (f : Frame H L) : ℕ :=
  match f.pc with
  | .resetBudget => 0
  | .resetNext => 1
  | .exchangeTail => 2
  | .storePrevNext => 3
  | .awaitBudget => 4
  | .testBudget => 5
  | .storeBudget => if f.prev.isSome then 12 else 6
  | .loadVictimSwap =>
      match f.expectedVictim with
      | none => 7
      | some .rem => 8
      | some .loc => 9
  | .storeVictim => 10
  | .loadTail | .loadVictim | .readPair | .readTail | .readVictim => 11
  | .acquired => 13
  | .critical => 14
  | .testNext => 15
  | .casTail => 16
  | .awaitNext => 17
  | .loadNext => 18
  | .loadBudget => 19
  | .storeNextBudget => 20
  | .clearNext => 21

omit [DecidableEq H] [DecidableEq L] in
theorem Frame.rank_le (f : Frame H L) : f.rank ≤ 21 := by
  cases hpc : f.pc <;> simp only [Frame.rank, hpc] <;> first | omega | split_ifs <;> omega | skip
  case loadVictimSwap =>
    cases f.expectedVictim with
    | none => simp
    | some v => cases v <;> simp

/-- How far a handler has come in a loop, with regard to the word that will let it leave it: `victim`
if `b`, otherwise the tail of the other class. -/
def Frame.loopRank (b : Bool) (f : Frame H L) : ℕ :=
  match f.pc with
  | .loadTail => if b then 1 else 2
  | .loadVictim => if b then 2 else 1
  | .readPair => 1
  | .readTail => if b && f.victim == some .rem then 0 else 2
  | .readVictim => if !b && f.tail.isSome then 0 else 2
  | _ => 0

omit [DecidableEq H] [DecidableEq L] in
theorem Frame.loopRank_le (b : Bool) (f : Frame H L) : f.loopRank b ≤ 2 := by
  cases hpc : f.pc <;> simp only [Frame.loopRank, hpc] <;> first | omega | split_ifs <;> omega

/-- The word lets class `c` leave the loop. -/
def Words.Lets (w : Words H) (c : Side) (b : Bool) : Prop :=
  if b then w.victim ≠ some c else w.tail (other c) = none

section Access

variable {m m' : Memory H L} {h : H} {f f' : Frame H L} {a b : Bool} {t : Thread (Frame H L)}
  {e : Option (L × Cohort.Event H Side)}

/-- In a loop a handler only reads, and a word that lets it leave brings it on. -/
theorem exec_loop (hH : f.Holds (C.side h f.lock)) (hx : exec C B m h f a = some (m', t, e))
    (hl : f.pc.inLoop = true) :
    m' = m ∧ ∃ f', t = .busy f' ∧ f'.lock = f.lock ∧ f.rank ≤ f'.rank ∧
      (f'.pc.inLoop = true ∨ 11 < f'.rank) ∧
      ((m.locks f.lock).Lets (C.side h f.lock) b → f'.pc.inLoop = true →
        f.loopRank b < f'.loopRank b) := by
  obtain ⟨-, -, hloc, hrem⟩ := hH
  unfold exec at hx
  cases hpc : f.pc <;> simp only [Pc.inLoop, hpc, Bool.false_eq_true] at hl <;> simp only [hpc] at hx
  case loadTail | loadVictim =>
    have hside := hloc (by simp [hpc])
    have ho : other (C.side h f.lock) = .rem := by rw [hside]; rfl
    split at hx <;> simp only [Option.some.injEq, Prod.mk.injEq] at hx <;> obtain ⟨rfl, rfl, -⟩ := hx
    · refine ⟨rfl, _, rfl, rfl, ?_⟩
      cases hp : f.prev <;> simp [Frame.won, hp, Frame.rank, hpc, Pc.inLoop]
    · refine ⟨rfl, _, rfl, rfl, ?_⟩
      cases b <;> simp_all [Frame.rank, Pc.inLoop, Frame.loopRank, Words.Lets, Words.tail]
  case readPair =>
    have hside := hrem (by simp [hpc])
    have ho : other (C.side h f.lock) = .loc := by rw [hside]; rfl
    split at hx <;> simp only [Option.some.injEq, Prod.mk.injEq] at hx <;> obtain ⟨rfl, rfl, -⟩ := hx
    all_goals
      refine ⟨rfl, _, rfl, rfl, ?_⟩
      cases b <;> simp_all [Frame.rank, Pc.inLoop, Frame.loopRank, Words.Lets, Words.tail]
  case readTail | readVictim =>
    have hside := hrem (by simp [hpc])
    have ho : other (C.side h f.lock) = .loc := by rw [hside]; rfl
    split at hx <;> simp only [Option.some.injEq, Prod.mk.injEq] at hx <;> obtain ⟨rfl, rfl, -⟩ := hx
    · refine ⟨rfl, _, rfl, rfl, ?_⟩
      cases hp : f.prev <;> simp [Frame.won, Frame.rank, hpc, Pc.inLoop]
    · refine ⟨rfl, _, rfl, rfl, ?_⟩
      cases b <;> simp_all [Frame.rank, Pc.inLoop, Frame.loopRank, Words.Lets, Words.tail, lets]

/-- The next access of handler `h` is another round of its loop. -/
def Waits (C : Cluster H L) (m : Memory H L) (h : H) (f : Frame H L) : Prop :=
  match f.pc with
  | .exchangeTail => ¬ (C.side h f.lock = .loc ∨ (m.locks f.lock).tail (C.side h f.lock) = f.expected)
  | .awaitBudget => (m.descriptor (C.side h f.lock) h).budget < 0
  | .awaitNext => (m.descriptor (C.side h f.lock) h).next = none
  | _ => False

/-- A handler that expects the local class as the victim will find it. -/
def Expects (w : Words H) (f : Frame H L) : Prop :=
  f.pc = .loadVictimSwap → ∀ v, f.expectedVictim = some v →
    w.victim ≠ none ∧ (v = .loc → w.victim = some .loc)

/-- Any other access outside of a loop brings a handler on. -/
theorem exec_climbs (hx : exec C B m h f a = some (m', t, e)) (hl : f.pc.inLoop = false)
    (hc : f.pc ≠ .clearNext) (hw : ¬ Waits C m h f) (hv : Expects (m.locks f.lock) f) :
    e = some (f.lock, .leave (C.side h f.lock) h) ∨
      ∃ f', t = .busy f' ∧ f'.lock = f.lock ∧ f.rank < f'.rank := by
  unfold exec at hx
  cases hpc : f.pc <;> simp only [Pc.inLoop, hpc, Bool.true_eq_false] at hl <;>
    simp only [hpc, Option.some.injEq, Prod.mk.injEq, Option.map_eq_some_iff] at hx
  case clearNext => exact absurd hpc hc
  case exchangeTail =>
    simp only [Waits, hpc, not_not] at hw
    rw [if_pos hw] at hx
    simp only [Option.some.injEq, Prod.mk.injEq] at hx
    obtain ⟨-, rfl, -⟩ := hx
    refine Or.inr ⟨_, rfl, rfl, ?_⟩
    cases ht : (m.locks f.lock).tail (C.side h f.lock) <;> simp [Frame.rank, hpc]
  case casTail =>
    split at hx <;> simp only [Option.some.injEq, Prod.mk.injEq] at hx <;> obtain ⟨-, rfl, rfl⟩ := hx
    · exact Or.inl rfl
    · exact Or.inr ⟨_, rfl, rfl, by simp [Frame.rank, hpc]⟩
  case storePrevNext =>
    obtain ⟨p, -, -, rfl, -⟩ := hx
    exact Or.inr ⟨_, rfl, rfl, by simp [Frame.rank, hpc]⟩
  case storeNextBudget =>
    obtain ⟨n, -, -, -, rfl⟩ := hx
    exact Or.inl rfl
  all_goals obtain ⟨-, rfl, -⟩ := hx
  case awaitBudget =>
    simp only [Waits, hpc] at hw
    exact Or.inr ⟨_, rfl, rfl, by simp [Frame.rank, hpc, hw]⟩
  case awaitNext =>
    simp only [Waits, hpc, ← Option.isSome_iff_ne_none] at hw
    exact Or.inr ⟨_, rfl, rfl, by simp [Frame.rank, hpc, hw]⟩
  case testBudget =>
    refine Or.inr ⟨_, rfl, by split_ifs <;> rfl, ?_⟩
    split_ifs
    · cases C.side h f.lock <;> simp [Frame.rank, Frame.petersons, Pc.petersons, hpc]
    · simp [Frame.rank, hpc]
  case storeBudget =>
    refine Or.inr ⟨_, rfl, by split_ifs <;> rfl, ?_⟩
    cases hp : f.prev
    · cases C.side h f.lock <;> simp [Frame.rank, Frame.petersons, Pc.petersons, hpc, hp]
    · simp [Frame.rank, hpc, hp]
  case loadVictimSwap =>
    refine Or.inr ⟨_, rfl, by split_ifs <;> rfl, ?_⟩
    split_ifs with heq
    · cases hev : f.expectedVictim with
      | none => simp [Frame.rank, hpc, hev]
      | some v => cases v <;> simp [Frame.rank, hpc, hev]
    · -- the other handlers can only store the local class
      have hv := hv hpc
      cases hev : f.expectedVictim with
      | none =>
        cases hvic : (m.locks f.lock).victim with
        | none => simp [hev, hvic] at heq
        | some v => cases v <;> simp [Frame.rank, hpc, hev]
      | some v =>
        obtain ⟨hne, hloc⟩ := hv v hev
        cases v with
        | loc => exact absurd (by rw [hev, hloc rfl]) heq
        | rem =>
          cases hvic : (m.locks f.lock).victim with
          | none => exact absurd hvic hne
          | some v =>
            cases v with
            | loc => simp [Frame.rank, hpc, hev]
            | rem => exact absurd (by rw [hev, hvic]) heq
  case storeVictim =>
    refine Or.inr ⟨_, rfl, rfl, ?_⟩
    cases C.side h f.lock <;> simp [Frame.rank, hpc, Pc.loop]
  case critical =>
    refine Or.inr ⟨_, rfl, rfl, ?_⟩
    cases C.side h f.lock <;> simp [Frame.rank, hpc, Pc.unlock]
  case testNext =>
    refine Or.inr ⟨_, rfl, rfl, ?_⟩
    split_ifs <;> simp [Frame.rank, hpc]
  all_goals exact Or.inr ⟨_, rfl, rfl, by simp [Frame.rank, hpc]⟩

end Access

section Runs

omit [DecidableEq L] in
/-- Nobody else resets `next`. -/
theorem next_of_exec [DecidableEq L] {s : State H L} {g h : H} {f : Frame H L} {b : Bool}
    {m : Memory H L} {t : Thread (Frame H L)} {e : Option (L × Cohort.Event H Side)} {c : Side}
    (hx : exec C B s.memory h f b = some (m, t, e)) (hg : g ≠ h)
    (hn : (s.memory.descriptor c g).next ≠ none) : (m.descriptor c g).next ≠ none := by
  unfold exec at hx
  cases hpc : f.pc <;>
    simp only [hpc, Option.some.injEq, Prod.mk.injEq, Option.map_eq_some_iff] at hx
  case exchangeTail | casTail | loadTail | loadVictim | readPair | readTail | readVictim =>
    split at hx <;> simp only [Option.some.injEq, Prod.mk.injEq] at hx <;> obtain ⟨rfl, -, -⟩ := hx <;>
      exact hn
  case storePrevNext =>
    obtain ⟨p, -, rfl, -, -⟩ := hx
    by_cases hcp : c = C.side h f.lock ∧ g = p
    · simp [Memory.setDescriptor, hcp]
    · simpa [Memory.setDescriptor, hcp] using hn
  case storeNextBudget =>
    obtain ⟨p, -, rfl, -, -⟩ := hx
    by_cases hcp : c = C.side h f.lock ∧ g = p
    · obtain ⟨rfl, rfl⟩ := hcp
      simpa [Memory.setDescriptor] using hn
    · simpa [Memory.setDescriptor, hcp] using hn
  all_goals
    obtain ⟨rfl, -, -⟩ := hx
    first | exact hn | simpa [Memory.setDescriptor, hg] using hn

variable {tr : List (L × Cohort.Event H Side)} {s s' : State H L} {g h : H} {f : Frame H L}
  {a : Act L} {b : Bool} {m : Memory H L} {t : Thread (Frame H L)}
  {e : Option (L × Cohort.Event H Side)}

/-- What a handler expects of `victim` after its own access. -/
theorem expects_of_exec {f' : Frame H L} (hx : exec C B s.memory h f b = some (m, .busy f', e)) :
    Expects (m.locks f.lock) f' := by
  intro hpc' v hev
  unfold ALock.exec at hx
  cases hpc : f.pc <;>
    simp only [hpc, Option.some.injEq, Prod.mk.injEq, Option.map_eq_some_iff, Thread.busy.injEq,
      reduceCtorEq, false_and, and_false] at hx
  case storePrevNext =>
    obtain ⟨p, -, -, rfl, -⟩ := hx
    cases hpc'
  case storeNextBudget =>
    obtain ⟨n, -, -, hf', -⟩ := hx
    split at hf' <;> cases hf'
    cases hpc'
  case exchangeTail | casTail | readPair =>
    split at hx <;> simp only [Option.some.injEq, Prod.mk.injEq, Thread.busy.injEq, reduceCtorEq,
      false_and, and_false] at hx
    all_goals
      obtain ⟨-, rfl, -⟩ := hx
      simp only at hpc'
      try split at hpc'
      all_goals cases hpc'
  case loadTail | loadVictim | readTail | readVictim =>
    split at hx <;> simp only [Option.some.injEq, Prod.mk.injEq, Thread.busy.injEq] at hx <;>
      obtain ⟨-, rfl, -⟩ := hx
    · simp only [Frame.won] at hpc'
      split at hpc' <;> cases hpc'
    · cases hpc'
  case loadVictimSwap =>
    obtain ⟨rfl, rfl, -⟩ := hx
    split at hpc'
    · cases hpc'
    · rename_i hne
      rw [if_neg hne] at hev
      rw [show (s.memory.locks f.lock).victim = some v from hev]
      exact ⟨Option.some_ne_none v, fun hloc => by rw [hloc]⟩
  all_goals
    obtain ⟨rfl, rfl, -⟩ := hx
  case testBudget | storeBudget =>
    -- a handler that begins to swap expects nothing yet
    split at hpc' <;> rename_i hif
    all_goals
      first | rw [if_pos hif] at hev | rw [if_neg hif] at hev
      first | cases hpc' | cases hev
  case storeVictim => cases hc : C.side h f.lock <;> simp [Pc.loop, hc] at hpc'
  case critical => cases hc : C.side h f.lock <;> simp [Pc.unlock, hc] at hpc'
  case awaitBudget | testNext | awaitNext =>
    simp only at hpc'
    split at hpc' <;> cases hpc'
  all_goals cases hpc'

theorem expects_of_run (hr : (system C B).Run tr s) (hf : s.thread h = .busy f) :
    Expects (s.memory.locks f.lock) f := by
  revert h f
  refine hr.invariant (I := fun _ s => ∀ {h f}, s.thread h = .busy f →
    Expects (s.memory.locks f.lock) f) ?_ ?_
  · intro s hs h f hf
    simp [hs.2 h] at hf
  · intro tr s e s' hr ih hstep h f' hf'
    obtain ⟨g, a, ha⟩ := hstep
    have hS := sim_of_run hr
    obtain ⟨l, -, -, -, rfl⟩ | ⟨b, f, m, t, -, hf, hx, rfl⟩ := Machine.step_cases ha
    · by_cases hg : h = g
      · subst hg
        simp only [Function.update_self, Thread.busy.injEq] at hf'
        subst hf'
        intro hpc
        simp [Frame.start] at hpc
      · exact ih ((Function.update_of_ne hg _ _).symm.trans hf')
    · by_cases hg : h = g
      · subst hg
        simp only [Function.update_self] at hf'
        subst hf'
        rw [exec_lock hx]
        exact expects_of_exec hx
      · have hfh : s.thread h = .busy f' := (Function.update_of_ne hg _ _).symm.trans hf'
        have hE := ih hfh
        obtain ⟨hv, -⟩ | ⟨hv, rfl⟩ := exec_victim hx
        · intro hpc v hev
          rw [hv]
          exact hE hpc v hev
        · intro hpc v hev
          rw [hv]
          by_cases hl : f'.lock = f.lock
          · rw [if_pos hl]
            refine ⟨Option.some_ne_none _, fun _ => ?_⟩
            -- a remote handler that stores `victim` would be the first one, and so is `h`
            cases hc : C.side g f.lock with
            | loc => rfl
            | rem =>
              have hrem := (hS.holds h f' hfh).2.2.2 (Or.inl hpc)
              have hpcg := pc_of_request hx
              obtain ⟨hhd, -⟩ := hS.first hf (by simp [Frame.place, hpcg, Handover.Place.queue])
                (by simp [Frame.place, hpcg, Handover.Place.Behind])
              obtain ⟨hhd', -⟩ := hS.first hfh (by simp [Frame.place, hpc, Handover.Place.queue])
                (by simp [Frame.place, hpc, Handover.Place.Behind])
              rw [hrem, hl] at hhd'
              rw [hc] at hhd
              exact absurd (Option.some.inj (hhd'.symm.trans hhd)) hg
          · rw [if_neg hl]
            exact hE hpc v hev

end Runs

/-! ### Fair executions -/

/-- The endless executions of a cluster that uses ALock. -/
abbrev Runs (C : Cluster H L) (B : LockConfig) :=
  Machine.Runs (H := H) (Memory.Zeroed (H := H) (L := L)) Frame.start (exec C B)

/-- What `f` sees of the events on lock `l`. -/
def on (l : L) (f : Cohort.Event H Side → Option H) (x : L × Cohort.Event H Side) : Option H :=
  if x.1 = l then f x.2 else none

omit [DecidableEq H] in
theorem filterMap_onLock (l : L) (f : Cohort.Event H Side → Option H)
    (tr : List (L × Cohort.Event H Side)) : (onLock l tr).filterMap f = tr.filterMap (on l f) := by
  unfold onLock
  rw [List.filterMap_filterMap]
  congr 1
  funext x
  unfold on
  split_ifs <;> rfl

section Fair

variable {P : Runs C B} {n m : ℕ} {l : L} {c : Side} {g h : H} {f : Frame H L}

theorem sim (P : Runs C B) (n : ℕ) : Sim C B (P.trace n) (P.state n) :=
  sim_of_run (Clients.run_trace P n)

/-- The line of class `c` at lock `l` at time `n`. -/
def line (P : Runs C B) (l : L) (c : Side) (n : ℕ) : List H := (cohorts B (P.trace n) l).line c

/-- The number of handlers that have left it by then. -/
def left (P : Runs C B) (l : L) (c : Side) (n : ℕ) : ℕ :=
  (P.seen (on l (Cohort.Event.departed c)) n).length

theorem arrived_eq (P : Runs C B) (l : L) (c : Side) (n : ℕ) :
    P.seen (on l (Cohort.Event.arrived c)) n =
      P.seen (on l (Cohort.Event.departed c)) n ++ line P l c n := by
  have key := (Cohort.order ((sim P n).run l) c).1
  simp only [Cohort.arrivals, Cohort.departures, filterMap_onLock] at key
  exact key

theorem entered_eq (P : Runs C B) (l : L) (c : Side) (n : ℕ) :
    P.seen (on l (Cohort.Event.entered c)) n =
      P.seen (on l (Cohort.Event.departed c)) n ++ ((cohorts B (P.trace n) l).turn c).toList := by
  have key := (Cohort.order ((sim P n).run l) c).2
  simp only [Cohort.entries, Cohort.departures, filterMap_onLock] at key
  exact key

theorem left_mono (hnm : n ≤ m) : left P l c n ≤ left P l c m := (P.seen_mono _ hnm).length_le

theorem left_succ_of_leave (he : P.event n = some (l, .leave c h)) :
    left P l c (n + 1) = left P l c n + 1 := by
  simp [left, P.seen_succ, he, on, Cohort.Event.departed]

/-- While nobody leaves, a line only grows at its end. -/
theorem line_grow (hnm : n ≤ m) (hl : left P l c m = left P l c n) : line P l c n <+: line P l c m := by
  have ha := P.seen_mono (on l (Cohort.Event.arrived c)) hnm
  have hd := P.seen_mono (on l (Cohort.Event.departed c)) hnm
  rw [arrived_eq, arrived_eq, hd.eq_of_length hl.symm] at ha
  exact (List.prefix_append_right_inj _).1 ha

theorem head?_of_left_eq (hnm : n ≤ m) (hl : left P l c m = left P l c n)
    (hhd : (line P l c n).head? = some h) : (line P l c m).head? = some h := by
  obtain ⟨t, ht⟩ := line_grow hnm hl
  rw [← ht, List.head?_append, hhd]
  rfl

/-- What the first handler of a line does in its step. -/
theorem own_step (hag : P.agent n = h) (hf : (P.state n).thread h = .busy f) :
    ∃ b m t, exec C B (P.state n).memory h f b = some (m, t, P.event n) ∧
      (P.state (n + 1)).memory = m ∧ (P.state (n + 1)).thread h = t := by
  have hs := P.next n
  rw [hag] at hs
  obtain ⟨l, -, hidle, -⟩ | ⟨b, f0, m, t, -, hf0, hx, hs'⟩ := Machine.step_cases hs
  · simp [hf] at hidle
  · obtain rfl : f = f0 := by simpa [hf] using hf0
    exact ⟨b, m, t, hx, by rw [hs'], by simp [hs']⟩

omit [DecidableEq H] [DecidableEq L] in
/-- A handler in a loop, or past it, is the first one of its line. -/
theorem Frame.queue_of_rank (hr : 5 ≤ f.rank) (hc : f.pc ≠ .clearNext) :
    f.place.queue = some f.lock ∧ ¬ f.place.Behind := by
  cases hpc : f.pc <;> cases hp : f.prev <;> cases hn : f.next <;>
    simp_all [Frame.rank, Frame.place, Handover.Place.queue, Handover.Place.Behind]

omit [DecidableEq H] [DecidableEq L] in
theorem Frame.rank_of_inLoop (hl : f.pc.inLoop = true) : f.rank = 11 := by
  cases hpc : f.pc <;> simp_all [Frame.rank, Pc.inLoop]

/-- Handler `h` is in the loop of Peterson's algorithm for lock `l`. -/
def Looping (P : Runs C B) (l : L) (h : H) (n : ℕ) : Prop :=
  ∃ f, (P.state n).thread h = .busy f ∧ f.lock = l ∧ f.pc.inLoop = true

/-- Handler `h` has left the loop. -/
def Through (P : Runs C B) (l : L) (h : H) (n : ℕ) : Prop :=
  ∃ f, (P.state n).thread h = .busy f ∧ f.lock = l ∧ 11 < f.rank

/-- If a word lets the handler leave its loop, and goes on doing so while the handler is there, then
the handler leaves the loop. -/
theorem through_of_lets (hP : P.Fair Machine.Busy) (b : Bool) (hL : Looping P l h n)
    (hlets : ((P.state n).memory.locks l).Lets (C.side h l) b)
    (hkeep : ∀ m ≥ n, Looping P l h m → ((P.state m).memory.locks l).Lets (C.side h l) b →
      ((P.state (m + 1)).memory.locks l).Lets (C.side h l) b) :
    ∃ m > n, Through P l h m := by
  refine hP.reach (h := h)
    (I := fun m => Looping P l h m ∧ ((P.state m).memory.locks l).Lets (C.side h l) b)
    (fun m => ((P.state m).thread h).rank (Frame.loopRank b)) 2 ⟨hL, hlets⟩
    (fun m _ hI => ?_) (fun m _ _ => Thread.rank_le (Frame.loopRank_le b) _) fun m hm hI => ?_
  · obtain ⟨⟨f, hf, -⟩, -⟩ := hI
    exact ⟨f, hf⟩
  · obtain ⟨hLm, hlm⟩ := hI
    have hlm' := hkeep m hm hLm hlm
    obtain ⟨f, hf, rfl, hloop⟩ := hLm
    by_cases hag : P.agent m = h
    · obtain ⟨b', m', t, hx, -, ht⟩ := own_step hag hf
      obtain ⟨-, f', rfl, hl, -, hout, hup⟩ := exec_loop (b := b) ((sim P m).holds h f hf) hx hloop
      by_cases hin : f'.pc.inLoop = true
      · have hlt := hup hlm hin
        refine Or.inr ⟨⟨⟨f', ht, hl, hin⟩, hlm'⟩, ?_⟩
        simp only [hf, ht, Thread.rank_busy]
        exact ⟨hlt.le, fun _ => hlt⟩
      · exact Or.inl ⟨f', ht, hl, hout.resolve_left hin⟩
    · have hth := Machine.thread_of_ne (P.next m) (Ne.symm hag)
      refine Or.inr ⟨⟨⟨f, hth.trans hf, rfl, hloop⟩, hlm'⟩, ?_⟩
      rw [hth]
      exact ⟨le_rfl, fun h => absurd h hag⟩

/-- In a step `victim` changes only by a request, and the handler makes this request itself. -/
theorem victim_step (P : Runs C B) (n : ℕ) (l : L) :
    ((P.state (n + 1)).memory.locks l).victim = ((P.state n).memory.locks l).victim ∨
      ∃ f c, (P.state n).thread (P.agent n) = .busy f ∧ f.pc = .storeVictim ∧ f.lock = l ∧
        c = C.side (P.agent n) l ∧ ((P.state (n + 1)).memory.locks l).victim = some c := by
  obtain ⟨l', -, -, -, hs⟩ | ⟨b, f, m, t, -, hf, hx, hs⟩ := Machine.step_cases (P.next n)
  · rw [hs]
    exact Or.inl rfl
  · rw [hs]
    obtain ⟨hv, -⟩ | ⟨hv, he⟩ := exec_victim hx
    · exact Or.inl (hv l)
    · rw [hv]
      by_cases hl : l = f.lock
      · subst hl
        rw [he] at hx
        exact Or.inr ⟨f, _, hf, pc_of_request hx, rfl, rfl, if_pos rfl⟩
      · exact Or.inl (if_neg hl)

/-- If the class of the handler is not the victim, the handler leaves its loop. -/
theorem through_of_victim (hP : P.Fair Machine.Busy) (hL : Looping P l h n)
    (hv : ((P.state n).memory.locks l).victim ≠ some (C.side h l)) : ∃ m > n, Through P l h m := by
  refine through_of_lets hP true hL hv fun m _ hLm hvm => ?_
  obtain hs | ⟨f, c, hf, hpc, hl, rfl, hs⟩ := victim_step P m l
  · exact (congrArg (· ≠ some (C.side h l)) hs).mpr hvm
  · -- the other handler of the class cannot be at the front, too
    obtain ⟨f', hf', rfl, hloop⟩ := hLm
    show _ ≠ _
    rw [hs]
    intro hc
    obtain ⟨hq, hb⟩ := Frame.queue_of_rank (f := f') (by rw [Frame.rank_of_inLoop hloop]; omega)
      (by rintro hpc'; simp [hpc', Pc.inLoop] at hloop)
    obtain ⟨hhd, -⟩ := (sim P m).first hf' hq hb
    obtain ⟨hhd', -⟩ := (sim P m).first hf (by simp [Frame.place, hpc, Handover.Place.queue])
      (by simp [Frame.place, hpc, Handover.Place.Behind])
    rw [hl, Option.some.inj hc, hhd] at hhd'
    obtain rfl : h = P.agent m := Option.some.inj hhd'
    obtain rfl : f' = f := by simpa [hf'] using hf
    simp [hpc, Pc.inLoop] at hloop

omit [DecidableEq H] [DecidableEq L] in
theorem budget_pos (hB : B.Positive) (c : Side) : 1 ≤ B.budget c := by
  obtain ⟨hl, hr⟩ := hB
  rw [UInt32.le_iff_toNat_le] at hl hr
  cases c
  · exact Int.ofNat_le.2 hl
  · exact Int.ofNat_le.2 hr

/-! ### The first handler of a line leaves -/

/-- Handler `h` waits at the front of its line for its successor to link itself. -/
def Stuck (P : Runs C B) (l : L) (c : Side) (h : H) (n : ℕ) : Prop :=
  (line P l c n).head? = some h ∧
    (∃ f, (P.state n).thread h = .busy f ∧ f.pc = .awaitNext ∧ f.lock = l) ∧
      ((P.state n).memory.descriptor c h).next = none

/-- The handlers of a line are at work on its lock. -/
theorem busy_of_mem (hmem : h ∈ line P l c n) :
    ∃ f, (P.state n).thread h = .busy f ∧ f.lock = l ∧ C.side h l = c ∧ f.place.queue = some l :=
  (sim P n).busy_of_mem hmem

/-- There is a successor then, which is about to link itself. -/
theorem Stuck.exists_successor (hst : Stuck P l c h n) :
    ∃ g, g ≠ h ∧ Mcs.Adj (line P l c n) h g := by
  obtain ⟨hhd, ⟨f, hf, hpc, rfl⟩, hn⟩ := hst
  have hI := (sim P n).queue c
  obtain ⟨f', hf', -, hc, -⟩ := busy_of_mem (List.mem_of_head? hhd)
  obtain rfl : f = f' := by simpa [hf] using hf'
  have hlast := hI.front f.lock h hhd
  simp only [Handover.Front, place_of_busy hf hc, Frame.place, hpc] at hlast
  obtain ⟨t, ht⟩ := List.head?_eq_some_iff.1 hhd
  cases t with
  | nil => exact absurd (congrArg List.getLast? ht) hlast
  | cons g t =>
    have hadj : Mcs.Adj (line P f.lock c n) h g := ⟨0, by rw [ht]; rfl, by rw [ht]; rfl⟩
    exact ⟨g, (hadj.ne (hI.nodup f.lock)).symm, hadj⟩

theorem Stuck.linking (hst : Stuck P l c h n) (hadj : Mcs.Adj (line P l c n) h g) :
    ∃ f, (P.state n).thread g = .busy f ∧ f.lock = l ∧ C.side g l = c ∧ f.pc = .storePrevNext ∧
      f.prev = some h := by
  have hI := (sim P n).queue c
  have hn : (queues C c (P.state n)).next h = none := hst.2.2
  obtain ⟨f, hf, rfl, hc, -⟩ := busy_of_mem hadj.right_mem
  refine ⟨f, hf, rfl, hc, ?_⟩
  have hpl : ∃ b, f.place = .linking f.lock h b := by
    rw [← place_of_busy hf hc]
    obtain ⟨hp, -⟩ | ⟨-, ⟨hp, -⟩ | ⟨-, hp⟩⟩ := hI.link f.lock h g hadj
    · exact ⟨_, hp⟩
    · exact ⟨_, hp⟩
    · simp [hn] at hp
  obtain ⟨b, hb⟩ := hpl
  cases hpc : f.pc <;> cases hp : f.prev <;> cases hn' : f.next <;>
    simp_all [Frame.place]

/-- In a round of the loop on `next` nothing happens. -/
theorem Stuck.stay (hst : Stuck P l c h n) (hag : P.agent n = h) :
    P.event n = none ∧ (P.state (n + 1)).memory = (P.state n).memory ∧
      (P.state (n + 1)).thread h = (P.state n).thread h := by
  obtain ⟨hhd, ⟨f, hf, hpc, rfl⟩, hn⟩ := hst
  obtain ⟨f', hf', -, hc, -⟩ := busy_of_mem (List.mem_of_head? hhd)
  obtain ⟨b, m, t, hx, hm, ht⟩ := own_step hag hf
  simp only [exec, hpc, hc, hn, Option.isSome_none, Bool.false_eq_true, if_false, Option.some.injEq,
    Prod.mk.injEq] at hx
  obtain ⟨rfl, rfl, he⟩ := hx
  refine ⟨he.symm, hm, ?_⟩
  rw [ht, hf, ← hpc]

/-- The successor links itself, by its own next step. -/
theorem Stuck.released (hP : P.Fair Machine.Busy) (hst : Stuck P l c h n) :
    ∃ m > n, left P l c n < left P l c m ∨ left P l c m = left P l c n ∧
      (P.state m).thread h = (P.state n).thread h ∧
      ((P.state m).memory.descriptor c h).next ≠ none := by
  obtain ⟨g, hgh, hadj⟩ := hst.exists_successor
  let I : ℕ → Prop := fun m => left P l c m = left P l c n ∧
    (P.state m).thread h = (P.state n).thread h ∧ ((P.state m).memory.descriptor c h).next = none
  have hstuck : ∀ m ≥ n, I m → Stuck P l c h m := by
    intro m hm hI
    obtain ⟨f, hf, hpc⟩ := hst.2.1
    exact ⟨head?_of_left_eq hm hI.1 hst.1, ⟨f, hI.2.1.trans hf, hpc⟩, hI.2.2⟩
  have hlinking : ∀ m ≥ n, I m → ∃ f, (P.state m).thread g = .busy f ∧ f.lock = l ∧
      C.side g l = c ∧ f.pc = .storePrevNext ∧ f.prev = some h := fun m hm hI =>
    (hstuck m hm hI).linking (Handover.adj_mono (line_grow hm hI.1) hadj)
  refine hP.eventually (h := g) (I := I) ⟨rfl, rfl, hst.2.2⟩ (fun m hm hI => ?_) (fun m hm hI => ?_)
    fun m hm hI hag => ?_
  · obtain ⟨f, hf, -⟩ := hlinking m hm hI
    exact ⟨f, hf⟩
  · have hle := left_mono (P := P) (l := l) (c := c) (show n ≤ m + 1 by omega)
    by_cases hl : left P l c (m + 1) = left P l c n
    · have hth : (P.state (m + 1)).thread h = (P.state n).thread h := by
        by_cases hag : P.agent m = h
        · exact ((hstuck m hm hI).stay hag).2.2.trans hI.2.1
        · exact (Machine.thread_of_ne (P.next m) (Ne.symm hag)).trans hI.2.1
      by_cases hn : ((P.state (m + 1)).memory.descriptor c h).next = none
      · exact Or.inl ⟨hl, hth, hn⟩
      · exact Or.inr (Or.inr ⟨hl, hth, hn⟩)
    · exact Or.inr (Or.inl (by omega))
  · obtain ⟨f, hf, rfl, hc, hpc, hp⟩ := hlinking m hm hI
    obtain ⟨b, m', t, hx, hm', ht⟩ := own_step hag hf
    simp only [exec, hpc, hc, hp, Option.map_some, Option.some.injEq, Prod.mk.injEq] at hx
    obtain ⟨rfl, rfl, he⟩ := hx
    refine Or.inr ⟨?_, ?_, ?_⟩
    · rw [← hI.1]
      simp [left, P.seen_succ, ← he]
    · rw [Machine.thread_of_ne (P.next m) (by rw [hag]; exact Ne.symm hgh)]
      exact hI.2.1
    · rw [hm']
      simp [Memory.setDescriptor]

/-- The first handler of a line has its budget. -/
theorem not_waits_of_head (hB : ∀ c, 1 ≤ B.budget c) (hhd : (line P l c n).head? = some h)
    (hf : (P.state n).thread h = .busy f) (hst : ¬ Stuck P l c h n) :
    ¬ Waits C (P.state n).memory h f := by
  intro hw
  obtain ⟨f', hf', rfl, rfl, hq⟩ := busy_of_mem (List.mem_of_head? hhd)
  obtain rfl : f = f' := by simpa [hf] using hf'
  cases hpc : f.pc <;> simp only [Waits, hpc] at hw
  case exchangeTail => simp [Frame.place, hpc, Handover.Place.queue] at hq
  case awaitBudget =>
    have hH := (sim P n).head _ _ _ _ hhd hf
    simp only [Head, hpc] at hH
    have := Cohort.left_nonneg hB ((sim P n).run f.lock) (C.side h f.lock)
    rw [hH.2.1] at hw
    exact absurd hw (not_lt.2 this)
  case awaitNext => exact hst ⟨hhd, ⟨f, hf, hpc, rfl⟩, hw⟩

/-- The first handler of a line leaves it at some time, if it leaves the loops. -/
theorem exists_left_lt_of_through (hP : P.Fair Machine.Busy) (hB : ∀ c, 1 ≤ B.budget c)
    (hhd : (line P l c n).head? = some h)
    (hloop : ∀ m ≥ n, Looping P l h m → ∃ i > m, Through P l h i) :
    ∃ m ≥ n, left P l c n < left P l c m := by
  have hhead : ∀ m ≥ n, left P l c m = left P l c n → (line P l c m).head? = some h :=
    fun m hm hl => head?_of_left_eq hm hl hhd
  have hlt : ∀ {m}, m ≥ n → left P l c m ≠ left P l c n → left P l c n < left P l c m := by
    intro m hm hne
    have := left_mono (P := P) (l := l) (c := c) hm
    omega
  -- outside of the loops the handler waits for its successor only
  have hready : ∀ m ≥ n, left P l c m = left P l c n → ¬ Looping P l h m →
      ∃ i ≥ m, left P l c n < left P l c i ∨ left P l c i = left P l c n ∧
        ((P.state m).thread h).rank Frame.rank ≤ ((P.state i).thread h).rank Frame.rank ∧
        ¬ Stuck P l c h i ∧ ¬ Looping P l h i := by
    intro m hm hI hlp
    by_cases hst : Stuck P l c h m
    · obtain ⟨i, hi, hgt | ⟨hl, hth, hn⟩⟩ := hst.released hP
      · exact ⟨i, hi.le, Or.inl (by omega)⟩
      · refine ⟨i, hi.le, Or.inr ⟨hl.trans hI, by rw [hth], fun hst' => hn hst'.2.2, ?_⟩⟩
        rintro ⟨f, hf, hfl⟩
        exact hlp ⟨f, hth ▸ hf, hfl⟩
    · exact ⟨m, le_rfl, Or.inr ⟨hI, le_rfl, hst, hlp⟩⟩
  refine hP.climb (h := h) (I := fun m => left P l c m = left P l c n)
    (fun m => ((P.state m).thread h).rank Frame.rank) 21
    (fun m => ¬ Stuck P l c h m ∧ ¬ Looping P l h m) rfl
    (fun m hm hI => ?_) (fun m hm hI => Thread.rank_le Frame.rank_le _) (fun m hm hI => ?_) fun m hm hI hst => ?_
  · obtain ⟨f, hf, -⟩ := busy_of_mem (List.mem_of_head? (hhead m hm hI))
    exact ⟨f, hf⟩
  · by_cases hlp : Looping P l h m
    · obtain ⟨i, hi, hth⟩ := hloop m hm hlp
      by_cases hI' : left P l c i = left P l c n
      · obtain ⟨f, hf, -, hfl⟩ := hlp
        obtain ⟨f', hf', -, hr⟩ := hth
        have hlp' : ¬ Looping P l h i := by
          rintro ⟨f'', hf'', -, hl'⟩
          obtain rfl : f' = f'' := by simpa [hf'] using hf''
          rw [Frame.rank_of_inLoop hl'] at hr
          omega
        obtain ⟨j, hj, hQ | ⟨hIj, hrj, hRj⟩⟩ := hready i (by omega) hI' hlp'
        · exact ⟨j, by omega, Or.inl hQ⟩
        · refine ⟨j, by omega, Or.inr ⟨hIj, le_trans ?_ hrj, hRj⟩⟩
          simp only [hf, hf', Thread.rank_busy, Frame.rank_of_inLoop hfl]
          omega
      · exact ⟨i, hi.le, Or.inl (hlt (by omega) hI')⟩
    · exact hready m hm hI hlp
  · obtain ⟨hst, hlp⟩ := hst
    have hhdm := hhead m hm hI
    obtain ⟨f, hf, rfl, hc, hq⟩ := busy_of_mem (List.mem_of_head? hhdm)
    by_cases hl : left P f.lock c (m + 1) = left P f.lock c n
    · refine Or.inr ⟨hl, ?_⟩
      by_cases hag : P.agent m = h
      · left
        obtain ⟨b, m', t, hx, -, ht⟩ := own_step hag hf
        have hout : f.pc.inLoop = false := by
          by_contra hin
          exact hlp ⟨f, hf, rfl, by simpa using hin⟩
        obtain he | ⟨f', rfl, -, hr⟩ := exec_climbs hx hout
          (by rintro hpc; simp [Frame.place, hpc, Handover.Place.queue] at hq)
          (not_waits_of_head hB hhdm hf hst) (expects_of_run (Clients.run_trace P m) hf)
        · rw [hc] at he
          have := left_succ_of_leave he
          omega
        · simpa only [hf, ht, Thread.rank_busy] using hr
      · have hth := Machine.thread_of_ne (P.next m) (Ne.symm hag)
        refine Or.inr ⟨by rw [hth], ⟨fun hst' => hst ⟨hhdm, ?_, ?_⟩, ?_⟩, hag⟩
        · rw [← hth]
          exact hst'.2.1
        · by_contra hn
          obtain ⟨l', -, -, -, hs⟩ | ⟨b, f0, m', t, -, -, hx, hs⟩ := Machine.step_cases (P.next m)
          · have := hst'.2.2
            rw [hs] at this
            exact hn this
          · have := hst'.2.2
            rw [hs] at this
            exact next_of_exec hx (Ne.symm hag) hn this
        · rintro ⟨f', hf', hfl⟩
          exact hlp ⟨f', hth ▸ hf', hfl⟩
    · exact Or.inl (hlt (by omega) hl)

/-! ### The loops end -/

/-- A handler in a loop has asked for the section. -/
theorem Looping.asking (hL : Looping P l h n) :
    (cohorts B (P.trace n) l).Asking (C.side h l) := by
  obtain ⟨f, hf, rfl, hloop⟩ := hL
  obtain ⟨hq, hb⟩ := Frame.queue_of_rank (f := f) (by rw [Frame.rank_of_inLoop hloop]; omega)
    (by rintro hpc; simp [hpc, Pc.inLoop] at hloop)
  obtain ⟨-, hH⟩ := (sim P n).first hf hq hb
  cases hpc : f.pc <;> simp only [Pc.inLoop, hpc, Bool.false_eq_true] at hloop <;>
    simp only [Head, hpc] at hH
  case loadTail | loadVictim | readPair => exact ⟨Or.inl hH.2.1, hH.1⟩
  case readTail | readVictim =>
    refine ⟨?_, hH.1⟩
    have hst := hH.2.2
    split_ifs at hst
    · exact Or.inr hst.1
    · exact Or.inl hst

/-- While a handler is in a loop, the entries of the other class use up what is ahead of it. -/
theorem entered_step (hL : Looping P l h n) (hL' : Looping P l h (n + 1)) :
    ((P.seen (on l (Cohort.Event.entered (other (C.side h l)))) (n + 1)).length : ℤ) +
        (cohorts B (P.trace (n + 1)) l).ahead B.budget (C.side h l) ≤
      (P.seen (on l (Cohort.Event.entered (other (C.side h l)))) n).length +
        (cohorts B (P.trace n) l).ahead B.budget (C.side h l) := by
  have hrun := (sim P (n + 1)).run l
  have hask' := hL'.asking
  rw [P.seen_succ, List.length_append]
  rw [Execution.trace] at hrun hask' ⊢
  cases he : P.event n with
  | none => simp
  | some x =>
    obtain ⟨l', x⟩ := x
    rw [he, Option.toList_some, cohorts_concat] at hrun hask'
    rw [Option.toList_some, cohorts_concat]
    by_cases hl : l' = l
    · subst hl
      rw [onLock_concat, if_pos rfl, if_pos rfl] at hrun
      rw [if_pos rfl] at hask' ⊢
      obtain ⟨s0, hr0, hen, -⟩ := Cohort.run_concat hrun
      obtain rfl : s0 = cohorts B (P.trace n) l' := Cohort.eq_after hr0
      have hno : x.entered (C.side h l') = none := by
        cases x with
        | enter c g =>
          by_cases hc : c = C.side h l'
          · subst hc
            have := hask'.2
            simp [Cohort.State.apply] at this
          · simp [Cohort.Event.entered, hc]
        | arrive c g | request c g | pass c g | leave c g => rfl
      have key := Cohort.ahead_step (Cohort.inv_of_run hr0) hen hL.asking hno
      dsimp only at key ⊢
      simp only [Option.bind_some, on, if_true]
      push_cast
      omega
    · simp [on, hl]

/-- A handler leaves the loop of Peterson's algorithm. -/
theorem through_of_looping (hP : P.Fair Machine.Busy) (hB : ∀ c, 1 ≤ B.budget c)
    (hL : Looping P l h n) : ∃ m > n, Through P l h m := by
  by_contra hno
  push Not at hno
  set c := C.side h l with hc
  -- then it is there for ever, as the victim
  have hall : ∀ m ≥ n, Looping P l h m := by
    intro m hm
    induction m, hm using Nat.le_induction with
    | base => exact hL
    | succ m hm ih =>
      obtain ⟨f, hf, rfl, hloop⟩ := ih
      by_cases hag : P.agent m = h
      · obtain ⟨b, m', t, hx, -, ht⟩ := own_step hag hf
        obtain ⟨-, f', rfl, hl, -, hin | hout, -⟩ :=
          exec_loop (b := true) ((sim P m).holds h f hf) hx hloop
        · exact ⟨f', ht, hl, hin⟩
        · exact absurd ⟨f', ht, hl, hout⟩ (hno (m + 1) (by omega))
      · exact ⟨f, (Machine.thread_of_ne (P.next m) (Ne.symm hag)).trans hf, rfl, hloop⟩
  have hvic : ∀ m ≥ n, ((P.state m).memory.locks l).victim = some c := by
    intro m hm
    by_contra hv
    obtain ⟨i, hi, hth⟩ := through_of_victim hP (hall m hm) hv
    exact hno i (by omega) hth
  -- so the first handlers of the other class leave, but only finitely many can enter
  have hleave : ∀ m ≥ n, line P l (other c) m ≠ [] →
      ∃ i ≥ m, left P l (other c) m < left P l (other c) i := by
    intro m hm hne
    obtain ⟨g, t, hg⟩ := List.exists_cons_of_ne_nil hne
    have hhd : (line P l (other c) m).head? = some g := by rw [hg]; rfl
    refine exists_left_lt_of_through hP hB hhd fun i hi hLi => through_of_victim hP hLi ?_
    obtain ⟨-, -, -, hgc, -⟩ := busy_of_mem (List.mem_of_head? hhd)
    rw [hvic i (by omega), hgc]
    exact fun h => other_ne c (Option.some.inj h).symm
  have hbound : ∀ m ≥ n, ((P.seen (on l (Cohort.Event.entered (other c))) m).length : ℤ) +
        (cohorts B (P.trace m) l).ahead B.budget c ≤
      (P.seen (on l (Cohort.Event.entered (other c))) n).length +
        (cohorts B (P.trace n) l).ahead B.budget c := by
    intro m hm
    induction m, hm using Nat.le_induction with
    | base => exact le_rfl
    | succ m hm ih => exact (entered_step (hall m hm) (hall (m + 1) (by omega))).trans ih
  obtain ⟨k, hk⟩ : ∃ k, ∀ m ≥ n, left P l (other c) m ≤ k := by
    refine ⟨((P.seen (on l (Cohort.Event.entered (other c))) n).length +
      (cohorts B (P.trace n) l).ahead B.budget c).toNat, fun m hm => ?_⟩
    have hle := congrArg List.length (entered_eq P l (other c) m)
    rw [List.length_append] at hle
    have := hbound m hm
    have := Cohort.ahead_nonneg B.budget (cohorts B (P.trace m) l) c
    unfold left
    omega
  -- at last the other line stays empty
  obtain ⟨i, hi, hmax⟩ := Execution.exists_const (fun i j hij => left_mono (P := P) (l := l) hij) hk
  have hnil : ∀ m ≥ i, line P l (other c) m = [] := by
    intro m hm
    by_contra hne
    obtain ⟨j, hj, hlt⟩ := hleave m (by omega) hne
    have := hmax j (by omega)
    have := hmax m hm
    omega
  have htail : ∀ m ≥ i, ((P.state m).memory.locks l).Lets c false := by
    intro m hm
    have hn := (sim P m).tail_eq_none_iff l (other c)
    rw [((sim P m).inv l).idle_iff] at hn
    exact hn.2 (hnil m hm)
  obtain ⟨m, hm, hth⟩ := through_of_lets hP false (hall i hi) (htail i le_rfl)
    fun m hm _ _ => htail (m + 1) (by omega)
  exact hno m (by omega) hth

/-- In a fair execution with budgets of one at least, every handler that has exchanged the tail of a queue
enters the critical section, and leaves it. -/
theorem nobody_starves (hB : B.Positive) (hP : P.Fair Machine.Busy) (n : ℕ) (l : L) (c : Side) (h : H)
    (he : P.event n = some (l, .arrive c h)) :
    ∃ m > n, P.event m = some (l, .enter c h) ∧ ∃ i > m, P.event i = some (l, .leave c h) := by
  have hB' := budget_pos hB
  have horder : ∀ n, P.seen (on l (Cohort.Event.departed c)) n <+:
        P.seen (on l (Cohort.Event.entered c)) n ∧
      P.seen (on l (Cohort.Event.entered c)) n <+: P.seen (on l (Cohort.Event.arrived c)) n := by
    intro n
    rw [entered_eq, arrived_eq]
    refine ⟨List.prefix_append _ _, (List.prefix_append_right_inj _).2 ?_⟩
    unfold Cohort.State.turn line
    split_ifs
    · cases (cohorts B (P.trace n) l).line c <;> simp
    · simp
  have hnext : ∀ n, (P.seen (on l (Cohort.Event.departed c)) n).length <
      (P.seen (on l (Cohort.Event.arrived c)) n).length → ∃ m ≥ n, left P l c n < left P l c m := by
    intro n hlt
    rw [arrived_eq, List.length_append] at hlt
    cases hL : line P l c n with
    | nil => simp [hL] at hlt
    | cons h t =>
      exact exists_left_lt_of_through hP hB' (h := h) (by rw [hL]; rfl)
        fun m _ hLm => through_of_looping hP hB' hLm
  obtain ⟨m, hm, ⟨⟨l₁, e⟩, hem, hent⟩, i, hi, ⟨l₂, e'⟩, hei, hdep⟩ := P.exists_served
    (on l (Cohort.Event.arrived c)) (on l (Cohort.Event.entered c)) (on l (Cohort.Event.departed c))
    horder hnext
    (fun e b hb => by
      obtain ⟨l', e⟩ := e
      cases e <;> simp_all [on, Cohort.Event.arrived, Cohort.Event.entered, Cohort.Event.departed])
    (fun e b hb => by
      obtain ⟨l', e⟩ := e
      cases e <;> simp_all [on, Cohort.Event.entered, Cohort.Event.departed])
    (b := h) he (by simp [on, Cohort.Event.arrived])
  obtain ⟨rfl, rfl⟩ : l₁ = l ∧ e = .enter c h := by
    cases e <;> simp_all [on, Cohort.Event.entered]
  obtain ⟨rfl, rfl⟩ : l₂ = l₁ ∧ e' = .leave c h := by
    cases e' <;> simp_all [on, Cohort.Event.departed]
  exact ⟨m, hm, hem, i, hi, hei⟩

end Fair

/-- A local and a remote handler in turns. -/
theorem nobody_starves_turns : ∃ P : Runs Cluster.pair ⟨1, 1⟩, P.Fair Machine.Busy ∧
    P.event 7 = some ((), .arrive .rem true) ∧ ∃ m > 7, P.event m = some ((), .enter .rem true) ∧
      ∃ i > m, P.event i = some ((), .leave .rem true) := by
  let P : Runs Cluster.pair ⟨1, 1⟩ :=
    Machine.alternate (m := ⟨fun _ => {}, fun _ _ => {}⟩) (fun _ => rfl)
      (fun tr s h f b hr hf => exec_isSome hr hf b) fun _ => ()
  have hP : P.Fair Machine.Busy := Execution.fair_of_turns fun _ => rfl
  have he : P.event 7 = some ((), .arrive .rem true) := by decide
  exact ⟨P, hP, he, nobody_starves ⟨by decide, by decide⟩ hP 7 () .rem true he⟩

end ALock

end Farlock
