import Farlock.ThirdParty.ALock.Queues

/-!
# ALock is a lock of two cohorts

Every run of ALock shows, on each lock, a run of the two cohorts of `Farlock.Lib.Cohort`.  The queues
of the two classes are the lines, and the words of the lock and of the descriptors say what the
cohorts know:

* `Head`: what the budget and the local data of the first handler of a queue say about the section;
* `Sim`: the relation between the states, kept by every step (`Sim.step`);
* `sim_of_run`.
-/

namespace Farlock

namespace ALock

open TwoParty Peterson

variable {H L : Type}

/-- What the first handler of a queue knows: its budget `b` and its local data, against the stage of
its class, what is left of the budget, and whether it is inside. -/
def Head (B : ℤ) (f : Frame H L) (b : ℤ) (st : Stage) (left : ℤ) (inside : Bool) : Prop :=
  match f.pc with
  | .awaitBudget => inside = false ∧ b = left ∧ st = if 0 < left then .passed else .flagged
  | .testBudget =>
      inside = false ∧ b = left ∧ 0 ≤ left ∧ st = if 0 < left then .passed else .flagged
  | .storeBudget =>
      inside = false ∧ if f.prev.isSome then st = .passed ∧ left = B else st = .flagged ∧ left = 0
  | .loadVictimSwap | .storeVictim =>
      inside = false ∧ st = .flagged ∧ left = 0 ∧ (f.prev = none → b = B)
  | .loadTail | .loadVictim | .readPair => inside = false ∧ st = .waiting ∧ (f.prev = none → b = B)
  | .readTail =>
      inside = false ∧ (f.prev = none → b = B) ∧
        if f.victim ≠ some .rem then st = .passed ∧ left = B else st = .waiting
  | .readVictim =>
      inside = false ∧ (f.prev = none → b = B) ∧
        if f.tail.isNone then st = .passed ∧ left = B else st = .waiting
  | .acquired => inside = false ∧ st = .passed ∧ b = left
  | .critical | .testNext | .casTail | .awaitNext | .loadNext | .loadBudget =>
      inside = true ∧ b = left
  | .storeNextBudget => inside = true ∧ f.budget = left
  | _ => False

/-- What a handler of class `c` has in its hands, and the program points of its class. -/
def Frame.Holds (c : Side) (f : Frame H L) : Prop :=
  (f.pc = .storePrevNext ∨ f.pc = .awaitBudget ∨ f.pc = .testBudget → f.prev.isSome = true) ∧
    (f.pc = .loadBudget ∨ f.pc = .storeNextBudget → f.next.isSome = true) ∧
    (f.pc = .loadTail ∨ f.pc = .loadVictim → c = .loc) ∧
    (f.pc = .loadVictimSwap ∨ f.pc = .readPair ∨ f.pc = .readTail ∨ f.pc = .readVictim → c = .rem)

variable [DecidableEq H] [DecidableEq L] {C : Cluster H L} {B : LockConfig}

/-- The cohorts on lock `l` after the events `tr`. -/
def cohorts (B : LockConfig) (tr : List (L × Cohort.Event H Side)) (l : L) : Cohort.State H Side :=
  Cohort.after B.budget (onLock l tr)

theorem cohorts_concat (tr : List (L × Cohort.Event H Side)) (x : L × Cohort.Event H Side) (l : L) :
    cohorts B (tr ++ [x]) l =
      if x.1 = l then (cohorts B tr l).apply B.budget x.2 else cohorts B tr l := by
  unfold cohorts
  rw [onLock_concat]
  split_ifs
  · rw [Cohort.after_append]
  · rfl

/-- The state of the locks and handlers against that of the cohorts. -/
structure Sim (C : Cluster H L) (B : LockConfig) (tr : List (L × Cohort.Event H Side))
    (s : State H L) : Prop where
  run : ∀ l, (Cohort.system B.budget).Run (onLock l tr) (cohorts B tr l)
  queue : ∀ c, Handover.Inv (queues C c s) fun l => (cohorts B tr l).line c
  victim : ∀ l, (s.memory.locks l).victim = (cohorts B tr l).pet.victim
  holds : ∀ h f, s.thread h = .busy f → f.Holds (C.side h f.lock)
  head : ∀ l c h f, ((cohorts B tr l).line c).head? = some h → s.thread h = .busy f →
    Head (B.budget c) f (s.memory.descriptor c h).budget ((cohorts B tr l).pet.stage c)
      ((cohorts B tr l).left c) ((cohorts B tr l).inside c)

section Facts

variable {tr : List (L × Cohort.Event H Side)} {s : State H L} {l : L} {c : Side} {h g : H}
  {f : Frame H L}

theorem Sim.inv (hS : Sim C B tr s) (l : L) : Cohort.Inv B.budget (cohorts B tr l) :=
  Cohort.inv_of_run (hS.run l)

omit [DecidableEq H] [DecidableEq L] in
/-- A handler is in a queue of its lock only. -/
theorem Frame.queue_place (hq : f.place.queue = some l) : f.lock = l := by
  cases hpc : f.pc <;> cases hp : f.prev <;> cases hn : f.next <;>
    simp_all [Frame.place, Handover.Place.queue]

omit [DecidableEq H] [DecidableEq L] in
theorem place_of_busy (hf : s.thread h = .busy f) (hc : C.side h f.lock = c) :
    (queues C c s).place h = f.place := by
  simp [queues, placeOf, hf, hc]

/-- A handler in a line is busy with its lock. -/
theorem Sim.busy_of_mem (hS : Sim C B tr s) (hmem : h ∈ (cohorts B tr l).line c) :
    ∃ f, s.thread h = .busy f ∧ f.lock = l ∧ C.side h l = c ∧ f.place.queue = some l := by
  have hq := ((hS.queue c).mem_iff l h).1 hmem
  cases ht : s.thread h with
  | idle => simp [queues, placeOf, ht, Handover.Place.queue] at hq
  | busy f =>
    by_cases hc : C.side h f.lock = c
    · rw [place_of_busy ht hc] at hq
      obtain rfl := Frame.queue_place hq
      exact ⟨f, rfl, rfl, hc, hq⟩
    · simp [queues, placeOf, ht, hc, Handover.Place.queue] at hq

/-- A handler past its wait is the first one of its line. -/
theorem Sim.head?_eq (hS : Sim C B tr s) (hf : s.thread h = .busy f)
    (hq : f.place.queue = some f.lock) (hb : ¬ f.place.Behind) :
    ((cohorts B tr f.lock).line (C.side h f.lock)).head? = some h := by
  have hp := place_of_busy (C := C) hf rfl
  exact (hS.queue _).head?_eq (h := h) (k := f.lock) (by rw [hp]; exact hq) (by rwa [hp])

/-- The tail of a queue is null if and only if the flag of its class is down. -/
theorem Sim.tail_eq_none_iff (hS : Sim C B tr s) (l : L) (c : Side) :
    (s.memory.locks l).tail c = none ↔ (cohorts B tr l).pet.stage c = .idle := by
  have ht := (hS.queue c).tail_eq l
  rw [(hS.inv l).idle_iff, ← List.getLast?_eq_none_iff, ← ht]
  rfl

/-- Handler `h` with frame `f` is the first one of its line, and knows what `Head` says. -/
theorem Sim.first (hS : Sim C B tr s) (hf : s.thread h = .busy f)
    (hq : f.place.queue = some f.lock) (hb : ¬ f.place.Behind) :
    ((cohorts B tr f.lock).line (C.side h f.lock)).head? = some h ∧
      Head (B.budget (C.side h f.lock)) f (s.memory.descriptor (C.side h f.lock) h).budget
        ((cohorts B tr f.lock).pet.stage (C.side h f.lock))
        ((cohorts B tr f.lock).left (C.side h f.lock))
        ((cohorts B tr f.lock).inside (C.side h f.lock)) :=
  have hhd := hS.head?_eq hf hq hb
  ⟨hhd, hS.head _ _ _ _ hhd hf⟩

end Facts

/-! ### The events -/

section Step

variable {tr : List (L × Cohort.Event H Side)} {s : State H L} {m : Memory H L} {h g : H}
  {f : Frame H L} {b : Bool} {t : Thread (Frame H L)} {e : Option (L × Cohort.Event H Side)}

/-- Whoever passes may pass. -/
theorem Sim.canPass (hS : Sim C B tr s) {l : L} {c : Side}
    (hc : (s.memory.locks l).tail (other c) = none ∨ (s.memory.locks l).victim ≠ some c) :
    (cohorts B tr l).pet.CanPass c := by
  rcases hc with ht | hv
  · exact Or.inl ((hS.tail_eq_none_iff l _).1 ht)
  · exact Or.inr (hS.victim l ▸ hv)

/-- An event is one of the handler with its lock and class, and the cohorts there can make it. -/
theorem Sim.enabled (hS : Sim C B tr s) (hf : s.thread h = .busy f)
    (hx : exec C B s.memory h f b = some (m, t, e)) :
    e = none ∨ ∃ x, e = some (f.lock, x) ∧ x.side = C.side h f.lock ∧ x.member = h ∧
      (cohorts B tr f.lock).Enabled x := by
  obtain ⟨hprev, hnext, hloc, hrem⟩ := hS.holds h f hf
  -- what the first handler of a line knows
  have hfirst := hS.first hf
  unfold exec at hx
  cases hpc : f.pc <;>
    simp only [hpc, Option.some.injEq, Prod.mk.injEq, Option.map_eq_some_iff] at hx
  case exchangeTail =>
    split at hx <;> simp only [Option.some.injEq, Prod.mk.injEq] at hx <;> obtain ⟨-, -, rfl⟩ := hx
    · refine Or.inr ⟨_, rfl, rfl, rfl, fun c hmem => ?_⟩
      obtain ⟨f', hf', -, -, hq⟩ := hS.busy_of_mem hmem
      obtain rfl : f = f' := by simpa [hf] using hf'
      simp [Frame.place, hpc, Handover.Place.queue] at hq
    · exact Or.inl rfl
  case casTail =>
    split at hx <;> simp only [Option.some.injEq, Prod.mk.injEq] at hx <;> obtain ⟨-, -, rfl⟩ := hx
    · obtain ⟨hhd, hH⟩ := hfirst (by simp [Frame.place, hpc, Handover.Place.queue])
        (by simp [Frame.place, hpc, Handover.Place.Behind])
      simp only [Head, hpc] at hH
      exact Or.inr ⟨_, rfl, rfl, rfl, hhd, hH.1⟩
    · exact Or.inl rfl
  case storeNextBudget =>
    obtain ⟨n, hn, -, -, rfl⟩ := hx
    obtain ⟨hhd, hH⟩ := hfirst (by simp [Frame.place, hpc, hn, Handover.Place.queue])
      (by simp [Frame.place, hpc, hn, Handover.Place.Behind])
    simp only [Head, hpc] at hH
    exact Or.inr ⟨_, rfl, rfl, rfl, hhd, hH.1⟩
  case storePrevNext =>
    obtain ⟨p, -, -, -, rfl⟩ := hx
    exact Or.inl rfl
  case storeVictim =>
    obtain ⟨-, -, rfl⟩ := hx
    obtain ⟨hhd, hH⟩ := hfirst (by simp [Frame.place, hpc, Handover.Place.queue])
      (by simp [Frame.place, hpc, Handover.Place.Behind])
    simp only [Head, hpc] at hH
    exact Or.inr ⟨_, rfl, rfl, rfl, hhd, hH.2.1, hH.2.2.1⟩
  case acquired =>
    obtain ⟨-, -, rfl⟩ := hx
    obtain ⟨hhd, hH⟩ := hfirst (by simp [Frame.place, hpc, Handover.Place.queue])
      (by simp [Frame.place, hpc, Handover.Place.Behind])
    simp only [Head, hpc] at hH
    exact Or.inr ⟨_, rfl, rfl, rfl, hhd, hH.2.1, hH.1⟩
  case loadTail | loadVictim =>
    have hside := hloc (by simp [hpc])
    obtain ⟨hhd, hH⟩ := hfirst (by simp [Frame.place, hpc, Handover.Place.queue])
      (by simp [Frame.place, hpc, Handover.Place.Behind])
    simp only [Head, hpc] at hH
    split at hx <;> simp only [Option.some.injEq, Prod.mk.injEq] at hx <;> obtain ⟨-, -, rfl⟩ := hx
    · rename_i hlook
      refine Or.inr ⟨_, rfl, rfl, rfl, hhd, hH.2.1, hS.canPass ?_⟩
      rw [hside]
      first | exact Or.inl (Option.isNone_iff_eq_none.1 hlook) | exact Or.inr hlook
    · exact Or.inl rfl
  case readPair =>
    have hside := hrem (by simp [hpc])
    obtain ⟨hhd, hH⟩ := hfirst (by simp [Frame.place, hpc, Handover.Place.queue])
      (by simp [Frame.place, hpc, Handover.Place.Behind])
    simp only [Head, hpc] at hH
    split at hx <;> simp only [Option.some.injEq, Prod.mk.injEq] at hx <;> obtain ⟨-, -, rfl⟩ := hx
    all_goals
      split
      · rename_i hlook
        refine Or.inr ⟨_, rfl, rfl, rfl, hhd, hH.2.1, hS.canPass ?_⟩
        rw [hside]
        first | exact Or.inl (Option.isNone_iff_eq_none.1 hlook) | exact Or.inr hlook
      · exact Or.inl rfl
  case readTail =>
    have hside := hrem (by simp [hpc])
    obtain ⟨hhd, hH⟩ := hfirst (by simp [Frame.place, hpc, Handover.Place.queue])
      (by simp [Frame.place, hpc, Handover.Place.Behind])
    simp only [Head, hpc] at hH
    split at hx <;> simp only [Option.some.injEq, Prod.mk.injEq] at hx <;> obtain ⟨-, -, rfl⟩ := hx
    · rename_i hlets
      split
      · exact Or.inl rfl
      · rename_i hv
        rw [not_not] at hv
        simp only [hv, ne_eq, not_true_eq_false, if_false] at hH
        refine Or.inr ⟨_, rfl, rfl, rfl, hhd, hH.2.2, hS.canPass (Or.inl ?_)⟩
        rw [hside]
        simpa [lets, hv, Words.tail] using hlets
    · exact Or.inl rfl
  case readVictim =>
    have hside := hrem (by simp [hpc])
    obtain ⟨hhd, hH⟩ := hfirst (by simp [Frame.place, hpc, Handover.Place.queue])
      (by simp [Frame.place, hpc, Handover.Place.Behind])
    simp only [Head, hpc] at hH
    split at hx <;> simp only [Option.some.injEq, Prod.mk.injEq] at hx <;> obtain ⟨-, -, rfl⟩ := hx
    · rename_i hlets
      split
      · exact Or.inl rfl
      · rename_i ht
        rw [if_neg ht] at hH
        refine Or.inr ⟨_, rfl, rfl, rfl, hhd, hH.2.2, hS.canPass (Or.inr ?_)⟩
        rw [hside]
        simpa [lets, ht] using hlets
    · exact Or.inl rfl
  all_goals
    obtain ⟨-, -, rfl⟩ := hx
    exact Or.inl rfl

/-- The store of `victim` is the request, and no other access stores there. -/
theorem exec_victim (hx : exec C B s.memory h f b = some (m, t, e)) :
    (∀ l, (m.locks l).victim = (s.memory.locks l).victim) ∧
        (∀ l c g, e ≠ some (l, .request c g)) ∨
      (∀ l, (m.locks l).victim =
          if l = f.lock then some (C.side h f.lock) else (s.memory.locks l).victim) ∧
        e = some (f.lock, .request (C.side h f.lock) h) := by
  unfold exec at hx
  cases hpc : f.pc <;>
    simp only [hpc, Option.some.injEq, Prod.mk.injEq, Option.map_eq_some_iff] at hx
  case storeVictim =>
    obtain ⟨rfl, -, rfl⟩ := hx
    refine Or.inr ⟨fun l => ?_, rfl⟩
    by_cases hl : l = f.lock
    · subst hl
      simp [Memory.setLock]
    · simp [Memory.setLock, hl]
  case exchangeTail | casTail =>
    split at hx <;> simp only [Option.some.injEq, Prod.mk.injEq] at hx <;> obtain ⟨rfl, -, rfl⟩ := hx
    · refine Or.inl ⟨fun l => ?_, by simp⟩
      by_cases hl : l = f.lock
      · subst hl
        simp [Memory.setLock]
      · simp [Memory.setLock, hl]
    · exact Or.inl ⟨fun _ => rfl, by simp⟩
  case storePrevNext =>
    obtain ⟨p, -, rfl, -, rfl⟩ := hx
    exact Or.inl ⟨fun _ => rfl, by simp⟩
  case storeNextBudget =>
    obtain ⟨p, -, rfl, -, rfl⟩ := hx
    exact Or.inl ⟨fun _ => rfl, by simp⟩
  case loadTail | loadVictim | readPair | readTail | readVictim =>
    left
    split at hx <;> simp only [Option.some.injEq, Prod.mk.injEq] at hx <;> obtain ⟨rfl, -, rfl⟩ := hx <;>
      refine ⟨fun _ => rfl, ?_⟩ <;> try split <;> simp
    all_goals simp
  all_goals
    obtain ⟨rfl, -, rfl⟩ := hx
    exact Or.inl ⟨fun _ => rfl, by simp⟩

/-- At `loadNext` there is a successor. -/
theorem Sim.next_isSome (hS : Sim C B tr s) (hf : s.thread h = .busy f) (hpc : f.pc = .loadNext) :
    (s.memory.descriptor (C.side h f.lock) h).next.isSome = true := by
  obtain ⟨hhd, -⟩ := hS.first hf (by simp [Frame.place, hpc, Handover.Place.queue])
    (by simp [Frame.place, hpc, Handover.Place.Behind])
  have hfr := (hS.queue _).front f.lock h hhd
  simp only [Handover.Front, place_of_busy (C := C) hf rfl, Frame.place, hpc] at hfr
  exact Option.isSome_iff_ne_none.2 hfr

theorem Frame.Holds.exec {f' : Frame H L} (hH : f.Holds (C.side h f.lock))
    (hnext : f.pc = .loadNext →
      (s.memory.descriptor (C.side h f.lock) h).next.isSome = true)
    (hx : exec C B s.memory h f b = some (m, .busy f', e)) : f'.Holds (C.side h f.lock) := by
  obtain ⟨hprev, hnx, hloc, hrem⟩ := hH
  unfold ALock.exec at hx
  cases hpc : f.pc <;>
    simp only [hpc, Option.some.injEq, Prod.mk.injEq, Option.map_eq_some_iff, reduceCtorEq, false_and,
      and_false, Thread.busy.injEq] at hx
  case storePrevNext =>
    obtain ⟨p, hp, -, rfl, -⟩ := hx
    simp [Holds, hp]
  case storeNextBudget =>
    obtain ⟨n, hn, -, hf', -⟩ := hx
    split at hf' <;> cases hf'
    simp [Holds]
  case exchangeTail =>
    split at hx <;> simp only [Option.some.injEq, Prod.mk.injEq, Thread.busy.injEq] at hx <;>
      obtain ⟨-, rfl, -⟩ := hx
    · cases ht : (s.memory.locks f.lock).tail (C.side h f.lock) <;> simp [Holds]
    · simp [Holds]
  case casTail =>
    split at hx <;> simp only [Option.some.injEq, Prod.mk.injEq, Thread.busy.injEq, reduceCtorEq,
      false_and, and_false] at hx
    obtain ⟨-, rfl, -⟩ := hx
    simp [Holds]
  case loadTail | loadVictim =>
    have := hloc (by simp [hpc])
    split at hx <;> simp only [Option.some.injEq, Prod.mk.injEq, Thread.busy.injEq] at hx <;>
      obtain ⟨-, rfl, -⟩ := hx
    · cases hp : f.prev <;> simp [Holds, Frame.won, hp]
    · simp [Holds, this]
  case readPair | readTail | readVictim =>
    have := hrem (by simp [hpc])
    split at hx <;> simp only [Option.some.injEq, Prod.mk.injEq, Thread.busy.injEq] at hx <;>
      obtain ⟨-, rfl, -⟩ := hx <;>
      cases hp : f.prev <;> simp [Holds, Frame.won, this]
  all_goals obtain ⟨-, rfl, -⟩ := hx
  case awaitBudget =>
    have := hprev (by simp [hpc])
    split_ifs <;> simp [Holds, this]
  case testBudget =>
    split_ifs
    · cases hc : C.side h f.lock <;> simp [Holds, Frame.petersons, Pc.petersons]
    · simp [Holds]
  case storeBudget =>
    split_ifs
    · simp [Holds]
    · cases hc : C.side h f.lock <;> simp [Holds, Frame.petersons, Pc.petersons]
  case loadVictimSwap =>
    have := hrem (by simp [hpc])
    split_ifs <;> simp [Holds, this]
  case storeVictim => cases hc : C.side h f.lock <;> simp [Holds, Pc.loop]
  case critical => cases hc : C.side h f.lock <;> simp [Holds, Pc.unlock]
  case testNext | awaitNext =>
    split_ifs <;> simp [Holds]
  case loadNext => simpa [Holds] using hnext hpc
  case loadBudget => simpa [Holds] using hnx (by simp [hpc])
  all_goals simp [Holds]

/-- The lines move as the queues do. -/
theorem cohorts_line (tr : List (L × Cohort.Event H Side)) (e : Option (L × Cohort.Event H Side))
    (c : Side) :
    (fun l => (cohorts B (tr ++ e.toList) l).line c) =
      Handover.advance (fun l => (cohorts B tr l).line c) (e.bind (seen c)) := by
  funext l
  cases e with
  | none => simp
  | some x =>
    obtain ⟨l', x⟩ := x
    rw [Option.toList_some, cohorts_concat]
    cases x with
    | arrive c' h | leave c' h =>
      by_cases hc : c' = c <;> by_cases hl : l' = l
      · subst hc hl
        simp [seen, Handover.advance, Handover.Event.apply, Cohort.State.apply]
      · subst hc
        simp [seen, Handover.advance, Handover.Event.apply, hl, Ne.symm hl]
      · subst hl
        simp [seen, Handover.advance, hc, Cohort.State.apply, Ne.symm hc]
      · simp [seen, Handover.advance, hc, hl]
    | request c' h | pass c' h | enter c' h =>
      by_cases hl : l' = l
      · subst hl
        by_cases hc : c' = c <;> simp [seen, Handover.advance, Handover.Event.apply, hc, Cohort.State.apply]
      · by_cases hc : c' = c <;> simp [seen, Handover.advance, Handover.Event.apply, hc, hl]

/-- What an access does to the budgets. -/
theorem exec_budget (hx : exec C B s.memory h f b = some (m, t, e)) (c : Side) (g : H) :
    (m.descriptor c g).budget = (s.memory.descriptor c g).budget ∨
      c = C.side h f.lock ∧
        (g = h ∧ ((m.descriptor c g).budget = -1 ∨ (m.descriptor c g).budget = B.budget c) ∨
          f.pc = .storeNextBudget ∧ f.next = some g ∧ (m.descriptor c g).budget = f.budget - 1) := by
  unfold exec at hx
  cases hpc : f.pc <;>
    simp only [hpc, Option.some.injEq, Prod.mk.injEq, Option.map_eq_some_iff] at hx
  case exchangeTail | casTail | loadTail | loadVictim | readPair | readTail | readVictim =>
    left
    split at hx <;> simp only [Option.some.injEq, Prod.mk.injEq] at hx <;> obtain ⟨rfl, -, -⟩ := hx <;>
      rfl
  case storeNextBudget =>
    obtain ⟨n, hn, rfl, -, -⟩ := hx
    by_cases hcn : c = C.side h f.lock ∧ g = n
    · obtain ⟨rfl, rfl⟩ := hcn
      exact Or.inr ⟨rfl, Or.inr ⟨rfl, hn, by simp [Memory.setDescriptor]⟩⟩
    · exact Or.inl (by simp [Memory.setDescriptor, hcn])
  case storePrevNext =>
    obtain ⟨p, -, rfl, -, -⟩ := hx
    left
    by_cases hcp : c = C.side h f.lock ∧ g = p
    · obtain ⟨rfl, rfl⟩ := hcp
      simp [Memory.setDescriptor]
    · simp [Memory.setDescriptor, hcp]
  all_goals
    obtain ⟨rfl, -, -⟩ := hx
    try exact Or.inl rfl
  all_goals
    by_cases hch : c = C.side h f.lock ∧ g = h
    · obtain ⟨rfl, rfl⟩ := hch
      simp [Memory.setDescriptor]
    · exact Or.inl (by simp [Memory.setDescriptor, hch])

/-- The first handler of a line makes an access and stays there. -/
theorem Sim.head_own {f' : Frame H L} (hS : Sim C B tr s) (hf : s.thread h = .busy f)
    (hx : exec C B s.memory h f b = some (m, .busy f', e)) (hq : f'.place.queue = some f.lock)
    (hhd : ((cohorts B tr f.lock).line (C.side h f.lock)).head? = some h) :
    Head (B.budget (C.side h f.lock)) f' (m.descriptor (C.side h f.lock) h).budget
      ((cohorts B (tr ++ e.toList) f.lock).pet.stage (C.side h f.lock))
      ((cohorts B (tr ++ e.toList) f.lock).left (C.side h f.lock))
      ((cohorts B (tr ++ e.toList) f.lock).inside (C.side h f.lock)) := by
  have hH := hS.head _ _ _ _ hhd hf
  obtain ⟨hprev, hnext, hloc, hrem⟩ := hS.holds h f hf
  unfold exec at hx
  cases hpc : f.pc <;>
    simp only [hpc, Option.some.injEq, Prod.mk.injEq, Option.map_eq_some_iff, Thread.busy.injEq] at hx <;>
    simp only [Head, hpc] at hH
  case storeNextBudget =>
    obtain ⟨n, -, -, hf', -⟩ := hx
    split at hf' <;> cases hf'
    simp [Frame.place, Handover.Place.queue] at hq
  case casTail =>
    split at hx <;> simp only [Option.some.injEq, Prod.mk.injEq, Thread.busy.injEq, reduceCtorEq,
      false_and, and_false] at hx
    obtain ⟨rfl, rfl, rfl⟩ := hx
    simpa [Head] using hH
  case loadTail | loadVictim =>
    split at hx <;> simp only [Option.some.injEq, Prod.mk.injEq, Thread.busy.injEq] at hx <;>
      obtain ⟨rfl, rfl, rfl⟩ := hx
    · cases hp : f.prev <;>
        simp_all [Head, Frame.won, cohorts_concat, Cohort.State.apply]
    · simpa [Head] using hH
  case readPair =>
    obtain ⟨hin, hst, hb⟩ := hH
    split at hx <;> simp only [Option.some.injEq, Prod.mk.injEq, Thread.busy.injEq] at hx <;>
      obtain ⟨rfl, rfl, rfl⟩ := hx <;> split_ifs <;>
      simp_all [Head, cohorts_concat, Cohort.State.apply]
  case readTail | readVictim =>
    obtain ⟨hin, hb, hst⟩ := hH
    split at hx <;> simp only [Option.some.injEq, Prod.mk.injEq, Thread.busy.injEq] at hx <;>
      obtain ⟨rfl, rfl, rfl⟩ := hx
    · cases hp : f.prev <;> split_ifs <;>
        simp_all [Head, Frame.won, lets, cohorts_concat, Cohort.State.apply]
    · simp_all [Head, lets]
  all_goals obtain ⟨rfl, rfl, rfl⟩ := hx
  case awaitBudget =>
    obtain ⟨hin, hb, hst⟩ := hH
    rw [Option.toList_none, List.append_nil]
    split_ifs with h0
    · exact ⟨hin, hb, hst⟩
    · exact ⟨hin, hb, by omega, hst⟩
  case testBudget =>
    obtain ⟨p, hp⟩ := Option.isSome_iff_exists.1 (hprev (by simp [hpc]))
    obtain ⟨hin, hb, hle, hst⟩ := hH
    split_ifs with h0
    · cases hc : C.side h f.lock <;> simp_all [Head, Frame.petersons, Pc.petersons]
    · have hpos : 0 < (cohorts B tr f.lock).left (C.side h f.lock) := by omega
      simp_all [Head]
  case storeBudget =>
    obtain ⟨hin, hst⟩ := hH
    cases hp : f.prev with
    | none => cases hc : C.side h f.lock <;> simp_all [Head, Frame.petersons, Pc.petersons, Memory.setDescriptor]
    | some p => simp_all [Head, Memory.setDescriptor]
  case loadVictimSwap =>
    split_ifs <;> simpa [Head, hpc] using hH
  case storeVictim =>
    cases hc : C.side h f.lock <;>
      simp_all [Head, Pc.loop, cohorts_concat, Cohort.State.apply, Memory.setLock]
  case acquired => simp_all [Head, cohorts_concat, Cohort.State.apply]
  case critical => cases hc : C.side h f.lock <;> simp_all [Head, Pc.unlock]
  case testNext | awaitNext => split_ifs <;> simp_all [Head]
  case loadNext => simp_all [Head]
  case loadBudget => simp_all [Head]

/-- Only the exchange of the tail is an arrival. -/
theorem pc_of_arrive {l : L} {c : Side}
    (hx : exec C B s.memory h f b = some (m, t, some (l, .arrive c g))) : f.pc = .exchangeTail := by
  unfold exec at hx
  cases hpc : f.pc <;> simp only [hpc, Option.map_eq_some_iff] at hx ⊢ <;> grind

/-- Only the store of `victim` is a request. -/
theorem pc_of_request {l : L} {c : Side}
    (hx : exec C B s.memory h f b = some (m, t, some (l, .request c g))) : f.pc = .storeVictim := by
  unfold exec at hx
  cases hpc : f.pc <;> simp only [hpc, Option.map_eq_some_iff] at hx ⊢ <;> grind

/-- Only the swap of the tail to null and the handover are departures. -/
theorem pc_of_leave {l : L} {c : Side}
    (hx : exec C B s.memory h f b = some (m, t, some (l, .leave c g))) :
    f.pc = .casTail ∨ f.pc = .storeNextBudget := by
  unfold exec at hx
  cases hpc : f.pc <;> simp only [hpc, Option.map_eq_some_iff] at hx ⊢ <;> grind

/-- The first handler of a line is there when its tail was null. -/
theorem Sim.head_arrive {f' : Frame H L} (hS : Sim C B tr s)
    (hx : exec C B s.memory h f b = some (m, .busy f', some (f.lock, .arrive (C.side h f.lock) h)))
    (hnil : (cohorts B tr f.lock).line (C.side h f.lock) = []) :
    Head (B.budget (C.side h f.lock)) f' (m.descriptor (C.side h f.lock) h).budget .flagged 0
      ((cohorts B tr f.lock).inside (C.side h f.lock)) := by
  have hI := hS.inv f.lock
  have htail : (s.memory.locks f.lock).tail (C.side h f.lock) = none := by
    rw [hS.tail_eq_none_iff, hI.idle_iff, hnil]
  have hin : (cohorts B tr f.lock).inside (C.side h f.lock) = false := by
    by_contra hin
    have := hI.inside _ (by simpa using hin)
    simp [(hI.idle_iff _).2 hnil] at this
  simp only [exec, pc_of_arrive hx] at hx
  split at hx <;> simp only [Option.some.injEq, Prod.mk.injEq, Thread.busy.injEq, reduceCtorEq,
    and_false] at hx
  obtain ⟨-, rfl, -⟩ := hx
  simp [Head, htail, hin]

omit [DecidableEq H] [DecidableEq L] in
/-- A handler that has linked itself waits for its budget. -/
theorem pc_of_linked {l : L} {c : Side} {p : H} (hg : s.thread g = .busy f)
    (hp : (queues C c s).place g = .linked l p) : f.pc = .awaitBudget := by
  simp only [queues, placeOf, hg] at hp
  split_ifs at hp
  cases hpc : f.pc <;> cases hp' : f.prev <;> cases hn : f.next <;> simp [Frame.place, hpc, hp', hn] at hp ⊢

/-- Who leaves hands over what the next one in the line has to know. -/
theorem Sim.head_leave {f' : Frame H L} (hS : Sim C B tr s) (hf : s.thread h = .busy f)
    (hx : exec C B s.memory h f b = some (m, t, some (f.lock, .leave (C.side h f.lock) h)))
    (hhd : ((cohorts B tr f.lock).line (C.side h f.lock)).tail.head? = some g)
    (hg : s.thread g = .busy f') :
    let y := (cohorts B tr f.lock).apply B.budget (.leave (C.side h f.lock) h)
    Head (B.budget (C.side h f.lock)) f' (m.descriptor (C.side h f.lock) g).budget
      (y.pet.stage (C.side h f.lock)) (y.left (C.side h f.lock)) (y.inside (C.side h f.lock)) := by
  have hq := hS.queue (C.side h f.lock)
  have hpl := place_of_busy (C := C) hf rfl
  have hpass := (hS.inv f.lock).inside (C.side h f.lock)
  obtain hpc | hpc := pc_of_leave hx
  · -- nobody is behind
    simp only [exec, hpc] at hx
    split at hx <;> simp only [Option.some.injEq, Prod.mk.injEq, reduceCtorEq, and_false] at hx
    rename_i ht
    have hl := hq.swap (h := h) (k := f.lock) (by rw [hpl]; simp [Frame.place, hpc]) ht
    simp [hl] at hhd
  · simp only [exec, hpc, Option.map_eq_some_iff, Prod.mk.injEq] at hx
    obtain ⟨n, hn, rfl, -, -⟩ := hx
    have hgr : (queues C (C.side h f.lock) s).place h = .granting f.lock n := by
      rw [hpl]
      simp [Frame.place, hpc, hn]
    obtain ⟨-, hH⟩ := hS.first hf (by simp [Frame.place, hpc, hn, Handover.Place.queue])
      (by simp [Frame.place, hpc, hn, Handover.Place.Behind])
    simp only [Head, hpc] at hH
    obtain ⟨l, hl, hplace, -⟩ := hq.granting hgr
    obtain rfl : n = g := by simpa [hl] using hhd
    simp [Head, pc_of_linked hg hplace, Cohort.State.apply, Cohort.release_stage, hl, hpass hH.1, hH.2,
      Memory.setDescriptor]

/-- Otherwise the budgets of the others in the lines stay. -/
theorem Sim.budget_eq {l : L} {c : Side} (hS : Sim C B tr s) (hf : s.thread h = .busy f)
    (hx : exec C B s.memory h f b = some (m, t, e)) (hg : g ≠ h) (hmem : g ∈ (cohorts B tr l).line c)
    (hl : l ≠ f.lock ∨ e ≠ some (f.lock, .leave c h)) :
    (m.descriptor c g).budget = (s.memory.descriptor c g).budget := by
  obtain hb | ⟨rfl, ⟨hgh, -⟩ | ⟨hpc, hn, -⟩⟩ := exec_budget hx c g
  · exact hb
  · exact absurd hgh hg
  · simp only [exec, hpc, hn, Option.map_some, Option.some.injEq, Prod.mk.injEq] at hx
    obtain ⟨-, -, rfl⟩ := hx
    obtain hl | hl := hl
    · have hgr : (queues C (C.side h f.lock) s).place h = .granting f.lock g := by
        rw [place_of_busy hf rfl]
        simp [Frame.place, hpc, hn]
      obtain ⟨l', hl', -⟩ := (hS.queue _).granting hgr
      exact absurd ((hS.queue _).queue_unique (by simp [hl']) hmem) hl
    · exact absurd rfl hl

/-- What the access of another handler leaves to the first one of a line. -/
theorem Sim.head_other {f' : Frame H L} {l : L} {c : Side} (hS : Sim C B tr s)
    (hf : s.thread h = .busy f) (hx : exec C B s.memory h f b = some (m, t, e)) (hg : g ≠ h)
    (hg' : s.thread g = .busy f') (hhd : ((cohorts B (tr ++ e.toList) l).line c).head? = some g) :
    Head (B.budget c) f' (m.descriptor c g).budget ((cohorts B (tr ++ e.toList) l).pet.stage c)
      ((cohorts B (tr ++ e.toList) l).left c) ((cohorts B (tr ++ e.toList) l).inside c) := by
  -- nothing changes in the line of `g`
  have hsame : ∀ y : Cohort.State H Side, y.line c = (cohorts B tr l).line c →
      y.pet.stage c = (cohorts B tr l).pet.stage c → y.left c = (cohorts B tr l).left c →
      y.inside c = (cohorts B tr l).inside c → (y.line c).head? = some g →
      (l ≠ f.lock ∨ e ≠ some (f.lock, .leave c h)) →
      Head (B.budget c) f' (m.descriptor c g).budget (y.pet.stage c) (y.left c) (y.inside c) := by
    intro y h1 h2 h3 h4 hhd hl
    rw [h1] at hhd
    rw [h2, h3, h4, hS.budget_eq hf hx hg (List.mem_of_head? hhd) hl]
    exact hS.head l c g f' hhd hg'
  obtain rfl | ⟨x, rfl, hside, hmem, hen⟩ := hS.enabled hf hx
  · rw [Option.toList_none, List.append_nil] at hhd ⊢
    exact hsame _ rfl rfl rfl rfl hhd (Or.inr (by simp))
  rw [Option.toList_some, cohorts_concat] at hhd ⊢
  by_cases hl : f.lock = l
  · subst hl
    rw [if_pos rfl] at hhd ⊢
    by_cases hc : c = x.side
    · subst hc
      cases x with
      | arrive c h' =>
        obtain rfl : h' = h := hmem
        cases hnil : (cohorts B tr f.lock).line c with
        | nil => simp [Cohort.State.apply, Cohort.Event.side, hnil, Ne.symm hg] at hhd
        | cons g' l =>
          have hhd' : ((cohorts B tr f.lock).line c).head? = some g := by
            simpa [Cohort.State.apply, Cohort.Event.side, hnil] using hhd
          have key := hS.head _ _ _ _ hhd' hg'
          rw [← hS.budget_eq hf hx hg (List.mem_of_head? hhd') (Or.inr (by simp))] at key
          simpa [Cohort.State.apply, Cohort.Event.side, hnil] using key
      | leave c h' =>
        obtain rfl : h' = h := hmem
        obtain rfl : c = C.side h' f.lock := hside
        refine hS.head_leave hf hx ?_ hg'
        simpa [Cohort.State.apply, Cohort.Event.side] using hhd
      -- the others are events of the first one of the line
      | request c h' | pass c h' | enter c h' =>
        obtain rfl : h' = h := hmem
        exact absurd (Option.some.inj (hhd.symm.trans hen.1)) hg
    · obtain ⟨h1, h2, h3, h4⟩ := Cohort.apply_of_ne (B := B.budget) (s := cohorts B tr f.lock) hc
      refine hsame _ h1 h2 h3 h4 hhd (Or.inr ?_)
      rintro hx
      obtain rfl : x = .leave c h := by simpa using hx
      exact hc rfl
  · rw [if_neg hl] at hhd ⊢
    exact hsame _ rfl rfl rfl rfl hhd (Or.inl (Ne.symm hl))

/-- What an access leaves to its handler if that is the first one of a line then. -/
theorem Sim.head_self {f' : Frame H L} (hS : Sim C B tr s) (hf : s.thread h = .busy f)
    (hx : exec C B s.memory h f b = some (m, .busy f', e)) (hq : f'.place.queue = some f.lock)
    (hhd : ((cohorts B (tr ++ e.toList) f.lock).line (C.side h f.lock)).head? = some h) :
    Head (B.budget (C.side h f.lock)) f' (m.descriptor (C.side h f.lock) h).budget
      ((cohorts B (tr ++ e.toList) f.lock).pet.stage (C.side h f.lock))
      ((cohorts B (tr ++ e.toList) f.lock).left (C.side h f.lock))
      ((cohorts B (tr ++ e.toList) f.lock).inside (C.side h f.lock)) := by
  by_cases hold : ((cohorts B tr f.lock).line (C.side h f.lock)).head? = some h
  · exact hS.head_own hf hx hq hold
  -- it has come right now, and was the first one to come
  obtain rfl | ⟨x, rfl, hside, hmem, hen⟩ := hS.enabled hf hx
  · rw [Option.toList_none, List.append_nil] at hhd
    exact absurd hhd hold
  cases x with
  | arrive c h' =>
    obtain rfl : h' = h := hmem
    obtain rfl : c = C.side h' f.lock := hside
    have hnil : (cohorts B tr f.lock).line (C.side h' f.lock) = [] := by
      cases hl : (cohorts B tr f.lock).line (C.side h' f.lock) with
      | nil => rfl
      | cons g l =>
        rw [hl] at hold
        simp [cohorts_concat, Cohort.State.apply, hl] at hhd hold
        exact absurd hhd hold
    have key := hS.head_arrive hx hnil
    simpa [cohorts_concat, Cohort.State.apply, hnil] using key
  | request c h' | pass c h' | enter c h' | leave c h' =>
    obtain rfl : h' = h := hmem
    obtain rfl : c = C.side h' f.lock := hside
    exact absurd hen.1 hold

/-- An access keeps the relation. -/
theorem Sim.exec (hS : Sim C B tr s) (hf : s.thread h = .busy f)
    (hx : exec C B s.memory h f b = some (m, t, e)) :
    Sim C B (tr ++ e.toList) ⟨m, Function.update s.thread h t⟩ := by
  have hen := hS.enabled hf hx
  have hqueue : ∀ c, Handover.Inv (queues C c ⟨m, Function.update s.thread h t⟩)
      fun l => (cohorts B (tr ++ e.toList) l).line c := by
    intro c
    rw [cohorts_line]
    by_cases hc : C.side h f.lock = c
    · obtain hs | ⟨he, hq⟩ := exec_moves hf hx hc
      · exact hs.inv (hS.queue c)
      · rw [he, hq]
        exact hS.queue c
    · obtain ⟨he, hq⟩ := exec_other hf hx hc
      rw [he, hq]
      exact hS.queue c
  refine ⟨fun l => ?_, hqueue, fun l => ?_, fun g f' hg => ?_, fun l c g f' hhd hg => ?_⟩
  · obtain rfl | ⟨x, rfl, -, -, hx⟩ := hen
    · simpa using hS.run l
    · rw [Option.toList_some, cohorts_concat, onLock_concat]
      by_cases hl : f.lock = l
      · subst hl
        rw [if_pos rfl, if_pos rfl]
        exact (hS.run _).next ⟨x, rfl, hx, rfl⟩
      · rw [if_neg hl, if_neg hl]
        exact hS.run l
  · obtain ⟨hv, hno⟩ | ⟨hv, rfl⟩ := exec_victim hx
    · rw [hv, hS.victim]
      obtain rfl | ⟨x, rfl, -⟩ := hen
      · simp
      · rw [Option.toList_some, cohorts_concat]
        split_ifs with hl
        · rw [Cohort.apply_victim]
          rintro c g rfl
          exact hno _ c g rfl
        · rfl
    · rw [hv, hS.victim, Option.toList_some, cohorts_concat]
      by_cases hl : f.lock = l
      · simp [hl, Cohort.State.apply]
      · simp [hl, Ne.symm hl]
  · by_cases hgh : g = h
    · subst hgh
      simp only [Function.update_self] at hg
      subst hg
      rw [exec_lock hx]
      exact (hS.holds g f hf).exec (hS.next_isSome hf) hx
    · exact hS.holds g f' ((Function.update_of_ne hgh _ _).symm.trans hg)
  · by_cases hgh : g = h
    · subst hgh
      simp only [Function.update_self] at hg
      subst hg
      have hq := ((hqueue c).mem_iff l g).1 (List.mem_of_head? hhd)
      simp only [queues, Function.update_self, placeOf, exec_lock hx] at hq
      split_ifs at hq with hc
      · obtain rfl : f.lock = l := (exec_lock hx).symm.trans (Frame.queue_place hq)
        subst hc
        exact hS.head_self hf hx hq hhd
      · cases hq
    · exact hS.head_other hf hx hgh ((Function.update_of_ne hgh _ _).symm.trans hg) hhd

/-- A step keeps the relation. -/
theorem Sim.step {s' : State H L} {a : Act L} (hS : Sim C B tr s)
    (hs : Machine.step Frame.start (ALock.exec C B) s h a = some (s', e)) :
    Sim C B (tr ++ e.toList) s' := by
  obtain ⟨l, -, hidle, rfl, rfl⟩ | ⟨b, f, m, t, -, hf, hx, rfl⟩ := Machine.step_cases hs
  · rw [Option.toList_none, List.append_nil]
    -- a handler outside is in no line
    have hout : ∀ l c, h ∉ (cohorts B tr l).line c := by
      intro l c hmem
      obtain ⟨f, hf, -⟩ := hS.busy_of_mem hmem
      simp [hidle] at hf
    refine ⟨hS.run, fun c => ?_, hS.victim, fun g f' hg => ?_, fun l' c g f' hhd hg => ?_⟩
    · obtain hm | ⟨-, hq⟩ := step_moves hs c
      · exact hm.inv (hS.queue c)
      · rw [hq]
        exact hS.queue c
    · by_cases hgh : g = h
      · subst hgh
        simp only [Function.update_self, Thread.busy.injEq] at hg
        subst hg
        simp [Frame.Holds, Frame.start]
      · exact hS.holds g f' ((Function.update_of_ne hgh _ _).symm.trans hg)
    · have hgh : g ≠ h := by
        rintro rfl
        exact hout l' c (List.mem_of_head? hhd)
      exact hS.head l' c g f' hhd ((Function.update_of_ne hgh _ _).symm.trans hg)
  · exact hS.exec hf hx

end Step

/-- In every run the events say what the handlers, the queues and the section are doing. -/
theorem sim_of_run {tr : List (L × Cohort.Event H Side)} {s : State H L}
    (hr : (system C B).Run tr s) : Sim C B tr s := by
  refine hr.invariant (I := Sim C B) (fun s hs => ?_) ?_
  · have hnil : ∀ l : L, cohorts B [] l = Cohort.State.initial H Side := fun _ => rfl
    refine ⟨fun l => .start rfl, fun c => ?_, fun l => ?_, fun h f hf => ?_, fun l c h f hhd => ?_⟩
    · have hinit : (queues C c s).Initial := by
        refine ⟨fun l => ?_, fun h => ?_⟩
        · cases c <;> simp [queues, hs.1 l, Words.tail]
        · simp [queues, placeOf, hs.2 h]
      exact Handover.inv_initial hinit
    · simp [hs.1 l, hnil, Cohort.State.initial, Peterson.State.initial]
    · simp [hs.2 h] at hf
    · cases hhd
  · rintro tr s e s' - hS ⟨h, a, hs⟩
    exact hS.step hs

end ALock

end Farlock
