import Farlock.ThirdParty.ALock.Model

/-!
# The queues of ALock

The handlers of one class form queues of the kind of `Farlock.Lib.Handover`: the word that is handed
over is the budget, and a negative budget is none.

* `queues`: a state as a state of `Handover`, for each class;
* `step_moves`: every access is a step of the queues of the handler's class, with the same event, or
  changes nothing there, and it changes nothing in the queues of the other class.
-/

namespace Farlock

namespace ALock

variable {H L : Type}

/-- The place of a handler in its queue. -/
def Frame.place (f : Frame H L) : Handover.Place H L :=
  match f.pc with
  | .resetBudget => .entering f.lock false
  | .resetNext => .entering f.lock true
  | .exchangeTail => .ready f.lock true
  | .storePrevNext => f.prev.elim (.front f.lock) fun p => .linking f.lock p true
  | .awaitBudget => f.prev.elim (.front f.lock) (.linked f.lock)
  | .critical | .testNext => .inside f.lock
  | .casTail => .leaving f.lock
  | .awaitNext => .closing f.lock
  | .loadNext => .loading f.lock
  | .loadBudget | .storeNextBudget => f.next.elim (.loading f.lock) (.granting f.lock)
  | .clearNext => .out
  | _ => .front f.lock

/-- The place of handler `h` in the queues of class `c`. -/
def placeOf (C : Cluster H L) (c : Side) (h : H) : Thread (Frame H L) → Handover.Place H L
  | .idle => .out
  | .busy f => if C.side h f.lock = c then f.place else .out

/-- What a budget says to the handler that waits for it. -/
def Descriptor.word (d : Descriptor H) : Option ℤ := if d.budget < 0 then none else some d.budget

/-- The queues of class `c`. -/
def queues (C : Cluster H L) (c : Side) (s : State H L) : Handover.State H L ℤ where
  tail l := (s.memory.locks l).tail c
  place h := placeOf C c h (s.thread h)
  next h := (s.memory.descriptor c h).next
  word h := (s.memory.descriptor c h).word

/-- What an event is in the queues of class `c`. -/
def seen (c : Side) : L × Cohort.Event H Side → Option (Handover.Event H L)
  | (l, .arrive c' h) => if c' = c then some (.arrive l h) else none
  | (l, .enter c' h) => if c' = c then some (.enter l h) else none
  | (l, .leave c' h) => if c' = c then some (.leave l h) else none
  | _ => none

variable [DecidableEq H] [DecidableEq L] {C : Cluster H L} {B : LockConfig} {c : Side}

section Views

variable {m : Memory H L} {thread : H → Thread (Frame H L)} {h : H}

omit [DecidableEq L] in
theorem queues_update (t : Thread (Frame H L)) :
    queues C c ⟨m, Function.update thread h t⟩ =
      (queues C c ⟨m, thread⟩).move h (placeOf C c h t) := by
  simp only [queues, Handover.State.move, Handover.State.mk.injEq, true_and, and_true]
  funext g
  exact Function.apply_update (placeOf C c) thread h t g

omit [DecidableEq L] in
theorem queues_setDescriptor (d : Descriptor H) :
    queues C c ⟨m.setDescriptor c h d, thread⟩ =
      { queues C c ⟨m, thread⟩ with
          next := Function.update (queues C c ⟨m, thread⟩).next h d.next
          word := Function.update (queues C c ⟨m, thread⟩).word h d.word } := by
  simp only [queues, Memory.setDescriptor, Handover.State.mk.injEq, true_and]
  refine ⟨?_, ?_⟩
  · funext g
    by_cases hg : g = h <;> simp [hg]
  · funext g
    by_cases hg : g = h <;> simp [hg]

omit [DecidableEq L] in
theorem queues_setDescriptor_of_ne {c' : Side} (hc : c' ≠ c) (d : Descriptor H) :
    queues C c ⟨m.setDescriptor c' h d, thread⟩ = queues C c ⟨m, thread⟩ := by
  simp [queues, Memory.setDescriptor, Ne.symm hc]

omit [DecidableEq H] in
theorem queues_setLock (l : L) (w : Words H) :
    queues C c ⟨m.setLock l w, thread⟩ =
      { queues C c ⟨m, thread⟩ with
          tail := Function.update (queues C c ⟨m, thread⟩).tail l (w.tail c) } := by
  simp only [queues, Memory.setLock, Handover.State.mk.injEq, and_true]
  funext l'
  by_cases hl : l' = l
  · subst hl
    simp
  · simp [hl]

omit [DecidableEq H] in
/-- A store into a lock that leaves the tail alone. -/
theorem queues_setLock_self {l : L} {w : Words H} (hw : w.tail c = (m.locks l).tail c) :
    queues C c ⟨m.setLock l w, thread⟩ = queues C c ⟨m, thread⟩ := by
  rw [queues_setLock, hw]
  exact congrArg (fun t => ({ queues C c ⟨m, thread⟩ with tail := t } : Handover.State H L ℤ))
    (Function.update_eq_self l (queues C c ⟨m, thread⟩).tail)

end Views

/-- An access stays with its lock. -/
theorem exec_lock {m m' : Memory H L} {h : H} {f f' : Frame H L} {b : Bool}
    {e : Option (L × Cohort.Event H Side)} (hx : exec C B m h f b = some (m', .busy f', e)) :
    f'.lock = f.lock := by
  unfold exec at hx
  cases hpc : f.pc <;>
    simp only [hpc, Option.some.injEq, Prod.mk.injEq, Option.map_eq_some_iff, reduceCtorEq, false_and,
      and_false] at hx
  case storePrevNext =>
    obtain ⟨p, -, -, hf', -⟩ := hx
    cases hf'
    rfl
  case storeNextBudget =>
    obtain ⟨n, -, -, hf', -⟩ := hx
    split at hf' <;> cases hf'
    rfl
  case exchangeTail | casTail | loadTail | loadVictim | readPair | readTail | readVictim =>
    split at hx <;> simp only [Option.some.injEq, Prod.mk.injEq, Thread.busy.injEq, reduceCtorEq,
      false_and, and_false] at hx <;> obtain ⟨-, rfl, -⟩ := hx <;> rfl
  all_goals
    obtain ⟨-, hf', -⟩ := hx
    cases hf'
    try rfl
  case testBudget | storeBudget | loadVictimSwap => split <;> rfl

/-- An access changes nothing in the queues of the other class. -/
theorem exec_other {s : State H L} {m : Memory H L} {h : H} {f : Frame H L} {b : Bool}
    {t : Thread (Frame H L)} {e : Option (L × Cohort.Event H Side)} (hf : s.thread h = .busy f)
    (hx : exec C B s.memory h f b = some (m, t, e)) (hc : C.side h f.lock ≠ c) :
    e.bind (seen c) = none ∧ queues C c ⟨m, Function.update s.thread h t⟩ = queues C c s := by
  obtain ⟨mem, thread⟩ := s
  dsimp only at hf hx ⊢
  have hout : placeOf C c h t = .out := by
    cases t with
    | idle => rfl
    | busy f' => simp [placeOf, exec_lock hx, hc]
  have hmove : ∀ m, queues C c ⟨m, Function.update thread h t⟩ = queues C c ⟨m, thread⟩ := by
    intro m
    have hpl : (queues C c ⟨m, thread⟩).place h = .out := by simp [queues, hf, placeOf, hc]
    rw [queues_update, hout, ← hpl]
    simp [Handover.State.move]
  rw [hmove]
  unfold exec at hx
  cases hpc : f.pc <;>
    simp only [hpc, Option.some.injEq, Prod.mk.injEq, Option.map_eq_some_iff] at hx
  case exchangeTail | casTail =>
    split at hx <;> simp only [Option.some.injEq, Prod.mk.injEq] at hx <;> obtain ⟨rfl, -, rfl⟩ := hx
    · exact ⟨by simp [seen, hc], queues_setLock_self (by simp [Ne.symm hc])⟩
    · exact ⟨rfl, rfl⟩
  case storePrevNext =>
    obtain ⟨p, -, rfl, -, rfl⟩ := hx
    exact ⟨rfl, queues_setDescriptor_of_ne hc _⟩
  case storeNextBudget =>
    obtain ⟨n, -, rfl, -, rfl⟩ := hx
    exact ⟨by simp [seen, hc], queues_setDescriptor_of_ne hc _⟩
  case storeVictim =>
    obtain ⟨rfl, -, rfl⟩ := hx
    exact ⟨rfl, queues_setLock_self (by cases c <;> rfl)⟩
  case loadTail | loadVictim | readPair | readTail | readVictim =>
    split at hx <;> simp only [Option.some.injEq, Prod.mk.injEq] at hx <;> obtain ⟨rfl, -, rfl⟩ := hx <;>
      refine ⟨?_, rfl⟩ <;> first | rfl | (split <;> rfl)
  case resetBudget | resetNext | storeBudget | clearNext =>
    obtain ⟨rfl, -, rfl⟩ := hx
    exact ⟨rfl, queues_setDescriptor_of_ne hc _⟩
  case acquired =>
    obtain ⟨rfl, -, rfl⟩ := hx
    exact ⟨by simp [seen, hc], rfl⟩
  all_goals
    obtain ⟨rfl, -, rfl⟩ := hx
    exact ⟨rfl, rfl⟩

/-- An access is a step of the queues of the handler's class with the same event, or changes nothing
there. -/
theorem exec_moves {s : State H L} {m : Memory H L} {h : H} {f : Frame H L} {b : Bool}
    {t : Thread (Frame H L)} {e : Option (L × Cohort.Event H Side)} (hf : s.thread h = .busy f)
    (hx : exec C B s.memory h f b = some (m, t, e)) (hc : C.side h f.lock = c) :
    Handover.Step (queues C c s) (e.bind (seen c)) (queues C c ⟨m, Function.update s.thread h t⟩) ∨
      e.bind (seen c) = none ∧ queues C c ⟨m, Function.update s.thread h t⟩ = queues C c s := by
  obtain ⟨mem, thread⟩ := s
  dsimp only at hf hx ⊢
  have hpl : (queues C c ⟨mem, thread⟩).place h = f.place := by simp [queues, placeOf, hf, hc]
  -- nothing happens if the place is the same and the memory of the queues, too
  have hsame : ∀ m' f', queues C c ⟨m', thread⟩ = queues C c ⟨mem, thread⟩ → f'.lock = f.lock →
      f'.place = f.place →
      queues C c ⟨m', Function.update thread h (.busy f')⟩ = queues C c ⟨mem, thread⟩ := by
    intro m' f' hm' hl hf'
    rw [queues_update, hm', placeOf, if_pos (hl ▸ hc), hf', Handover.State.move, ← hpl,
      Function.update_eq_self]
  unfold exec at hx
  rw [hc] at hx
  cases hpc : f.pc <;>
    simp only [hpc, Option.some.injEq, Prod.mk.injEq, Option.map_eq_some_iff] at hx
  case exchangeTail =>
    split at hx <;> simp only [Option.some.injEq, Prod.mk.injEq] at hx <;> obtain ⟨rfl, rfl, rfl⟩ := hx
    · left
      have hstep := Handover.Step.join (s := queues C c ⟨mem, thread⟩) (h := h) (k := f.lock)
        (b := true) (by rw [hpl]; simp [Frame.place, hpc])
      convert hstep using 1
      · simp [seen]
      · rw [queues_update, queues_setLock]
        cases ht : (mem.locks f.lock).tail c <;>
          simp [queues, Handover.State.move, placeOf, hc, Frame.place, Handover.Place.behind, ht]
    · exact Or.inr ⟨rfl, hsame _ _ rfl rfl (by simp [Frame.place, hpc])⟩
  case casTail =>
    split at hx <;> simp only [Option.some.injEq, Prod.mk.injEq] at hx <;> obtain ⟨rfl, rfl, rfl⟩ := hx
    · left
      rename_i ht
      have hstep := Handover.Step.swap (s := queues C c ⟨mem, thread⟩) (h := h) (k := f.lock)
        (by rw [hpl]; simp [Frame.place, hpc]) ht
      convert hstep using 1
      · simp [seen]
      · rw [queues_update, queues_setLock]
        simp [queues, Handover.State.move, placeOf]
    · left
      rename_i ht
      have hstep := Handover.Step.fail (s := queues C c ⟨mem, thread⟩) (h := h) (k := f.lock)
        (by rw [hpl]; simp [Frame.place, hpc]) ht
      rw [queues_update, placeOf, if_pos hc]
      exact hstep
  -- the accesses through a pointer
  case storePrevNext =>
    obtain ⟨p, hp, rfl, rfl, rfl⟩ := hx
    left
    have hstep := Handover.Step.link (s := queues C c ⟨mem, thread⟩) (h := h) (p := p) (k := f.lock)
      (by rw [hpl]; simp [Frame.place, hpc, hp])
    change Handover.Step _ none _
    convert hstep using 1
    rw [queues_update, queues_setDescriptor]
    simp [queues, Handover.State.move, placeOf, hc, Frame.place, hp, Descriptor.word]
  case storeNextBudget =>
    obtain ⟨n, hn, rfl, rfl, rfl⟩ := hx
    left
    have hstep := Handover.Step.grant (s := queues C c ⟨mem, thread⟩) (h := h) (n := n) (k := f.lock)
      (v := if f.budget - 1 < 0 then none else some (f.budget - 1))
      (by rw [hpl]; simp [Frame.place, hpc, hn])
    have hout : placeOf C c h (if c = .loc then .busy { f with pc := .clearNext } else .idle) = .out := by
      split_ifs <;> simp [placeOf, Frame.place]
    convert hstep using 1
    · simp [seen]
    · rw [queues_update, queues_setDescriptor, hout]
      simp [queues, Handover.State.move, Descriptor.word]
  -- the Peterson loops
  case loadTail | loadVictim | readPair | readTail | readVictim =>
    right
    split at hx <;> simp only [Option.some.injEq, Prod.mk.injEq] at hx <;> obtain ⟨rfl, rfl, rfl⟩ := hx
    all_goals
      refine ⟨?_, hsame _ _ rfl rfl ?_⟩
      · first | rfl | (split <;> rfl)
      · cases hp : f.prev <;> simp [Frame.won, Frame.place, hpc, hp]
  all_goals obtain ⟨rfl, rfl, rfl⟩ := hx
  case storeVictim =>
    refine Or.inr ⟨rfl, hsame _ _ (queues_setLock_self (by cases c <;> rfl)) rfl ?_⟩
    cases c <;> simp [Frame.place, hpc, Pc.loop]
  case loadVictimSwap =>
    refine Or.inr ⟨rfl, hsame _ _ rfl ?_ ?_⟩ <;> split_ifs <;> simp [Frame.place, hpc]
  case testBudget =>
    refine Or.inr ⟨rfl, hsame _ _ rfl ?_ ?_⟩ <;> split_ifs <;> cases c <;>
      simp [Frame.place, hpc, Frame.petersons, Pc.petersons]
  -- the stores into the own descriptor
  case resetBudget =>
    left
    have hstep := Handover.Step.arm (s := queues C c ⟨mem, thread⟩) (h := h) (k := f.lock)
      (by rw [hpl]; simp [Frame.place, hpc])
    change Handover.Step _ none _
    convert hstep using 1
    rw [queues_update, queues_setDescriptor]
    simp [queues, Handover.State.move, placeOf, hc, Frame.place, Descriptor.word]
  case resetNext =>
    left
    have hstep := Handover.Step.clear (s := queues C c ⟨mem, thread⟩) (h := h) (k := f.lock) (b := true)
      (by rw [hpl]; simp [Frame.place, hpc])
    change Handover.Step _ none _
    convert hstep using 1
    rw [queues_update, queues_setDescriptor]
    simp [queues, Handover.State.move, placeOf, hc, Frame.place, Descriptor.word]
  case storeBudget =>
    left
    have hstep := Handover.Step.own (s := queues C c ⟨mem, thread⟩) (h := h) (k := f.lock)
      (v := if B.budget c < 0 then none else some (B.budget c))
      (by rw [hpl]; simp [Frame.place, hpc])
    change Handover.Step _ none _
    convert hstep using 1
    have hplace : ∀ m', queues C c ⟨m', Function.update thread h (.busy (if f.prev.isSome = true then
        { f with pc := .acquired } else f.petersons c))⟩ = queues C c ⟨m', thread⟩ := by
      intro m'
      have hpl' : (queues C c ⟨m', thread⟩).place h = .front f.lock := by
        simp [queues, placeOf, hf, hc, Frame.place, hpc]
      have hnew : placeOf C c h (.busy (if f.prev.isSome = true then
          { f with pc := .acquired } else f.petersons c)) = .front f.lock := by
        split_ifs <;> cases c <;> simp [placeOf, Frame.place, Frame.petersons, Pc.petersons, hc]
      rw [queues_update, hnew, ← hpl']
      simp [Handover.State.move]
    rw [hplace, queues_setDescriptor]
    simp [queues, Descriptor.word]
  case clearNext =>
    left
    have hpl' : (queues C c ⟨mem, thread⟩).place h = .out := by rw [hpl]; simp [Frame.place, hpc]
    have hstep := Handover.Step.tidy (s := queues C c ⟨mem, thread⟩) (h := h) hpl'
    change Handover.Step _ none _
    convert hstep using 1
    rw [queues_update, queues_setDescriptor, placeOf, ← hpl']
    simp [queues, Handover.State.move, Descriptor.word]
  -- the loops of the queue
  case awaitBudget =>
    by_cases hb : (mem.descriptor c h).budget < 0
    · exact Or.inr ⟨rfl, hsame _ _ rfl rfl (by simp [Frame.place, hpc, hb])⟩
    · cases hp : f.prev with
      | none => exact Or.inr ⟨rfl, hsame _ _ rfl rfl (by simp [Frame.place, hpc, hb, hp])⟩
      | some p =>
        left
        have hstep := Handover.Step.wake (s := queues C c ⟨mem, thread⟩) (h := h) (p := p) (k := f.lock)
          (by rw [hpl]; simp [Frame.place, hpc, hp]) (by simp [queues, Descriptor.word, hb])
        rw [queues_update, placeOf, if_pos hc, if_neg hb]
        exact hstep
  case testNext =>
    left
    cases hn : (mem.descriptor c h).next with
    | none =>
      have hstep := Handover.Step.leave (s := queues C c ⟨mem, thread⟩) (h := h) (k := f.lock)
        (by rw [hpl]; simp [Frame.place, hpc])
      rw [queues_update, placeOf, if_pos hc]
      exact hstep
    | some n =>
      have hstep := Handover.Step.close (s := queues C c ⟨mem, thread⟩) (h := h) (k := f.lock)
        (by rw [hpl]; simp [Frame.place, hpc]) (by simp [queues, hn])
      rw [queues_update, placeOf, if_pos hc]
      exact hstep
  case awaitNext =>
    cases hn : (mem.descriptor c h).next with
    | none => exact Or.inr ⟨rfl, hsame _ _ rfl rfl (by simp [Frame.place, hpc])⟩
    | some n =>
      left
      have hstep := Handover.Step.see (s := queues C c ⟨mem, thread⟩) (h := h) (k := f.lock)
        (by rw [hpl]; simp [Frame.place, hpc]) (by simp [queues, hn])
      rw [queues_update, placeOf, if_pos hc]
      exact hstep
  case loadNext =>
    cases hn : (mem.descriptor c h).next with
    | none => exact Or.inr ⟨rfl, hsame _ _ rfl rfl (by simp [Frame.place, hpc])⟩
    | some n =>
      left
      have hstep := Handover.Step.load (s := queues C c ⟨mem, thread⟩) (h := h) (n := n) (k := f.lock)
        (by rw [hpl]; simp [Frame.place, hpc]) (by simp [queues, hn])
      rw [queues_update, placeOf, if_pos hc]
      exact hstep
  case loadBudget =>
    exact Or.inr ⟨rfl, hsame _ _ rfl rfl (by cases hn : f.next <;> simp [Frame.place, hpc, hn])⟩
  -- the entry and the call of `Unlock`
  case acquired =>
    left
    have hstep := Handover.Step.enter (s := queues C c ⟨mem, thread⟩) (h := h) (k := f.lock)
      (by rw [hpl]; simp [Frame.place, hpc])
    rw [queues_update, placeOf, if_pos hc]
    simpa [seen, Frame.place] using hstep
  case critical =>
    cases c with
    | loc => exact Or.inr ⟨rfl, hsame _ _ rfl rfl (by simp [Frame.place, hpc, Pc.unlock])⟩
    | rem =>
      left
      have hstep := Handover.Step.leave (s := queues C .rem ⟨mem, thread⟩) (h := h) (k := f.lock)
        (by rw [hpl]; simp [Frame.place, hpc])
      rw [queues_update, placeOf, if_pos hc]
      exact hstep

theorem step_moves {s s' : State H L} {h : H} {a : Act L} {e : Option (L × Cohort.Event H Side)}
    (hs : Machine.step Frame.start (exec C B) s h a = some (s', e)) (c : Side) :
    Handover.Step (queues C c s) (e.bind (seen c)) (queues C c s') ∨
      e.bind (seen c) = none ∧ queues C c s' = queues C c s := by
  obtain ⟨l, -, hidle, rfl, rfl⟩ | ⟨b, f, m, t, -, hf, hx, rfl⟩ := Machine.step_cases hs
  · have hpl : (queues C c s).place h = .out := by simp [queues, placeOf, hidle]
    by_cases hc : C.side h l = c
    · left
      have hstep := Handover.Step.call (s := queues C c s) (h := h) (k := l) hpl
      rw [queues_update, placeOf]
      simpa [Frame.start, hc, Frame.place] using hstep
    · right
      rw [queues_update, placeOf, Frame.start, if_neg hc, ← hpl]
      exact ⟨rfl, by simp [Handover.State.move]⟩
  · by_cases hc : C.side h f.lock = c
    · exact exec_moves hf hx hc
    · exact Or.inr (exec_other hf hx hc)

end ALock

end Farlock
