import Farlock.Cluster

/-!
# Handlers over a shared memory

The locks of `third_party/locks` are run like FARLock: the handlers call `Lock` and `Unlock` over and
over, and a step is one access of one handler to one word.  Their words differ from lock to lock, so
that the shared memory is an arbitrary type `M` here; an access maps the memory and the local data of
its handler to new ones, and so cannot touch the local data of another handler.
-/

namespace Farlock

/-- The shared memory and the handlers with their local data. -/
structure Machine (M H F : Type) where
  memory : M
  thread : H → Thread F

namespace Machine

variable {M H L F ε : Type} [DecidableEq H]

/-- Handlers that call `Lock` and `Unlock` over and over: a handler outside starts with the data
`start l`, and the next access of a handler at work is given by `exec`. -/
def clients (start : L → F) (exec : M → H → F → Bool → Option (M × Thread F × Option ε)) :
    Clients (Machine M H F) H L F ε where
  thread := thread
  call s h l := ⟨s.memory, Function.update s.thread h (.busy (start l))⟩
  exec s h f b :=
    (exec s.memory h f b).map fun x => (⟨x.1, Function.update s.thread h x.2.1⟩, x.2.2)

/-- One step of handler `h`. -/
abbrev step (start : L → F) (exec : M → H → F → Bool → Option (M × Thread F × Option ε)) :
    Machine M H F → H → Act L → Option (Machine M H F × Option ε) :=
  (clients start exec).step

/-- All handlers outside, and the memory as `init` says. -/
def Initial (init : M → Prop) (s : Machine M H F) : Prop := init s.memory ∧ ∀ h, s.thread h = .idle

/-- The system of all interleavings. -/
abbrev system (init : M → Prop) (start : L → F)
    (exec : M → H → F → Bool → Option (M × Thread F × Option ε)) : Lts (Machine M H F) ε :=
  (clients start exec).system (Initial init)

/-- The endless executions. -/
abbrev Runs (init : M → Prop) (start : L → F)
    (exec : M → H → F → Bool → Option (M × Thread F × Option ε)) :=
  Execution (Initial init) (step (H := H) start exec)

/-- Handler `h` is inside `Lock`, the critical section or `Unlock`. -/
def Busy (s : Machine M H F) (h : H) : Prop := ∃ f, s.thread h = .busy f

/-- The run in which the handlers take their steps in the given order. -/
abbrev play (start : L → F) (exec : M → H → F → Bool → Option (M × Thread F × Option ε)) :
    Machine M H F → List (H × Act L) → Option (Machine M H F × List ε) :=
  (clients start exec).play

section Step

variable {init : M → Prop} {start : L → F}
  {exec : M → H → F → Bool → Option (M × Thread F × Option ε)} {s s' : Machine M H F} {h : H}
  {a : Act L} {e : Option ε}

variable (start exec) in
theorem step_call {l : L} (hf : s.thread h = .idle) :
    step start exec s h (.call l) =
      some (⟨s.memory, Function.update s.thread h (.busy (start l))⟩, none) :=
  Clients.step_call (K := clients start exec) l hf

variable (start exec) in
theorem step_run {f : F} {b : Bool} {x : M × Thread F × Option ε} (hf : s.thread h = .busy f)
    (hx : exec s.memory h f b = some x) :
    step (L := L) start exec s h (.run b) =
      some (⟨x.1, Function.update s.thread h x.2.1⟩, x.2.2) := by
  refine (Clients.step_run (K := clients start exec) b hf).trans ?_
  simp only [clients, hx, Option.map_some]

/-- What a step can be. -/
theorem step_cases (hs : step start exec s h a = some (s', e)) :
    (∃ l, a = .call l ∧ s.thread h = .idle ∧ e = none ∧
      s' = ⟨s.memory, Function.update s.thread h (.busy (start l))⟩) ∨
    ∃ b f m t, a = .run b ∧ s.thread h = .busy f ∧ exec s.memory h f b = some (m, t, e) ∧
      s' = ⟨m, Function.update s.thread h t⟩ := by
  obtain hcall | ⟨b, f, ha, hf, hx⟩ := Clients.step_cases hs
  · exact Or.inl hcall
  · simp only [clients, Option.map_eq_some_iff, Prod.mk.injEq] at hx
    obtain ⟨⟨m, t, e'⟩, hx, rfl, rfl⟩ := hx
    exact Or.inr ⟨b, f, m, t, ha, hf, hx, rfl⟩

/-- The other handlers do not move in a step. -/
theorem thread_of_ne (hs : step start exec s h a = some (s', e)) {g : H} (hg : g ≠ h) :
    s'.thread g = s.thread g := by
  obtain ⟨l, -, -, -, rfl⟩ | ⟨b, f, m, t, -, -, -, rfl⟩ := step_cases hs <;>
    exact Function.update_of_ne hg _ _

/-- What is played from a first state is a run. -/
theorem run_of_mem_play {sched : List (H × Act L)} {y : Machine M H F × List ε} {m : M} (hm : init m)
    (hy : y ∈ play start exec ⟨m, fun _ => .idle⟩ sched) : (system init start exec).Run y.2 y.1 :=
  Clients.run_play (Lts.Run.start (S := system init start exec) ⟨hm, fun _ => rfl⟩)
    (Option.mem_def.1 hy)

end Step

/-- The endless execution of two handlers in turns, if a handler always has a next access. -/
def alternate {init : M → Prop} {start : L → F}
    {exec : M → Bool → F → Bool → Option (M × Thread F × Option ε)} {m : M} (hm : init m)
    (htotal : ∀ tr s h f b, (system init start exec).Run tr s → s.thread h = .busy f →
      (exec s.memory h f b).isSome = true) (pick : ℕ → L) : Runs (H := Bool) init start exec :=
  (clients start exec).alternate
    (show Initial init ⟨m, fun _ => .idle⟩ from ⟨hm, fun _ => rfl⟩)
    (fun tr s h f b hr hf => (Option.isSome_map ..).trans (htotal tr s h f b hr hf)) pick

end Machine

end Farlock
