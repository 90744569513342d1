import Mathlib.Tactic
import Farlock.Lib.Fair

/-!
# Clients that call an operation over and over

Clients share a state.  An idle client may call an operation on an object; it is then busy, with local
data of its own, until the operation is over.  What the operation does is given access by access.

* `Clients.step`, `Clients.system`: the interleavings of the clients;
* `Clients.step_cases`: what a step can be;
* `Clients.play`: the run of a schedule;
* `Clients.alternate`: the endless execution of two clients in turns.
-/

/-- A client between two calls, or at work with the local data `F`. -/
inductive Thread (F : Type)
  | idle
  | busy (f : F)
  deriving DecidableEq

/-- How far a client has come, where `r` says it of its local data. -/
def Thread.rank {F : Type} (r : F → ℕ) : Thread F → ℕ
  | .idle => 0
  | .busy f => r f

@[simp] theorem Thread.rank_busy {F : Type} (r : F → ℕ) (f : F) : (Thread.busy f).rank r = r f := rfl

theorem Thread.rank_le {F : Type} {r : F → ℕ} {limit : ℕ} (hr : ∀ f, r f ≤ limit) (t : Thread F) :
    t.rank r ≤ limit := by
  cases t with
  | idle => exact Nat.zero_le limit
  | busy f => exact hr f

/-- What a client does in a step: it calls the operation on an object, or it makes its next access,
where a choice may be left to the memory. -/
inductive Act (L : Type)
  | call (l : L)
  | run (choice : Bool)
  deriving DecidableEq

/-- The clients `H` of a shared state `σ`: the thread of a client, the state after a client has called
the operation on an object, and the next access of a busy client. -/
structure Clients (σ H L F ε : Type) where
  thread : σ → H → Thread F
  call : σ → H → L → σ
  exec : σ → H → F → Bool → Option (σ × Option ε)

namespace Clients

variable {σ H L F ε : Type} (K : Clients σ H L F ε)

/-- One step of client `h`. -/
def step (s : σ) (h : H) : Act L → Option (σ × Option ε)
  | .call l =>
      match K.thread s h with
      | .idle => some (K.call s h l, none)
      | .busy _ => none
  | .run b =>
      match K.thread s h with
      | .idle => none
      | .busy f => K.exec s h f b

/-- The system of all interleavings. -/
def system (init : σ → Prop) : Lts σ ε where
  init := init
  step s e s' := ∃ h a, K.step s h a = some (s', e)

/-- The run in which the clients take their steps in the given order. -/
def play : σ → List (H × Act L) → Option (σ × List ε)
  | s, [] => some (s, [])
  | s, (h, a) :: sched =>
      (K.step s h a).bind fun x => (play x.1 sched).map fun y => (y.1, x.2.toList ++ y.2)

/-- The next `n` accesses of client `h`. -/
abbrev steps {H L : Type} (h : H) (n : ℕ) : List (H × Act L) := List.replicate n (h, .run true)

variable {K} {init : σ → Prop} {s s' s'' : σ} {h : H} {a : Act L} {e : Option ε} {f : F}
  {tr tr' : List ε} {sched sched' : List (H × Act L)}

/-! ### Steps -/

theorem step_call (l : L) (hf : K.thread s h = .idle) :
    K.step s h (.call l) = some (K.call s h l, none) := by
  simp only [step, hf]

theorem step_run (b : Bool) (hf : K.thread s h = .busy f) : K.step s h (.run b) = K.exec s h f b := by
  simp only [step, hf]

/-- What a step can be. -/
theorem step_cases (hs : K.step s h a = some (s', e)) :
    (∃ l, a = .call l ∧ K.thread s h = .idle ∧ e = none ∧ s' = K.call s h l) ∨
    ∃ b f, a = .run b ∧ K.thread s h = .busy f ∧ K.exec s h f b = some (s', e) := by
  cases a with
  | call l =>
    cases hf : K.thread s h with
    | idle =>
      simp only [step, hf, Option.some.injEq, Prod.mk.injEq] at hs
      exact Or.inl ⟨l, rfl, rfl, hs.2.symm, hs.1.symm⟩
    | busy f => simp [step, hf] at hs
  | run b =>
    cases hf : K.thread s h with
    | idle => simp [step, hf] at hs
    | busy f => exact Or.inr ⟨b, f, rfl, rfl, by rwa [step_run b hf] at hs⟩

/-! ### Schedules -/

@[simp] theorem play_nil (s : σ) : K.play s [] = some (s, []) := rfl

/-- A schedule is played from its first step on. -/
theorem play_cons_eq_some : K.play s ((h, a) :: sched) = some (s'', tr) ↔
    ∃ s' e tr', K.step s h a = some (s', e) ∧ K.play s' sched = some (s'', tr') ∧
      e.toList ++ tr' = tr := by
  simp only [play, Option.bind_eq_some_iff, Option.map_eq_some_iff, Prod.exists, Prod.mk.injEq]
  constructor
  · rintro ⟨s', e, hs, s'', tr', hp, rfl, rfl⟩
    exact ⟨s', e, tr', hs, hp, rfl⟩
  · rintro ⟨s', e, tr', hs, hp, rfl⟩
    exact ⟨s', e, hs, s'', tr', hp, rfl, rfl⟩

/-- Schedules are played one after the other. -/
theorem play_append (hp : K.play s sched = some (s', tr)) (hp' : K.play s' sched' = some (s'', tr')) :
    K.play s (sched ++ sched') = some (s'', tr ++ tr') := by
  induction sched generalizing s tr with
  | nil =>
    obtain ⟨rfl, rfl⟩ : s = s' ∧ [] = tr := by simpa using hp
    exact hp'
  | cons ha sched ih =>
    obtain ⟨s1, e, tr1, hs, hp1, rfl⟩ := play_cons_eq_some.1 hp
    rw [List.append_assoc]
    exact play_cons_eq_some.2 ⟨s1, e, _, hs, ih hp1, rfl⟩

/-- What is played goes on with a run. -/
theorem run_play (hr : (K.system init).Run tr s) (hp : K.play s sched = some (s', tr')) :
    (K.system init).Run (tr ++ tr') s' := by
  induction sched generalizing tr s tr' with
  | nil =>
    obtain ⟨rfl, rfl⟩ : s = s' ∧ [] = tr' := by simpa using hp
    simpa using hr
  | cons ha sched ih =>
    obtain ⟨s1, e, tr1, hs, hp1, rfl⟩ := play_cons_eq_some.1 hp
    rw [← List.append_assoc]
    exact ih (hr.next ⟨_, _, hs⟩) hp1

/-- Every run is played from a first state. -/
theorem exists_play (hr : (K.system init).Run tr s) :
    ∃ s₀ sched, init s₀ ∧ K.play s₀ sched = some (s, tr) := by
  induction hr with
  | start h0 => exact ⟨_, [], h0, rfl⟩
  | next hr hstep ih =>
    obtain ⟨s₀, sched, h0, hp⟩ := ih
    obtain ⟨h, a, hs⟩ := hstep
    exact ⟨s₀, sched ++ [(h, a)], h0, play_append hp (play_cons_eq_some.2
      ⟨_, _, [], hs, rfl, List.append_nil _⟩)⟩

/-! ### Endless executions -/

/-- The first steps of an endless execution are a run. -/
theorem run_trace (P : Execution init K.step) (n : ℕ) : (K.system init).Run (P.trace n) (P.state n) :=
  P.run (S := K.system init) (fun _ hs => hs) (fun _ h a _ _ hs => ⟨h, a, hs⟩) n

end Clients

/-! ### Two clients in turns -/

namespace Clients

variable {σ L F ε : Type} (K : Clients σ Bool L F ε) {init : σ → Prop}

/-- The clients take turns; an idle one calls the operation on the object `pick n`. -/
def turns (pick : ℕ → L) (n : ℕ) (s : σ) : Bool × Act L :=
  (n % 2 == 1,
    match K.thread s (n % 2 == 1) with
    | .idle => .call (pick n)
    | .busy _ => .run true)

/-- The endless execution of two clients in turns, if a busy client always has a next access. -/
def alternate {s₀ : σ} (h0 : init s₀) (htotal : ∀ tr s h f b, (K.system init).Run tr s →
    K.thread s h = .busy f → (K.exec s h f b).isSome = true) (pick : ℕ → L) :
    Execution init K.step :=
  Execution.follow (K.turns pick) s₀ (fun _ => (K.system init).Reachable) h0 ⟨[], .start h0⟩ <| by
    rintro n s ⟨tr, hr⟩
    obtain ⟨x, hx⟩ : ∃ x, K.step s (K.turns pick n s).1 (K.turns pick n s).2 = some x := by
      cases hf : K.thread s (n % 2 == 1) with
      | idle => exact ⟨_, by simp only [turns, hf]; exact step_call _ hf⟩
      | busy f =>
        obtain ⟨y, hy⟩ := Option.isSome_iff_exists.1 (htotal tr s _ f true hr hf)
        exact ⟨y, by simp only [turns, hf]; rw [step_run _ hf, hy]⟩
    exact ⟨x, hx, _, hr.next ⟨_, _, hx⟩⟩

/-- An object is called only when it is picked. -/
theorem alternate_act_ne {s₀ : σ} {h0 : init s₀} {htotal : ∀ tr s h f b, (K.system init).Run tr s →
    K.thread s h = .busy f → (K.exec s h f b).isSome = true} {pick : ℕ → L} {n : ℕ} {l : L}
    (hn : pick n ≠ l) : (K.alternate h0 htotal pick).act n ≠ .call l := by
  change (K.turns pick n _).2 ≠ .call l
  unfold turns
  dsimp only
  split
  · simpa using hn
  · simp

end Clients
