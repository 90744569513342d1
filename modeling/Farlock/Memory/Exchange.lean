import Mathlib
import Farlock.Lib.Transition

/-!
# The compare-and-swap loop of `Exchange` (`include/rdma/memory_pool.h`)

`Exchange` sends compare-and-swap requests until one of them succeeds, each with the value that the
one before has found.  Handlers with different non-zero values `d h` use it, and `CompareAndSwap`,
on one tail word; a step is one request.  A handler that has installed its value leaves when it
swaps the tail back to null, or when it hands over to the handler whose `Exchange` has returned its
value.

* `step`: the steps of the handlers;
* `sinceLast`: the part of a history after its last event of some kind;
* `Inv`: the invariant of the handlers, with the calls and installations of every one of them.
-/

namespace Farlock

namespace Memory

/-! ### Histories -/

/-- The events after the last one that satisfies `p`, if there is one. -/
def sinceLast {ε : Type} (p : ε → Bool) (tr : List ε) : Option (List ε) :=
  tr.foldl (fun l e => if p e then some [] else l.map (· ++ [e])) none

section History

variable {ε : Type} (p : ε → Bool)

@[simp] theorem sinceLast_nil : sinceLast p [] = none := rfl

theorem sinceLast_concat (tr : List ε) (e : ε) :
    sinceLast p (tr ++ [e]) = if p e then some [] else (sinceLast p tr).map (· ++ [e]) := by
  simp [sinceLast, List.foldl_append]

variable {p} in
theorem sinceLast_concat_some {tr l : List ε} {e : ε} (hl : sinceLast p tr = some l) (he : p e = false) :
    sinceLast p (tr ++ [e]) = some (l ++ [e]) := by
  rw [sinceLast_concat, he, hl]
  rfl

end History

namespace Exchange

/-- What a handler is doing. -/
inductive Phase
  | idle
  /-- in the loop of `Exchange`, with `compare_add` -/
  | exchanging (expected : UInt64)
  /-- `Exchange` has returned `prev` -/
  | holding (prev : UInt64)
  deriving DecidableEq

/-- The tail word, the handlers, and who has received the value that a handler has installed. -/
structure State (H : Type) where
  word : UInt64
  phase : H → Phase
  receiver : H → Option H

/-- What happens at the tail word. -/
inductive Event (H : Type)
  /-- a call of `Exchange` with a hint -/
  | call (h : H) (hint : UInt64)
  /-- a request of `Exchange` fails -/
  | failed (h : H)
  /-- a request of `Exchange` succeeds, and the call returns `prev` -/
  | install (h : H) (prev : UInt64)
  /-- `CompareAndSwap(tail, d, 0)` returns true -/
  | cleared (h : H)
  /-- `CompareAndSwap(tail, d, 0)` returns false -/
  | refused (h : H)
  /-- `h` hands over to the handler that has received its value -/
  | handed (h g : H)
  deriving DecidableEq

/-- What a handler does next. -/
inductive Act (H : Type)
  | call (hint : UInt64)
  | request
  | compareAndSwap
  | handOver (g : H)

variable {H : Type} [DecidableEq H]

/-- One step of handler `h`: the answer of a request of `Exchange` is the old word, and the loop
ends if it is the expected one. -/
def step (d : H → UInt64) (s : State H) (h : H) : Act H → Option (State H × Event H)
  | .call hint =>
      match s.phase h with
      | .idle => some ({ s with phase := Function.update s.phase h (.exchanging hint) }, .call h hint)
      | _ => none
  | .request =>
      match s.phase h with
      | .exchanging expected =>
          if s.word = expected then
            some ({ word := d h
                    phase := Function.update s.phase h (.holding expected)
                    receiver := fun g => if g = h then none
                      else if d g = expected then some h else s.receiver g }, .install h expected)
          else some ({ s with phase := Function.update s.phase h (.exchanging s.word) }, .failed h)
      | _ => none
  | .compareAndSwap =>
      match s.phase h with
      | .holding _ =>
          if s.word = d h then
            some ({ s with word := 0, phase := Function.update s.phase h .idle }, .cleared h)
          else some (s, .refused h)
      | _ => none
  | .handOver g =>
      match s.phase h with
      | .holding _ =>
          if s.receiver h = some g then
            some ({ s with phase := Function.update s.phase h .idle }, .handed h g)
          else none
      | _ => none

/-- The handlers, in every order of their requests. -/
def system (d : H → UInt64) : Lts (State H) (Event H) where
  init s := s.word = 0 ∧ ∀ h, s.phase h = .idle
  step s e s' := ∃ h a e', step d s h a = some (s', e') ∧ e = some e'

/-! ### The parts of a history -/

/-- `h` calls `Exchange`. -/
def Event.isCall (h : H) : Event H → Bool
  | .call g _ => g = h
  | _ => false

/-- `h` installs its value. -/
def Event.isInstall (h : H) : Event H → Bool
  | .install g _ => g = h
  | _ => false

/-- A call of `Exchange` returns the value `v`. -/
def Event.returns (v : UInt64) : Event H → Bool
  | .install _ prev => prev = v
  | _ => false

/-- The tail is swapped to null. -/
def Event.isCleared : Event H → Bool
  | .cleared _ => true
  | _ => false

/-- The calls of `Exchange` that have ended, with the values they have returned. -/
def installs (tr : List (Event H)) : List (H × UInt64) :=
  tr.filterMap fun
    | .install h prev => some (h, prev)
    | _ => none

/-- What has happened since the tail was last swapped to null. -/
def epoch (tr : List (Event H)) : List (Event H) := (sinceLast Event.isCleared tr).getD tr

/-- The installed values form a chain from `v` to `w`: each call has returned the value before. -/
def Chain (d : H → UInt64) : UInt64 → List (H × UInt64) → UInt64 → Prop
  | v, [], w => v = w
  | v, (h, prev) :: l, w => prev = v ∧ Chain d (d h) l w

section Parts

variable {d : H → UInt64} {tr : List (Event H)} {e : Event H}

omit [DecidableEq H] in
theorem epoch_concat : epoch (tr ++ [e]) = if e.isCleared then [] else epoch tr ++ [e] := by
  unfold epoch
  rw [sinceLast_concat]
  split_ifs
  · rfl
  · cases sinceLast Event.isCleared tr <;> rfl

omit [DecidableEq H] in
theorem chain_concat {l : List (H × UInt64)} {h : H} {v w : UInt64} (hl : Chain d v l w) :
    Chain d v (l ++ [(h, w)]) (d h) := by
  induction l generalizing v with
  | nil => exact ⟨hl.symm, rfl⟩
  | cons x l ih => exact ⟨hl.1, ih hl.2⟩

omit [DecidableEq H] in
/-- An event that is no installation and does not clear the tail leaves the chain as it is. -/
theorem installs_epoch_concat (he : e.isCleared = false) (hi : ∀ h prev, e ≠ .install h prev) :
    installs (epoch (tr ++ [e])) = installs (epoch tr) := by
  rw [epoch_concat, he]
  simp only [Bool.false_eq_true, if_false, installs, List.filterMap_append]
  cases e <;> simp_all

end Parts

/-! ### What every run satisfies -/

/-- What a step at the tail word does, after the history `tr`. -/
def StepOk (d : H → UInt64) (tr : List (Event H)) (s s' : State H) : Event H → Prop
  | .install h prev =>
      s.word = prev ∧ s'.word = d h ∧
        (prev ≠ 0 → ∃ g l, d g = prev ∧ sinceLast (Event.isInstall g) tr = some l ∧
          l.countP (Event.returns prev) = 0)
  | .cleared h =>
      s'.word = 0 ∧ ∃ l, sinceLast (Event.isInstall h) tr = some l ∧
        l.countP (Event.returns (d h)) = 0
  | .refused h =>
      s'.word = s.word ∧ ∃ l, sinceLast (Event.isInstall h) tr = some l ∧
        0 < l.countP (Event.returns (d h))
  | _ => s'.word = s.word

/-- What the calls of a handler have done since the last one began. -/
def CallOk (tr : List (Event H)) (h : H) : Phase → Prop
  | .idle => sinceLast (Event.isCall h) tr = none ∨
      ∃ l, sinceLast (Event.isCall h) tr = some l ∧ l.countP (Event.isInstall h) = 1
  | .exchanging _ => ∃ l, sinceLast (Event.isCall h) tr = some l ∧ l.countP (Event.isInstall h) = 0
  | .holding _ => ∃ l, sinceLast (Event.isCall h) tr = some l ∧ l.countP (Event.isInstall h) = 1

/-- The invariant of the handlers. -/
structure Inv (d : H → UInt64) (tr : List (Event H)) (s : State H) : Prop where
  calls : ∀ h, CallOk tr h (s.phase h)
  held : ∀ h prev, s.phase h = .holding prev →
    ∃ l, sinceLast (Event.isInstall h) tr = some l ∧
      (s.receiver h = none ∧ s.word = d h ∧ l.countP (Event.returns (d h)) = 0 ∨
        s.receiver h ≠ none ∧ s.word ≠ d h ∧ l.countP (Event.returns (d h)) = 1)
  free : ∀ h, (∀ prev, s.phase h ≠ .holding prev) → s.word ≠ d h
  owner : s.word ≠ 0 → ∃ h, d h = s.word
  chain : Chain d 0 (installs (epoch tr)) s.word

/-- The steps of the handlers, by what happens. -/
theorem step_cases {d : H → UInt64} {s s' : State H} {h : H} {a : Act H} {e : Event H}
    (hs : step d s h a = some (s', e)) :
    (∃ hint, e = .call h hint ∧ s.phase h = .idle ∧
      s' = { s with phase := Function.update s.phase h (.exchanging hint) }) ∨
    (∃ expected, e = .install h expected ∧ s.phase h = .exchanging expected ∧ s.word = expected ∧
      s' = { word := d h
             phase := Function.update s.phase h (.holding expected)
             receiver := fun g => if g = h then none
               else if d g = expected then some h else s.receiver g }) ∨
    (∃ expected, e = .failed h ∧ s.phase h = .exchanging expected ∧ s.word ≠ expected ∧
      s' = { s with phase := Function.update s.phase h (.exchanging s.word) }) ∨
    (∃ prev, e = .cleared h ∧ s.phase h = .holding prev ∧ s.word = d h ∧
      s' = { s with word := 0, phase := Function.update s.phase h .idle }) ∨
    (∃ prev, e = .refused h ∧ s.phase h = .holding prev ∧ s.word ≠ d h ∧ s' = s) ∨
    ∃ prev g, e = .handed h g ∧ s.phase h = .holding prev ∧ s.receiver h = some g ∧
      s' = { s with phase := Function.update s.phase h .idle } := by
  cases a with
  | call hint =>
    cases hp : s.phase h with
    | idle =>
      simp only [step, hp, Option.some.injEq, Prod.mk.injEq] at hs
      exact .inl ⟨hint, hs.2.symm, rfl, hs.1.symm⟩
    | exchanging expected => simp [step, hp] at hs
    | holding prev => simp [step, hp] at hs
  | request =>
    cases hp : s.phase h with
    | idle => simp [step, hp] at hs
    | holding prev => simp [step, hp] at hs
    | exchanging expected =>
      simp only [step, hp] at hs
      split at hs
      case isTrue hw =>
        simp only [Option.some.injEq, Prod.mk.injEq] at hs
        exact .inr (.inl ⟨expected, hs.2.symm, rfl, hw, hs.1.symm⟩)
      case isFalse hw =>
        simp only [Option.some.injEq, Prod.mk.injEq] at hs
        exact .inr (.inr (.inl ⟨expected, hs.2.symm, rfl, hw, hs.1.symm⟩))
  | compareAndSwap =>
    cases hp : s.phase h with
    | idle => simp [step, hp] at hs
    | exchanging expected => simp [step, hp] at hs
    | holding prev =>
      simp only [step, hp] at hs
      split at hs
      case isTrue hw =>
        simp only [Option.some.injEq, Prod.mk.injEq] at hs
        exact .inr (.inr (.inr (.inl ⟨prev, hs.2.symm, rfl, hw, hs.1.symm⟩)))
      case isFalse hw =>
        simp only [Option.some.injEq, Prod.mk.injEq] at hs
        exact .inr (.inr (.inr (.inr (.inl ⟨prev, hs.2.symm, rfl, hw, hs.1.symm⟩))))
  | handOver g =>
    cases hp : s.phase h with
    | idle => simp [step, hp] at hs
    | exchanging expected => simp [step, hp] at hs
    | holding prev =>
      simp only [step, hp] at hs
      split at hs
      case isTrue hg =>
        simp only [Option.some.injEq, Prod.mk.injEq] at hs
        exact .inr (.inr (.inr (.inr (.inr ⟨prev, g, hs.2.symm, rfl, hg, hs.1.symm⟩))))
      case isFalse => cases hs

section Run

variable {d : H → UInt64} {tr : List (Event H)} {s s' : State H} {e : Event H} {h : H} {a : Act H}

/-- What the next step does follows from the invariant. -/
theorem Inv.stepOk (hI : Inv d tr s) (hs : step d s h a = some (s', e)) : StepOk d tr s s' e := by
  obtain ⟨hint, rfl, hp, rfl⟩ | ⟨v, rfl, hp, hw, rfl⟩ | ⟨v, rfl, hp, hw, rfl⟩ | ⟨v, rfl, hp, hw, rfl⟩ |
    ⟨v, rfl, hp, hw, rfl⟩ | ⟨v, g, rfl, hp, hg, rfl⟩ := step_cases hs
  · rfl
  · refine ⟨hw, rfl, fun hv => ?_⟩
    subst hw
    -- the tail word belongs to a handler whose value nobody has received
    obtain ⟨g, hg⟩ := hI.owner hv
    obtain ⟨prev, hprev⟩ : ∃ prev, s.phase g = .holding prev := by
      by_contra hnone
      exact hI.free g (fun prev hprev => hnone ⟨prev, hprev⟩) hg.symm
    obtain ⟨l, hl, ⟨-, -, hcount⟩ | ⟨-, hne, -⟩⟩ := hI.held g prev hprev
    · exact ⟨g, l, hg, hl, hg ▸ hcount⟩
    · exact absurd hg.symm hne
  · rfl
  · obtain ⟨l, hl, ⟨-, -, hcount⟩ | ⟨-, hne, -⟩⟩ := hI.held h v hp
    · exact ⟨rfl, l, hl, hcount⟩
    · exact absurd hw hne
  · obtain ⟨l, hl, ⟨-, heq, -⟩ | ⟨-, -, hcount⟩⟩ := hI.held h v hp
    · exact absurd heq hw
    · exact ⟨rfl, l, hl, by omega⟩
  · rfl

/-- The calls of a handler do not change with an event that neither begins nor ends one. -/
theorem CallOk.concat {x : Phase} (hx : CallOk tr h x) (hc : e.isCall h = false)
    (hi : e.isInstall h = false) : CallOk (tr ++ [e]) h x := by
  have hlater : ∀ n, (∃ l, sinceLast (Event.isCall h) tr = some l ∧ l.countP (Event.isInstall h) = n) →
      ∃ l, sinceLast (Event.isCall h) (tr ++ [e]) = some l ∧ l.countP (Event.isInstall h) = n := by
    rintro n ⟨l, hl, hn⟩
    exact ⟨l ++ [e], sinceLast_concat_some hl hc, by simp [List.countP_append, hn, hi]⟩
  cases x with
  | idle =>
    rcases hx with hnone | hone
    · left
      rw [sinceLast_concat, hc, hnone]
      rfl
    · exact .inr (hlater 1 hone)
  | exchanging v => exact hlater 0 hx
  | holding v => exact hlater 1 hx

/-- An event by which nobody gets or leaves a place in the queue keeps the invariant. -/
theorem Inv.quiet {x : H → Phase} (hI : Inv d tr s) (hcalls : ∀ g, CallOk (tr ++ [e]) g (x g))
    (hx : ∀ g prev, x g = .holding prev → s.phase g = .holding prev)
    (hfree : ∀ g, (∀ prev, x g ≠ .holding prev) → s.word ≠ d g)
    (he : e.isCleared = false) (hi : ∀ h prev, e ≠ .install h prev) :
    Inv d (tr ++ [e]) { s with phase := x } := by
  have hinst : ∀ g, e.isInstall g = false := by
    intro g
    cases e <;> simp_all [Event.isInstall]
  have hret : ∀ v, e.returns v = false := by
    intro v
    cases e <;> simp_all [Event.returns]
  refine ⟨hcalls, fun g prev hg => ?_, hfree, hI.owner, ?_⟩
  · obtain ⟨l, hl, hcases⟩ := hI.held g prev (hx g prev hg)
    refine ⟨l ++ [e], sinceLast_concat_some hl (hinst g), ?_⟩
    simpa [List.countP_append, hret] using hcases
  · rw [installs_epoch_concat he hi]
    exact hI.chain

/-- A request that succeeds puts `h` at the end of the chain, and the handler before it has its
receiver. -/
theorem Inv.install (hI : Inv d tr s) (hd : Function.Injective d)
    (hp : s.phase h = .exchanging s.word) :
    Inv d (tr ++ [.install h s.word])
      { word := d h
        phase := Function.update s.phase h (.holding s.word)
        receiver := fun g => if g = h then none else if d g = s.word then some h else s.receiver g } where
  calls g := by
    by_cases hgh : g = h
    · subst hgh
      have hcall := hI.calls g
      rw [hp] at hcall
      obtain ⟨l, hl, hcount⟩ := hcall
      simp only [Function.update_self]
      refine ⟨_, sinceLast_concat_some hl rfl, ?_⟩
      simp [List.countP_append, hcount, Event.isInstall]
    · have hne : Event.isInstall g (.install h s.word) = false := by
        simpa [Event.isInstall] using Ne.symm hgh
      simp only [Function.update_of_ne hgh]
      exact (hI.calls g).concat rfl hne
  held g prev hg := by
    by_cases hgh : g = h
    · subst hgh
      refine ⟨[], by simp [sinceLast_concat, Event.isInstall], .inl ⟨by simp, rfl, rfl⟩⟩
    · have hne : Event.isInstall g (.install h s.word) = false := by
        simpa [Event.isInstall] using Ne.symm hgh
      have hdne : d h ≠ d g := fun heq => hgh (hd heq).symm
      simp only [Function.update_of_ne hgh] at hg
      obtain ⟨l, hl, ⟨-, hw, hcount⟩ | ⟨hsome, hw, hcount⟩⟩ := hI.held g prev hg
      · -- the value of `g` was in the tail, and `h` receives it
        refine ⟨_, sinceLast_concat_some hl hne, .inr ⟨by simp [hgh, hw], hdne, ?_⟩⟩
        simp [List.countP_append, hcount, Event.returns, hw]
      · refine ⟨_, sinceLast_concat_some hl hne, .inr ⟨by simp [hgh, Ne.symm hw, hsome], hdne, ?_⟩⟩
        simp [List.countP_append, hcount, Event.returns, hw]
  free g hg := by
    intro heq
    have hgh : h = g := hd heq
    subst hgh
    exact hg s.word (Function.update_self ..)
  owner _ := ⟨h, rfl⟩
  chain := by
    have : installs (epoch (tr ++ [.install h s.word])) = installs (epoch tr) ++ [(h, s.word)] := by
      rw [epoch_concat]
      simp [Event.isCleared, installs]
    rw [this]
    exact chain_concat hI.chain

/-- A handler that swaps its value back to null leaves an empty chain. -/
theorem Inv.cleared {prev : UInt64} (hI : Inv d tr s) (hd : Function.Injective d) (h0 : ∀ h, d h ≠ 0)
    (hp : s.phase h = .holding prev) (hw : s.word = d h) :
    Inv d (tr ++ [.cleared h]) { s with word := 0, phase := Function.update s.phase h .idle } where
  calls g := by
    by_cases hgh : g = h
    · subst hgh
      have hcount := hI.calls g
      rw [hp] at hcount
      simp only [Function.update_self]
      exact CallOk.concat (x := .idle) (.inr hcount) rfl rfl
    · simp only [Function.update_of_ne hgh]
      exact (hI.calls g).concat rfl rfl
  held g prev' hg := by
    by_cases hgh : g = h
    · subst hgh
      simp at hg
    · simp only [Function.update_of_ne hgh] at hg
      obtain ⟨l, hl, ⟨-, heq, -⟩ | ⟨hsome, -, hcount⟩⟩ := hI.held g prev' hg
      · -- the tail cannot hold two values
        exact absurd (hd (heq.symm.trans hw)) hgh
      · refine ⟨_, sinceLast_concat_some hl rfl, .inr ⟨hsome, (h0 g).symm, ?_⟩⟩
        simp [List.countP_append, hcount, Event.returns]
  free g _ := (h0 g).symm
  owner hne := absurd rfl hne
  chain := by
    rw [epoch_concat]
    rfl

/-- Every step keeps the invariant. -/
theorem Inv.step (hI : Inv d tr s) (hd : Function.Injective d) (h0 : ∀ h, d h ≠ 0)
    (hs : step d s h a = some (s', e)) : Inv d (tr ++ [e]) s' := by
  obtain ⟨hint, rfl, hp, rfl⟩ | ⟨v, rfl, hp, hw, rfl⟩ | ⟨v, rfl, hp, hw, rfl⟩ | ⟨v, rfl, hp, hw, rfl⟩ |
    ⟨v, rfl, hp, hw, rfl⟩ | ⟨v, g, rfl, hp, hg, rfl⟩ := step_cases hs
  · -- a call begins
    refine hI.quiet (fun g => ?_) (fun g prev hg => ?_) (fun g hg => ?_) rfl (by simp)
    · by_cases hgh : g = h
      · subst hgh
        rw [Function.update_self]
        exact ⟨[], by simp [sinceLast_concat, Event.isCall], rfl⟩
      · rw [Function.update_of_ne hgh]
        exact (hI.calls g).concat (by simpa [Event.isCall] using Ne.symm hgh) rfl
    · by_cases hgh : g = h
      · subst hgh
        simp at hg
      · rwa [Function.update_of_ne hgh] at hg
    · apply hI.free g
      intro prev hprev
      by_cases hgh : g = h
      · subst hgh
        simp [hp] at hprev
      · exact hg prev (by rwa [Function.update_of_ne hgh])
  · subst hw
    exact hI.install hd hp
  · -- a request fails
    refine hI.quiet (fun g => ?_) (fun g prev hg => ?_) (fun g hg => ?_) rfl (by simp)
    · by_cases hgh : g = h
      · subst hgh
        rw [Function.update_self]
        have := hI.calls g
        rw [hp] at this
        exact CallOk.concat (x := .exchanging s.word) this rfl rfl
      · rw [Function.update_of_ne hgh]
        exact (hI.calls g).concat rfl rfl
    · by_cases hgh : g = h
      · subst hgh
        simp at hg
      · rwa [Function.update_of_ne hgh] at hg
    · apply hI.free g
      intro prev hprev
      by_cases hgh : g = h
      · subst hgh
        simp [hp] at hprev
      · exact hg prev (by rwa [Function.update_of_ne hgh])
  · exact hI.cleared hd h0 hp hw
  · -- the tail is not the handler's own
    exact hI.quiet (fun g => (hI.calls g).concat rfl rfl) (fun g prev hg => hg) hI.free rfl (by simp)
  · -- the handler hands over
    refine hI.quiet (fun g' => ?_) (fun g' prev hg' => ?_) (fun g' hg' => ?_) rfl (by simp)
    · by_cases hgh : g' = h
      · subst hgh
        rw [Function.update_self]
        have := hI.calls g'
        rw [hp] at this
        exact CallOk.concat (x := .idle) (.inr this) rfl rfl
      · rw [Function.update_of_ne hgh]
        exact (hI.calls g').concat rfl rfl
    · by_cases hgh : g' = h
      · subst hgh
        simp at hg'
      · rwa [Function.update_of_ne hgh] at hg'
    · by_cases hgh : g' = h
      · subst hgh
        obtain ⟨l, -, ⟨hnone, -⟩ | ⟨-, hne, -⟩⟩ := hI.held g' v hp
        · simp [hg] at hnone
        · exact hne
      · apply hI.free g'
        intro prev hprev
        exact hg' prev (by rwa [Function.update_of_ne hgh])

/-- The invariant holds of every run. -/
theorem Inv.run (hd : Function.Injective d) (h0 : ∀ h, d h ≠ 0) (hr : (system d).Run tr s) :
    Inv d tr s := by
  apply Lts.Run.invariant _ _ hr
  · rintro s ⟨hw, hidle⟩
    refine ⟨fun h => ?_, fun h prev hp => ?_, fun h _ => ?_, fun hne => absurd hw hne, hw.symm⟩
    · rw [hidle h]
      exact .inl rfl
    · simp [hidle h] at hp
    · rw [hw]
      exact (h0 h).symm
  · rintro tr s e s' - hI ⟨h, a, e', hs, rfl⟩
    exact hI.step hd h0 hs

end Run

end Exchange

end Memory

end Farlock
