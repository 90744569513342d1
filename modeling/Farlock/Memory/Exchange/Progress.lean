import Mathlib
import Farlock.Memory.Exchange.Queue
import Farlock.Lib.Fair

/-!
# How long a call of `Exchange` takes (`include/rdma/memory_pool.h`)

A request of `Exchange` fails only if the tail word is not what the request before has found, so that
somebody else has changed it in between; the first one may fail because of its hint.

* `failed_le`: the failed requests of a call are at most one more than the changes by others;
* `lock_free`: as long as somebody is in `Exchange`, somebody gets through;
* `not_wait_free`: a single handler may fail for ever.
-/

namespace Farlock

namespace Memory

namespace Exchange

variable {H : Type} [DecidableEq H]

/-- A request of `h` fails. -/
def Event.isFailed (h : H) : Event H → Bool
  | .failed g => g = h
  | _ => false

/-- A handler other than `h` changes the tail word. -/
def Event.isChange (h : H) : Event H → Bool
  | .install g _ => g ≠ h
  | .cleared g => g ≠ h
  | _ => false

/-! ### Failed requests -/

/-- Whether the next request of `h` would fail. -/
def slack (s : State H) (h : H) : ℕ :=
  match s.phase h with
  | .exchanging expected => if s.word = expected then 0 else 1
  | _ => 0

omit [DecidableEq H] in
theorem slack_le (s : State H) (h : H) : slack s h ≤ 1 := by
  unfold slack
  cases s.phase h with
  | exchanging expected =>
    dsimp only
    split_ifs <;> omega
  | idle => exact Nat.zero_le _
  | holding prev => exact Nat.zero_le _

variable {d : H → UInt64} {s s' : State H} {tr : List (Event H)} {e : Event H} {a : Act H} {g h : H}

/-- Only who takes a step changes its phase. -/
theorem phase_of_ne (hs : step d s g a = some (s', e)) (hgh : h ≠ g) : s'.phase h = s.phase h := by
  obtain ⟨_, -, -, rfl⟩ | ⟨_, -, -, -, rfl⟩ | ⟨_, -, -, -, rfl⟩ | ⟨_, -, -, -, rfl⟩ |
    ⟨_, -, -, -, rfl⟩ | ⟨_, _, -, -, -, rfl⟩ := step_cases hs
  · exact Function.update_of_ne hgh _ _
  · exact Function.update_of_ne hgh _ _
  · exact Function.update_of_ne hgh _ _
  · exact Function.update_of_ne hgh _ _
  · rfl
  · exact Function.update_of_ne hgh _ _

omit [DecidableEq H] in
/-- The slack of a handler in the same phase under the same word. -/
theorem slack_congr (hw : s'.word = s.word) (hp : s'.phase h = s.phase h) : slack s' h = slack s h := by
  rw [slack, slack, hw, hp]

/-- A failed request uses the slack up, and only a change by another handler makes a new one. -/
theorem slack_step (hs : step d s g a = some (s', e)) (he : e.isCall h = false) :
    (if e.isFailed h then 1 else 0) + slack s' h ≤ (if e.isChange h then 1 else 0) + slack s h := by
  have hle := slack_le s' h
  by_cases hgh : h = g
  · subst hgh
    obtain ⟨_, rfl, -, -⟩ | ⟨_, rfl, -, -, rfl⟩ | ⟨v, rfl, hp, hw, rfl⟩ | ⟨_, rfl, -, -, rfl⟩ |
      ⟨_, rfl, hp, -, rfl⟩ | ⟨_, _, rfl, -, -, rfl⟩ := step_cases hs
    · simp [Event.isCall] at he
    · simp [slack, Event.isFailed]
    · simp [slack, Event.isFailed, Event.isChange, hp, hw]
    · simp [slack, Event.isFailed]
    · simp [slack, Event.isFailed]
    · simp [slack, Event.isFailed]
  · have hne := Ne.symm hgh
    have hp := phase_of_ne hs hgh
    obtain ⟨_, rfl, -, hs'⟩ | ⟨v, rfl, -⟩ | ⟨_, rfl, -, -, hs'⟩ | ⟨_, rfl, -⟩ | ⟨_, rfl, -, -, hs'⟩ |
      ⟨_, _, rfl, -, -, hs'⟩ := step_cases hs
    · rw [slack_congr (by rw [hs']) hp]
      simp [Event.isFailed]
    · have hc : Event.isChange h (.install g v) = true := by simp [Event.isChange, hne]
      rw [hc, if_pos rfl]
      simpa [Event.isFailed] using le_add_right hle
    · rw [slack_congr (by rw [hs']) hp]
      simp [Event.isFailed, hne]
    · have hc : Event.isChange h (.cleared g) = true := by simp [Event.isChange, hne]
      rw [hc, if_pos rfl]
      simpa [Event.isFailed] using le_add_right hle
    · rw [slack_congr (by rw [hs']) hp]
      simp [Event.isFailed]
    · rw [slack_congr (by rw [hs']) hp]
      simp [Event.isFailed]

/-- In every run, of the requests of a handler since its last call of `Exchange` at most one more have
failed than other handlers have changed the tail word. -/
theorem failed_le (hr : (system d).Run tr s) {l : List (Event H)}
    (hl : sinceLast (Event.isCall h) tr = some l) :
    l.countP (Event.isFailed h) + slack s h ≤ l.countP (Event.isChange h) + 1 := by
  refine hr.invariant (I := fun tr s => ∀ l, sinceLast (Event.isCall h) tr = some l →
    l.countP (Event.isFailed h) + slack s h ≤ l.countP (Event.isChange h) + 1) ?_ ?_ l hl
  · intro s _ l hl
    simp at hl
  · rintro tr s e s' - hI ⟨g, a, e, hs, rfl⟩ l hl
    rw [Option.toList_some, sinceLast_concat] at hl
    split_ifs at hl with hc
    · obtain rfl := Option.some.inj hl
      simpa using slack_le s' h
    · obtain ⟨l₀, hl₀, rfl⟩ := Option.map_eq_some_iff.1 hl
      have hle := hI l₀ hl₀
      have hstep := slack_step hs (Bool.eq_false_iff.2 hc)
      rw [List.countP_append, List.countP_append, List.countP_singleton, List.countP_singleton]
      omega

/-- The second handler expects null and finds the first one's value. -/
def twoInstalled : List (Event Bool) :=
  [.call true 0, .call false 0, .install true 0, .failed false, .install false 1]

/-- The second handler has failed once, after the first one has installed its value. -/
theorem failed_le_two : ∃ s l, (system twoValues).Run twoInstalled s ∧
    sinceLast (Event.isCall false) twoInstalled = some l ∧ l.countP (Event.isFailed false) = 1 ∧
      l.countP (Event.isFailed false) + slack s false ≤ l.countP (Event.isChange false) + 1 := by
  have h0 : (system twoValues).Run [] ⟨0, fun _ => .idle, fun _ => none⟩ := .start ⟨rfl, fun _ => rfl⟩
  have h1 := h0.next ⟨true, .call 0, _, rfl, rfl⟩
  have h2 := h1.next ⟨false, .call 0, _, rfl, rfl⟩
  have h3 := h2.next ⟨true, .request, _, rfl, rfl⟩
  have h4 := h3.next ⟨false, .request, _, rfl, rfl⟩
  have h5 := h4.next ⟨false, .request, _, rfl, rfl⟩
  exact ⟨_, _, h5, rfl, rfl, failed_le h5 rfl⟩

/-! ### Endless executions -/

/-- A step of handler `h`, which can always be seen. -/
def attempt (d : H → UInt64) (s : State H) (h : H) (a : Act H) : Option (State H × Option (Event H)) :=
  (step d s h a).map fun x => (x.1, some x.2)

/-- Endless executions. -/
abbrev Runs (d : H → UInt64) : Type := Execution (system d).init (attempt d)

/-- The handler is in `Exchange`; it is up to a handler how long it keeps its place. -/
def Busy (s : State H) (h : H) : Prop := ∃ expected, s.phase h = .exchanging expected

section Endless

variable (P : Runs d) {n m i : ℕ}

theorem exists_step (n : ℕ) : ∃ e, P.event n = some e ∧
    step d (P.state n) (P.agent n) (P.act n) = some (P.state (n + 1), e) := by
  obtain ⟨⟨s', e⟩, hs, heq⟩ := Option.map_eq_some_iff.1 (P.next n)
  obtain ⟨rfl, he⟩ := Prod.mk.injEq .. ▸ heq
  exact ⟨e, he.symm, hs⟩

variable {P}

/-- What the next step of a handler in `Exchange` does. -/
theorem request_cases {expected : UInt64} (hp : (P.state n).phase h = .exchanging expected)
    (hag : P.agent n = h) :
    (P.state n).word = expected ∧ P.event n = some (.install h expected) ∨
      (P.state n).word ≠ expected ∧
        (P.state (n + 1)).phase h = .exchanging (P.state n).word := by
  obtain ⟨e, he, hs⟩ := exists_step P n
  rw [hag] at hs
  obtain ⟨_, -, hq, -⟩ | ⟨v, rfl, hq, hw, -⟩ | ⟨v, -, hq, hw, hs'⟩ | ⟨_, -, hq, -⟩ | ⟨_, -, hq, -⟩ |
    ⟨_, _, -, hq, -⟩ := step_cases hs
  · simp [hp] at hq
  · obtain rfl := Phase.exchanging.inj (hp.symm.trans hq)
    exact Or.inl ⟨hw, he⟩
  · obtain rfl := Phase.exchanging.inj (hp.symm.trans hq)
    refine Or.inr ⟨hw, ?_⟩
    rw [hs']
    exact Function.update_self ..
  · simp [hp] at hq
  · simp [hp] at hq
  · simp [hp] at hq

/-- Without installations a handler stays in the loop; its own request leaves it with the tail word. -/
theorem exchanging_succ {expected : UInt64} (hno : ∀ g prev, P.event n ≠ some (.install g prev))
    (hp : (P.state n).phase h = .exchanging expected) :
    P.agent n ≠ h ∧ (P.state (n + 1)).phase h = .exchanging expected ∨
      (P.state (n + 1)).phase h = .exchanging (P.state n).word := by
  by_cases hag : P.agent n = h
  · obtain ⟨-, he⟩ | ⟨-, hp'⟩ := request_cases hp hag
    · exact absurd he (hno _ _)
    · exact Or.inr hp'
  · obtain ⟨e, -, hs⟩ := exists_step P n
    exact Or.inl ⟨hag, (phase_of_ne hs (Ne.symm hag)).trans hp⟩

/-- Without installations the tail word can only become null. -/
theorem word_succ (hno : ∀ g prev, P.event n ≠ some (.install g prev)) :
    (P.state (n + 1)).word = (P.state n).word ∨ (P.state (n + 1)).word = 0 := by
  obtain ⟨e, he, hs⟩ := exists_step P n
  obtain ⟨_, -, -, hs'⟩ | ⟨v, rfl, -⟩ | ⟨_, -, -, -, hs'⟩ | ⟨_, -, -, -, hs'⟩ | ⟨_, -, -, -, hs'⟩ |
    ⟨_, _, -, -, -, hs'⟩ := step_cases hs
  · exact Or.inl (by rw [hs'])
  · exact absurd he (hno _ _)
  · exact Or.inl (by rw [hs'])
  · exact Or.inr (by rw [hs'])
  · exact Or.inl (by rw [hs'])
  · exact Or.inl (by rw [hs'])

/-- So it stays the same from some time on. -/
theorem exists_word_const (hno : ∀ m ≥ n, ∀ g prev, P.event m ≠ some (.install g prev)) :
    ∃ i ≥ n, ∀ m ≥ i, (P.state m).word = (P.state i).word := by
  by_cases hnull : ∃ i ≥ n, (P.state i).word = 0
  · obtain ⟨i, hi, h0⟩ := hnull
    refine ⟨i, hi, fun m hm => ?_⟩
    induction m, hm using Nat.le_induction with
    | base => rfl
    | succ m hm ih =>
      obtain hw | hw := word_succ (hno m (hi.trans hm))
      · rw [hw, ih]
      · rw [hw, h0]
  · refine ⟨n, le_rfl, fun m hm => ?_⟩
    induction m, hm using Nat.le_induction with
    | base => rfl
    | succ m hm ih =>
      obtain hw | hw := word_succ (hno m hm)
      · rw [hw, ih]
      · exact absurd ⟨m + 1, by omega, hw⟩ hnull

/-- In every fair execution, while a handler is in `Exchange`, some handler installs its value at some
time. -/
theorem lock_free (P : Runs d) (hP : P.Fair Busy) (n : ℕ) (h : H) (hh : Busy (P.state n) h) :
    ∃ m ≥ n, ∃ g prev, P.event m = some (.install g prev) := by
  by_contra hnone
  have hno : ∀ m ≥ n, ∀ g prev, P.event m ≠ some (.install g prev) := fun m hm g prev he =>
    hnone ⟨m, hm, g, prev, he⟩
  -- the handler stays in the loop
  have hbusy : ∀ m ≥ n, Busy (P.state m) h := by
    intro m hm
    induction m, hm using Nat.le_induction with
    | base => exact hh
    | succ m hm ih =>
      obtain ⟨expected, hp⟩ := ih
      obtain ⟨-, hp'⟩ | hp' := exchanging_succ (hno m hm) hp
      · exact ⟨_, hp'⟩
      · exact ⟨_, hp'⟩
  obtain ⟨i, hi, hconst⟩ := exists_word_const hno
  -- its next request finds the word that stays
  obtain ⟨m, hm, hag⟩ := hP h i fun m hm => hbusy m (hi.trans hm)
  have hfound : ∀ j ≥ m + 1, (P.state j).phase h = .exchanging (P.state i).word := by
    intro j hj
    induction j, hj using Nat.le_induction with
    | base =>
      obtain ⟨expected, hp⟩ := hbusy m (by omega)
      obtain ⟨hne, -⟩ | hp' := exchanging_succ (hno m (by omega)) hp
      · exact absurd hag hne
      · rw [hp', hconst m hm]
    | succ j hj ih =>
      obtain ⟨-, hp'⟩ | hp' := exchanging_succ (hno j (by omega)) ih
      · exact hp'
      · rw [hp', hconst j (by omega)]
  -- and the one after that succeeds
  obtain ⟨j, hj, hag'⟩ := hP h (m + 1) fun j hj => hbusy j (by omega)
  obtain ⟨-, he⟩ | ⟨hw, -⟩ := request_cases (hfound j hj) hag'
  · exact hno j (by omega) _ _ he
  · exact hw (hconst j (by omega))

end Endless

/-! ### A handler that fails for ever -/

section Unfair

/-- Handler `g` installs its value and swaps it back to null in three steps; `h` has a request after
the second and one after the third. -/
def cycle (d : H → UInt64) (g h : H) (k : ℕ) : State H where
  word := if k = 2 ∨ k = 3 then d g else 0
  phase x :=
    if x = h then .exchanging (if k = 3 ∨ k = 4 then d g else 0)
    else if x = g then
      match k with
      | 1 => .exchanging 0
      | 2 | 3 => .holding 0
      | _ => .idle
    else .idle
  receiver _ := none

theorem cycle_eq {k j : ℕ} {x : H} {w : UInt64} {r : H → Option H} {p : Phase} {e : Event H}
    (hw : w = (cycle d g h j).word) (hp : p = (cycle d g h j).phase x) (hr : r = fun _ => none)
    (hne : ∀ y ≠ x, (cycle d g h j).phase y = (cycle d g h k).phase y) :
    some ((⟨w, Function.update (cycle d g h k).phase x p, r⟩ : State H), e) =
      some (cycle d g h j, e) := by
  subst hw hp hr
  have hphase : Function.update (cycle d g h k).phase x ((cycle d g h j).phase x) =
      (cycle d g h j).phase := by
    funext y
    by_cases hy : y = x
    · subst hy
      exact Function.update_self ..
    · rw [Function.update_of_ne hy, hne y hy]
  rw [hphase]
  rfl

/-- The steps of the cycle. -/
def cycleAct (k : ℕ) : Act H :=
  match k with
  | 0 => .call 0
  | 3 => .compareAndSwap
  | _ => .request

/-- What happens in the cycle. -/
def cycleEvent (g h : H) (k : ℕ) : Event H :=
  match k with
  | 0 => .call g 0
  | 1 => .install g 0
  | 3 => .cleared g
  | _ => .failed h

/-- One step of the cycle. -/
theorem cycle_step (h0 : ∀ x, d x ≠ 0) (hgh : g ≠ h) {k : ℕ} (hk : k < 5) :
    attempt d (cycle d g h k) (if k = 2 ∨ k = 4 then h else g) (cycleAct k) =
      some (cycle d g h ((k + 1) % 5), some (cycleEvent g h k)) := by
  have hg := h0 g
  obtain rfl | rfl | rfl | rfl | rfl : k = 0 ∨ k = 1 ∨ k = 2 ∨ k = 3 ∨ k = 4 := by omega
  · have hp : (cycle d g h 0).phase g = .idle := by simp [cycle, hgh]
    have hs : step d (cycle d g h 0) g (.call 0) = some (cycle d g h 1, .call g 0) := by
      simp only [step, hp]
      exact cycle_eq (by simp [cycle]) (by simp [cycle, hgh]) rfl (fun y hy => by simp [cycle, hy])
    simp [attempt, cycleAct, cycleEvent, hs]
  · have hp : (cycle d g h 1).phase g = .exchanging 0 := by simp [cycle, hgh]
    have hw : (cycle d g h 1).word = 0 := by simp [cycle]
    have hs : step d (cycle d g h 1) g .request = some (cycle d g h 2, .install g 0) := by
      simp only [step, hp, hw, if_true]
      exact cycle_eq (by simp [cycle]) (by simp [cycle, hgh]) (by simp [cycle, h0])
        (fun y hy => by simp [cycle, hy])
    simp [attempt, cycleAct, cycleEvent, hs]
  · have hp : (cycle d g h 2).phase h = .exchanging 0 := by simp [cycle]
    have hw : (cycle d g h 2).word = d g := by simp [cycle]
    have hs : step d (cycle d g h 2) h .request = some (cycle d g h 3, .failed h) := by
      simp only [step, hp, hw, if_neg hg]
      exact cycle_eq (by simp [cycle]) (by simp [cycle]) rfl (fun y hy => by simp [cycle, hy])
    simp [attempt, cycleAct, cycleEvent, hs]
  · have hp : (cycle d g h 3).phase g = .holding 0 := by simp [cycle, hgh]
    have hw : (cycle d g h 3).word = d g := by simp [cycle]
    have hs : step d (cycle d g h 3) g .compareAndSwap = some (cycle d g h 4, .cleared g) := by
      simp only [step, hp, hw, if_true]
      exact cycle_eq (by simp [cycle]) (by simp [cycle, hgh]) rfl (fun y hy => by simp [cycle, hy])
    simp [attempt, cycleAct, cycleEvent, hs]
  · have hp : (cycle d g h 4).phase h = .exchanging (d g) := by simp [cycle]
    have hw : (cycle d g h 4).word = 0 := by simp [cycle]
    have hs : step d (cycle d g h 4) h .request = some (cycle d g h 0, .failed h) := by
      simp only [step, hp, hw, if_neg hg.symm]
      exact cycle_eq (by simp [cycle]) (by simp [cycle]) rfl (fun y hy => by simp [cycle, hy])
    simp [attempt, cycleAct, cycleEvent, hs]

/-- The endless execution that goes round in `cycle`. -/
def unfair (h0 : ∀ x, d x ≠ 0) (hgh : g ≠ h) : Runs d where
  state
    | 0 => ⟨0, fun _ => .idle, fun _ => none⟩
    | n + 1 => cycle d g h (n % 5)
  agent
    | 0 => h
    | n + 1 => if n % 5 = 2 ∨ n % 5 = 4 then h else g
  act
    | 0 => .call 0
    | n + 1 => cycleAct (n % 5)
  event
    | 0 => some (.call h 0)
    | n + 1 => some (cycleEvent g h (n % 5))
  start := ⟨rfl, fun _ => rfl⟩
  next
    | 0 => by
      have hphase : Function.update (fun _ => Phase.idle) h (.exchanging 0) =
          (cycle d g h 0).phase := by
        funext x
        by_cases hx : x = h
        · simp [cycle, hx]
        · simp [cycle, hx]
      simp only [attempt, step, hphase, Option.map_some]
      rfl
    | n + 1 => by
      have key := cycle_step h0 hgh (Nat.mod_lt n (by decide : 0 < 5))
      rwa [Nat.mod_add_mod] at key

theorem unfair_fair (h0 : ∀ x, d x ≠ 0) (hgh : g ≠ h) : (unfair h0 hgh).Fair Busy := by
  intro x n hbusy
  by_cases hxg : x = g
  · have hmod : 5 * n % 5 = 0 := by omega
    exact ⟨5 * n + 1, by omega, by simp [unfair, hxg]⟩
  · by_cases hxh : x = h
    · have hmod : (5 * n + 2) % 5 = 2 := by omega
      exact ⟨5 * n + 2 + 1, by omega, by simp [unfair, hxh, hmod]⟩
    · obtain ⟨expected, hp⟩ := hbusy (n + 1) (Nat.le_succ n)
      simp [unfair, cycle, hxg, hxh] at hp

theorem unfair_busy (h0 : ∀ x, d x ≠ 0) (hgh : g ≠ h) {n : ℕ} (hn : 1 ≤ n) :
    Busy ((unfair h0 hgh).state n) h := by
  obtain ⟨n, rfl⟩ : ∃ k, n = k + 1 := ⟨n - 1, by omega⟩
  exact ⟨if n % 5 = 3 ∨ n % 5 = 4 then d g else 0, if_pos rfl⟩

/-- The other one of two handlers gets through. -/
theorem lock_free_two : ∃ P : Runs twoValues, P.Fair Busy ∧ Busy (P.state 1) false ∧
    ∃ m ≥ 1, ∃ g prev, P.event m = some (.install g prev) := by
  have h0 : ∀ x, twoValues x ≠ 0 := by decide
  have hgh : true ≠ false := by decide
  have hbusy := unfair_busy h0 hgh le_rfl
  exact ⟨unfair h0 hgh, unfair_fair h0 hgh, hbusy,
    lock_free (unfair h0 hgh) (unfair_fair h0 hgh) 1 false hbusy⟩

/-- A handler can fail for ever: for any two handlers there is a fair execution in which the one makes
requests of `Exchange` again and again and all of them fail, while the other one installs its value
again and again. -/
theorem not_wait_free (h0 : ∀ x, d x ≠ 0) (hgh : g ≠ h) :
    ∃ P : Runs d, P.Fair Busy ∧ (∀ n, ∃ m ≥ n, P.event m = some (.install g 0)) ∧
      (∀ n, ∃ m ≥ n, P.event m = some (.failed h)) ∧ ∀ n ≥ 1, Busy (P.state n) h := by
  refine ⟨unfair h0 hgh, unfair_fair h0 hgh, fun n => ?_, fun n => ?_,
    fun n hn => unfair_busy h0 hgh hn⟩
  · have hmod : (5 * n + 1) % 5 = 1 := by omega
    exact ⟨5 * n + 1 + 1, by omega, by simp [unfair, cycleEvent, hmod]⟩
  · have hmod : (5 * n + 2) % 5 = 2 := by omega
    exact ⟨5 * n + 2 + 1, by omega, by simp [unfair, cycleEvent, hmod]⟩

theorem not_wait_free_two : ∃ P : Runs twoValues, P.Fair Busy ∧
    (∀ n, ∃ m ≥ n, P.event m = some (.install true 0)) ∧
      (∀ n, ∃ m ≥ n, P.event m = some (.failed false)) ∧ ∀ n ≥ 1, Busy (P.state n) false :=
  not_wait_free (by decide) (by decide)

end Unfair

end Exchange

end Memory

end Farlock
