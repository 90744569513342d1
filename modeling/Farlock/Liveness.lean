import Farlock.Algorithm
import Farlock.Unfolding

/-!
# Lock algorithms that starve nobody

A lock algorithm that refines the abstract lock lets everybody into the critical section who has taken
a place in a queue, if its handlers go on by themselves: a handler that is not in the loop for the
section comes on with every access while its acquisition is ready, and a handler in that loop leaves
it while one of the two words that it looks at allows it.

* `LoopStep`: the accesses in the loop of `LockPetersons`, and how they lead to the exit;
* `Lively`: what is asked of a lock algorithm;
* `Lively.unfolding`: what a fair execution shows of one lock;
* `Lively.served`: whoever exchanges the tail of a queue enters and leaves.
-/

namespace Farlock

open Spec TwoParty

variable {H L D F : Type}

/-! ### The loop of `LockPetersons` -/

/-- The loads in a round of the loop: those of a local handler, which loads one word after the other,
and those of a remote one, whose 16-byte read may take either word first. -/
inductive LoopAccess
  | loadFlag
  | loadVictim
  | readPair
  | readFlag
  | readVictim

/-- How far a handler has come in a round of the loop when the word `w` lets it pass: the victim, or
the flag of the other class. -/
def LoopAccess.rank (w : Bool) : LoopAccess → ℕ
  | .loadFlag => if w then 1 else 2
  | .loadVictim => if w then 2 else 1
  | .readPair => 1
  | .readFlag => if w then 0 else 2
  | .readVictim => if w then 2 else 0

theorem LoopAccess.rank_le (w : Bool) (a : LoopAccess) : a.rank w ≤ 2 := by
  cases a <;> cases w <;> decide

/-- An access that does not lead a handler of class `c` out of the loop, and the access after it; `v`
is the victim, and `flag` the flag of the other class. -/
inductive LoopStep (v : Option Side) (flag : Bool) : Side → LoopAccess → LoopAccess → Prop
  | loadFlag : flag = true → LoopStep v flag .loc .loadFlag .loadVictim
  | loadVictim : v = some .loc → LoopStep v flag .loc .loadVictim .loadFlag
  | victimFirst : v = some .rem → LoopStep v flag .rem .readPair .readFlag
  | flagFirst : flag = true → LoopStep v flag .rem .readPair .readVictim
  | readFlag : flag = true → LoopStep v flag .rem .readFlag .readPair
  | readVictim : v = some .rem → LoopStep v flag .rem .readVictim .readPair

/-- Every access leads nearer to the load that lets the handler pass. -/
theorem LoopStep.rank_lt {v : Option Side} {flag : Bool} {c : Side} {a a' : LoopAccess}
    (h : LoopStep v flag c a a') (w : Bool) (hw : if w then v ≠ some c else flag = false) :
    a.rank w < a'.rank w := by
  cases h <;> cases w <;> simp_all [LoopAccess.rank]

/-! ### Algorithms whose handlers go on -/

variable [DecidableEq H] [DecidableEq L]

/-- A lock algorithm that refines the abstract lock and whose handlers go on.  `rank` grows with the
accesses of a handler that is ready, outside of the loop for the section; `loop` gives the accesses of
a handler in that loop. -/
structure Lively (C : Cluster H L) (D F : Type) where
  start : L → F
  exec : State H L D F → H → F → Bool → Option (State H L D F × Option (L × Event H UInt64))
  view : View H L D F
  config : Config
  rank : Side → F → ℕ
  loop : F → Option LoopAccess
  limit : ℕ
  start_lock : ∀ l, view.lock (start l) = l
  simulated : ∀ {tr s}, (State.system start exec).Run tr s → ∃ k pos, Sim view config C tr s k pos
  access : ∀ {s h f b s' x}, exec s h f b = some (s', x) →
    ∃ t, s'.thread = Function.update s.thread h t ∧ Access C view h f t x
  phase_le : ∀ {s h f b s' x f'}, exec s h f b = some (s', x) → s'.thread h = .busy f' →
    (view.phase f).rank ≤ (view.phase f').rank
  rank_le : ∀ c f, rank c f ≤ limit
  climbs : ∀ {tr s k pos h f b s' x f'}, Sim view config C tr s k pos → s.thread h = .busy f →
    view.phase f ≠ .absent → view.phase f ≠ .waiting →
    (k (view.lock f)).Ready (C.side h (view.lock f)) (pos h) →
    exec s h f b = some (s', x) → s'.thread h = .busy f' → view.phase f' = view.phase f →
    rank (C.side h (view.lock f)) f < rank (C.side h (view.lock f)) f'
  loops : ∀ {tr s k pos h f b s' x f'}, Sim view config C tr s k pos → s.thread h = .busy f →
    view.phase f = .waiting → exec s h f b = some (s', x) → s'.thread h = .busy f' →
    view.phase f' = .waiting → ∃ a a', loop f = some a ∧ loop f' = some a' ∧
      LoopStep (s.locks (view.lock f)).victim
        ((s.locks (view.lock f)).flag (other (C.side h (view.lock f)))) (C.side h (view.lock f)) a a'

namespace Lively

variable {C : Cluster H L} (A : Lively C D F) (P : State.Runs A.start A.exec) {n m : ℕ} {l : L}
  {c : Side} {p : ℕ} {h : H} {f f' : F}

theorem exists_sim (n : ℕ) : ∃ x : (L → Spec.State H) × (H → ℕ),
    Sim A.view A.config C (P.trace n) (P.state n) x.1 x.2 := by
  obtain ⟨k, pos, hS⟩ := A.simulated (Clients.run_trace P n)
  exact ⟨(k, pos), hS⟩

/-- The abstract states of the locks at time `n`, and the places of the handlers. -/
noncomputable def abstract (n : ℕ) : (L → Spec.State H) × (H → ℕ) := (A.exists_sim P n).choose

theorem sim (n : ℕ) :
    Sim A.view A.config C (P.trace n) (P.state n) (A.abstract P n).1 (A.abstract P n).2 :=
  (A.exists_sim P n).choose_spec

/-- What happens on lock `l` in step `n`. -/
theorem onLock_succ (n : ℕ) : onLock l (P.trace (n + 1)) =
    onLock l (P.trace n) ++ (onLock l (P.event n).toList) := onLock_append l _ _

theorem exists_onLock (n : ℕ) : ∃ e : Option (Event H UInt64),
    onLock l (P.event n).toList = e.toList := by
  cases P.event n with
  | none => exact ⟨none, rfl⟩
  | some x =>
    obtain ⟨l', e⟩ := x
    rw [Option.toList_some, onLock_single]
    split_ifs
    · exact ⟨some e, rfl⟩
    · exact ⟨none, rfl⟩

/-- If nobody is at work on lock `l` at time `n`, and nobody calls it later, nothing happens on it any
more. -/
theorem onLock_eq_of_quiet (hquiet : ∀ h f, (P.state n).thread h = .busy f → A.view.lock f ≠ l)
    (hcall : ∀ m ≥ n, P.act m ≠ .call l) (hm : n ≤ m) :
    onLock l (P.trace m) = onLock l (P.trace n) := by
  suffices h : (∀ h f, (P.state m).thread h = .busy f → A.view.lock f ≠ l) ∧
      onLock l (P.trace m) = onLock l (P.trace n) from h.2
  induction m, hm using Nat.le_induction with
  | base => exact ⟨hquiet, rfl⟩
  | succ m hm ih =>
    obtain ⟨hother, heq⟩ := ih
    rw [A.onLock_succ P m, heq]
    obtain ⟨l', ha, -, hx, hs⟩ | ⟨b, f, -, hf, hx⟩ := State.step_cases (P.next m)
    · rw [hx, hs]
      refine ⟨fun h f hh => ?_, by simp⟩
      rw [goto_thread, Function.update_apply] at hh
      split_ifs at hh
      · obtain rfl := Thread.busy.inj hh
        rw [A.start_lock]
        rintro rfl
        exact hcall m hm ha
      · exact hother h f hh
    · obtain ⟨t, ht, hA⟩ := A.access hx
      refine ⟨fun h g hh => ?_, ?_⟩
      · rw [ht, Function.update_apply] at hh
        split_ifs at hh
        · rw [hA.lock g hh]
          exact hother _ f hf
        · exact hother h g hh
      · cases he : P.event m with
        | none => simp
        | some y =>
          obtain ⟨l', e⟩ := y
          have hl : l' ≠ l := (hA.event l' e he).1 ▸ hother _ f hf
          simp [hl]

/-- So the tickets of the lock are those drawn until then. -/
theorem length_draws_le_of_quiet (hquiet : ∀ h f, (P.state n).thread h = .busy f → A.view.lock f ≠ l)
    (hcall : ∀ m ≥ n, P.act m ≠ .call l) (m : ℕ) :
    (draws (onLock l (P.trace m))).length ≤ (draws (onLock l (P.trace n))).length := by
  obtain hm | hm := le_total m n
  · obtain ⟨tr, htr⟩ := P.trace_mono hm
    exact htr ▸ length_draws_le l (P.trace m) tr
  · rw [A.onLock_eq_of_quiet P hquiet hcall hm]

/-- The thread of a handler changes with its own steps only. -/
theorem thread_of_ne (hh : P.agent n ≠ h) : (P.state (n + 1)).thread h = (P.state n).thread h := by
  obtain ⟨l, -, -, -, hs⟩ | ⟨b, f, -, -, hx⟩ := State.step_cases (P.next n)
  · rw [hs, goto_thread, Function.update_of_ne hh.symm]
  · obtain ⟨t, ht, -⟩ := A.access hx
    rw [ht, Function.update_of_ne hh.symm]

/-- A step of a handler at work is an access. -/
theorem exists_exec (hh : P.agent n = h) (hf : (P.state n).thread h = .busy f) :
    ∃ b, A.exec (P.state n) h f b = some (P.state (n + 1), P.event n) := by
  subst hh
  obtain ⟨l, -, hidle, -, -⟩ | ⟨b, f', -, hf', hx⟩ := State.step_cases (P.next n)
  · rw [hf] at hidle
    cases hidle
  · obtain rfl : f' = f := by simpa using hf'.symm.trans hf
    exact ⟨b, hx⟩

/-- A handler in a queue keeps its place. -/
theorem place_succ (hf : (P.state n).thread h = .busy f) (hq : A.view.phase f ≠ .absent)
    (hf' : (P.state (n + 1)).thread h = .busy f') (hq' : A.view.phase f' ≠ .absent)
    (hl : A.view.lock f' = A.view.lock f) : (A.abstract P (n + 1)).2 h = (A.abstract P n).2 h := by
  rw [← (A.sim P n).place_eq hf hq, ← (A.sim P (n + 1)).place_eq hf' hq', hl, A.onLock_succ P n]
  cases he : P.event n with
  | none => simp [onLock]
  | some x =>
    obtain ⟨l', e⟩ := x
    rw [Option.toList_some, onLock_single]
    split_ifs with hlock
    · -- it is not this handler that arrives
      have hne : ∀ d, e ≠ .arrive d h := by
        rintro d rfl
        obtain ⟨l₁, -, -, hx, -⟩ | ⟨b, g, -, hg, hx⟩ := State.step_cases (P.next n)
        · rw [he] at hx
          cases hx
        · obtain ⟨t, -, hA⟩ := A.access hx
          obtain ⟨-, hwho, -⟩ := hA.event _ _ he
          rw [← hwho] at hg
          obtain rfl : g = f := by simpa [Event.who] using hg.symm.trans hf
          exact hA.arrived hq _ d h he
      rw [register_snoc]
      cases e with
      | arrive d g =>
        simp only [Register.next]
        rw [Function.update_of_ne]
        rintro rfl
        exact hne d rfl
      | _ => rfl
    · rw [List.append_nil]

/-- The acquisition of a handler in a queue has the phase of the handler. -/
theorem phase_eq (hf : (P.state n).thread h = .busy f) (hq : A.view.phase f ≠ .absent) :
    (((A.abstract P n).1 (A.view.lock f)).acq (C.side h (A.view.lock f))
      ((A.abstract P n).2 h)).phase = A.view.phase f :=
  A.view.phase_eq ((A.sim P n).queued h f hf hq)

/-- After one step a handler in a queue is still there, or its acquisition is gone. -/
theorem next_cases (hf : (P.state n).thread h = .busy f) (hq : A.view.phase f ≠ .absent) :
    (∃ f', (P.state (n + 1)).thread h = .busy f' ∧ A.view.lock f' = A.view.lock f ∧
      A.view.phase f' ≠ .absent ∧ (A.view.phase f).rank ≤ (A.view.phase f').rank) ∨
    (((A.abstract P (n + 1)).1 (A.view.lock f)).acq (C.side h (A.view.lock f))
      ((A.abstract P n).2 h)).phase = .gone := by
  by_cases hh : P.agent n = h
  · obtain ⟨b, hx⟩ := A.exists_exec P hh hf
    obtain ⟨t, ht, hA⟩ := A.access hx
    have hth : (P.state (n + 1)).thread h = t := by rw [ht, Function.update_self]
    cases t with
    | busy f' => exact Or.inl ⟨f', hth, hA.lock f' rfl, hA.present hq f' rfl, A.phase_le hx hth⟩
    | idle =>
      right
      by_contra hng
      have hw := A.view.who ((A.sim P n).queued h f hf hq)
      have hM := (A.sim P (n + 1)).shows (A.view.lock f)
      rw [A.onLock_succ P n] at hM
      obtain ⟨f', hf', -⟩ :=
        (A.sim P (n + 1)).active _ _ _ _ (((A.sim P n).shows _).who_append hM hw) hng
      rw [hth] at hf'
      cases hf'
  · exact Or.inl ⟨f, (A.thread_of_ne P hh).trans hf, rfl, hq, le_rfl⟩

/-- Acquisitions go forward. -/
theorem rank_succ (n : ℕ) (c : Side) (p : ℕ) :
    (((A.abstract P n).1 l).acq c p).rank ≤ (((A.abstract P (n + 1)).1 l).acq c p).rank := by
  by_cases hact : (((A.abstract P n).1 l).acq c p).Active
  · obtain ⟨g, f, hf, rfl, rfl, rfl, hq⟩ := (A.sim P n).exists_handler hact
    rw [Acq.rank, A.phase_eq P hf hq]
    obtain ⟨f', hf', hl, hq', hle⟩ | hg := A.next_cases P hf hq
    · have hph := A.phase_eq P hf' hq'
      rw [hl, A.place_succ P hf hq hf' hq' hl] at hph
      rwa [Acq.rank, hph]
    · rw [Acq.rank, hg]
      cases A.view.phase f <;> decide
  · rcases not_and_or.1 hact with h | h <;> rw [not_not] at h
    · rw [Acq.rank, h]
      exact Nat.zero_le _
    · -- who is gone stays away
      have hM := (A.sim P (n + 1)).shows l
      have hleft := ((A.sim P n).shows l).mem_leaves.2 h
      rw [A.onLock_succ P n] at hM
      rw [Acq.rank, h]
      exact gone_iff_rank.1 (hM.mem_leaves.1 ((marks_grow _ _ _).subset hleft))

/-- How far a handler has come in a round of the loop for the section. -/
def loopRank (w : Bool) (f : F) : ℕ := (A.loop f).elim 0 (LoopAccess.rank w)

theorem loopRank_le (w : Bool) (f : F) : A.loopRank w f ≤ 2 := by
  unfold loopRank
  cases A.loop f with
  | none => exact Nat.zero_le _
  | some a => exact a.rank_le w

/-- In the loop every access of a handler leads nearer to the load that lets it pass. -/
theorem loopRank_lt (w : Bool) {tr : List (L × Event H UInt64)} {s s' : State H L D F}
    {k : L → Spec.State H} {pos : H → ℕ} {b : Bool} {x : Option (L × Event H UInt64)}
    (hS : Sim A.view A.config C tr s k pos) (hf : s.thread h = .busy f)
    (hp : A.view.phase f = .waiting)
    (hw : if w then (k (A.view.lock f)).pet.victim ≠ some (C.side h (A.view.lock f))
      else (k (A.view.lock f)).pet.stage (other (C.side h (A.view.lock f))) = .idle)
    (hx : A.exec s h f b = some (s', x)) (hf' : s'.thread h = .busy f')
    (hp' : A.view.phase f' = .waiting) : A.loopRank w f < A.loopRank w f' := by
  obtain ⟨a, a', ha, ha', hstep⟩ := A.loops hS hf hp hx hf' hp'
  rw [loopRank, loopRank, ha, ha']
  refine hstep.rank_lt w ?_
  -- one of the two words is as it should be
  rw [(hS.words _).victim, (hS.words _).flag]
  cases w <;> simpa using hw

/-- A handler cannot go on for ever without getting on. -/
theorem not_forever (hP : P.Fair State.Busy) {r : F → ℕ} {limit : ℕ} (hr : ∀ f, r f ≤ limit)
    (hact : ∀ m ≥ n, (((A.abstract P m).1 l).acq c p).Active)
    (hstep : ∀ m ≥ n, ∀ h f f' b, (P.state m).thread h = .busy f → A.view.lock f = l →
      C.side h l = c → (A.abstract P m).2 h = p → A.view.phase f ≠ .absent →
      A.exec (P.state m) h f b = some (P.state (m + 1), P.event m) →
      (P.state (m + 1)).thread h = .busy f' →
      A.view.phase f' = (((A.abstract P (m + 1)).1 l).acq c p).phase → r f < r f') : False := by
  -- the handler of the acquisition is there all the time
  obtain ⟨h, f, hf, rfl, rfl, rfl, hq⟩ := (A.sim P n).exists_handler (hact n le_rfl)
  have hall : ∀ m ≥ n, ∃ g, (P.state m).thread h = .busy g ∧ A.view.lock g = A.view.lock f ∧
      (A.abstract P m).2 h = (A.abstract P n).2 h ∧ A.view.phase g ≠ .absent := by
    intro m hm
    induction m, hm using Nat.le_induction with
    | base => exact ⟨f, hf, rfl, rfl, hq⟩
    | succ m hm ih =>
      obtain ⟨g, hg, hl, hp, hqg⟩ := ih
      obtain ⟨g', hg', hl', hq', -⟩ | hgone := A.next_cases P hg hqg
      · exact ⟨g', hg', hl'.trans hl, (A.place_succ P hg hqg hg' hq' hl').trans hp, hq'⟩
      · rw [hl, hp] at hgone
        exact absurd hgone (hact (m + 1) (by omega)).2
  obtain ⟨-, -, hfalse⟩ := hP.reach (I := fun _ => True) (Q := fun _ => False) (h := h)
    (fun m => ((P.state m).thread h).rank r) limit (n := n) trivial
    (fun m hm _ => by
      obtain ⟨g, hg, -⟩ := hall m hm
      exact ⟨g, hg⟩)
    (fun m _ _ => Thread.rank_le hr _)
    (fun m hm _ => by
      right
      obtain ⟨g, hg, hl, hp, hqg⟩ := hall m hm
      obtain ⟨g', hg', hl', hp', hqg'⟩ := hall (m + 1) (by omega)
      by_cases hh : P.agent m = h
      · obtain ⟨b, hx⟩ := A.exists_exec P hh hg
        have hph := A.phase_eq P hg' hqg'
        rw [hl', hp'] at hph
        have hlt := hstep m hm h g g' b hg hl rfl hp hqg hx hg' hph.symm
        simp only [hg, hg', Thread.rank_busy]
        exact ⟨trivial, hlt.le, fun _ => hlt⟩
      · simp only [A.thread_of_ne P hh]
        exact ⟨trivial, le_rfl, fun h => absurd h hh⟩)
  exact hfalse

/-- What a fair execution shows of lock `l`. -/
noncomputable def unfolding (hP : P.Fair State.Busy) (l : L) : Unfolding H A.config where
  events n := onLock l (P.trace n)
  state n := (A.abstract P n).1 l
  shows n := (A.sim P n).shows l
  grows n := by
    obtain ⟨e, he⟩ := A.exists_onLock P (l := l) n
    exact ⟨e, by rw [A.onLock_succ P n, he]⟩
  rank_le n c p := A.rank_succ P n c p
  goes n c p hw hready := by
    by_contra hno
    push Not at hno
    refine A.not_forever P hP (A.rank_le c) (fun m hm => (ready_iff.1 (hready m hm)).1) ?_
    rintro m hm h f f' b hf rfl rfl rfl hq hx hf' hph'
    have hph := A.phase_eq P hf hq
    rw [hno m hm] at hph
    refine A.climbs (A.sim P m) hf hq (hph ▸ hw) (hready m hm) hx hf' ?_
    rw [hph', hno (m + 1) (by omega), hph]
  passes n c p hw hlets := by
    by_contra hno
    push Not at hno
    obtain ⟨w, hw'⟩ : ∃ w : Bool, ∀ m ≥ n, if w then ((A.abstract P m).1 l).pet.victim ≠ some c
        else ((A.abstract P m).1 l).pet.stage (other c) = .idle := by
      rcases hlets with hv | hi
      · exact ⟨true, by simpa using hv⟩
      · exact ⟨false, by simpa using hi⟩
    refine A.not_forever P (n := n) (l := l) (c := c) (p := p) hP (A.loopRank_le w)
      (fun m hm => ?_) ?_
    · rw [Acq.Active, hno m hm]
      simp
    · rintro m hm h f f' b hf rfl rfl rfl hq hx hf' hph'
      have hph := A.phase_eq P hf hq
      refine A.loopRank_lt w (A.sim P m) hf (hph.symm.trans (hno m hm)) (hw' m hm) hx hf' ?_
      rw [hph', hno (m + 1) (by omega)]

/-- In a fair execution, whoever exchanges the tail of a queue enters the critical section at some time
and leaves it later, unless so many tickets are drawn that one of them looks like none. -/
theorem served (hP : P.Fair State.Busy)
    (hb : ∀ m, ∀ t ≤ (draws (onLock l (P.trace m))).length, A.config.blind t = false)
    (he : P.event n = some (l, .arrive c h)) :
    ∃ m > n, (∃ t, P.event m = some (l, .enter c h t)) ∧
      ∃ i > m, P.event i = some (l, .leave c h) := by
  set U := A.unfolding P hP l with hU
  have hevent : ∀ {m e}, U.events (m + 1) = U.events m ++ [e] ↔ P.event m = some (l, e) := by
    intro m e
    change onLock l (P.trace (m + 1)) = onLock l (P.trace m) ++ [e] ↔ _
    rw [A.onLock_succ P m, List.append_cancel_left_eq]
    cases P.event m with
    | none => simp [onLock]
    | some x =>
      obtain ⟨l', e'⟩ := x
      rw [Option.toList_some, onLock_single]
      split_ifs with hl
      · simp [hl]
      · simp [hl]
  obtain ⟨m, hm, ⟨t, ht⟩, i, hi, hl⟩ := U.exists_entry (fun m t ht => hb m t <| by
    rwa [← (U.shows m).length_draws] at ht) (hevent.2 he)
  exact ⟨m, hm, ⟨t, hevent.1 ht⟩, i, hi, hevent.1 hl⟩

end Lively

end Farlock
