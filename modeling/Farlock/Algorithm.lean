import Farlock.Simulation
import Farlock.Traces

/-!
# Lock algorithms with budget one

A lock algorithm that refines the abstract lock with budget one shows nothing but what two lines and
a row of tickets show; and if a handler can go on alone while the others stand still, it shows all
of that.  The runs that do so let a handler go on alone from one of its visible events to the next
point where it may stand still.

* `Algorithm`: what is asked of a lock algorithm;
* `Algorithm.lines_of_run`: what is seen of a run comes from two lines and a row;
* `Algorithm.exists_run`: the converse;
* `Algorithm.traces_eq`: what can be seen.
-/

namespace Farlock

open Spec TwoParty

variable {H L D F : Type}

/-- What an access of handler `h` with local data `f` leaves in its thread, `t`, and shows, `x`. -/
structure Access (C : Cluster H L) (V : View H L D F) (h : H) (f : F) (t : Thread F)
    (x : Option (L × Event H UInt64)) : Prop where
  lock : ∀ f', t = .busy f' → V.lock f' = V.lock f
  event : ∀ l e, x = some (l, e) → l = V.lock f ∧ e.who = h ∧ e.side = C.side h l
  seen : ∀ l e, x = some (l, e) → e.Visible = true →
    (V.phase f = .absent ∨ V.phase f = .passed ∨ V.phase f = .queued ∨ V.phase f = .critical) ∧
    ∀ f', t = .busy f' → (V.phase f').rank ≤ 5 ∨ 9 ≤ (V.phase f').rank
  low : (V.phase f).rank ≤ 3 → ∃ f', t = .busy f' ∧ (V.phase f').rank ≤ 5
  high : 9 ≤ (V.phase f).rank → ∀ f', t = .busy f' → 9 ≤ (V.phase f').rank
  present : V.phase f ≠ .absent → ∀ f', t = .busy f' → V.phase f' ≠ .absent
  arrive : V.phase f = .absent → (x = none ∧ ∀ f', t = .busy f' → V.phase f' = .absent) ∨
    (x = some (V.lock f, .arrive (C.side h (V.lock f)) h) ∧
      ∀ f', t = .busy f' → V.phase f' ≠ .absent)
  arrived : V.phase f ≠ .absent → ∀ l c g, x ≠ some (l, .arrive c g)

/-- How the phase may change in an access that is not a tail exchange. -/
def Spec.Phase.Goes (ph ph' : Phase) : Prop :=
  (ph.rank ≤ 3 → ph'.rank ≤ 5) ∧ (9 ≤ ph.rank → 9 ≤ ph'.rank) ∧ (ph = .absent ↔ ph' = .absent)

instance (ph ph' : Phase) : Decidable (ph.Goes ph') :=
  inferInstanceAs (Decidable (_ ∧ _ ∧ _))

theorem Spec.Phase.Goes.loop {ph ph' : Phase} (h : ph = .waiting ∨ ph = .passed)
    (h' : ph' = .waiting ∨ ph' = .passed) : ph.Goes ph' := by
  rcases h with rfl | rfl <;> rcases h' with rfl | rfl <;> decide

namespace Access

variable {C : Cluster H L} {V : View H L D F} {h : H} {f f' : F} {e : Event H UInt64}

theorem quiet (hl : V.lock f' = V.lock f) (hgo : (V.phase f).Goes (V.phase f')) :
    Access C V h f (.busy f') none where
  lock f'' hf := by cases hf; exact hl
  event l e he := by cases he
  seen l e he := by cases he
  low hr := ⟨f', rfl, hgo.1 hr⟩
  high hr f'' hf := by cases hf; exact hgo.2.1 hr
  present hp f'' hf := by cases hf; exact mt hgo.2.2.2 hp
  arrive hp := Or.inl ⟨rfl, fun f'' hf => by cases hf; exact hgo.2.2.1 hp⟩
  arrived _ l c g he := by cases he

theorem shows (hl : V.lock f' = V.lock f) (hp : V.phase f ≠ .absent)
    (hgo : (V.phase f).Goes (V.phase f')) (hwho : e.who = h) (hside : e.side = C.side h (V.lock f))
    (harr : ∀ c g, e ≠ .arrive c g) (hv : e.Visible = true →
      (V.phase f = .passed ∨ V.phase f = .queued ∨ V.phase f = .critical) ∧
        9 ≤ (V.phase f').rank) :
    Access C V h f (.busy f') (some (V.lock f, e)) where
  lock f'' hf := by cases hf; exact hl
  event l e' he := by cases he; exact ⟨rfl, hwho, hside⟩
  seen l e' he hv' := by
    cases he
    exact ⟨Or.inr (hv hv').1, fun f'' hf => by cases hf; exact Or.inr (hv hv').2⟩
  low hr := ⟨f', rfl, hgo.1 hr⟩
  high hr f'' hf := by cases hf; exact hgo.2.1 hr
  present hp f'' hf := by cases hf; exact mt hgo.2.2.2 hp
  arrive hp' := absurd hp' hp
  arrived _ l c g he := harr c g (Prod.mk.inj (Option.some.inj he)).2

theorem hidden (hl : V.lock f' = V.lock f) (hp : V.phase f ≠ .absent)
    (hgo : (V.phase f).Goes (V.phase f')) (hwho : e.who = h) (hside : e.side = C.side h (V.lock f))
    (hv : e.Visible = false) : Access C V h f (.busy f') (some (V.lock f, e)) :=
  .shows hl hp hgo hwho hside (fun c g he => by rw [he] at hv; cases hv)
    fun hv' => by rw [hv] at hv'; cases hv'

theorem arrives (hl : V.lock f' = V.lock f) (hp : V.phase f = .absent) (hp' : V.phase f' ≠ .absent)
    (h5 : (V.phase f').rank ≤ 5) :
    Access C V h f (.busy f') (some (V.lock f, .arrive (C.side h (V.lock f)) h)) where
  lock f'' hf := by cases hf; exact hl
  event l e' he := by cases he; exact ⟨rfl, rfl, rfl⟩
  seen l e' he _ := ⟨Or.inl hp, fun f'' hf => by cases hf; exact Or.inl h5⟩
  low _ := ⟨f', rfl, h5⟩
  high hr := by rw [hp] at hr; exact absurd hr (by decide)
  present hp' := absurd hp hp'
  arrive _ := Or.inr ⟨rfl, fun f'' hf => by cases hf; exact hp'⟩
  arrived hp' := absurd hp hp'

theorem leaves (h14 : (V.phase f).rank = 14) :
    Access C V h f .idle (some (V.lock f, .leave (C.side h (V.lock f)) h)) where
  lock f'' hf := by cases hf
  event l e' he := by cases he; exact ⟨rfl, rfl, rfl⟩
  seen l e' he hv := by cases he; cases hv
  low hr := by omega
  high _ f'' hf := by cases hf
  present _ f'' hf := by cases hf
  arrive hp := by rw [hp] at h14; cases h14
  arrived _ l c g he := by cases he

end Access

variable [DecidableEq H] [DecidableEq L]

/-- How far handler `h` is when it comes to its `n`-th access.  The tail exchange of a remote handler
may take two rounds; the second one expects the tail that is there. -/
def progress (C : Cluster H L) (s : State H L D F) (h : H) (l : L) (expected : Option H) (n : ℕ) : ℕ :=
  2 * n + if C.side h l = .loc ∨ (s.locks l).tail (C.side h l) = expected then 1 else 0

section Progress

variable {C : Cluster H L} {s s' : State H L D F} {h : H} {l l' : L} {expected expected' : Option H}
  {m n : ℕ}

omit [DecidableEq L] in
theorem progress_le (hn : n ≤ m) : progress C s h l expected n ≤ 2 * m + 1 := by
  unfold progress
  split_ifs <;> omega

omit [DecidableEq L] in
theorem progress_lt (hn : n < m) :
    progress C s h l expected n < progress C s' h l' expected' m := by
  unfold progress
  split_ifs <;> omega

end Progress

/-- A lock algorithm that refines the abstract lock with budget one.  `Alone f` holds where a
handler may be that goes on alone, and `rank` grows while it does. -/
structure Algorithm (C : Cluster H L) (D F : Type) where
  start : L → F
  exec : State H L D F → H → F → Bool → Option (State H L D F × Option (L × Event H UInt64))
  descriptor : D
  view : View H L D F
  config : Config
  Alone : F → Prop
  rank : State H L D F → H → F → ℕ
  limit : ℕ
  budget_eq : ∀ c, config.budget c = 1
  blind_eq : ∀ t < 2 ^ 64 - 1, config.blind t = false
  simulated : ∀ {tr s}, (State.system start exec).Run tr s → ∃ k pos, Sim view config C tr s k pos
  start_lock : ∀ l, view.lock (start l) = l
  start_phase : ∀ l, view.phase (start l) = .absent
  start_alone : ∀ l, Alone (start l)
  still_alone : ∀ f, (view.phase f).Still → view.phase f ≠ .absent → Alone f
  access : ∀ {s h f b s' x}, exec s h f b = some (s', x) →
    ∃ t, s'.thread = Function.update s.thread h t ∧ Access C view h f t x
  rank_le : ∀ s h f, rank s h f ≤ limit
  forward : ∀ {tr s k pos h f}, Sim view config C tr s k pos → s.thread h = .busy f → Alone f →
    (view.phase f ≠ .absent → (k (view.lock f)).Ready (C.side h (view.lock f)) (pos h) ∧
      (k (view.lock f)).pet.stage (other (C.side h (view.lock f))) = .idle) →
    ∃ s' x, exec s h f false = some (s', x) ∧
      ∀ f', s'.thread h = .busy f' → Alone f' ∧ rank s h f < rank s' h f'

namespace Algorithm

variable {C : Cluster H L} (A : Algorithm C D F) {tr : List (L × Event H UInt64)}
  {s s' : State H L D F} {k : L → Spec.State H} {pos : H → ℕ} {o o' : L → Lines H} {l : L} {h : H}
  {f : F}

/-- All interleavings. -/
abbrev system : Lts (State H L D F) (L × Event H UInt64) := State.system A.start A.exec

/-- A handler that has called `Lock` and not yet exchanged the tail. -/
def pending : Thread F → List L
  | .idle => []
  | .busy f => if A.view.phase f = .absent then [A.view.lock f] else []

/-- One step of a schedule. -/
theorem calls_step {g : H} {a : Act L} {x : Option (L × Event H UInt64)}
    (hs : State.step A.start A.exec s g a = some (s', x)) (h : H) :
    A.pending (s.thread h) ++ calls h [(g, a)] = arrivals h x.toList ++ A.pending (s'.thread h) := by
  obtain ⟨l, rfl, hg, rfl, rfl⟩ | ⟨b, f, rfl, hg, hx⟩ := State.step_cases hs
  · by_cases hgh : g = h
    · subst hgh
      simp [pending, calls, arrivals, hg, A.start_phase, A.start_lock]
    · simp [pending, calls, arrivals, hgh, Ne.symm hgh]
  · obtain ⟨t, hthread, hA⟩ := A.access hx
    have hcalls : calls h [(g, (.run b : Act L))] = [] := rfl
    rw [hcalls, List.append_nil]
    by_cases hgh : g = h
    · subst hgh
      have hg' : s'.thread g = t := by rw [hthread, Function.update_self]
      by_cases hp : A.view.phase f = .absent
      · obtain ⟨f', rfl, -⟩ := hA.low (by rw [hp]; decide)
        have hlock := hA.lock f' rfl
        rcases hA.arrive hp with ⟨rfl, hf'⟩ | ⟨rfl, hf'⟩
        · simp [pending, hg, hg', hp, hf' f' rfl, hlock, arrivals]
        · simp [pending, hg, hg', hp, hf' f' rfl, arrivals]
      · have harr : arrivals g x.toList = [] := by
          cases x with
          | none => rfl
          | some y =>
            obtain ⟨l, e⟩ := y
            have hne := hA.arrived hp l
            cases e <;> first | rfl | exact absurd rfl (hne _ _)
        rw [harr, hg, hg']
        cases t with
        | idle => simp [pending, hp]
        | busy f' => simp [pending, hp, hA.present hp f' rfl]
    · have hg' : s'.thread h = s.thread h := by
        rw [hthread, Function.update_of_ne (Ne.symm hgh)]
      have harr : arrivals h x.toList = [] := by
        cases x with
        | none => rfl
        | some y =>
          obtain ⟨l, e⟩ := y
          have hwho := (hA.event l e rfl).2.1
          cases e <;> first | rfl | (simp only [Event.who] at hwho; simp [arrivals, hwho, hgh])
      rw [hg', harr, List.nil_append]

/-- The calls of a handler are its tail exchanges, except that the last one may still be to come. -/
theorem calls_eq {sched : List (H × Act L)} (hp : State.play A.start A.exec s sched = some (s', tr))
    (h : H) : A.pending (s.thread h) ++ calls h sched = arrivals h tr ++ A.pending (s'.thread h) := by
  induction sched generalizing s tr with
  | nil =>
    obtain ⟨rfl, rfl⟩ : s = s' ∧ [] = tr := by simpa using hp
    simp [calls, arrivals]
  | cons y sched ih =>
    obtain ⟨g, a⟩ := y
    obtain ⟨s1, x, tr1, hs, hz, rfl⟩ := Clients.play_cons_eq_some.1 hp
    have hsplit : calls h ((g, a) :: sched) = calls h [(g, a)] ++ calls h sched :=
      List.filterMap_append (l := [(g, a)])
    rw [hsplit, ← List.append_assoc, A.calls_step hs h, List.append_assoc, ih hz, arrivals_append,
      List.append_assoc]

/-! ### What is seen comes from two lines and a row -/

/-- The lines and rows that the events so far make. -/
theorem mirrors (hS : Sim A.view A.config C tr s k pos) (ho : (Lines.system C).Run (visible tr) o)
    (l : L) : Mirrors (k l) (o l) := by
  obtain ⟨q, hq, hM⟩ := (hS.reach l).lines word A.budget_eq
  rw [← hS.log, ← Lines.run_visible, Lines.run_onLock ho] at hq
  rwa [Option.some.inj hq]

/-- Whoever stands somewhere is engaged. -/
theorem exists_of_has (hS : Sim A.view A.config C tr s k pos)
    (ho : (Lines.system C).Run (visible tr) o) (hh : (o l).Has h) :
    ∃ f, s.thread h = .busy f ∧ A.view.lock f = l ∧ A.view.phase f ≠ .absent := by
  obtain ⟨c, p, hw, h13⟩ := ((A.mirrors hS ho l).has_iff (hS.reach l).inv).1 hh
  obtain ⟨f, hf, hl, -, -, hq⟩ := hS.active l c p h hw (by grind)
  exact ⟨f, hf, hl, hq⟩

theorem lines_of_run (hr : A.system.Run tr s) : ∃ o, (Lines.system C).Run (visible tr) o := by
  induction hr with
  | start h0 => exact ⟨fun _ => {}, .start fun _ => rfl⟩
  | @next tr s s' x hr hs ih =>
    obtain ⟨o, ho⟩ := ih
    obtain ⟨k, pos, hS⟩ := A.simulated hr
    obtain ⟨k', pos', hS'⟩ := A.simulated (hr.next hs)
    cases x with
    | none => exact ⟨o, by simpa using ho⟩
    | some y =>
      obtain ⟨l, e⟩ := y
      rw [Option.toList_some, visible_append, visible_single]
      cases hv : e.Visible with
      | false => exact ⟨o, by simpa using ho⟩
      | true =>
        obtain ⟨h, a, hs⟩ := hs
        obtain ⟨q, hq, -⟩ := (hS'.reach l).lines word A.budget_eq
        rw [← hS'.log, Option.toList_some, onLock_append, onLock_single, if_pos rfl,
          Lines.run_snoc word ((Lines.run_visible l tr).symm.trans (Lines.run_onLock ho l))] at hq
        obtain ⟨l', -, -, hx, -⟩ | ⟨b, f, -, hf, hx⟩ := State.step_cases hs
        · cases hx
        · obtain ⟨t, -, hA⟩ := A.access hx
          obtain ⟨-, hwho, hside⟩ := hA.event l e rfl
          refine ⟨_, Lines.run_snoc_iff.2 ⟨o, ho, l, e, q, rfl, hv, hwho ▸ hside, ?_, hq, rfl⟩⟩
          -- a handler that exchanges a tail stands nowhere
          rintro c g rfl l' hhas
          obtain rfl : g = h := hwho
          obtain ⟨f', hf', -, hq'⟩ := A.exists_of_has hS ho hhas
          obtain rfl : f = f' := by simpa using hf.symm.trans hf'
          exact hA.arrived hq' l c g rfl

/-- The handler of an acquisition. -/
theorem eq_of_who (hS : Sim A.view A.config C tr s k pos) (hf : s.thread h = .busy f) {c : Side}
    {p : ℕ} (hw : ((k l).acq c p).who = some h) (h14 : ((k l).acq c p).rank ≤ 14) :
    A.view.lock f = l ∧ C.side h l = c ∧ pos h = p ∧
      ((k l).acq c p).phase = A.view.phase f := by
  obtain ⟨f', hf', rfl, rfl, rfl, hq⟩ := hS.active l c p h hw (by grind)
  obtain rfl : f = f' := by simpa using hf.symm.trans hf'
  exact ⟨rfl, rfl, rfl, A.view.phase_eq (hS.queued h f hf hq)⟩

/-- Whoever is engaged, and has not served its ticket, stands somewhere. -/
theorem has_of_busy (hS : Sim A.view A.config C tr s k pos)
    (ho : (Lines.system C).Run (visible tr) o) (hf : s.thread h = .busy f)
    (hq : A.view.phase f ≠ .absent) (h13 : (A.view.phase f).rank ≤ 13) :
    (o (A.view.lock f)).Has h := by
  have hat := hS.queued h f hf hq
  refine ((A.mirrors hS ho _).has_iff (hS.reach _).inv).2 ⟨_, _, A.view.who hat, ?_⟩
  rwa [Acq.rank, A.view.phase_eq hat]

/-! ### One handler goes on alone -/

/-- The handlers at work stand still. -/
def Rest (s : State H L D F) : Prop :=
  ∀ h f, s.thread h = .busy f → (A.view.phase f).Still ∧ A.view.phase f ≠ .absent

/-- A handler whose turn it is does not wait for anybody. -/
theorem ready (hS : Sim A.view A.config C tr s k pos)
    (hb : ∀ l, (draws (onLock l (visible tr))).length < 2 ^ 64 - 1) (hf : s.thread h = .busy f)
    (hq : A.view.phase f ≠ .absent)
    (hrest : ∀ g fg, g ≠ h → s.thread g = .busy fg → (A.view.phase fg).Still)
    (hfirst : A.view.phase f = .wait → ∀ r < pos h,
      9 ≤ ((k (A.view.lock f)).acq (C.side h (A.view.lock f)) r).rank)
    (hturn : A.view.phase f = .queued →
      ((k (A.view.lock f)).acq (C.side h (A.view.lock f)) (pos h)).ticket =
        (k (A.view.lock f)).serving) :
    (k (A.view.lock f)).Ready (C.side h (A.view.lock f)) (pos h) ∧
      (k (A.view.lock f)).pet.stage (other (C.side h (A.view.lock f))) = .idle := by
  have hI := (hS.reach (A.view.lock f)).inv
  have hat := hS.queued h f hf hq
  have hphase := A.view.phase_eq hat
  have hothers : ∀ c' r, ¬ (c' = C.side h (A.view.lock f) ∧ r = pos h) →
      ((k (A.view.lock f)).acq c' r).phase.Still := by
    intro c' r hne
    by_cases hact : ((k (A.view.lock f)).acq c' r).Active
    · obtain ⟨g, fg, hg, hl, hc, hp, hgq⟩ := hS.exists_handler hact
      have hgh : g ≠ h := by
        rintro rfl
        exact hne ⟨hc.symm, hp.symm⟩
      have hatg := A.view.phase_eq (hS.queued g fg hg hgq)
      rw [hl, hc, hp] at hatg
      exact hatg ▸ hrest g fg hgh hg
    · by_cases habs : ((k (A.view.lock f)).acq c' r).phase = .absent
      · exact Or.inl habs
      · have hgone : ((k (A.view.lock f)).acq c' r).phase = .gone := by
          by_contra hg
          exact hact ⟨habs, hg⟩
        exact Or.inr (Or.inr (Or.inr (Or.inr (Or.inr hgone))))
  have hissued : (k (A.view.lock f)).issued < 2 ^ 64 - 1 := by
    rw [← (hS.shows _).length_draws, ← length_draws_visible]
    exact hb _
  refine ⟨hI.ready_alone A.budget_eq hothers (fun t ht => A.blind_eq t (by omega)) ⟨?_, ?_⟩
    (fun hp => hfirst (hphase.symm.trans hp)) fun hp => hturn (hphase.symm.trans hp),
    hI.other_idle A.budget_eq hothers⟩
  · exact fun habs => hq (hphase.symm.trans habs)
  · exact fun hg => A.view.ne_gone f (hphase.symm.trans hg)

/-- A handler whose event is next is the first of its line or of the row. -/
theorem turn (hS : Sim A.view A.config C tr s k pos) (ho : (Lines.system C).Run (visible tr) o)
    {e : Event H UInt64} (hs : (Lines.system C).step o (some (l, e)) o')
    (hne : ¬ ∃ c h, e = .arrive c h) : (o l).Has e.who ∧ ∀ f, s.thread e.who = .busy f →
      (A.view.phase f = .wait → ∀ r < pos e.who, 9 ≤ ((k l).acq (C.side e.who l) r).rank) ∧
      (A.view.phase f = .queued →
        ((k l).acq (C.side e.who l) (pos e.who)).ticket = (k l).serving) := by
  obtain ⟨l', e', q, heq, hv, hside, -, hq, -⟩ := hs
  obtain ⟨rfl, rfl⟩ : l = l' ∧ e = e' := by simpa using heq
  have hM := A.mirrors hS ho l
  have hrow : (o l).holding.head? = some e.who → (o l).Has e.who ∧ ∀ f, s.thread e.who = .busy f →
      (A.view.phase f = .wait → ∀ r < pos e.who, 9 ≤ ((k l).acq (C.side e.who l) r).rank) ∧
      (A.view.phase f = .queued →
        ((k l).acq (C.side e.who l) (pos e.who)).ticket = (k l).serving) := by
    intro hh
    obtain ⟨c, p, hw, hhold, ht⟩ := hM.first_holding hh
    refine ⟨Or.inr (List.mem_of_mem_head? hh), fun f hf => ?_⟩
    obtain ⟨-, rfl, rfl, hp⟩ := A.eq_of_who hS hf hw (by omega)
    refine ⟨fun hwait => ?_, fun _ => ht⟩
    rw [Acq.Holding, Acq.rank, hp, hwait] at hhold
    exact absurd hhold.1 (by decide)
  cases e with
  | arrive c h => exact absurd ⟨c, h, rfl⟩ hne
  | draw c h t =>
    simp only [Lines.next, Option.ite_none_right_eq_some] at hq
    dsimp only [Event.who, Event.side] at *
    obtain ⟨p, hw, h8, hfirst⟩ := hM.first_waiting hq.1.1
    refine ⟨Or.inl ⟨_, List.mem_of_mem_head? hq.1.1⟩, fun f hf => ?_⟩
    obtain ⟨-, hc, rfl, hp⟩ := A.eq_of_who hS hf hw (by omega)
    refine ⟨fun _ => hc ▸ hfirst, fun hqueued => ?_⟩
    rw [Acq.rank, hp, hqueued] at h8
    exact absurd h8 (by decide)
  | enter c h t =>
    simp only [Lines.next, Option.ite_none_right_eq_some] at hq
    exact hrow hq.1.1
  | advance c h t =>
    simp only [Lines.next, Option.ite_none_right_eq_some] at hq
    exact hrow hq.1.1
  | raise | request | hand | lower | leave => cases hv

/-- Nobody is first of a line and of the row. -/
theorem not_first_twice (hS : Sim A.view A.config C tr s k pos)
    (ho : (Lines.system C).Run (visible tr) o) {c : Side} (hw : ((o l).waiting c).head? = some h)
    (hh : (o l).holding.head? = some h) : False := by
  have hM := A.mirrors hS ho l
  obtain ⟨p, hp, h8, -⟩ := hM.first_waiting hw
  obtain ⟨c', p', hp', ⟨h9, h13⟩, -⟩ := hM.first_holding hh
  obtain ⟨f, hf, -⟩ := hS.active l c' p' h hp' (by grind)
  obtain ⟨-, rfl, rfl, -⟩ := A.eq_of_who hS hf hp (by omega)
  obtain ⟨-, rfl, rfl, -⟩ := A.eq_of_who hS hf hp' (by omega)
  omega

/-- At any time a handler has one event that it can show next on a lock. -/
theorem event_unique (hS : Sim A.view A.config C tr s k pos)
    (ho : (Lines.system C).Run (visible tr) o) {e e' : Event H UInt64} {o₁ o₂ : L → Lines H}
    (hs : (Lines.system C).step o (some (l, e)) o₁) (hs' : (Lines.system C).step o (some (l, e')) o₂)
    (hwho : e.who = e'.who) (harr : (∃ c h, e = .arrive c h) ↔ ∃ c h, e' = .arrive c h) : e = e' := by
  obtain ⟨_, _, q, heq, hv, hside, -, hq, -⟩ := hs
  obtain ⟨rfl, rfl⟩ := Prod.mk.inj (Option.some.inj heq)
  obtain ⟨_, _, q', heq', hv', hside', -, hq', -⟩ := hs'
  obtain ⟨rfl, rfl⟩ := Prod.mk.inj (Option.some.inj heq')
  cases e
  case raise | request | hand | lower | leave => cases hv
  case arrive c h =>
    obtain ⟨c', h', rfl⟩ := harr.1 ⟨c, h, rfl⟩
    dsimp only [Event.who, Event.side] at hwho hside hside'
    rw [hside, hside', hwho]
  all_goals
    simp only [Lines.next, Option.ite_none_right_eq_some] at hq
    dsimp only [Event.who, Event.side] at hwho hside
    cases e'
    case raise | request | hand | lower | leave => cases hv'
    case arrive c' h' => simp at harr
    all_goals
      simp only [Lines.next, Option.ite_none_right_eq_some] at hq'
      dsimp only [Event.who, Event.side] at hwho hside'
      subst hwho
  case draw.draw | enter.enter | advance.advance => grind
  case draw.enter | draw.advance => exact (A.not_first_twice hS ho hq.1.1 hq'.1.1).elim
  case enter.draw | advance.draw => exact (A.not_first_twice hS ho hq'.1.1 hq.1.1).elim
  case enter.advance | advance.enter => grind

/-- The handlers other than `h` that are at work stand still. -/
def RestBut (h : H) (s : State H L D F) : Prop :=
  ∀ g f, g ≠ h → s.thread g = .busy f → (A.view.phase f).Still ∧ A.view.phase f ≠ .absent

theorem RestBut.update {t : Thread F} (hR : A.RestBut h s)
    (ht : s'.thread = Function.update s.thread h t) : A.RestBut h s' := by
  intro g f hgh hg
  rw [ht, Function.update_of_ne hgh] at hg
  exact hR g f hgh hg

/-- Before its next event, `e` on lock `l`, after what has been seen is `T`. -/
structure Before (h : H) (T : List (L × Event H UInt64)) (l : L) (e : Event H UInt64)
    (tr : List (L × Event H UInt64)) (s : State H L D F) : Prop where
  seen : visible tr = T
  others : A.RestBut h s
  busy : ∃ f, s.thread h = .busy f ∧ A.Alone f ∧ A.view.lock f = l ∧
    (A.view.phase f = .absent ↔ ∃ c g, e = .arrive c g)

/-- After an event, with `T` seen. -/
structure After (h : H) (T : List (L × Event H UInt64)) (tr : List (L × Event H UInt64))
    (s : State H L D F) : Prop where
  seen : visible tr = T
  others : A.RestBut h s
  busy : ∀ f, s.thread h = .busy f → A.Alone f ∧ A.view.phase f ≠ .absent ∧
    ((A.view.phase f).rank ≤ 5 ∨ 9 ≤ (A.view.phase f).rank)

/-- How far a handler is. -/
def rankAt (h : H) (s : State H L D F) : ℕ :=
  match s.thread h with
  | .idle => 0
  | .busy f => A.rank s h f

theorem rankAt_le (h : H) (s : State H L D F) : A.rankAt h s ≤ A.limit := by
  unfold rankAt
  split
  · exact Nat.zero_le _
  · exact A.rank_le s h _

theorem rankAt_busy (hf : s.thread h = .busy f) : A.rankAt h s = A.rank s h f := by
  simp only [rankAt, hf]

/-- A handler gets to the event that is next. -/
theorem exists_visible {T : List (L × Event H UInt64)} {e : Event H UInt64} (hr : A.system.Run tr s)
    (ho : (Lines.system C).Run T o) (hs : (Lines.system C).step o (some (l, e)) o')
    (hb : ∀ l, (draws (onLock l T)).length < 2 ^ 64 - 1) (hB : A.Before e.who T l e tr s) :
    ∃ tr' s', A.system.Run tr' s' ∧ A.After e.who (T ++ [(l, e)]) tr' s' := by
  refine Lts.Run.reach (A.rankAt e.who) A.limit (A.rankAt_le e.who) ?_ hr hB
  intro tr s hr hB
  obtain ⟨rfl, hothers, f, hf, halone, rfl, harr⟩ := hB
  obtain ⟨k, pos, hS⟩ := A.simulated hr
  obtain ⟨s', x, hx, halone'⟩ := A.forward hS hf halone fun hq => by
    have hturn := (A.turn hS ho hs (mt harr.2 hq)).2 f hf
    exact A.ready hS hb hf hq (fun g fg hg hfg => (hothers g fg hg hfg).1) hturn.1 hturn.2
  obtain ⟨t, ht, hA⟩ := A.access hx
  have hstep : A.system.step s x s' := ⟨e.who, .run false, (State.step_run _ hf).trans hx⟩
  have hr' := hr.next hstep
  have hthread : s'.thread e.who = t := by rw [ht, Function.update_self]
  refine Or.inr ⟨x, s', hstep, ?_⟩
  by_cases hseen : ∃ l' e', x = some (l', e') ∧ e'.Visible = true
  · -- it is the event that is next
    left
    obtain ⟨l', e', rfl, hv⟩ := hseen
    obtain ⟨rfl, hwho, hside⟩ := hA.event l' e' rfl
    obtain ⟨o₁, ho₁⟩ := A.lines_of_run hr'
    rw [Option.toList_some, visible_append, visible_single, if_pos hv] at ho₁
    obtain ⟨o₀, ho₀, hs₁⟩ := Lines.run_snoc_iff.1 ho₁
    obtain rfl := Lines.run_unique ho ho₀
    have hkind : (∃ c g, e' = .arrive c g) ↔ ∃ c g, e = .arrive c g := by
      rw [← harr]
      constructor
      · rintro ⟨c, g, rfl⟩
        by_contra hq
        exact hA.arrived hq _ c g rfl
      · intro hq
        rcases hA.arrive hq with ⟨hnone, -⟩ | ⟨hsome, -⟩
        · cases hnone
        · exact ⟨_, _, (Prod.mk.inj (Option.some.inj hsome)).2⟩
    obtain rfl := A.event_unique hS ho hs₁ hs hwho hkind
    refine ⟨?_, hothers.update A ht, fun f' hf' => ⟨(halone' f' hf').1, ?_, ?_⟩⟩
    · rw [Option.toList_some, visible_append, visible_single, if_pos hv]
    · obtain rfl : t = .busy f' := hthread.symm.trans hf'
      by_cases hq : A.view.phase f = .absent
      · rcases hA.arrive hq with ⟨hnone, -⟩ | ⟨-, hpresent⟩
        · cases hnone
        · exact hpresent f' rfl
      · exact hA.present hq f' rfl
    · exact (hA.seen _ _ rfl hv).2 f' (hthread.symm.trans hf')
  · right
    have hvis : visible (tr ++ x.toList) = visible tr := by
      rw [visible_append]
      cases x with
      | none => simp
      | some y =>
        obtain ⟨l', e'⟩ := y
        rw [Option.toList_some, visible_single, if_neg fun hv => hseen ⟨l', e', rfl, hv⟩,
          List.append_nil]
    -- it is still there
    obtain ⟨f', hf', hkind⟩ : ∃ f', t = .busy f' ∧
        (A.view.phase f' = .absent ↔ ∃ c g, e = .arrive c g) := by
      by_cases hq : A.view.phase f = .absent
      · obtain ⟨f', rfl, -⟩ := hA.low (by rw [hq]; decide)
        refine ⟨f', rfl, iff_of_true ?_ (harr.1 hq)⟩
        rcases hA.arrive hq with ⟨-, habs⟩ | ⟨rfl, -⟩
        · exact habs f' rfl
        · exact absurd ⟨_, _, rfl, rfl⟩ hseen
      · obtain ⟨k', pos', hS'⟩ := A.simulated hr'
        have hhas := (A.turn hS ho hs (mt harr.2 hq)).1
        obtain ⟨f', hf', -, hq'⟩ := A.exists_of_has hS' (hvis ▸ ho) hhas
        exact ⟨f', hthread.symm.trans hf', iff_of_false hq' (mt harr.2 hq)⟩
    have hbusy : s'.thread e.who = .busy f' := hthread.trans hf'
    obtain ⟨hal, hlt⟩ := halone' f' hbusy
    exact ⟨⟨hvis, hothers.update A ht, f', hbusy, hal, hA.lock f' hf', hkind⟩,
      by rwa [A.rankAt_busy hf, A.rankAt_busy hbusy]⟩

/-- A handler gets to where it may stand still. -/
theorem exists_rest {T : List (L × Event H UInt64)} (hr : A.system.Run tr s)
    (hb : ∀ l, (draws (onLock l T)).length < 2 ^ 64 - 1) (hA : A.After h T tr s) :
    ∃ tr' s', A.system.Run tr' s' ∧ visible tr' = T ∧ A.Rest s' := by
  refine Lts.Run.reach (A.rankAt h) A.limit (A.rankAt_le h) ?_ hr hA
  rintro tr s hr ⟨rfl, hothers, hbusy⟩
  by_cases hrest : ∀ f, s.thread h = .busy f → (A.view.phase f).Still
  · left
    refine ⟨rfl, fun g f hf => ?_⟩
    by_cases hgh : g = h
    · subst hgh
      exact ⟨hrest f hf, (hbusy f hf).2.1⟩
    · exact hothers g f hgh hf
  · right
    push Not at hrest
    obtain ⟨f, hf, hstill⟩ := hrest
    obtain ⟨halone, hq, hrank⟩ := hbusy f hf
    have hphase : ∀ ph : Phase, ph.Still → A.view.phase f ≠ ph := fun ph hph heq => hstill (heq ▸ hph)
    obtain ⟨k, pos, hS⟩ := A.simulated hr
    obtain ⟨s', x, hx, halone'⟩ := A.forward hS hf halone fun _ =>
      A.ready hS hb hf hq (fun g fg hg hfg => (hothers g fg hg hfg).1)
        (fun hw => absurd hw (hphase .wait (by simp [Phase.Still])))
        (fun hw => absurd hw (hphase .queued (by simp [Phase.Still])))
    obtain ⟨t, ht, hA⟩ := A.access hx
    have hstep : A.system.step s x s' := ⟨h, .run false, (State.step_run _ hf).trans hx⟩
    have hthread : s'.thread h = t := by rw [ht, Function.update_self]
    have hvis : visible (tr ++ x.toList) = visible tr := by
      rw [visible_append]
      cases x with
      | none => simp
      | some y =>
        obtain ⟨l, e⟩ := y
        rw [Option.toList_some, visible_single, if_neg, List.append_nil]
        intro hv
        rcases (hA.seen l e rfl hv).1 with hp | hp | hp | hp
        · exact hq hp
        · rw [hp] at hrank
          exact absurd hrank (by decide)
        · exact hphase .queued (by simp [Phase.Still]) hp
        · exact hphase .critical (by simp [Phase.Still]) hp
    refine ⟨x, s', hstep, ?_⟩
    cases t with
    | idle =>
      refine Or.inl ⟨hvis, fun g fg hg => ?_⟩
      by_cases hgh : g = h
      · subst hgh
        cases hthread.symm.trans hg
      · exact hothers.update A ht g fg hgh hg
    | busy f' =>
      right
      obtain ⟨hal, hlt⟩ := halone' f' hthread
      refine ⟨⟨hvis, hothers.update A ht, fun f'' hf'' => ?_⟩,
        by rwa [A.rankAt_busy hf, A.rankAt_busy hthread]⟩
      obtain rfl : f' = f'' := by simpa using hthread.symm.trans hf''
      refine ⟨hal, hA.present hq f' rfl, ?_⟩
      rcases hrank with h5 | h9
      · left
        obtain ⟨f'', heq, h5'⟩ := hA.low (Phase.rank_le_of_not_still hstill h5)
        obtain rfl : f' = f'' := by simpa using heq
        exact h5'
      · exact Or.inr (hA.high h9 f' rfl)

/-- Everything that lines and rows show can be seen. -/
theorem exists_run {T : List (L × Event H UInt64)} (ho : (Lines.system C).Run T o)
    (hb : ∀ l, (draws (onLock l T)).length < 2 ^ 64 - 1) :
    ∃ tr s, A.system.Run tr s ∧ visible tr = T ∧ A.Rest s := by
  induction ho with
  | start h0 =>
    exact ⟨[], .zero A.descriptor, .start ⟨fun _ => rfl, fun _ => rfl⟩, rfl, fun h f hf => by cases hf⟩
  | @next T o o' x ho hs ih =>
    obtain ⟨l, e, q, rfl, hv, hside, hnew, -⟩ := id hs
    rw [Option.toList_some] at hb ⊢
    have hb' : ∀ l, (draws (onLock l T)).length < 2 ^ 64 - 1 := fun l' =>
      (length_draws_le l' T [(l, e)]).trans_lt (hb l')
    obtain ⟨tr, s, hr, rfl, hrest⟩ := ih hb'
    obtain ⟨k, pos, hS⟩ := A.simulated hr
    have hothers : A.RestBut e.who s := fun g f _ hg => hrest g f hg
    have hbefore : ∃ s', A.system.Run tr s' ∧ A.Before e.who (visible tr) l e tr s' := by
      by_cases harr : ∃ c g, e = .arrive c g
      · -- the handler is outside
        obtain ⟨c, h, rfl⟩ := harr
        have hidle : s.thread h = .idle := by
          cases hf : s.thread h with
          | idle => rfl
          | busy f =>
            obtain ⟨hstill, hq⟩ := hrest h f hf
            exact absurd (A.has_of_busy hS ho hf hq (hstill.rank_le (A.view.ne_gone f))) (hnew c h rfl _)
        have hstep : A.system.step s none (s.goto h (A.start l)) :=
          ⟨h, .call l, State.step_call l hidle⟩
        refine ⟨s.goto h (A.start l), by simpa using hr.next hstep, rfl, hothers.update A rfl,
          A.start l, ?_, A.start_alone l, A.start_lock l, iff_of_true (A.start_phase l) ⟨c, h, rfl⟩⟩
        rw [goto_thread, Event.who, Function.update_self]
      · have hhas := (A.turn hS ho hs harr).1
        obtain ⟨f, hf, hl, hq⟩ := A.exists_of_has hS ho hhas
        exact ⟨s, hr, rfl, hothers, f, hf, A.still_alone f (hrest _ f hf).1 hq, hl,
          iff_of_false hq harr⟩
    obtain ⟨s', hr', hB⟩ := hbefore
    obtain ⟨tr₁, s₁, hr₁, hA⟩ := A.exists_visible hr' ho hs hb' hB
    obtain ⟨tr₂, s₂, hr₂, hseen, hrest'⟩ := A.exists_rest hr₁ hb hA
    exact ⟨tr₂, s₂, hr₂, hseen, hrest'⟩

/-- What can be seen of a lock algorithm with budget one. -/
theorem traces_eq (P : H → List L) : traces A.start A.exec P =
    { T | (∃ o, (Lines.system C).Run T o) ∧ (∀ h, arrivals h T <+: P h) ∧
      ∀ l, (draws (onLock l T)).length < 2 ^ 64 - 1 } := by
  ext T
  constructor
  · rintro ⟨s₀, sched, s, tr, h0, hp, hcalls, hb, rfl⟩
    have hr : A.system.Run tr s := by simpa using Clients.run_play (Lts.Run.start (S := A.system) h0) hp
    refine ⟨A.lines_of_run hr, fun h => ?_, fun l => by rw [length_draws_visible]; exact hb l⟩
    have heq := A.calls_eq hp h
    rw [h0.2 h, pending, List.nil_append] at heq
    rw [arrivals_visible]
    exact (List.prefix_append _ _).trans (heq ▸ hcalls h)
  · rintro ⟨⟨o, ho⟩, hcalls, hb⟩
    obtain ⟨tr, s, hr, rfl, hrest⟩ := A.exists_run ho hb
    obtain ⟨s₀, sched, h0, hp⟩ := Clients.exists_play hr
    refine ⟨s₀, sched, s, tr, h0, hp, fun h => ?_, fun l => by rw [← length_draws_visible]; exact hb l, rfl⟩
    have heq := A.calls_eq hp h
    have hpend : A.pending (s.thread h) = [] := by
      cases hf : s.thread h with
      | idle => rfl
      | busy f => rw [pending, if_neg (hrest h f hf).2]
    rw [h0.2 h, pending, List.nil_append, hpend, List.append_nil, ← arrivals_visible] at heq
    exact heq ▸ hcalls h

end Algorithm

end Farlock
