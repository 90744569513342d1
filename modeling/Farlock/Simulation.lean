import Farlock.Refine
import Farlock.Spec.Exclusion

/-!
# Simulation of the abstract lock by interleaved handlers

A `View` says what a handler's local data and descriptor have to do with the acquisition it is
engaged in and with that acquisition's neighbours in the queue.  `Sim` relates a state of the
cluster to one abstract state for each lock: every lock word, every descriptor in a queue and every
handler in a queue agrees with it, and the events on a lock are the abstract log.

The lemmas here carry `Sim` through one step of one handler: a step before the tail exchange
(`Sim.outside`), the exchange itself (`Sim.arrive`), and a step inside the queue or out of it
(`Sim.act`, with `Sim.own` and `Sim.stay` for the steps that the neighbours do not notice and
`Sim.store` for a store into a neighbour's descriptor).  What is left to each of the two locks is to
find the abstract move and to look at the handler itself and at that neighbour.
-/

namespace Farlock

open Spec

/-- How the local data `F` and the descriptors `D` of a lock algorithm appear in the abstract lock.
`Matches c h f d pr a nx T R` relates handler `h` of class `c`, with local data `f` and descriptor
`d`, to its acquisition `a` between `pr` and `nx`, when `T` tickets are drawn and `R` are served. -/
structure View (H L D F : Type) where
  lock : F → L
  phase : F → Phase
  Fresh : F → D → Prop
  Matches : Side → H → F → D → Acq H → Acq H → Acq H → ℕ → ℕ → Prop
  ne_gone : ∀ f, phase f ≠ .gone
  who : ∀ {c h f d pr a nx T R}, Matches c h f d pr a nx T R → a.who = some h
  phase_eq : ∀ {c h f d pr a nx T R}, Matches c h f d pr a nx T R → a.phase = phase f
  congr : ∀ {c h f d pr a nx T R pr' nx' T' R'}, Matches c h f d pr a nx T R →
    SamePred pr pr' → SameSucc nx nx' → (T' = T ∨ a.phase ≠ .passed) →
    (R' = R ∨ R ≤ R' ∧ a.phase ≠ .critical) → Matches c h f d pr' a nx' T' R'

variable {H L D F : Type}

/-- Handler `h` with local data `f` agrees with place `pos h` of its queue. -/
def View.At (V : View H L D F) (C : Cluster H L) (s : State H L D F) (k : L → Spec.State H)
    (pos : H → ℕ) (h : H) (f : F) : Prop :=
  let l := V.lock f
  let c := C.side h l
  V.Matches c h f (s.descriptor c h) ((k l).pred c (pos h)) ((k l).acq c (pos h))
    ((k l).acq c (pos h + 1)) (k l).issued (k l).serving

variable [DecidableEq L]

/-- The state `s`, reached with the events `tr`, agrees with the abstract states `k` of the locks;
`pos h` is the place of handler `h` in its queue. -/
structure Sim (V : View H L D F) (B : Config) (C : Cluster H L) (tr : List (L × Event H UInt64))
    (s : State H L D F) (k : L → Spec.State H) (pos : H → ℕ) : Prop where
  reach : ∀ l, Reachable B (k l)
  log : ∀ l, onLock l tr = (k l).log.map (Event.map word)
  words : ∀ l, LockOk (s.locks l) (k l)
  fresh : ∀ h f, s.thread h = .busy f → V.phase f = .absent →
    V.Fresh f (s.descriptor (C.side h (V.lock f)) h)
  queued : ∀ h f, s.thread h = .busy f → V.phase f ≠ .absent → V.At C s k pos h f
  active : ∀ l c p h, ((k l).acq c p).who = some h → ((k l).acq c p).phase ≠ .gone →
    ∃ f, s.thread h = .busy f ∧ V.lock f = l ∧ C.side h l = c ∧ pos h = p ∧ V.phase f ≠ .absent

section Steps

variable {V : View H L D F} {B : Config} {C : Cluster H L} {tr : List (L × Event H UInt64)}
  {s s' : State H L D F} {k : L → Spec.State H} {pos : H → ℕ}

theorem Sim.start (hs : s.Initial) : ∃ k pos, Sim V B C [] s k pos :=
  ⟨fun _ => {}, fun _ => 0,
    { reach := fun _ => .start
      log := fun _ => rfl
      words := fun l => hs.1 l ▸ lockOk_start
      fresh := fun h f hf => by simp [hs.2 h] at hf
      queued := fun h f hf => by simp [hs.2 h] at hf
      active := fun _ _ _ _ hw => by simp at hw }⟩

/-- Two handlers in one queue have different places. -/
theorem Sim.place_ne (hS : Sim V B C tr s k pos) {g h : H} {fg f : F} (hgh : g ≠ h)
    (hg : s.thread g = .busy fg) (hgq : V.phase fg ≠ .absent) (hf : s.thread h = .busy f)
    (hq : V.phase f ≠ .absent) (hl : V.lock fg = V.lock f) :
    ¬ (C.side g (V.lock f) = C.side h (V.lock f) ∧ pos g = pos h) := by
  rintro ⟨hc, hp⟩
  have h1 := V.who (hS.queued g fg hg hgq)
  have h2 := V.who (hS.queued h f hf hq)
  rw [hl, hc, hp] at h1
  exact hgh (Option.some.inj (h1.symm.trans h2))

/-- Two handlers at the same place of one queue are the same. -/
theorem Sim.eq_of_place (hS : Sim V B C tr s k pos) {g h : H} {fg f : F}
    (hg : s.thread g = .busy fg) (hgq : V.phase fg ≠ .absent) (hf : s.thread h = .busy f)
    (hq : V.phase f ≠ .absent) (hl : V.lock fg = V.lock f)
    (hcp : C.side g (V.lock f) = C.side h (V.lock f) ∧ pos g = pos h) : g = h := by
  by_contra hne
  exact hS.place_ne hne hg hgq hf hq hl hcp

/-- A handler in a queue after another one of the same lock has moved: it notices nothing if its own
descriptor is as before and the mover looks the same from where it stands. -/
theorem Sim.elsewhere (hS : Sim V B C tr s k pos) {g h : H} {fg f : F} {K' : Spec.State H}
    {a' : Acq H} (hgh : g ≠ h) (hg : s.thread g = .busy fg) (hgq : V.phase fg ≠ .absent)
    (hf : s.thread h = .busy f) (hq : V.phase f ≠ .absent) (hl : V.lock fg = V.lock f)
    (hacq : K'.acq = ((k (V.lock f)).put (C.side h (V.lock f)) (pos h) a').acq)
    (hpred : SamePred ((k (V.lock f)).acq (C.side h (V.lock f)) (pos h)) a' ∨
      ¬ (C.side g (V.lock f) = C.side h (V.lock f) ∧ pos g = pos h + 1))
    (hsucc : SameSucc ((k (V.lock f)).acq (C.side h (V.lock f)) (pos h)) a' ∨
      ¬ (C.side g (V.lock f) = C.side h (V.lock f) ∧ pos g + 1 = pos h))
    (hT : K'.issued = (k (V.lock f)).issued ∨ V.phase fg ≠ .passed)
    (hR : K'.serving = (k (V.lock f)).serving ∨
      (k (V.lock f)).serving ≤ K'.serving ∧ V.phase fg ≠ .critical) :
    V.Matches (C.side g (V.lock f)) g fg (s.descriptor (C.side g (V.lock f)) g)
      (K'.pred (C.side g (V.lock f)) (pos g)) (K'.acq (C.side g (V.lock f)) (pos g))
      (K'.acq (C.side g (V.lock f)) (pos g + 1)) K'.issued K'.serving := by
  have hat := hS.queued g fg hg hgq
  have hne := hS.place_ne hgh hg hgq hf hq hl
  simp only [View.At, hl] at hat
  rw [pred_of_acq hacq, hacq, put_acq, put_acq, if_neg hne]
  have hphase := V.phase_eq hat
  refine V.congr hat ?_ ?_ (by rwa [hphase]) (by rwa [hphase])
  · split_ifs with hc
    · rw [hc.1, hc.2, pred_succ]
      exact hpred.resolve_right (not_not_intro hc)
    · exact SamePred.refl _
  · split_ifs with hc
    · rw [hc.1, hc.2]
      exact hsucc.resolve_right (not_not_intro hc)
    · exact SameSucc.refl _

/-- The events and the words after a step on lock `l` that the abstract state of `l` follows. -/
theorem Sim.log_step (hS : Sim V B C tr s k pos) {l : L} {K' : Spec.State H}
    {e : Option (Event H UInt64)}
    (hlog : K'.log.map (Event.map word) = (k l).log.map (Event.map word) ++ e.toList) (l' : L) :
    onLock l' (tr ++ (e.map fun x => (l, x)).toList) =
      (Function.update k l K' l').log.map (Event.map word) := by
  have hl' := hS.log l'
  by_cases hl : l' = l
  · subst hl
    rw [Function.update_self, hlog, onLock_append, hl']
    cases e <;> simp
  · rw [Function.update_of_ne hl, onLock_append, hl']
    cases e <;> simp [Ne.symm hl]

theorem Sim.words_step (hS : Sim V B C tr s k pos) {l : L} {K' : Spec.State H}
    (hlocks : ∀ l', l' ≠ l → s'.locks l' = s.locks l') (hlock : LockOk (s'.locks l) K') (l' : L) :
    LockOk (s'.locks l') (Function.update k l K' l') := by
  by_cases hl : l' = l
  · subst hl
    simpa using hlock
  · rw [Function.update_of_ne hl, hlocks l' hl]
    exact hS.words l'

theorem Sim.reach_step (hS : Sim V B C tr s k pos) {l : L} {K' : Spec.State H}
    (hreach : Reachable B K') (l' : L) : Reachable B (Function.update k l K' l') := by
  by_cases hl : l' = l
  · subst hl
    simpa using hreach
  · simpa [Function.update_of_ne hl] using hS.reach l'

/-- The handler in front, while it has not left. -/
theorem Sim.pred_busy (hS : Sim V B C tr s k pos) {l : L} {c : Side} {p : ℕ} {n : H}
    (hg : ((k l).pred c p).phase ≠ .gone) (hw : ((k l).pred c p).who = some n) :
    ∃ fn, s.thread n = .busy fn ∧ V.lock fn = l ∧ C.side n l = c ∧ p = pos n + 1 ∧
      V.phase fn ≠ .absent := by
  cases p with
  | zero => exact absurd rfl hg
  | succ p =>
    obtain ⟨fn, h1, h2, h3, rfl, h5⟩ := hS.active l c p n hw hg
    exact ⟨fn, h1, h2, h3, rfl, h5⟩

/-- The handler of an acquisition in a queue. -/
theorem Sim.exists_handler (hS : Sim V B C tr s k pos) {l : L} {c : Side} {q : ℕ}
    (ha : ((k l).acq c q).Active) : ∃ g f, s.thread g = .busy f ∧ V.lock f = l ∧ C.side g l = c ∧
      pos g = q ∧ V.phase f ≠ .absent := by
  obtain ⟨g, hg⟩ := Option.ne_none_iff_exists'.1 (((hS.reach l).inv.own c q).who ha.1)
  obtain ⟨f, hf, hl, hc, hp, hq⟩ := hS.active l c q g hg ha.2
  exact ⟨g, f, hf, hl, hc, hp, hq⟩

/-- There are fewer tickets in use than there are descriptors, so two of them never share a word. -/
theorem Sim.issued_lt (hS : Sim V B C tr s k pos) (l : L) :
    (k l).issued < (k l).serving + 2 ^ 64 := by
  have hI := (hS.reach l).inv
  -- every ticket in use has a handler, and that handler a descriptor
  have hlive : ∀ t ∈ Finset.Ico (k l).serving (k l).issued, ∃ n h, C.remotePointer h = n ∧
      ((k l).acq (C.side h l) (pos h)).ticket = t := by
    intro t ht
    obtain ⟨c, p, hhas, hticket, -, hrank⟩ := hI.live t (Finset.mem_Ico.1 ht).1 (Finset.mem_Ico.1 ht).2
    have hwho := (hI.own c p).who fun habs => by simp [(hI.own c p).absent habs] at hhas
    obtain ⟨h, hw⟩ := Option.ne_none_iff_exists'.1 hwho
    obtain ⟨-, -, -, hc, hp, -⟩ := hS.active l c p h hw (by grind)
    exact ⟨_, h, rfl, by rw [hc, hp, hticket]⟩
  choose! pointer hpointer using hlive
  have hcard := Finset.card_le_card_of_injOn (s := Finset.Ico (k l).serving (k l).issued)
    (t := Finset.Ioo 0 (2 ^ 64)) pointer
    (fun t ht => by
      obtain ⟨h, hp, -⟩ := hpointer t ht
      exact Finset.mem_Ioo.2 ⟨hp ▸ C.remotePointer_pos h, hp ▸ C.remotePointer_lt h⟩)
    (fun t ht t' ht' heq => by
      obtain ⟨h, hp, rfl⟩ := hpointer t ht
      obtain ⟨h', hp', rfl⟩ := hpointer t' ht'
      rw [C.remotePointer_inj (hp.trans (heq.trans hp'.symm))])
  rw [Nat.card_Ico, Nat.card_Ioo] at hcard
  omega

/-- A handler that waits for its ticket sees it come up only when it is being served. -/
theorem Sim.ticket_eq_serving (hS : Sim V B C tr s k pos) {l : L} {c : Side} {p : ℕ}
    (hp : ((k l).acq c p).phase = .queued)
    (hw : word ((k l).acq c p).ticket = word (k l).serving) :
    ((k l).acq c p).ticket = (k l).serving := by
  have hI := (hS.reach l).inv
  have hhas := (hI.own c p).has (by grind)
  have hlt := (hI.glob c p).lt hhas
  have hge : (k l).serving ≤ ((k l).acq c p).ticket := by
    by_contra hlt'
    have := (hI.glob c p).done hhas (by omega)
    grind
  have hissued := hS.issued_lt l
  have hmod : ((k l).acq c p).ticket % 2 ^ 64 = (k l).serving % 2 ^ 64 := by
    simpa [word] using congrArg UInt64.toNat hw
  omega

variable [DecidableEq H]

/-- A handler that is not in a queue changes at most its own descriptor. -/
theorem Sim.outside (hS : Sim V B C tr s k pos) {h : H} {f' : F}
    (hout : ∀ f, s.thread h = .busy f → V.phase f = .absent) (hlocks : s'.locks = s.locks)
    (hthread : s'.thread = Function.update s.thread h (.busy f'))
    (hdesc : ∀ c g, g ≠ h → s'.descriptor c g = s.descriptor c g)
    (hphase : V.phase f' = .absent)
    (hfresh : V.Fresh f' (s'.descriptor (C.side h (V.lock f')) h)) :
    Sim V B C tr s' k pos where
  reach := hS.reach
  log := hS.log
  words l := hlocks ▸ hS.words l
  fresh g f hg hp := by
    rw [hthread] at hg
    by_cases hgh : g = h
    · subst hgh
      obtain rfl : f' = f := by simpa using hg
      exact hfresh
    · rw [Function.update_of_ne hgh] at hg
      rw [hdesc _ _ hgh]
      exact hS.fresh g f hg hp
  queued g f hg hp := by
    rw [hthread] at hg
    by_cases hgh : g = h
    · subst hgh
      obtain rfl : f' = f := by simpa using hg
      exact absurd hphase hp
    · rw [Function.update_of_ne hgh] at hg
      have hat := hS.queued g f hg hp
      simpa only [View.At, hdesc _ _ hgh] using hat
  active l c p g hw hg := by
    obtain ⟨f, hf, hrest⟩ := hS.active l c p g hw hg
    have hgh : g ≠ h := by
      rintro rfl
      exact hrest.2.2.2 (hout f hf)
    exact ⟨f, by rw [hthread, Function.update_of_ne hgh, hf], hrest⟩

/-- One step of a handler that is in a queue, and stays in it or leaves it. -/
theorem Sim.move (hS : Sim V B C tr s k pos) {h : H} {f : F} {t' : Thread F}
    {e : Option (Event H UInt64)} {K' : Spec.State H} (hf : s.thread h = .busy f)
    (hreach : Reachable B K')
    (hwho : ∀ c p, (K'.acq c p).who = ((k (V.lock f)).acq c p).who)
    (hgone : ∀ c p, ((k (V.lock f)).acq c p).phase = .gone → (K'.acq c p).phase = .gone)
    (hlog : K'.log.map (Event.map word) =
      (k (V.lock f)).log.map (Event.map word) ++ e.toList)
    (hlocks : ∀ l, l ≠ V.lock f → s'.locks l = s.locks l)
    (hlock : LockOk (s'.locks (V.lock f)) K')
    (hthread : s'.thread = Function.update s.thread h t')
    (hdesc : ∀ c g, g ≠ h → s'.descriptor c g ≠ s.descriptor c g →
      ∃ fg, s.thread g = .busy fg ∧ V.phase fg ≠ .absent ∧ V.lock fg = V.lock f)
    (hself : (t' = .idle ∧ (K'.acq (C.side h (V.lock f)) (pos h)).phase = .gone) ∨
      ∃ f', t' = .busy f' ∧ V.lock f' = V.lock f ∧ V.phase f' ≠ .absent ∧
        V.Matches (C.side h (V.lock f)) h f' (s'.descriptor (C.side h (V.lock f)) h)
          (K'.pred (C.side h (V.lock f)) (pos h)) (K'.acq (C.side h (V.lock f)) (pos h))
          (K'.acq (C.side h (V.lock f)) (pos h + 1)) K'.issued K'.serving)
    (hothers : ∀ g fg, g ≠ h → s.thread g = .busy fg → V.phase fg ≠ .absent →
      V.lock fg = V.lock f →
      V.Matches (C.side g (V.lock f)) g fg (s'.descriptor (C.side g (V.lock f)) g)
        (K'.pred (C.side g (V.lock f)) (pos g)) (K'.acq (C.side g (V.lock f)) (pos g))
        (K'.acq (C.side g (V.lock f)) (pos g + 1)) K'.issued K'.serving) :
    Sim V B C (tr ++ (e.map fun x => (V.lock f, x)).toList) s' (Function.update k (V.lock f) K')
      pos where
  reach := hS.reach_step hreach
  log := hS.log_step hlog
  words := hS.words_step hlocks hlock
  fresh g fg hg hp := by
    rw [hthread] at hg
    by_cases hgh : g = h
    · subst hgh
      obtain rfl : t' = .busy fg := by simpa using hg
      rcases hself with ⟨hidle, -⟩ | ⟨f', hf', -, hph, -⟩
      · cases hidle
      · cases hf'
        exact absurd hp hph
    · rw [Function.update_of_ne hgh] at hg
      have hsame : s'.descriptor (C.side g (V.lock fg)) g = s.descriptor (C.side g (V.lock fg)) g := by
        by_contra hne
        obtain ⟨fg', hfg', hp', -⟩ := hdesc _ _ hgh hne
        obtain rfl : fg = fg' := by simpa using hg.symm.trans hfg'
        exact hp' hp
      rw [hsame]
      exact hS.fresh g fg hg hp
  queued g fg hg hp := by
    rw [hthread] at hg
    by_cases hgh : g = h
    · subst hgh
      obtain rfl : t' = .busy fg := by simpa using hg
      rcases hself with ⟨hidle, -⟩ | ⟨f', hf', hl', -, hm⟩
      · cases hidle
      · cases hf'
        simpa only [View.At, hl', Function.update_self] using hm
    · rw [Function.update_of_ne hgh] at hg
      by_cases hl : V.lock fg = V.lock f
      · simpa only [View.At, hl, Function.update_self] using hothers g fg hgh hg hp hl
      · have hsame : s'.descriptor (C.side g (V.lock fg)) g =
            s.descriptor (C.side g (V.lock fg)) g := by
          by_contra hne
          obtain ⟨fg', hfg', -, hl'⟩ := hdesc _ _ hgh hne
          obtain rfl : fg = fg' := by simpa using hg.symm.trans hfg'
          exact hl hl'
        have hat := hS.queued g fg hg hp
        simpa only [View.At, hsame, Function.update_of_ne hl] using hat
  active l c p g hw hng := by
    by_cases hl : l = V.lock f
    · subst hl
      rw [Function.update_self] at hw hng
      rw [hwho] at hw
      obtain ⟨fg, hg, hlg, hcg, hpg, hph⟩ := hS.active _ _ _ _ hw (mt (hgone c p) hng)
      by_cases hgh : g = h
      · subst hgh
        subst hcg hpg
        rcases hself with ⟨-, hgo⟩ | ⟨f', hf', hl', hph', -⟩
        · exact absurd hgo hng
        · exact ⟨f', by rw [hthread, Function.update_self, hf'], hl', rfl, rfl, hph'⟩
      · exact ⟨fg, by rw [hthread, Function.update_of_ne hgh, hg], hlg, hcg, hpg, hph⟩
    · rw [Function.update_of_ne hl] at hw hng
      obtain ⟨fg, hg, hlg, hrest⟩ := hS.active _ _ _ _ hw hng
      have hgh : g ≠ h := by
        rintro rfl
        obtain rfl : fg = f := by simpa using hg.symm.trans hf
        exact hl hlg.symm
      exact ⟨fg, by rw [hthread, Function.update_of_ne hgh, hg], hlg, hrest⟩

/-- One step of a handler `h` in a queue that replaces its own acquisition by `a'` and stores at
most into its own descriptor and that of a neighbour `n`; `n = h` stands for no neighbour. -/
theorem Sim.act (hS : Sim V B C tr s k pos) {h : H} (n : H) {f : F}
    {t' : Thread F} {e : Option (Event H UInt64)} {K' : Spec.State H} {a' : Acq H}
    (hf : s.thread h = .busy f) (hq : V.phase f ≠ .absent) (hreach : Reachable B K')
    (hacq : K'.acq = ((k (V.lock f)).put (C.side h (V.lock f)) (pos h) a').acq)
    (hwho : a'.who = ((k (V.lock f)).acq (C.side h (V.lock f)) (pos h)).who)
    (hlog : K'.log.map (Event.map word) =
      (k (V.lock f)).log.map (Event.map word) ++ e.toList)
    (hlocks : ∀ l, l ≠ V.lock f → s'.locks l = s.locks l)
    (hlock : LockOk (s'.locks (V.lock f)) K')
    (hthread : s'.thread = Function.update s.thread h t')
    (hdesc : ∀ c g, g ≠ h → g ≠ n → s'.descriptor c g = s.descriptor c g)
    (hn : n = h ∨ ∃ fn, s.thread n = .busy fn ∧ V.phase fn ≠ .absent ∧ V.lock fn = V.lock f ∧
      V.Matches (C.side n (V.lock f)) n fn (s'.descriptor (C.side n (V.lock f)) n)
        (K'.pred (C.side n (V.lock f)) (pos n)) (K'.acq (C.side n (V.lock f)) (pos n))
        (K'.acq (C.side n (V.lock f)) (pos n + 1)) K'.issued K'.serving)
    (hself : (t' = .idle ∧ a'.phase = .gone) ∨
      ∃ f', t' = .busy f' ∧ V.lock f' = V.lock f ∧ V.phase f' ≠ .absent ∧
        V.Matches (C.side h (V.lock f)) h f' (s'.descriptor (C.side h (V.lock f)) h)
          ((k (V.lock f)).pred (C.side h (V.lock f)) (pos h)) a'
          ((k (V.lock f)).acq (C.side h (V.lock f)) (pos h + 1)) K'.issued K'.serving)
    (hpred : SamePred ((k (V.lock f)).acq (C.side h (V.lock f)) (pos h)) a' ∨
      ∀ g, ((k (V.lock f)).acq (C.side h (V.lock f)) (pos h + 1)).who = some g → g = n)
    (hsucc : SameSucc ((k (V.lock f)).acq (C.side h (V.lock f)) (pos h)) a' ∨
      ((k (V.lock f)).pred (C.side h (V.lock f)) (pos h)).who = some n)
    (hT : K'.issued = (k (V.lock f)).issued ∨ V.phase f = .passed)
    (hR : K'.serving = (k (V.lock f)).serving ∨
      (k (V.lock f)).serving ≤ K'.serving ∧ V.phase f = .critical) :
    Sim V B C (tr ++ (e.map fun x => (V.lock f, x)).toList) s' (Function.update k (V.lock f) K')
      pos := by
  have hI := (hS.reach (V.lock f)).inv
  have hat := hS.queued h f hf hq
  have hphase := V.phase_eq hat
  refine hS.move hf hreach ?_ ?_ hlog hlocks hlock hthread ?_ ?_ ?_
  · intro c p
    rw [hacq, put_acq]
    split_ifs with hcp
    · rw [hwho, hcp.1, hcp.2]
    · rfl
  · intro c p hgone
    rw [hacq, put_acq]
    split_ifs with hcp
    · rw [hcp.1, hcp.2, hphase] at hgone
      exact absurd hgone (V.ne_gone f)
    · exact hgone
  · intro c g hgh hne
    have hgn : g = n := by
      by_contra hgn
      exact hne (hdesc c g hgh hgn)
    subst hgn
    obtain ⟨fn, hfn, hpn, hln, -⟩ := hn.resolve_left hgh
    exact ⟨fn, hfn, hpn, hln⟩
  · rw [pred_of_acq hacq, hacq]
    simpa using hself
  · intro g fg hgh hg hgq hl
    have hatg := hS.queued g fg hg hgq
    simp only [View.At, hl] at hatg
    by_cases hgn : g = n
    · subst hgn
      obtain ⟨fn, hfn, -, -, hm⟩ := hn.resolve_left hgh
      obtain rfl : fg = fn := by simpa using hg.symm.trans hfn
      exact hm
    · rw [hdesc _ _ hgh hgn]
      have hne := hS.place_ne hgh hg hgq hf hq hl
      refine hS.elsewhere hgh hg hgq hf hq hl hacq ?_ ?_ ?_ ?_
      · refine hpred.imp_right fun hw hc => hgn (hw g ?_)
        rw [← hc.1, ← hc.2]
        exact V.who hatg
      · refine hsucc.imp_right fun hw hc => hgn ?_
        rw [← hc.1, ← hc.2, pred_succ, V.who hatg] at hw
        exact Option.some.inj hw
      · refine hT.imp_right fun hpass hgpass => hne ?_
        exact hI.section_unique (Or.inl ((V.phase_eq hatg).trans hgpass)) (Or.inl (hphase.trans hpass))
      · refine hR.imp_right fun hcrit => ⟨hcrit.1, fun hgcrit => hne ?_⟩
        exact hI.owner_unique (Or.inl ((V.phase_eq hatg).trans hgcrit))
          (Or.inl (hphase.trans hcrit.2))

/-- A step of a handler in a queue that its neighbours do not notice: it stores into the lock and
into its own descriptor, and goes on. -/
theorem Sim.own (hS : Sim V B C tr s k pos) {h : H} {f f' : F} {w' : LockWords H} {d' : D}
    {e : Option (Event H ℕ)} {K' : Spec.State H} {a' : Acq H} (hf : s.thread h = .busy f)
    (hq : V.phase f ≠ .absent) (hstep : Step B (k (V.lock f)) K')
    (hacq : K'.acq = ((k (V.lock f)).put (C.side h (V.lock f)) (pos h) a').acq)
    (hlog : K'.log = (k (V.lock f)).log ++ e.toList) (hlock : LockOk w' K')
    (hl : V.lock f' = V.lock f)
    (hself : V.Matches (C.side h (V.lock f)) h f' d'
      ((k (V.lock f)).pred (C.side h (V.lock f)) (pos h)) a'
      ((k (V.lock f)).acq (C.side h (V.lock f)) (pos h + 1)) K'.issued K'.serving)
    (hpred : SamePred ((k (V.lock f)).acq (C.side h (V.lock f)) (pos h)) a')
    (hsucc : SameSucc ((k (V.lock f)).acq (C.side h (V.lock f)) (pos h)) a')
    (hT : K'.issued = (k (V.lock f)).issued ∨ V.phase f = .passed)
    (hR : K'.serving = (k (V.lock f)).serving ∨
      (k (V.lock f)).serving ≤ K'.serving ∧ V.phase f = .critical) :
    Sim V B C (tr ++ ((e.map (Event.map word)).map fun x => (V.lock f, x)).toList)
      (((s.setLock (V.lock f) w').setDescriptor (C.side h (V.lock f)) h d').goto h f')
      (Function.update k (V.lock f) K') pos := by
  have hphase := V.phase_eq (hS.queued h f hf hq)
  refine hS.act h hf hq ((hS.reach _).step hstep) hacq hpred.who
    (by rw [hlog, List.map_append]; cases e <;> rfl) (fun l hne => by simp [hne]) (by simpa using hlock)
    rfl (fun c g hgh _ => by simp [hgh]) (Or.inl rfl)
    (Or.inr ⟨f', rfl, hl, fun habs => hq ?_, by simpa using hself⟩) (Or.inl hpred) (Or.inl hsucc) hT hR
  rw [← hphase]
  exact hsucc.absent ((V.phase_eq hself).trans habs)

/-- A step of a handler in a queue that only changes its local data and its descriptor. -/
theorem Sim.keep (hS : Sim V B C tr s k pos) {h : H} {f f' : F} {d' : D}
    (hf : s.thread h = .busy f) (hq : V.phase f ≠ .absent) (hl : V.lock f' = V.lock f)
    (hself : V.Matches (C.side h (V.lock f)) h f' d'
      ((k (V.lock f)).pred (C.side h (V.lock f)) (pos h))
      ((k (V.lock f)).acq (C.side h (V.lock f)) (pos h))
      ((k (V.lock f)).acq (C.side h (V.lock f)) (pos h + 1)) (k (V.lock f)).issued
      (k (V.lock f)).serving) :
    Sim V B C tr ((s.setDescriptor (C.side h (V.lock f)) h d').goto h f') k pos := by
  have hsame : (k (V.lock f)).acq = ((k (V.lock f)).put (C.side h (V.lock f)) (pos h)
      ((k (V.lock f)).acq (C.side h (V.lock f)) (pos h))).acq := by
    funext c p
    rw [put_acq]
    split_ifs with hcp
    · rw [hcp.1, hcp.2]
    · rfl
  have hp : V.phase f' = V.phase f :=
    (V.phase_eq hself).symm.trans (V.phase_eq (hS.queued h f hf hq))
  have key : Sim V B C _ ((s.setDescriptor (C.side h (V.lock f)) h d').goto h f') _ pos :=
    hS.act h (e := none) hf hq (hS.reach _) hsame rfl (by simp) (fun l _ => rfl) (hS.words _) rfl
      (fun c g hgh _ => by simp [hgh]) (Or.inl rfl)
      (Or.inr ⟨f', rfl, hl, hp ▸ hq, by simpa using hself⟩) (Or.inl (SamePred.refl _))
      (Or.inl (SameSucc.refl _)) (Or.inl rfl) (Or.inl rfl)
  simpa using key

/-- A step of a handler in a queue that only changes its local data. -/
theorem Sim.stay (hS : Sim V B C tr s k pos) {h : H} {f f' : F} (hf : s.thread h = .busy f)
    (hq : V.phase f ≠ .absent) (hl : V.lock f' = V.lock f)
    (hself : V.Matches (C.side h (V.lock f)) h f' (s.descriptor (C.side h (V.lock f)) h)
      ((k (V.lock f)).pred (C.side h (V.lock f)) (pos h))
      ((k (V.lock f)).acq (C.side h (V.lock f)) (pos h))
      ((k (V.lock f)).acq (C.side h (V.lock f)) (pos h + 1)) (k (V.lock f)).issued
      (k (V.lock f)).serving) :
    Sim V B C tr (s.goto h f') k pos := by
  simpa using hS.keep hf hq hl hself

/-- A step of a handler in a queue that stores into the descriptor of its neighbour `n`. -/
theorem Sim.store (hS : Sim V B C tr s k pos) {h n : H} {f fn : F} {t' : Thread F} {d' : D}
    {e : Option (Event H ℕ)} {K' : Spec.State H} {a' : Acq H} (hf : s.thread h = .busy f)
    (hq : V.phase f ≠ .absent) (hstep : Step B (k (V.lock f)) K')
    (hacq : K'.acq = ((k (V.lock f)).put (C.side h (V.lock f)) (pos h) a').acq)
    (hwho : a'.who = ((k (V.lock f)).acq (C.side h (V.lock f)) (pos h)).who)
    (hlog : K'.log = (k (V.lock f)).log ++ e.toList) (hlock : LockOk (s.locks (V.lock f)) K')
    (hnh : n ≠ h) (hn : s.thread n = .busy fn) (hqn : V.phase fn ≠ .absent)
    (hln : V.lock fn = V.lock f) (hcn : C.side n (V.lock f) = C.side h (V.lock f))
    (hself : (t' = .idle ∧ a'.phase = .gone) ∨
      ∃ f', t' = .busy f' ∧ V.lock f' = V.lock f ∧ V.phase f' ≠ .absent ∧
        V.Matches (C.side h (V.lock f)) h f' (s.descriptor (C.side h (V.lock f)) h)
          ((k (V.lock f)).pred (C.side h (V.lock f)) (pos h)) a'
          ((k (V.lock f)).acq (C.side h (V.lock f)) (pos h + 1)) K'.issued K'.serving)
    (hmatch : V.Matches (C.side h (V.lock f)) n fn d' (K'.pred (C.side h (V.lock f)) (pos n))
      (K'.acq (C.side h (V.lock f)) (pos n)) (K'.acq (C.side h (V.lock f)) (pos n + 1)) K'.issued
      K'.serving)
    (hpred : SamePred ((k (V.lock f)).acq (C.side h (V.lock f)) (pos h)) a' ∨
      ((k (V.lock f)).acq (C.side h (V.lock f)) (pos h + 1)).who = some n)
    (hsucc : SameSucc ((k (V.lock f)).acq (C.side h (V.lock f)) (pos h)) a' ∨
      ((k (V.lock f)).pred (C.side h (V.lock f)) (pos h)).who = some n)
    (hT : K'.issued = (k (V.lock f)).issued) (hR : K'.serving = (k (V.lock f)).serving) :
    Sim V B C (tr ++ ((e.map (Event.map word)).map fun x => (V.lock f, x)).toList)
      { s.setDescriptor (C.side h (V.lock f)) n d' with thread := Function.update s.thread h t' }
      (Function.update k (V.lock f) K') pos := by
  refine hS.act n hf hq ((hS.reach _).step hstep) hacq hwho
    (by rw [hlog, List.map_append]; cases e <;> rfl) (fun _ _ => rfl) hlock rfl
    (fun c g _ hgn => by simp [State.setDescriptor, hgn])
    (Or.inr ⟨fn, hn, hqn, hln, by simpa [State.setDescriptor, hcn] using hmatch⟩) ?_
    (hpred.imp_right fun hw g hg => Option.some.inj (hg.symm.trans hw)) hsucc (Or.inl hT) (Or.inl hR)
  simpa [State.setDescriptor, hnh.symm] using hself

/-- A step of a handler in a queue that stores into the descriptor of its predecessor. -/
theorem Sim.storePrev (hS : Sim V B C tr s k pos) {h n : H} {f f' : F} {d' : D}
    {e : Option (Event H ℕ)} {K' : Spec.State H} {a' : Acq H} (hf : s.thread h = .busy f)
    (hq : V.phase f ≠ .absent) (hstep : Step B (k (V.lock f)) K')
    (hacq : K'.acq = ((k (V.lock f)).put (C.side h (V.lock f)) (pos h) a').acq)
    (hlog : K'.log = (k (V.lock f)).log ++ e.toList) (hlock : LockOk (s.locks (V.lock f)) K')
    (hg : ((k (V.lock f)).pred (C.side h (V.lock f)) (pos h)).phase ≠ .gone)
    (hw : ((k (V.lock f)).pred (C.side h (V.lock f)) (pos h)).who = some n)
    (hl : V.lock f' = V.lock f) (hp : a'.phase ≠ .absent)
    (hself : V.Matches (C.side h (V.lock f)) h f' (s.descriptor (C.side h (V.lock f)) h)
      ((k (V.lock f)).pred (C.side h (V.lock f)) (pos h)) a'
      ((k (V.lock f)).acq (C.side h (V.lock f)) (pos h + 1)) K'.issued K'.serving)
    (hmatch : ∀ fn pr T R, V.Matches (C.side h (V.lock f)) n fn
      (s.descriptor (C.side h (V.lock f)) n) pr
      ((k (V.lock f)).pred (C.side h (V.lock f)) (pos h))
      ((k (V.lock f)).acq (C.side h (V.lock f)) (pos h)) T R →
      V.Matches (C.side h (V.lock f)) n fn d' pr
        ((k (V.lock f)).pred (C.side h (V.lock f)) (pos h)) a' T R)
    (hpred : SamePred ((k (V.lock f)).acq (C.side h (V.lock f)) (pos h)) a')
    (hT : K'.issued = (k (V.lock f)).issued) (hR : K'.serving = (k (V.lock f)).serving) :
    Sim V B C (tr ++ ((e.map (Event.map word)).map fun x => (V.lock f, x)).toList)
      ((s.setDescriptor (C.side h (V.lock f)) n d').goto h f') (Function.update k (V.lock f) K')
      pos := by
  obtain ⟨fn, hn, hln, hcn, hpn, hqn⟩ := hS.pred_busy hg hw
  have hat := hS.queued n fn hn hqn
  simp only [View.At, hln, hcn, ← hpn] at hat
  refine hS.store hf hq hstep hacq hpred.who hlog hlock (fun e => by subst e; omega) hn hqn hln hcn
    (Or.inr ⟨f', rfl, hl, V.phase_eq hself ▸ hp, hself⟩) ?_ (Or.inl hpred) (Or.inr hw) hT hR
  rw [pred_of_acq hacq, hacq, put_acq, put_acq, if_neg (by omega), if_neg (by omega),
    if_pos ⟨rfl, hpn.symm⟩, hT, hR]
  simp only [hpn, pred_succ] at hat hmatch
  exact hmatch _ _ _ _ hat

/-- A step of a handler in a queue that stores into the descriptor of its successor, and goes on or
leaves the queue. -/
theorem Sim.storeNext (hS : Sim V B C tr s k pos) {h n : H} {f : F} {t' : Thread F} {d' : D}
    {e : Option (Event H ℕ)} {K' : Spec.State H} {a' : Acq H} (hf : s.thread h = .busy f)
    (hq : V.phase f ≠ .absent) (hstep : Step B (k (V.lock f)) K')
    (hacq : K'.acq = ((k (V.lock f)).put (C.side h (V.lock f)) (pos h) a').acq)
    (hlog : K'.log = (k (V.lock f)).log ++ e.toList) (hlock : LockOk (s.locks (V.lock f)) K')
    (hg : ((k (V.lock f)).acq (C.side h (V.lock f)) (pos h + 1)).phase ≠ .gone)
    (hw : ((k (V.lock f)).acq (C.side h (V.lock f)) (pos h + 1)).who = some n)
    (hself : (t' = .idle ∧ a'.phase = .gone) ∨
      ∃ f', t' = .busy f' ∧ V.lock f' = V.lock f ∧ V.phase f' ≠ .absent ∧
        V.Matches (C.side h (V.lock f)) h f' (s.descriptor (C.side h (V.lock f)) h)
          ((k (V.lock f)).pred (C.side h (V.lock f)) (pos h)) a'
          ((k (V.lock f)).acq (C.side h (V.lock f)) (pos h + 1)) K'.issued K'.serving)
    (hmatch : ∀ fn nx T R, V.Matches (C.side h (V.lock f)) n fn
      (s.descriptor (C.side h (V.lock f)) n) ((k (V.lock f)).acq (C.side h (V.lock f)) (pos h))
      ((k (V.lock f)).acq (C.side h (V.lock f)) (pos h + 1)) nx T R →
      V.Matches (C.side h (V.lock f)) n fn d' a'
        ((k (V.lock f)).acq (C.side h (V.lock f)) (pos h + 1)) nx T R)
    (hsucc : SameSucc ((k (V.lock f)).acq (C.side h (V.lock f)) (pos h)) a')
    (hwho : a'.who = ((k (V.lock f)).acq (C.side h (V.lock f)) (pos h)).who)
    (hT : K'.issued = (k (V.lock f)).issued) (hR : K'.serving = (k (V.lock f)).serving) :
    Sim V B C (tr ++ ((e.map (Event.map word)).map fun x => (V.lock f, x)).toList)
      { s.setDescriptor (C.side h (V.lock f)) n d' with thread := Function.update s.thread h t' }
      (Function.update k (V.lock f) K') pos := by
  obtain ⟨fn, hn, hln, hcn, hpn, hqn⟩ := hS.active _ _ _ _ hw hg
  have hat := hS.queued n fn hn hqn
  simp only [View.At, hln, hcn, hpn, pred_succ] at hat
  refine hS.store hf hq hstep hacq hwho hlog hlock (fun e => by subst e; omega) hn hqn hln hcn hself ?_
    (Or.inr hw) (Or.inl hsucc) hT hR
  rw [pred_of_acq hacq, hacq, put_acq, put_acq, if_pos ⟨rfl, hpn⟩, if_neg (by omega),
    if_neg (by omega), hT, hR, hpn]
  exact hmatch _ _ _ _ hat

/-- A step of a handler in a queue that stores into the descriptor of its successor and changes the
acquisitions of both. -/
theorem Sim.hand (hS : Sim V B C tr s k pos) {h n : H} {f f' : F} {d' : D}
    {e : Option (Event H ℕ)} {K' : Spec.State H} {a' b' : Acq H} (hf : s.thread h = .busy f)
    (hq : V.phase f ≠ .absent) (hstep : Step B (k (V.lock f)) K')
    (hacq : K'.acq = (((k (V.lock f)).put (C.side h (V.lock f)) (pos h) a').put
      (C.side h (V.lock f)) (pos h + 1) b').acq)
    (hlog : K'.log = (k (V.lock f)).log ++ e.toList) (hlock : LockOk (s.locks (V.lock f)) K')
    (hg : ((k (V.lock f)).acq (C.side h (V.lock f)) (pos h + 1)).phase ≠ .gone)
    (hw : ((k (V.lock f)).acq (C.side h (V.lock f)) (pos h + 1)).who = some n)
    (hl : V.lock f' = V.lock f) (hq' : V.phase f' ≠ .absent)
    (hself : V.Matches (C.side h (V.lock f)) h f' (s.descriptor (C.side h (V.lock f)) h)
      ((k (V.lock f)).pred (C.side h (V.lock f)) (pos h)) a' b' K'.issued K'.serving)
    (hmatch : ∀ fn nx T R, V.Matches (C.side h (V.lock f)) n fn
      (s.descriptor (C.side h (V.lock f)) n) ((k (V.lock f)).acq (C.side h (V.lock f)) (pos h))
      ((k (V.lock f)).acq (C.side h (V.lock f)) (pos h + 1)) nx T R →
      V.Matches (C.side h (V.lock f)) n fn d' a' b' nx T R)
    (hwho : a'.who = ((k (V.lock f)).acq (C.side h (V.lock f)) (pos h)).who)
    (hsucc : SameSucc ((k (V.lock f)).acq (C.side h (V.lock f)) (pos h)) a')
    (hpred : SamePred ((k (V.lock f)).acq (C.side h (V.lock f)) (pos h + 1)) b')
    (hT : K'.issued = (k (V.lock f)).issued) (hR : K'.serving = (k (V.lock f)).serving) :
    Sim V B C (tr ++ ((e.map (Event.map word)).map fun x => (V.lock f, x)).toList)
      ((s.setDescriptor (C.side h (V.lock f)) n d').goto h f') (Function.update k (V.lock f) K')
      pos := by
  obtain ⟨fn, hn, hln, hcn, hpn, hqn⟩ := hS.active _ _ _ _ hw hg
  have hatn := hS.queued n fn hn hqn
  simp only [View.At, hln, hcn, hpn, pred_succ] at hatn
  have hphase := V.phase_eq (hS.queued h f hf hq)
  have hnh : n ≠ h := fun e => by subst e; omega
  have hpred' : ∀ c q, K'.pred c q = if c = C.side h (V.lock f) ∧ q = pos h + 2 then b'
      else if c = C.side h (V.lock f) ∧ q = pos h + 1 then a' else (k (V.lock f)).pred c q :=
    fun c q => by rw [pred_of_acq hacq, put_pred]
  refine hS.move hf ((hS.reach _).step hstep) (fun c p => ?_) (fun c p hgone => ?_)
    (by rw [hlog, List.map_append]; cases e <;> rfl) (fun _ _ => rfl) hlock rfl
    (fun c g _ hne => ?_) (Or.inr ⟨f', rfl, hl, hq', ?_⟩) (fun g fg hgh hgf hgq hlg => ?_)
  · rw [hacq, put_acq, put_acq]
    split_ifs with h1 h2
    · rw [hpred.who, h1.1, h1.2]
    · rw [hwho, h2.1, h2.2]
    · rfl
  · rw [hacq, put_acq, put_acq]
    split_ifs with h1 h2
    · rw [h1.1, h1.2] at hgone
      exact absurd hgone hg
    · rw [h2.1, h2.2, hphase] at hgone
      exact absurd hgone (V.ne_gone f)
    · exact hgone
  · have hgn : g = n := by
      by_contra hgn
      exact hne (by simp [hgn])
    exact hgn ▸ ⟨fn, hn, hqn, hln⟩
  · rw [hpred', hacq, put_acq, put_acq, put_acq, put_acq, if_neg (by omega), if_neg (by omega),
      if_neg (by omega), if_pos ⟨rfl, rfl⟩, if_pos ⟨rfl, rfl⟩]
    simpa [hnh.symm] using hself
  · by_cases hgn : g = n
    · subst hgn
      obtain rfl : fg = fn := by simpa using hgf.symm.trans hn
      rw [hcn, hpn, hpred', hacq, put_acq, put_acq, put_acq, put_acq, if_neg (by omega),
        if_pos ⟨rfl, rfl⟩, if_pos ⟨rfl, rfl⟩, if_neg (by omega), if_neg (by omega), hT, hR]
      simpa using hmatch _ _ _ _ hatn
    · have hat := hS.queued g fg hgf hgq
      have hne := hS.place_ne hgh hgf hgq hf hq hlg
      have hne' := hS.place_ne hgn hgf hgq hn hqn (hlg.trans hln.symm)
      rw [hln, hcn, hpn] at hne'
      simp only [View.At, hlg] at hat
      rw [hpred', hacq, put_acq, put_acq, put_acq, put_acq, if_neg hne', if_neg hne', if_neg hne, hT,
        hR]
      simp only [goto_descriptor, setDescriptor_descriptor, hgn, and_false, if_false]
      refine V.congr hat ?_ ?_ (Or.inl rfl) (Or.inl rfl)
      · split_ifs with h1
        · rw [h1.1, h1.2]
          exact hpred
        · exact SamePred.refl _
      · rw [if_neg fun h => hne ⟨h.1, by omega⟩]
        split_ifs with h1
        · rw [h1.1, h1.2]
          exact hsucc
        · exact SameSucc.refl _

omit [DecidableEq H] in
/-- A handler in a queue is the tail exactly if nobody is behind it. -/
theorem Sim.tail_iff (hS : Sim V B C tr s k pos) {h : H} {f : F} (hf : s.thread h = .busy f)
    (hq : V.phase f ≠ .absent) :
    (s.locks (V.lock f)).tail (C.side h (V.lock f)) = some h ↔
      ((k (V.lock f)).acq (C.side h (V.lock f)) (pos h + 1)).phase = .absent := by
  have hat := hS.queued h f hf hq
  have hphase := V.phase_eq hat
  have hI := (hS.reach (V.lock f)).inv
  rw [(hS.words _).tail, hI.succ_absent_iff (hphase ▸ hq)]
  constructor
  · intro ht
    obtain ⟨p, harr, hng, hwho⟩ := exists_tail (K := k (V.lock f)) (c := C.side h (V.lock f))
      (by simp [ht])
    obtain ⟨-, -, -, -, hpos, -⟩ := hS.active _ _ _ _ (hwho.symm.trans ht) hng
    rw [harr, hpos]
  · intro harr
    rw [State.tail, harr, pred_succ, if_neg (hphase ▸ V.ne_gone f)]
    exact V.who hat

/-- The compare-and-swap with which the last handler of a queue leaves it. -/
theorem Sim.leave (hS : Sim V B C tr s k pos) {h : H} {f : F} (hf : s.thread h = .busy f)
    (hp : V.phase f = .freed)
    (habs : ((k (V.lock f)).acq (C.side h (V.lock f)) (pos h + 1)).phase = .absent) :
    ∃ k', Sim V B C (tr ++ [(V.lock f, .leave (C.side h (V.lock f)) h)])
      ((s.setLock (V.lock f) ((s.locks (V.lock f)).setTail (C.side h (V.lock f)) none)).exit h)
      k' pos := by
  have hq : V.phase f ≠ .absent := by simp [hp]
  have hat := hS.queued h f hf hq
  have hphase := (V.phase_eq hat).trans hp
  have hI := (hS.reach (V.lock f)).inv
  have hlock := (hS.words (V.lock f)).depart (p := pos h) hI (by rw [hphase]; simp)
    (b := { (k (V.lock f)).acq (C.side h (V.lock f)) (pos h) with phase := .gone }) rfl
    ((k (V.lock f)).log ++ [.leave (C.side h (V.lock f)) h])
  rw [if_pos habs] at hlock
  have hnone : ((k (V.lock f)).acq (C.side h (V.lock f)) (pos h + 1)).who = none := by
    rw [(hI.own _ _).absent habs]
  exact ⟨_, hS.act h (e := some (.leave _ h)) hf hq
    ((hS.reach _).step (Step.depart hphase (V.who hat) (Or.inl habs))) rfl rfl
    (by simp [Event.map]) (fun l hl => by simp [hl]) (by simpa using hlock) rfl (fun c g _ _ => rfl)
    (Or.inl rfl) (Or.inl ⟨rfl, rfl⟩) (Or.inr fun g hg => by simp [hnone] at hg)
    (Or.inl (sameSucc_of_rank rfl (by grind) (by grind))) (Or.inl rfl) (Or.inl rfl)⟩

/-- The tail exchange: handler `h` takes the last place of its queue. -/
theorem Sim.arrive (hS : Sim V B C tr s k pos) {h : H} {f f' : F}
    (hf : s.thread h = .busy f) (hout : V.phase f = .absent) (hl : V.lock f' = V.lock f)
    (hlocks : ∀ l, l ≠ V.lock f → s'.locks l = s.locks l)
    (hlock : s'.locks (V.lock f) =
      (s.locks (V.lock f)).setTail (C.side h (V.lock f)) (some h))
    (hthread : s'.thread = Function.update s.thread h (.busy f'))
    (hdesc : s'.descriptor = s.descriptor) (hq : V.phase f' ≠ .absent)
    (hself : V.Matches (C.side h (V.lock f)) h f' (s.descriptor (C.side h (V.lock f)) h)
      ((k (V.lock f)).pred (C.side h (V.lock f)) ((k (V.lock f)).arrived (C.side h (V.lock f))))
      (newcomer ((k (V.lock f)).pred (C.side h (V.lock f))
        ((k (V.lock f)).arrived (C.side h (V.lock f)))) h) {} (k (V.lock f)).issued
      (k (V.lock f)).serving) :
    Sim V B C (tr ++ [(V.lock f, .arrive (C.side h (V.lock f)) h)]) s'
      (Function.update k (V.lock f) ((k (V.lock f)).arrive (C.side h (V.lock f)) h))
      (Function.update pos h ((k (V.lock f)).arrived (C.side h (V.lock f)))) := by
  generalize hc : C.side h (V.lock f) = c at *
  generalize hK : k (V.lock f) = K at *
  have hI := (hS.reach (V.lock f)).inv
  rw [hK] at hI
  have habs : ∀ q, K.arrived c ≤ q → K.acq c q = {} := by
    intro q hq
    refine (hI.own c q).absent (by_contra fun hne => ?_)
    have := (hI.count c q).2 hne
    omega
  have hacq : (K.arrive c h).acq =
      (K.put c (K.arrived c) (newcomer (K.pred c (K.arrived c)) h)).acq := rfl
  -- nobody else who is in a queue is `h`, or stands at the new place
  have hother : ∀ g fg, g ≠ h → s.thread g = .busy fg → V.phase fg ≠ .absent →
      V.lock fg = V.lock f → ¬ (C.side g (V.lock f) = c ∧ pos g = K.arrived c) := by
    rintro g fg hgh hg hgq hlg ⟨hcg, hpg⟩
    have hw := V.who (hS.queued g fg hg hgq)
    rw [hlg, hK, hcg, hpg, habs _ le_rfl] at hw
    simp at hw
  have hpred : (K.arrive c h).pred c (K.arrived c) = K.pred c (K.arrived c) := by
    rw [pred_of_acq hacq, if_neg (by omega)]
  have hnew : ∀ c' p, (K.acq c' p).who = some h → (K.acq c' p).phase = .gone := by
    intro c' p hw
    by_contra hng
    subst hK
    obtain ⟨fg, hg, -, -, -, hph⟩ := hS.active _ _ _ _ hw hng
    obtain rfl : f = fg := by simpa using hf.symm.trans hg
    exact hph hout
  refine
    { reach := hS.reach_step (.step (hK ▸ hS.reach _) (.arrive c h hnew))
      log := hS.log_step (e := some (.arrive c h)) (by simp [State.arrive, Event.map, hK])
      words := hS.words_step hlocks ?_
      fresh := fun g fg hg hp => ?_
      queued := fun g fg hg hp => ?_
      active := fun l c' p g hw hng => ?_ }
  · have hw := hS.words (V.lock f)
    rw [hK] at hw
    rw [hlock]
    refine ⟨fun c' => ?_, fun c' => ?_, ?_, ?_, ?_⟩
    · rw [tail_arrive, LockWords.tail_setTail, hw.tail]
    · rw [LockWords.flag_setTail, hw.flag]
      rfl
    · rw [LockWords.victim_setTail, hw.victim]
      rfl
    · rw [LockWords.nextTicket_setTail, hw.nextTicket]
      rfl
    · rw [LockWords.currentTicket_setTail, hw.currentTicket]
      rfl
  · rw [hthread] at hg
    by_cases hgh : g = h
    · subst hgh
      obtain rfl : f' = fg := by simpa using hg
      exact absurd hp hq
    · rw [Function.update_of_ne hgh] at hg
      rw [hdesc]
      exact hS.fresh g fg hg hp
  · rw [hthread] at hg
    by_cases hgh : g = h
    · subst hgh
      obtain rfl : f' = fg := by simpa using hg
      simp only [View.At, hl, Function.update_self, hc, hdesc]
      rw [hpred, hacq, put_acq, put_acq, if_pos ⟨rfl, rfl⟩, if_neg (by omega),
        habs _ (Nat.le_succ _)]
      exact hself
    · rw [Function.update_of_ne hgh] at hg
      have hat := hS.queued g fg hg hp
      simp only [View.At, hdesc, Function.update_of_ne hgh]
      by_cases hlg : V.lock fg = V.lock f
      · have hne := hother g fg hgh hg hp hlg
        simp only [View.At, hlg, hK] at hat
        rw [hlg, Function.update_self, pred_of_acq hacq, hacq, put_acq, put_acq, if_neg hne]
        refine V.congr hat ?_ ?_ (Or.inl rfl) (Or.inl rfl)
        · rw [if_neg]
          · exact SamePred.refl _
          · -- the new place is the last one
            rintro ⟨hcg, hpg⟩
            have hw := V.who hat
            rw [hcg, hpg, habs _ (Nat.le_succ _)] at hw
            simp at hw
        · split_ifs with hcg
          · have hph := V.phase_eq hat
            rw [hcg.1, hcg.2, habs _ le_rfl, ← hcg.2, pred_succ]
            rw [hcg.1] at hph
            exact sameSucc_newcomer (hph ▸ V.ne_gone fg) h
          · exact SameSucc.refl _
      · rw [Function.update_of_ne hlg]
        exact hat
  · have hold : ∀ l c' p, ((k l).acq c' p).who = some g → ((k l).acq c' p).phase ≠ .gone →
        ∃ f, s'.thread g = .busy f ∧ V.lock f = l ∧ C.side g l = c' ∧
          Function.update pos h (K.arrived c) g = p ∧ V.phase f ≠ .absent := by
      intro l c' p hw hng
      obtain ⟨fg, hg, hlg, hcg, hpg, hph⟩ := hS.active _ _ _ _ hw hng
      have hgh : g ≠ h := by
        rintro rfl
        obtain rfl : f = fg := by simpa using hf.symm.trans hg
        exact hph hout
      exact ⟨fg, by rw [hthread, Function.update_of_ne hgh, hg], hlg, hcg,
        by rw [Function.update_of_ne hgh, hpg], hph⟩
    by_cases hll : l = V.lock f
    · subst hll
      rw [Function.update_self, hacq, put_acq] at hw hng
      by_cases hcp : c' = c ∧ p = K.arrived c
      · obtain ⟨rfl, rfl⟩ := hcp
        rw [if_pos ⟨rfl, rfl⟩] at hw
        obtain rfl : h = g := by simpa [newcomer] using hw
        exact ⟨f', by rw [hthread, Function.update_self], hl, hc, Function.update_self .., hq⟩
      · rw [if_neg hcp] at hw hng
        exact hold _ _ _ (hK ▸ hw) (hK ▸ hng)
    · rw [Function.update_of_ne hll] at hw hng
      exact hold _ _ _ hw hng

end Steps

end Farlock
