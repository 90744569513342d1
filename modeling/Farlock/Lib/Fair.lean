import Mathlib.Tactic
import Farlock.Lib.Transition

/-!
# Endless executions that are fair to every agent

The steps of a system are taken by agents.  An endless execution is fair if no agent
that is busy from some time on is left without a step for ever.  What an agent does by itself then
happens at some time, provided that the others do not undo it.

* `Execution`, `Execution.trace`, `Execution.Fair`;
* `Execution.exists_served`: in a queue that never stops, whoever comes is served;
* `Execution.Fair.eventually`: one step of an agent, which the others cannot prevent, is taken;
* `Execution.Fair.reach`: an agent whose rank grows with its steps comes to the end of its way;
* `Execution.follow`: the execution of a scheduler that always finds a step to take;
* `Execution.fair_of_turns`: two agents that take turns.
-/

/-- An endless execution: in every step one agent takes one of its actions. -/
structure Execution {σ H A ε : Type} (init : σ → Prop) (step : σ → H → A → Option (σ × Option ε)) where
  state : ℕ → σ
  agent : ℕ → H
  act : ℕ → A
  event : ℕ → Option ε
  start : init (state 0)
  next : ∀ n, step (state n) (agent n) (act n) = some (state (n + 1), event n)

namespace Execution

variable {σ H A ε : Type} {init : σ → Prop} {step : σ → H → A → Option (σ × Option ε)}

/-- The events of the first `n` steps. -/
def trace (P : Execution init step) : ℕ → List ε
  | 0 => []
  | n + 1 => P.trace n ++ (P.event n).toList

/-- No agent that is busy from some time on waits for ever for its next step. -/
def Fair (P : Execution init step) (busy : σ → H → Prop) : Prop :=
  ∀ h n, (∀ m ≥ n, busy (P.state m) h) → ∃ m ≥ n, P.agent m = h

/-- What an execution has done by time `n` is a run. -/
theorem run {S : Lts σ ε} (P : Execution init step) (hinit : ∀ s, init s → S.init s)
    (hstep : ∀ s h a s' e, step s h a = some (s', e) → S.step s e s') (n : ℕ) :
    S.Run (P.trace n) (P.state n) := by
  induction n with
  | zero => exact .start (hinit _ P.start)
  | succ n ih => exact ih.next (hstep _ _ _ _ _ (P.next n))

theorem trace_mono (P : Execution init step) {n m : ℕ} (hnm : n ≤ m) : P.trace n <+: P.trace m := by
  induction m, hnm using Nat.le_induction with
  | base => exact List.prefix_refl _
  | succ m _ ih => exact ih.trans (List.prefix_append _ _)

/-! ### First come, first served -/

section Served

variable {β : Type} (P : Execution init step) (arrived entered departed : ε → Option β) {n m i d : ℕ}
  {b : β} {e : ε}

/-- What `f` has seen of the events of the first `n` steps. -/
def seen (f : ε → Option β) (n : ℕ) : List β := (P.trace n).filterMap f

theorem seen_succ (f : ε → Option β) (n : ℕ) :
    P.seen f (n + 1) = P.seen f n ++ ((P.event n).bind f).toList := by
  unfold seen
  rw [trace, List.filterMap_append]
  cases he : P.event n with
  | none => rfl
  | some e => cases hf : f e <;> simp [hf]

theorem seen_mono (f : ε → Option β) (hnm : n ≤ m) : P.seen f n <+: P.seen f m :=
  (P.trace_mono hnm).filterMap f

omit P in
theorem getElem?_mono {l l' : List β} (hl : l <+: l') (hi : l[i]? = some b) : l'[i]? = some b := by
  obtain ⟨t, rfl⟩ := hl
  obtain ⟨hlt, -⟩ := List.getElem?_eq_some_iff.1 hi
  rwa [List.getElem?_append_left hlt]

theorem seen_get {f : ε → Option β} (he : P.event n = some e) (hf : f e = some b) :
    (P.seen f (n + 1))[(P.seen f n).length]? = some b := by
  rw [P.seen_succ, he]
  simp [hf]

/-- Of the events of one kind, the one with number `d` is made when there get to be more than `d`. -/
theorem exists_seen (f : ε → Option β) (hn : (P.seen f n).length ≤ d) (hm : d < (P.seen f m).length) :
    ∃ i ≥ n, i < m ∧ (P.seen f i).length = d ∧ ∃ e b, P.event i = some e ∧ f e = some b := by
  induction m with
  | zero => simp [seen, trace] at hm
  | succ m ih =>
    by_cases hd : d < (P.seen f m).length
    · obtain ⟨i, hi, him, hev⟩ := ih hd
      exact ⟨i, hi, by omega, hev⟩
    · -- the last step has made it
      have hnm : n ≤ m := by
        by_contra hlt
        have := (P.seen_mono f (show m + 1 ≤ n by omega)).length_le
        omega
      rw [seen_succ, List.length_append] at hm
      cases he : P.event m with
      | none => simp [he, hd] at hm
      | some e =>
        cases hb : f e with
        | none => simp [he, hb, hd] at hm
        | some b =>
          simp only [he, hb, Option.bind_some, Option.toList_some, List.length_singleton] at hm
          exact ⟨m, hnm, Nat.lt_succ_self m, by omega, e, b, he, hb⟩

/-- If departures go on as long as there are more arrivals than departures, as many depart as have
arrived. -/
theorem exists_departed
    (hnext : ∀ n, (P.seen departed n).length < (P.seen arrived n).length →
      ∃ m ≥ n, (P.seen departed n).length < (P.seen departed m).length)
    (hd : d < (P.seen arrived n).length) : ∃ m ≥ n, d < (P.seen departed m).length := by
  by_cases hn : d < (P.seen departed n).length
  · exact ⟨n, le_rfl, hn⟩
  induction hk : d - (P.seen departed n).length using Nat.strong_induction_on generalizing n with
  | _ k ih =>
    obtain ⟨m, hm, hlt⟩ := hnext n (by omega)
    by_cases hdm : d < (P.seen departed m).length
    · exact ⟨m, hm, hdm⟩
    · have harr := hd.trans_le (P.seen_mono arrived hm).length_le
      obtain ⟨i, hi, hlt'⟩ := ih (d - (P.seen departed m).length) (by omega) harr hdm rfl
      exact ⟨i, by omega, hlt'⟩

/-- If departures go on as long as there are more arrivals than departures, and the entries and the
departures are in the order of the arrivals, then whoever arrives enters at some time and departs
later. -/
theorem exists_served
    (horder : ∀ n, P.seen departed n <+: P.seen entered n ∧ P.seen entered n <+: P.seen arrived n)
    (hnext : ∀ n, (P.seen departed n).length < (P.seen arrived n).length →
      ∃ m ≥ n, (P.seen departed n).length < (P.seen departed m).length)
    (harr : ∀ e b, arrived e = some b → entered e = none ∧ departed e = none)
    (hent : ∀ e b, entered e = some b → departed e = none)
    (he : P.event n = some e) (hb : arrived e = some b) :
    ∃ m > n, (∃ e, P.event m = some e ∧ entered e = some b) ∧
      ∃ i > m, ∃ e, P.event i = some e ∧ departed e = some b := by
  -- the number of the arrival is the number of the entry and of the departure, too
  set d := (P.seen arrived n).length with hd
  have hnum : ∀ m > n, (P.seen arrived m)[d]? = some b := fun m hm =>
    getElem?_mono (P.seen_mono arrived hm) (P.seen_get he hb)
  obtain ⟨hno, hno'⟩ := harr e b hb
  have hfew : (P.seen entered (n + 1)).length ≤ d := by
    rw [P.seen_succ, he]
    simpa [hno] using (horder n).2.length_le
  have hfew' : (P.seen departed (n + 1)).length ≤ d := (horder (n + 1)).1.length_le.trans hfew
  have hmore : d < (P.seen arrived (n + 1)).length :=
    (List.getElem?_eq_some_iff.1 (hnum (n + 1) (by omega))).1
  obtain ⟨m, -, hgt⟩ := P.exists_departed arrived departed hnext hmore
  obtain ⟨i, hi, -, hlen, e', b', he', hb'⟩ := P.exists_seen departed hfew' hgt
  -- the entry comes before the departure
  have hgt' : d < (P.seen entered (i + 1)).length := by
    refine lt_of_lt_of_le ?_ (horder (i + 1)).1.length_le
    rw [P.seen_succ, List.length_append, hlen, he']
    simp [hb']
  obtain ⟨m, hm, hmi, hlen'', e'', b'', he'', hb''⟩ := P.exists_seen entered hfew hgt'
  have hne : m ≠ i := by
    rintro rfl
    obtain rfl : e'' = e' := Option.some.inj (he''.symm.trans he')
    simp [hent e'' b'' hb''] at hb'
  have hb1 : b'' = b := by
    have := getElem?_mono (horder (m + 1)).2 (P.seen_get he'' hb'')
    rw [hlen'', hnum (m + 1) (by omega)] at this
    exact (Option.some.inj this).symm
  have hb2 : b' = b := by
    have := getElem?_mono ((horder (i + 1)).1.trans (horder (i + 1)).2) (P.seen_get he' hb')
    rw [hlen, hnum (i + 1) (by omega)] at this
    exact (Option.some.inj this).symm
  subst hb1 hb2
  exact ⟨m, by omega, ⟨e'', he'', hb''⟩, i, by omega, e', he', hb'⟩

end Served

/-! ### What happens at some time -/

section Fair

variable {P : Execution init step} {busy : σ → H → Prop} {h : H} {I Q : ℕ → Prop} {n : ℕ}

/-- If `I` makes agent `h` busy, the steps of the others lead from `I` to `I` or `Q`, and the steps of
`h` lead to `Q`, then `Q` is reached. -/
theorem Fair.eventually (hP : P.Fair busy) (hI : I n) (hbusy : ∀ m ≥ n, I m → busy (P.state m) h)
    (hkeep : ∀ m ≥ n, I m → I (m + 1) ∨ Q (m + 1))
    (hown : ∀ m ≥ n, I m → P.agent m = h → Q (m + 1)) : ∃ m > n, Q m := by
  by_contra hno
  push Not at hno
  have hall : ∀ m ≥ n, I m := by
    intro m hm
    induction m, hm using Nat.le_induction with
    | base => exact hI
    | succ m hm ih => exact (hkeep m hm ih).resolve_right (hno (m + 1) (by omega))
  obtain ⟨m, hm, hag⟩ := hP h n fun m hm => hbusy m hm (hall m hm)
  exact hno (m + 1) (by omega) (hown m hm (hall m hm) hag)

/-- If `I` makes agent `h` busy, and every step leads from `I` to `Q` or keeps `I` without lowering
the rank, which the steps of `h` raise up to some limit, then `Q` is reached. -/
theorem Fair.reach (hP : P.Fair busy) (rank : ℕ → ℕ) (limit : ℕ) (hI : I n)
    (hbusy : ∀ m ≥ n, I m → busy (P.state m) h) (hlimit : ∀ m ≥ n, I m → rank m ≤ limit)
    (hkeep : ∀ m ≥ n, I m → Q (m + 1) ∨ I (m + 1) ∧ rank m ≤ rank (m + 1) ∧
      (P.agent m = h → rank m < rank (m + 1))) : ∃ m > n, Q m := by
  induction hd : limit - rank n using Nat.strong_induction_on generalizing n with
  | _ d ih =>
    obtain ⟨m, hm, hQ | ⟨hIm, hr⟩⟩ : ∃ m > n, Q m ∨ I m ∧ rank n < rank m := by
      refine hP.eventually (I := fun m => I m ∧ rank n ≤ rank m) ⟨hI, le_rfl⟩
        (fun m hm hIm => hbusy m hm hIm.1) (fun m hm hIm => ?_) fun m hm hIm hag => ?_
      · obtain hQ | ⟨hI', hle, -⟩ := hkeep m hm hIm.1
        · exact Or.inr (Or.inl hQ)
        · exact Or.inl ⟨hI', hIm.2.trans hle⟩
      · obtain hQ | ⟨hI', -, hlt⟩ := hkeep m hm hIm.1
        · exact Or.inl hQ
        · exact Or.inr ⟨hI', hIm.2.trans_lt (hlt hag)⟩
    · exact ⟨m, hm, hQ⟩
    · have hle := hlimit m hm.le hIm
      obtain ⟨m', hm', hQ⟩ := ih (limit - rank m) (by omega) hIm
        (fun j hj => hbusy j (by omega)) (fun j hj => hlimit j (by omega))
        (fun j hj => hkeep j (by omega)) rfl
      exact ⟨m', by omega, hQ⟩

/-- If agent `h`, while `I` holds, gets ready at some time for a step that raises its rank, and stays
ready until then, then `Q` is reached in the end. -/
theorem Fair.climb (hP : P.Fair busy) (rank : ℕ → ℕ) (limit : ℕ) (Ready : ℕ → Prop) (hI : I n)
    (hbusy : ∀ m ≥ n, I m → busy (P.state m) h) (hlimit : ∀ m ≥ n, I m → rank m ≤ limit)
    (hready : ∀ m ≥ n, I m → ∃ i ≥ m, Q i ∨ I i ∧ rank m ≤ rank i ∧ Ready i)
    (hkeep : ∀ m ≥ n, I m → Ready m → Q (m + 1) ∨ I (m + 1) ∧
      (rank m < rank (m + 1) ∨ rank m = rank (m + 1) ∧ Ready (m + 1) ∧ P.agent m ≠ h)) :
    ∃ m ≥ n, Q m := by
  induction hd : limit - rank n using Nat.strong_induction_on generalizing n with
  | _ d ih =>
    obtain ⟨i, hi, hQ | ⟨hIi, hri, hRi⟩⟩ := hready n le_rfl hI
    · exact ⟨i, hi, hQ⟩
    obtain ⟨m, hm, hQ | ⟨hIm, hr⟩⟩ : ∃ m > i, Q m ∨ I m ∧ rank i < rank m := by
      refine hP.eventually (I := fun m => I m ∧ rank i = rank m ∧ Ready m) ⟨hIi, rfl, hRi⟩
        (fun m hm hIm => hbusy m (by omega) hIm.1) (fun m hm hIm => ?_) fun m hm hIm hag => ?_
      · obtain hQ | ⟨hI', hlt | ⟨heq, hR, -⟩⟩ := hkeep m (by omega) hIm.1 hIm.2.2
        · exact Or.inr (Or.inl hQ)
        · exact Or.inr (Or.inr ⟨hI', hIm.2.1 ▸ hlt⟩)
        · exact Or.inl ⟨hI', hIm.2.1.trans heq, hR⟩
      · obtain hQ | ⟨hI', hlt | ⟨-, -, hne⟩⟩ := hkeep m (by omega) hIm.1 hIm.2.2
        · exact Or.inl hQ
        · exact Or.inr ⟨hI', hIm.2.1 ▸ hlt⟩
        · exact absurd hag hne
    · exact ⟨m, by omega, hQ⟩
    · have hle := hlimit m (by omega) hIm
      obtain ⟨j, hj, hQ⟩ := ih (limit - rank m) (by omega) hIm (fun j hj => hbusy j (by omega))
        (fun j hj => hlimit j (by omega)) (fun j hj => hready j (by omega))
        (fun j hj => hkeep j (by omega)) rfl
      exact ⟨j, by omega, hQ⟩

end Fair

/-- What only grows, but not beyond `k`, stays the same from some time on. -/
theorem exists_const {f : ℕ → ℕ} {n k : ℕ} (hf : Monotone f) (hk : ∀ m ≥ n, f m ≤ k) :
    ∃ i ≥ n, ∀ m ≥ i, f m = f i := by
  induction hd : k - f n using Nat.strong_induction_on generalizing n with
  | _ d ih =>
    by_cases hall : ∀ m ≥ n, f m = f n
    · exact ⟨n, le_rfl, hall⟩
    · push Not at hall
      obtain ⟨m, hm, hne⟩ := hall
      have hlt : f n < f m := lt_of_le_of_ne (hf hm) (Ne.symm hne)
      have := hk m hm
      obtain ⟨i, hi, hc⟩ := ih (k - f m) (by omega) (fun j hj => hk j (by omega)) rfl
      exact ⟨i, by omega, hc⟩

/-! ### Schedulers -/

/-- The states of the execution in which the agents and actions are chosen by `pick`. -/
def states (step : σ → H → A → Option (σ × Option ε)) (pick : ℕ → σ → H × A) (s : σ) : ℕ → σ
  | 0 => s
  | n + 1 =>
      let t := states step pick s n
      ((step t (pick n t).1 (pick n t).2).getD (t, none)).1

/-- The execution of a scheduler that finds a step to take in every state with the invariant `I`. -/
def follow (pick : ℕ → σ → H × A) (s : σ) (I : ℕ → σ → Prop) (hinit : init s) (hI : I 0 s)
    (hstep : ∀ n t, I n t → ∃ x, step t (pick n t).1 (pick n t).2 = some x ∧ I (n + 1) x.1) :
    Execution init step where
  state := states step pick s
  agent n := (pick n (states step pick s n)).1
  act n := (pick n (states step pick s n)).2
  event n :=
    let t := states step pick s n
    ((step t (pick n t).1 (pick n t).2).getD (t, none)).2
  start := hinit
  next n := by
    have hall : I n (states step pick s n) := by
      induction n with
      | zero => exact hI
      | succ n ih =>
        obtain ⟨x, hx, hIx⟩ := hstep n _ ih
        simpa only [states, hx, Option.getD_some] using hIx
    obtain ⟨x, hx, -⟩ := hstep n _ hall
    simp only [states, hx, Option.getD_some]

/-- Two agents that take turns are both served fairly. -/
theorem fair_of_turns {step : σ → Bool → A → Option (σ × Option ε)} {P : Execution init step}
    {busy : σ → Bool → Prop} (hP : ∀ n, P.agent n = (n % 2 == 1)) : P.Fair busy := by
  intro h n _
  cases h with
  | false => exact ⟨2 * n, by omega, by simp [hP]⟩
  | true => exact ⟨2 * n + 1, by omega, by rw [hP]; simp⟩

end Execution
