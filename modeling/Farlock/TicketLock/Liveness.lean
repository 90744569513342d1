import Farlock.TicketLock
import Farlock.Lib.Fair

/-!
# Nobody starves at the ticket lock

An endless execution of the ticket lock is fair if no handler that is in `Lock` or holds the lock is
left without steps for ever.  The counters may wrap around any number of times.

* `Inv.departed`: whoever has entered has left, except for the one that is inside;
* `every_ticket_served`: a handler that has drawn a ticket enters later and releases the lock after
  that.
-/

namespace Farlock

namespace TicketLock

variable {H : Type} [DecidableEq H]

/-- The next operation of handler `h`, which has no choice. -/
def next (s : State H) (h : H) (_ : Unit) : Option (State H × Option (Event H)) := some (exec s h)

/-- Endless executions. -/
abbrev Runs (H : Type) [DecidableEq H] : Type :=
  Execution (system H).init (next : State H → H → Unit → Option (State H × Option (Event H)))

/-- The handler is not outside. -/
def Busy (s : State H) (h : H) : Prop := s.thread h ≠ .idle

/-- Who draws a ticket. -/
def Event.drawn : Event H → Option H
  | .draw h _ => some h
  | _ => none

/-- Who enters. -/
def Event.entered : Event H → Option H
  | .enter h => some h
  | _ => none

/-- Who releases the lock. -/
def Event.released : Event H → Option H
  | .release h => some h
  | _ => none

omit [DecidableEq H] in
theorem drawn_eq_filterMap (tr : List (Event H)) : drawn tr = tr.filterMap Event.drawn :=
  List.filterMap_congr fun e _ => by cases e <;> rfl

omit [DecidableEq H] in
theorem entered_eq_filterMap (tr : List (Event H)) : entered tr = tr.filterMap Event.entered :=
  List.filterMap_congr fun e _ => by cases e <;> rfl

variable {q : List H} {tr : List (Event H)} {s : State H} {g h : H}

/-! ### One operation -/

theorem exec_thread_of_ne (hgh : h ≠ g) : (exec s g).1.thread h = s.thread h := by
  unfold exec
  cases s.thread g with
  | idle => exact Function.update_of_ne hgh _ _
  | spin t =>
    dsimp only
    split_ifs
    · rfl
    · exact Function.update_of_ne hgh _ _
  | critical => exact Function.update_of_ne hgh _ _

/-- Only who releases the lock changes `turn_`. -/
theorem exec_turn (hg : s.thread g ≠ .critical) : (exec s g).1.turn = s.turn := by
  unfold exec
  cases hs : s.thread g with
  | idle => rfl
  | spin t =>
    dsimp only
    split_ifs <;> rfl
  | critical => exact absurd hs hg

theorem exec_release (hs : s.thread h = .critical) : (exec s h).2 = some (.release h) := by
  simp only [exec, hs]

theorem exec_enter (hs : s.thread h = .spin s.turn) : (exec s h).1.thread h = .critical := by
  simp [exec, hs]

/-! ### Who has left -/

/-- Whoever has entered has left, except for the one that is inside. -/
def Departed (tr : List (Event H)) (s : State H) : Prop :=
  (∀ h, s.thread h ≠ .critical) ∧ entered tr = tr.filterMap Event.released ∨
    ∃ h, s.thread h = .critical ∧ entered tr = tr.filterMap Event.released ++ [h]

/-- One operation keeps this, with the invariant. -/
theorem Inv.departed [Fintype H] (hH : Fintype.card H < 2 ^ 64) (hI : Inv q tr s)
    (hd : Departed tr s) (h : H) : Departed (tr ++ (exec s h).2.toList) (exec s h).1 := by
  cases hs : s.thread h with
  | idle =>
    have hcrit : ∀ g, (exec s h).1.thread g = .critical ↔ s.thread g = .critical := by
      intro g
      by_cases hgh : g = h
      · subst hgh
        simp [exec, hs]
      · rw [exec_thread_of_ne hgh]
    have hevent : (exec s h).2 = some (.draw h s.ticket) := by
      simp only [exec, hs]
    simpa [Departed, hcrit, hevent, entered_eq_filterMap, List.filterMap_cons, Event.entered,
      Event.released] using hd
  | spin t =>
    by_cases ht : s.turn = t
    · subst ht
      have hnone := hI.critical_ne (hI.head_of_turn hH hs) hs
      obtain ⟨-, hent⟩ | ⟨g, hg, -⟩ := hd
      · have hevent : (exec s h).2 = some (.enter h) := by
          simp [exec, hs]
        refine Or.inr ⟨h, exec_enter hs, ?_⟩
        rw [hevent, Option.toList_some, entered_snoc, hent]
        simp [entered, Event.released]
      · exact absurd hg (hnone g)
    · have hsame : exec s h = (s, none) := by
        simp [exec, hs, ht]
      simpa [hsame] using hd
  | critical =>
    obtain ⟨hno, -⟩ | ⟨g, hg, hent⟩ := hd
    · exact absurd hs (hno h)
    · obtain rfl : g = h := Option.some.inj ((hI.head g hg).symm.trans (hI.head h hs))
      refine Or.inl ⟨fun k hk => ?_, ?_⟩
      · by_cases hkg : k = g
        · subst hkg
          simp [exec, hs] at hk
        · rw [exec_thread_of_ne hkg] at hk
          exact hkg (Option.some.inj ((hI.head k hk).symm.trans (hI.head g hg)))
      · rw [exec_release hs, Option.toList_some, entered_snoc, hent]
        simp [entered, Event.released]

/-- In every run there is a queue, and whoever has entered has left or is inside. -/
theorem exists_inv_departed [Fintype H] (hH : Fintype.card H < 2 ^ 64) (hr : (system H).Run tr s) :
    ∃ q, Inv q tr s ∧ Departed tr s := by
  refine hr.invariant (I := fun tr s => ∃ q, Inv q tr s ∧ Departed tr s) ?_ ?_
  · rintro s ⟨h0, hidle⟩
    refine ⟨[], inv_start h0 hidle, Or.inl ⟨fun h hh => ?_, rfl⟩⟩
    rw [hidle h] at hh
    cases hh
  · rintro tr s e s' - ⟨q, hI, hd⟩ ⟨h, hex⟩
    obtain ⟨q', hI'⟩ := hI.step hH h
    have hd' := hI.departed hH hd h
    rw [hex] at hI' hd'
    exact ⟨q', hI', hd'⟩

omit [DecidableEq H] in
theorem Departed.released_first (hd : Departed tr s) : tr.filterMap Event.released <+: entered tr := by
  obtain ⟨-, hent⟩ | ⟨h, -, hent⟩ := hd
  · rw [hent]
  · rw [hent]
    exact List.prefix_append _ _

/-! ### Endless executions -/

section Endless

variable (P : Runs H) {n : ℕ}

theorem exec_state (n : ℕ) : exec (P.state n) (P.agent n) = (P.state (n + 1), P.event n) :=
  Option.some.inj (P.next n)

theorem run_trace (n : ℕ) : (system H).Run (P.trace n) (P.state n) :=
  P.run (fun _ h0 => h0) (fun _ h _ _ _ hstep => ⟨h, Option.some.inj hstep⟩) n

theorem state_succ (n : ℕ) : P.state (n + 1) = (exec (P.state n) (P.agent n)).1 := by
  rw [exec_state]

variable {P}

/-- Who is inside releases the lock at some time. -/
theorem exists_released (hP : P.Fair Busy) (hh : (P.state n).thread h = .critical) :
    ∃ m > n, (P.seen Event.released n).length < (P.seen Event.released m).length := by
  have hown : ∀ m ≥ n, (P.state m).thread h = .critical → P.agent m = h →
      (P.seen Event.released n).length < (P.seen Event.released (m + 1)).length := by
    intro m hm hI hag
    have hle := (P.seen_mono Event.released hm).length_le
    have hev : P.event m = some (.release h) := by
      rw [← exec_release hI, ← hag, exec_state]
    rw [P.seen_succ, hev, List.length_append]
    simp only [Option.bind_some, Event.released, Option.toList_some, List.length_singleton]
    omega
  refine hP.eventually (h := h) (I := fun m => (P.state m).thread h = .critical) hh (fun m _ hI => ?_)
    (fun m hm hI => ?_) hown
  · rw [Busy, hI]
    exact Thread.noConfusion
  · by_cases hag : P.agent m = h
    · exact Or.inr (hown m hm hI hag)
    · left
      rw [state_succ, exec_thread_of_ne (Ne.symm hag), hI]

variable [Fintype H] (hH : Fintype.card H < 2 ^ 64)
include hH

/-- Who sees its ticket come up enters at some time. -/
theorem exists_critical (hP : P.Fair Busy) (hh : (P.state n).thread h = .spin (P.state n).turn) :
    ∃ m > n, (P.state m).thread h = .critical := by
  refine hP.eventually (h := h) (I := fun m => (P.state m).thread h = .spin (P.state m).turn) hh
    (fun m _ hI => ?_) (fun m _ hI => ?_) fun m _ hI hag => ?_
  · rw [Busy, hI]
    exact Thread.noConfusion
  · by_cases hag : P.agent m = h
    · right
      rw [state_succ, hag, exec_enter hI]
    · -- nobody else is inside, so that `turn_` stays
      left
      obtain ⟨q, hinv⟩ := exists_inv hH (run_trace P m)
      have hno := hinv.critical_ne (hinv.head_of_turn hH hI) hI
      rw [state_succ, exec_thread_of_ne (Ne.symm hag), exec_turn (hno _), hI]
  · rw [state_succ, hag, exec_enter hI]

/-- Releases go on as long as somebody has drawn a ticket and not released the lock. -/
theorem released_grow (hP : P.Fair Busy)
    (hlt : (P.seen Event.released n).length < (P.seen Event.drawn n).length) :
    ∃ m ≥ n, (P.seen Event.released n).length < (P.seen Event.released m).length := by
  obtain ⟨q, hI, hd⟩ := exists_inv_departed hH (run_trace P n)
  -- there is a first one in the queue
  obtain ⟨h, hh⟩ : ∃ h, q.head? = some h := by
    cases q with
    | cons h q => exact ⟨h, rfl⟩
    | nil =>
      exfalso
      have horder := hI.order
      rw [drawn_eq_filterMap, List.filter_nil, List.append_nil] at horder
      obtain ⟨-, hent⟩ | ⟨h, hcrit, -⟩ := hd
      · rw [hent] at horder
        have := congrArg List.length horder
        exact hlt.ne this.symm
      · have := hI.head h hcrit
        cases this
  cases hs : (P.state n).thread h with
  | idle => exact absurd hs ((hI.mem h).1 (List.mem_of_head? hh))
  | critical =>
    obtain ⟨m, hm, hgt⟩ := exists_released hP hs
    exact ⟨m, hm.le, hgt⟩
  | spin t =>
    have ht : t = (P.state n).turn := by
      have h0 : q[0]? = some h := by rwa [← List.head?_eq_getElem?]
      simpa [word] using hI.spin 0 h t h0 hs
    subst ht
    obtain ⟨m, hm, hcrit⟩ := exists_critical hH hP hs
    obtain ⟨i, hi, hgt⟩ := exists_released hP hcrit
    have hle := (P.seen_mono Event.released hm.le).length_le
    exact ⟨i, by omega, hle.trans_lt hgt⟩

/-- In every fair execution of the ticket lock, however often the counters wrap around, a handler that
has drawn a ticket enters the critical section later, and releases the lock after that. -/
theorem every_ticket_served (P : Runs H) (hP : P.Fair Busy) (n : ℕ) (h : H) (t : UInt64)
    (he : P.event n = some (.draw h t)) :
    ∃ m > n, P.event m = some (.enter h) ∧ ∃ i > m, P.event i = some (.release h) := by
  have horder : ∀ n, P.seen Event.released n <+: P.seen Event.entered n ∧
      P.seen Event.entered n <+: P.seen Event.drawn n := by
    intro n
    obtain ⟨q, hI, hd⟩ := exists_inv_departed hH (run_trace P n)
    have hent := hd.released_first
    have hdr : entered (P.trace n) <+: drawn (P.trace n) := hI.order ▸ List.prefix_append _ _
    rw [entered_eq_filterMap] at hent hdr
    rw [drawn_eq_filterMap] at hdr
    exact ⟨hent, hdr⟩
  obtain ⟨m, hm, ⟨e, he, hent⟩, i, hi, e', he', hrel⟩ := P.exists_served Event.drawn Event.entered
    Event.released horder (fun n hlt => released_grow hH hP hlt)
    (fun e b hb => by cases e <;> simp_all [Event.drawn, Event.entered, Event.released])
    (fun e b hb => by cases e <;> simp_all [Event.entered, Event.released]) he rfl
  have hmem : e = .enter h := by
    cases e <;> simp_all [Event.entered]
  have hmem' : e' = .release h := by
    cases e' <;> simp_all [Event.released]
  exact ⟨m, hm, hmem ▸ he, i, hi, hmem' ▸ he'⟩

end Endless

/-! ### Two handlers in turns -/

/-- Two handlers take their steps in turns; the counters are about to wrap around. -/
def alternate : Runs Bool :=
  Execution.follow (fun n _ => (n % 2 == 1, ())) ⟨-1, -1, fun _ => .idle⟩ (fun _ _ => True)
    ⟨rfl, fun _ => rfl⟩ trivial fun n s _ => ⟨exec s (n % 2 == 1), rfl, trivial⟩

/-- The second of two handlers, with the ticket after the wrap-around, is served. -/
theorem every_ticket_served_turns : alternate.event 1 = some (.draw true 0) ∧
    ∃ m > 1, alternate.event m = some (.enter true) ∧
      ∃ i > m, alternate.event i = some (.release true) := by
  have he : alternate.event 1 = some (.draw true 0) := rfl
  have hP : alternate.Fair Busy := Execution.fair_of_turns fun _ => rfl
  exact ⟨he, every_ticket_served (by decide) alternate hP 1 true 0 he⟩

end TicketLock

end Farlock
