import Farlock.Refine

/-!
# The ticket lock (`include/locks/rdma_ticket_lock.h`)

The handlers of one `RdmaTicketLock`.  All accesses are RDMA operations, atomic to each other: the
two fetch-and-adds and the read of `turn_` in the loop of `Lock`.  Both counters are 64-bit words
that wrap around.

* `Inv`: the handlers that have drawn a ticket and not released form a queue whose `i`-th member has
  ticket `turn_ + i`;
* `ticket_lock_fifo`: mutual exclusion, order of entries, and what the counters say.
-/

namespace Farlock

namespace TicketLock

/-- Where a handler is: outside, in the loop of `Lock` with `my_ticket`, or between the return of
`Lock` and the fetch-and-add of `Unlock`. -/
inductive Thread
  | idle
  | spin (myTicket : UInt64)
  | critical
  deriving DecidableEq, Repr

/-- `struct RdmaTicketLock` and the handlers. -/
structure State (H : Type) where
  ticket : UInt64
  turn : UInt64
  thread : H → Thread

/-- The fetch-and-add of `Lock`, its return, and the fetch-and-add of `Unlock`. -/
inductive Event (H : Type)
  | draw (h : H) (t : UInt64)
  | enter (h : H)
  | release (h : H)
  deriving DecidableEq, Repr

variable {H : Type} [DecidableEq H]

/-- The next operation of handler `h`: `Lock` starts with its fetch-and-add and goes on with reads
of `turn_`, `Unlock` is a fetch-and-add. -/
def exec (s : State H) (h : H) : State H × Option (Event H) :=
  match s.thread h with
  | .idle =>
      ({ s with ticket := s.ticket + 1, thread := Function.update s.thread h (.spin s.ticket) },
        some (.draw h s.ticket))
  | .spin t =>
      if s.turn ≠ t then (s, none)
      else ({ s with thread := Function.update s.thread h .critical }, some (.enter h))
  | .critical =>
      ({ s with turn := s.turn + 1, thread := Function.update s.thread h .idle },
        some (.release h))

/-- `IsLocked`, on a snapshot of the lock. -/
def isLocked (s : State H) : Bool := s.ticket ≠ s.turn

/-- All interleavings from a state in which nobody uses the lock and the two counters agree. -/
def system (H : Type) [DecidableEq H] : Lts (State H) (Event H) where
  init s := s.ticket = s.turn ∧ ∀ h, s.thread h = .idle
  step s e s' := ∃ h, exec s h = (s', e)

/-- The handlers in the order of their ticket draws. -/
def drawn (tr : List (Event H)) : List H :=
  tr.filterMap fun | .draw h _ => some h | _ => none

/-- The handlers in the order of their entries. -/
def entered (tr : List (Event H)) : List H :=
  tr.filterMap fun | .enter h => some h | _ => none

omit [DecidableEq H] in
theorem drawn_snoc (tr : List (Event H)) (e : Event H) :
    drawn (tr ++ [e]) = drawn tr ++ drawn [e] := List.filterMap_append ..

omit [DecidableEq H] in
theorem entered_snoc (tr : List (Event H)) (e : Event H) :
    entered (tr ++ [e]) = entered tr ++ entered [e] := List.filterMap_append ..

/-- A handler that is not in the list does not matter for who of the list is in the critical
section. -/
theorem filter_update {q : List H} {h : H} (hnot : h ∉ q) (th : H → Thread) (x : Thread) :
    (q.filter fun g => Function.update th h x g ≠ .critical) = q.filter fun g => th g ≠ .critical := by
  refine List.filter_congr fun g hg => ?_
  have hgh : g ≠ h := fun e => hnot (e ▸ hg)
  simp [hgh]

/-- `q` lists the handlers that have drawn a ticket and not released it, in this order. -/
structure Inv (q : List H) (tr : List (Event H)) (s : State H) : Prop where
  nodup : q.Nodup
  mem : ∀ h, h ∈ q ↔ s.thread h ≠ .idle
  ticket : s.ticket = s.turn + word q.length
  spin : ∀ (i : ℕ) h t, q[i]? = some h → s.thread h = .spin t → t = s.turn + word i
  head : ∀ h, s.thread h = .critical → q.head? = some h
  order : drawn tr = entered tr ++ q.filter fun h => s.thread h ≠ .critical

variable {q : List H} {tr : List (Event H)} {s s' : State H} {h : H}

omit [DecidableEq H] in
theorem inv_start (h0 : s.ticket = s.turn) (hidle : ∀ h, s.thread h = .idle) :
    Inv ([] : List H) [] s where
  nodup := List.nodup_nil
  mem h := by simp [hidle h]
  ticket := by simp [h0, word]
  spin i h t hi := by simp at hi
  head h hh := by simp [hidle h] at hh
  order := rfl

omit [DecidableEq H] in
/-- There is nobody else in the critical section when the head of the queue still spins. -/
theorem Inv.critical_ne (hI : Inv q tr s) {t : UInt64} (hh : q.head? = some h)
    (hs : s.thread h = .spin t) (g : H) : s.thread g ≠ .critical := by
  intro hg
  obtain rfl : h = g := Option.some.inj (hh.symm.trans (hI.head g hg))
  simp [hs] at hg

theorem Inv.draw (hI : Inv q tr s) (hs : s.thread h = .idle) :
    Inv (q ++ [h]) (tr ++ [.draw h s.ticket])
      { s with ticket := s.ticket + 1, thread := Function.update s.thread h (.spin s.ticket) } := by
  have hnot : h ∉ q := fun hm => (hI.mem h).1 hm hs
  refine ⟨?_, ?_, ?_, ?_, ?_, ?_⟩
  · rw [List.nodup_append]
    exact ⟨hI.nodup, List.nodup_singleton h, by simpa using fun g hg (e : g = h) => hnot (e ▸ hg)⟩
  · intro g
    rw [List.mem_append, hI.mem, List.mem_singleton]
    by_cases hg : g = h
    · simp [hg]
    · simp [hg]
  · rw [hI.ticket, List.length_append, List.length_singleton, ← word_succ, UInt64.add_assoc]
  · intro i g t hi ht
    rcases lt_or_ge i q.length with hlt | hge
    · rw [List.getElem?_append_left hlt] at hi
      have hg : g ≠ h := fun e => hnot (e ▸ List.mem_of_getElem? hi)
      exact hI.spin i g t hi (by simpa [hg] using ht)
    · rw [List.getElem?_append_right hge] at hi
      obtain ⟨hi0, rfl⟩ : i - q.length = 0 ∧ h = g := by simpa [List.getElem?_singleton] using hi
      obtain rfl : i = q.length := by omega
      simpa [hI.ticket] using ht.symm
  · intro g hg
    have hgh : g ≠ h := by
      rintro rfl
      simp at hg
    have := hI.head g (by simpa [hgh] using hg)
    rw [List.head?_append, this]
    rfl
  · rw [drawn_snoc, entered_snoc, hI.order, List.filter_append, filter_update hnot]
    simp [drawn, entered]

theorem Inv.enter (hI : Inv q tr s) (hh : q.head? = some h) {t : UInt64}
    (hs : s.thread h = .spin t) :
    Inv q (tr ++ [.enter h]) { s with thread := Function.update s.thread h .critical } := by
  obtain ⟨q', rfl⟩ := List.head?_eq_some_iff.1 hh
  have hnot : h ∉ q' := (List.nodup_cons.1 hI.nodup).1
  have hnone := hI.critical_ne hh hs
  refine ⟨hI.nodup, ?_, hI.ticket, ?_, ?_, ?_⟩
  · intro g
    rw [hI.mem]
    by_cases hg : g = h
    · subst hg
      simp [hs]
    · simp [hg]
  · intro i g u hi hu
    by_cases hg : g = h
    · subst hg
      simp at hu
    · exact hI.spin i g u hi (by simpa [hg] using hu)
  · intro g hg
    by_cases hgh : g = h
    · subst hgh
      rfl
    · exact absurd (by simpa [hgh] using hg) (hnone g)
  · have hall : (h :: q').filter (fun g => s.thread g ≠ .critical) = h :: q' := by
      rw [List.filter_eq_self]
      intro g _
      simpa using hnone g
    have hq' : q'.filter (fun g => s.thread g ≠ .critical) = q' := by
      rw [List.filter_eq_self]
      intro g _
      simpa using hnone g
    rw [drawn_snoc, entered_snoc, hI.order, hall, List.filter_cons, filter_update hnot, hq']
    simp [drawn, entered]

theorem Inv.release (hI : Inv q tr s) (hs : s.thread h = .critical) :
    ∃ q', q = h :: q' ∧ Inv q' (tr ++ [.release h])
      { s with turn := s.turn + 1, thread := Function.update s.thread h .idle } := by
  obtain ⟨q', rfl⟩ := List.head?_eq_some_iff.1 (hI.head h hs)
  obtain ⟨hnot, hnodup⟩ := List.nodup_cons.1 hI.nodup
  refine ⟨q', rfl, hnodup, ?_, ?_, ?_, ?_, ?_⟩
  · intro g
    by_cases hg : g = h
    · subst hg
      simp [hnot]
    · have := hI.mem g
      simp [hg] at this
      simpa [hg] using this
  · rw [hI.ticket, List.length_cons, ← word_succ, UInt64.add_assoc, UInt64.add_comm 1]
  · intro i g t hi ht
    have hg : g ≠ h := fun e => hnot (e ▸ List.mem_of_getElem? hi)
    rw [hI.spin (i + 1) g t (by simpa using hi) (by simpa [hg] using ht), ← word_succ,
      UInt64.add_assoc, UInt64.add_comm 1]
  · intro g hg
    by_cases hgh : g = h
    · subst hgh
      simp at hg
    · have := hI.head g (by simpa [hgh] using hg)
      exact absurd (by simpa using this.symm) hgh
  · rw [drawn_snoc, entered_snoc, hI.order, List.filter_cons, filter_update hnot]
    simp [hs, drawn, entered]

section Finite

variable [Fintype H] (hH : Fintype.card H < 2 ^ 64)
include hH

omit [DecidableEq H] in
theorem Inv.length_lt (hI : Inv q tr s) : q.length < 2 ^ 64 :=
  lt_of_le_of_lt hI.nodup.length_le_card hH

omit [DecidableEq H] in
/-- Only the head of the queue can see its ticket come up. -/
theorem Inv.head_of_turn (hI : Inv q tr s) (hs : s.thread h = .spin s.turn) :
    q.head? = some h := by
  have hmem : h ∈ q := (hI.mem h).2 (by simp [hs])
  obtain ⟨i, hi⟩ := List.mem_iff_getElem?.1 hmem
  have hlt : i < q.length := (List.getElem?_eq_some_iff.1 hi).1
  have hlen := hI.length_lt hH
  have h0 : word i = word 0 := by
    have := hI.spin i h _ hi hs
    simpa [word] using this
  obtain rfl := word_inj (by omega) (by omega) h0
  rw [List.head?_eq_getElem?, hi]

/-- One operation keeps the invariant, for the queue that it leaves. -/
theorem Inv.step (hI : Inv q tr s) (h : H) :
    ∃ q', Inv q' (tr ++ (exec s h).2.toList) (exec s h).1 := by
  unfold exec
  cases hs : s.thread h with
  | idle => exact ⟨_, hI.draw hs⟩
  | spin t =>
    by_cases ht : s.turn = t
    · subst ht
      simpa using ⟨q, hI.enter (hI.head_of_turn hH hs) hs⟩
    · simpa [ht] using ⟨q, hI⟩
  | critical =>
    obtain ⟨q', -, hq'⟩ := hI.release hs
    exact ⟨q', hq'⟩

theorem exists_inv (hr : (system H).Run tr s) : ∃ q, Inv q tr s := by
  refine hr.invariant (I := fun tr s => ∃ q, Inv q tr s) ?_ ?_
  · rintro s ⟨h0, hidle⟩
    exact ⟨[], inv_start h0 hidle⟩
  · rintro tr s e s' - ⟨q, hI⟩ ⟨h, hex⟩
    have hstep := hI.step hH h
    rwa [hex] at hstep

/-- The handlers that have drawn a ticket and not released it. -/
def engaged (s : State H) : Finset H := Finset.univ.filter fun h => s.thread h ≠ .idle

omit hH in
theorem Inv.card_engaged (hI : Inv q tr s) : (engaged s).card = q.length := by
  have : engaged s = q.toFinset := by
    ext h
    simp [engaged, hI.mem h]
  rw [this, List.toFinset_card_of_nodup hI.nodup]

/-- The ticket lock is a correct first-in-first-out lock whatever the counters start from, also when
they wrap around: at most one handler is in the critical section, the entries are in the order of
the ticket draws, `ticket_ - turn_` is the number of handlers that have drawn a ticket and not
released it, and `IsLocked` says whether there is one. -/
theorem ticket_lock_fifo (hr : (system H).Run tr s) :
    (∀ g h, s.thread g = .critical → s.thread h = .critical → g = h) ∧
    entered tr <+: drawn tr ∧
    (s.ticket - s.turn).toNat = (engaged s).card ∧
    (isLocked s = true ↔ (engaged s).card ≠ 0) := by
  obtain ⟨q, hI⟩ := exists_inv hH hr
  have hdiff : (s.ticket - s.turn).toNat = (engaged s).card := by
    rw [hI.ticket, UInt64.add_comm, UInt64.add_sub_cancel, word_toNat (hI.length_lt hH),
      hI.card_engaged]
  refine ⟨fun g h hg hh => ?_, hI.order ▸ List.prefix_append _ _, hdiff, ?_⟩
  · exact Option.some.inj ((hI.head g hg).symm.trans (hI.head h hh))
  · simp only [isLocked, decide_eq_true_eq, ne_eq, not_iff_not]
    constructor
    · intro heq
      rw [← hdiff, heq, UInt64.sub_self]
      rfl
    · intro h0
      rw [hI.card_engaged] at h0
      simp [hI.ticket, h0, word]

end Finite

/-- Two handlers of a lock whose counters are about to wrap around: the first has entered with the
last ticket and released it, and `turn_` is `0`, the ticket with which the second one enters. -/
theorem ticket_lock_fifo_wrap : ∃ (s : State Bool) (tr : List (Event Bool)), (system Bool).Run tr s ∧
    drawn tr = [false, true] ∧ Event.draw false (-1) ∈ tr ∧ Event.release false ∈ tr ∧
    s.thread false = .idle ∧ s.thread true = .critical ∧ s.ticket = 1 ∧ s.turn = 0 ∧
    (∀ h, s.thread h = .critical → h = true) ∧ entered tr <+: drawn tr ∧
    (s.ticket - s.turn).toNat = (engaged s).card ∧ isLocked s = true := by
  let s0 : State Bool := { ticket := -1, turn := -1, thread := fun _ => .idle }
  let s1 := (exec s0 false).1
  let s2 := (exec s1 true).1
  let s3 := (exec s2 false).1
  let s4 := (exec s3 false).1
  have h0 : (system Bool).Run [] s0 := .start ⟨rfl, fun _ => rfl⟩
  have h1 := h0.next (e := (exec s0 false).2) ⟨false, rfl⟩
  have h2 := h1.next (e := (exec s1 true).2) ⟨true, rfl⟩
  have h3 := h2.next (e := (exec s2 false).2) ⟨false, rfl⟩
  have h4 := h3.next (e := (exec s3 false).2) ⟨false, rfl⟩
  have h5 := h4.next (e := (exec s4 true).2) ⟨true, rfl⟩
  obtain ⟨hx, horder, hd, hl⟩ := ticket_lock_fifo (by decide) h5
  refine ⟨_, _, h5, by decide, by decide, by decide, by decide, by decide, by decide, by decide,
    fun h hh => ?_, horder, hd, hl.2 (by decide)⟩
  exact hx h true hh (by decide)

end TicketLock

end Farlock
