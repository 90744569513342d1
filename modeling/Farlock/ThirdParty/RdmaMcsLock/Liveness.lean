import Farlock.ThirdParty.RdmaMcsLock.Safety

/-!
# RdmaMcsLock starves nobody

In a fair execution every handler that has exchanged the tail of a lock enters its critical section
and leaves it.  The first handler of a queue waits at two places: for the lock to be handed over to
it, which has happened (`awake_of_run`), and for its successor to link itself, which happens by the
steps of the successor alone.  So the queue moves up by one again and again.
-/

namespace Farlock

namespace RdmaMcsLock

variable {H L : Type} [DecidableEq H] [DecidableEq L] {tr : List (Handover.Event H L)}
  {s s' : State H L} {l : L} {g h : H}

/-- How far a handler has come inside `Lock` and `Unlock`. -/
def Pc.rank : Pc → ℕ
  | .resetLocked => 0
  | .resetNext => 1
  | .exchangeTail => 2
  | .storeLocked => 3
  | .writePrevNext => 4
  | .awaitUnlocked => 5
  | .acquired => 6
  | .critical => 7
  | .casTail => 8
  | .awaitNext => 9
  | .loadNext => 10
  | .writeUnlocked => 11

theorem Pc.rank_le (pc : Pc) : pc.rank ≤ 11 := by
  cases pc <;> simp [Pc.rank]

/-- The next access of handler `h` is another round of its loop. -/
def Waits (m : Memory H L) (h : H) (f : Frame H L) : Prop :=
  match f.pc with
  | .exchangeTail => m.tail f.lock ≠ f.expected
  | .awaitUnlocked => (m.descriptor h).locked = true
  | .awaitNext => (m.descriptor h).next = none
  | _ => False

/-- Any other access leads on. -/
theorem exec_climbs {m m' : Memory H L} {f : Frame H L} {b : Bool} {t : Thread (Frame H L)}
    {e : Option (Handover.Event H L)} (hx : exec m h f b = some (m', t, e)) (hw : ¬ Waits m h f) :
    t = .idle ∧ e = some (.leave f.lock h) ∨
      ∃ f', t = .busy f' ∧ f'.lock = f.lock ∧ f.pc.rank < f'.pc.rank := by
  unfold exec at hx
  cases hpc : f.pc <;>
    simp only [hpc, Option.some.injEq, Prod.mk.injEq, Option.map_eq_some_iff] at hx
  case exchangeTail =>
    simp only [Waits, hpc, not_not] at hw
    rw [if_pos hw] at hx
    simp only [Option.some.injEq, Prod.mk.injEq] at hx
    obtain ⟨-, rfl, -⟩ := hx
    refine Or.inr ⟨_, rfl, rfl, ?_⟩
    cases m.tail f.lock <;> simp [Pc.rank]
  case casTail =>
    split at hx <;> simp only [Option.some.injEq, Prod.mk.injEq] at hx <;> obtain ⟨-, rfl, rfl⟩ := hx
    · exact Or.inl ⟨rfl, rfl⟩
    · exact Or.inr ⟨_, rfl, rfl, by simp [Pc.rank]⟩
  case writePrevNext =>
    obtain ⟨p, -, -, rfl, -⟩ := hx
    exact Or.inr ⟨_, rfl, rfl, by simp [Pc.rank]⟩
  case writeUnlocked =>
    obtain ⟨n, -, -, rfl, rfl⟩ := hx
    exact Or.inl ⟨rfl, rfl⟩
  case awaitUnlocked =>
    simp only [Waits, hpc] at hw
    obtain ⟨-, rfl, -⟩ := hx
    refine Or.inr ⟨_, rfl, rfl, ?_⟩
    simp [hw, Pc.rank]
  case awaitNext =>
    simp only [Waits, hpc, ← Option.isSome_iff_ne_none] at hw
    obtain ⟨-, rfl, -⟩ := hx
    refine Or.inr ⟨_, rfl, rfl, ?_⟩
    simp [hw, Pc.rank]
  all_goals
    obtain ⟨-, rfl, -⟩ := hx
    exact Or.inr ⟨_, rfl, rfl, by simp [Pc.rank]⟩

/-- Nobody else resets `next`. -/
theorem next_of_step {a : Act L} {e : Option (Handover.Event H L)}
    (hs : Machine.step Frame.start exec s h a = some (s', e)) (hg : g ≠ h)
    (hn : (s.memory.descriptor g).next ≠ none) : (s'.memory.descriptor g).next ≠ none := by
  obtain ⟨l, -, -, -, rfl⟩ | ⟨b, f, m, t, -, hf, hx, rfl⟩ := Machine.step_cases hs
  · exact hn
  · unfold exec at hx
    cases hpc : f.pc <;>
      simp only [hpc, Option.some.injEq, Prod.mk.injEq, Option.map_eq_some_iff] at hx
    case exchangeTail | casTail =>
      split at hx <;> simp only [Option.some.injEq, Prod.mk.injEq] at hx <;> obtain ⟨rfl, -, -⟩ := hx <;>
        exact hn
    case writePrevNext =>
      obtain ⟨p, -, rfl, -, -⟩ := hx
      by_cases hgp : g = p
      · subst hgp
        simp [Memory.setDescriptor]
      · simpa [Memory.setDescriptor, Function.update_of_ne hgp] using hn
    case writeUnlocked =>
      obtain ⟨n, -, rfl, -, -⟩ := hx
      by_cases hgn : g = n
      · subst hgn
        simpa [Memory.setDescriptor] using hn
      · simpa [Memory.setDescriptor, Function.update_of_ne hgn] using hn
    all_goals
      obtain ⟨rfl, -, -⟩ := hx
      first | exact hn | simpa [Memory.setDescriptor, Function.update_of_ne hg] using hn

omit [DecidableEq H] [DecidableEq L] in
theorem place_eq_granting {t : Thread (Frame H L)} {n : H} (ht : place t = .granting l n) :
    ∃ f, t = .busy f ∧ f.pc = .writeUnlocked ∧ f.next = some n := by
  cases t with
  | idle => cases ht
  | busy f =>
    refine ⟨f, rfl, ?_⟩
    cases hpc : f.pc <;> cases hp : f.prev <;> cases hn : f.next <;>
      simp [place, Frame.place, hpc, hp, hn] at ht ⊢
    all_goals exact ht.2

/-- The first handler of a queue has been told so. -/
theorem awake_of_run (hr : (system H L).Run tr s) :
    Handover.Awake (queues s) (Handover.lines tr) := by
  refine hr.invariant (I := fun tr s => Handover.Awake (queues s) (Handover.lines tr))
    (fun s hs => ?_) fun tr s e s' hr ih hstep => ?_
  · intro k h p hhd
    cases hhd
  · have hI := (shown_of_run hr).inv
    obtain ⟨h, a, ha⟩ := hstep
    rw [Handover.lines_append]
    obtain hm | ⟨rfl, hq⟩ := step_moves ha
    · refine hm.awake hI ih fun g n k hg hout => ?_
      -- whoever is about to grant the turn does it by resetting `locked`
      have hgh : g = h := by
        by_contra hne
        have hpl : (queues s').place g = (queues s).place g := by
          simp [queues, Machine.thread_of_ne ha hne]
        simp [hpl, hg] at hout
      subst hgh
      obtain ⟨f, hf, hpc, hn⟩ := place_eq_granting hg
      obtain ⟨l, -, hidle, -⟩ | ⟨b, f', m, t, -, hf', hx, rfl⟩ := Machine.step_cases ha
      · simp [hf] at hidle
      · obtain rfl : f = f' := by simpa [hf] using hf'
        simp only [exec, hpc, hn, Option.map_some, Option.some.injEq, Prod.mk.injEq] at hx
        obtain ⟨rfl, -, -⟩ := hx
        simp [queues, Memory.setDescriptor, Descriptor.word]
    · rw [hq]
      exact ih

/-! ### Fair executions -/

/-- The endless executions of a cluster that uses RdmaMcsLock. -/
abbrev Runs (H L : Type) [DecidableEq H] [DecidableEq L] :=
  Machine.Runs (H := H) (Memory.Zeroed (H := H) (L := L)) Frame.start exec

section Fair

variable {P : Runs H L} {n m : ℕ}

theorem shown (P : Runs H L) (n : ℕ) : Handover.Shown (P.trace n) (queues (P.state n)) :=
  shown_of_run (Clients.run_trace P n)

/-- The number of handlers that have left the queue of lock `l` by time `n`. -/
def left (P : Runs H L) (l : L) (n : ℕ) : ℕ := (Handover.departures (P.trace n) l).length

theorem left_mono (hnm : n ≤ m) : left P l n ≤ left P l m :=
  ((P.trace_mono hnm).filterMap _).length_le

theorem left_succ_of_leave (he : P.event n = some (.leave l h)) : left P l (n + 1) = left P l n + 1 := by
  simp [left, Execution.trace, he, Handover.departures, Handover.Event.departed]

/-- While nobody leaves, a queue only grows at its end. -/
theorem lines_grow (hnm : n ≤ m) (hl : left P l m = left P l n) :
    Handover.lines (P.trace n) l <+: Handover.lines (P.trace m) l := by
  have ha : Handover.arrivals (P.trace n) l <+: Handover.arrivals (P.trace m) l :=
    (P.trace_mono hnm).filterMap _
  have hd : Handover.departures (P.trace n) l <+: Handover.departures (P.trace m) l :=
    (P.trace_mono hnm).filterMap _
  rw [(shown P n).arrived, (shown P m).arrived, hd.eq_of_length hl.symm] at ha
  exact (List.prefix_append_right_inj _).1 ha

theorem head?_of_left_eq (hnm : n ≤ m) (hl : left P l m = left P l n)
    (hhd : (Handover.lines (P.trace n) l).head? = some h) :
    (Handover.lines (P.trace m) l).head? = some h := by
  obtain ⟨t, ht⟩ := lines_grow hnm hl
  rw [← ht, List.head?_append, hhd]
  rfl

/-- A handler in a queue is busy with the lock. -/
theorem busy_of_mem (hmem : h ∈ Handover.lines (P.trace n) l) :
    ∃ f, (P.state n).thread h = .busy f ∧ f.place.queue = some l := by
  have hq := ((shown P n).inv.mem_iff l h).1 hmem
  cases ht : (P.state n).thread h with
  | idle => simp [queues, place, ht, Handover.Place.queue] at hq
  | busy f => exact ⟨f, rfl, by simpa [queues, place, ht] using hq⟩

omit [DecidableEq H] [DecidableEq L] in
theorem Frame.queue_place (f : Frame H L) :
    f.place.queue = if f.pc.rank < 3 then none else some f.lock := by
  cases hpc : f.pc <;> cases hp : f.prev <;> cases hn : f.next <;>
    simp [Frame.place, hpc, hp, hn, Handover.Place.queue, Pc.rank]

omit [DecidableEq H] [DecidableEq L] in
theorem Frame.of_queue {f : Frame H L} (hq : f.place.queue = some l) : f.lock = l ∧ 3 ≤ f.pc.rank := by
  rw [Frame.queue_place] at hq
  split_ifs at hq with hr
  exact ⟨Option.some.inj hq, by omega⟩

/-- The step of a handler that does not wait leads it on. -/
theorem own_step {f : Frame H L} (hag : P.agent n = h) (hf : (P.state n).thread h = .busy f)
    (hw : ¬ Waits (P.state n).memory h f) :
    P.event n = some (.leave f.lock h) ∨
      ∃ f', (P.state (n + 1)).thread h = .busy f' ∧ f'.lock = f.lock ∧ f.pc.rank < f'.pc.rank := by
  have hs := P.next n
  rw [hag] at hs
  obtain ⟨l, -, hidle, -⟩ | ⟨b, f0, m, t, -, hf0, hx, hs'⟩ := Machine.step_cases hs
  · simp [hf] at hidle
  · obtain rfl : f = f0 := by simpa [hf] using hf0
    obtain ⟨-, he⟩ | ⟨f', rfl, hl, hr⟩ := exec_climbs hx hw
    · exact Or.inl he
    · exact Or.inr ⟨f', by simp [hs'], hl, hr⟩

/-- In a round of the loop on `next` nothing happens. -/
theorem stay {f : Frame H L} (hag : P.agent n = h) (hf : (P.state n).thread h = .busy f)
    (hpc : f.pc = .awaitNext) (hn : ((P.state n).memory.descriptor h).next = none) :
    P.state (n + 1) = P.state n ∧ P.event n = none := by
  have hs := P.next n
  rw [hag] at hs
  obtain ⟨l, -, hidle, -⟩ | ⟨b, f0, m, t, -, hf0, hx, hs'⟩ := Machine.step_cases hs
  · simp [hf] at hidle
  · obtain rfl : f = f0 := by simpa [hf] using hf0
    simp only [exec, hpc, hn, Option.isSome_none, Bool.false_eq_true, if_false, Option.some.injEq,
      Prod.mk.injEq] at hx
    obtain ⟨rfl, rfl, he⟩ := hx
    have : ({ f with pc := .awaitNext } : Frame H L) = f := by
      rw [← hpc]
    rw [hs', this, ← hf, Function.update_eq_self]
    exact ⟨rfl, he.symm⟩

/-- Handler `h` waits at the front of the queue of lock `l` for its successor to link itself. -/
def Stuck (P : Runs H L) (l : L) (h : H) (n : ℕ) : Prop :=
  (Handover.lines (P.trace n) l).head? = some h ∧
    (∃ f, (P.state n).thread h = .busy f ∧ f.pc = .awaitNext ∧ f.lock = l) ∧
      ((P.state n).memory.descriptor h).next = none

/-- There is a successor then, which is about to link itself. -/
theorem Stuck.exists_successor (hst : Stuck P l h n) :
    ∃ g, g ≠ h ∧ Mcs.Adj (Handover.lines (P.trace n) l) h g := by
  obtain ⟨hhd, ⟨f, hf, hpc, rfl⟩, hn⟩ := hst
  have hI := (shown P n).inv
  have hlast := hI.front f.lock h hhd
  simp only [Handover.Front, queues, place, hf, Frame.place, hpc] at hlast
  obtain ⟨t, ht⟩ := List.head?_eq_some_iff.1 hhd
  cases t with
  | nil => simp [ht] at hlast
  | cons g t =>
    have hadj : Mcs.Adj (Handover.lines (P.trace n) f.lock) h g := ⟨0, by simp [ht], by simp [ht]⟩
    exact ⟨g, (hadj.ne (hI.nodup f.lock)).symm, hadj⟩

theorem Stuck.linking (hst : Stuck P l h n) (hadj : Mcs.Adj (Handover.lines (P.trace n) l) h g) :
    ∃ f, (P.state n).thread g = .busy f ∧ f.lock = l ∧ (f.pc = .storeLocked ∨ f.pc = .writePrevNext) := by
  have hI := (shown P n).inv
  have hn : (queues (P.state n)).next h = none := hst.2.2
  obtain ⟨f, hf, hq⟩ := busy_of_mem hadj.right_mem
  refine ⟨f, hf, (Frame.of_queue hq).1, ?_⟩
  have hpl : (queues (P.state n)).place g = f.place := by simp [queues, place, hf]
  have hlink : (∃ b, f.place = .linking l h b) := by
    obtain ⟨hp, -⟩ | ⟨-, ⟨hp, -⟩ | ⟨-, hp⟩⟩ := hI.link l h g hadj
    · exact ⟨_, hpl.symm.trans hp⟩
    · exact ⟨_, hpl.symm.trans hp⟩
    · simp [hn] at hp
  obtain ⟨b, hb⟩ := hlink
  cases hpc : f.pc <;> cases hp : f.prev <;> cases hn' : f.next <;>
    simp [Frame.place, hpc, hp, hn'] at hb ⊢

/-- The successor links itself, by its own steps. -/
theorem Stuck.released (hP : P.Fair Machine.Busy) (hst : Stuck P l h n) :
    ∃ m > n, left P l n < left P l m ∨ left P l m = left P l n ∧
      (P.state m).thread h = (P.state n).thread h ∧
      ((P.state m).memory.descriptor h).next ≠ none := by
  obtain ⟨g, hgh, hadj⟩ := hst.exists_successor
  let I : ℕ → Prop := fun m => left P l m = left P l n ∧
    (P.state m).thread h = (P.state n).thread h ∧ ((P.state m).memory.descriptor h).next = none
  have hstuck : ∀ m ≥ n, I m → Stuck P l h m := by
    intro m hm hI
    obtain ⟨f, hf, hpc⟩ := hst.2.1
    exact ⟨head?_of_left_eq hm hI.1 hst.1, ⟨f, hI.2.1.trans hf, hpc⟩, hI.2.2⟩
  have hlinking : ∀ m ≥ n, I m → ∃ f, (P.state m).thread g = .busy f ∧ f.lock = l ∧
      (f.pc = .storeLocked ∨ f.pc = .writePrevNext) := fun m hm hI =>
    (hstuck m hm hI).linking (Handover.adj_mono (lines_grow hm hI.1) hadj)
  refine hP.reach (h := g) (I := I) (fun m => ((P.state m).thread g).rank fun f => f.pc.rank) 4
    ⟨rfl, rfl, hst.2.2⟩
    (fun m hm hI => ?_) (fun m hm hI => ?_) fun m hm hI => ?_
  · obtain ⟨f, hf, -⟩ := hlinking m hm hI
    exact ⟨f, hf⟩
  · obtain ⟨f, hf, -, hpc | hpc⟩ := hlinking m hm hI <;> simp [hf, hpc, Pc.rank]
  · obtain ⟨fh, hfh, hpch, -⟩ := (hstuck m hm hI).2.1
    obtain ⟨fg, hfg, -, hpcg⟩ := hlinking m hm hI
    by_cases hag : P.agent m = h
    · -- another round of the one who waits
      obtain ⟨hsame, he⟩ := stay hag hfh hpch hI.2.2
      have hleft : left P l (m + 1) = left P l m := by simp [left, Execution.trace, he]
      rw [hsame]
      exact Or.inr ⟨⟨hleft.trans hI.1, by rw [hsame]; exact hI.2⟩, le_rfl, fun hag' =>
        absurd (hag'.symm.trans hag) hgh⟩
    · have hth : (P.state (m + 1)).thread h = (P.state n).thread h :=
        (Machine.thread_of_ne (P.next m) (Ne.symm hag)).trans hI.2.1
      by_cases hl : left P l (m + 1) = left P l n
      · by_cases hnext : ((P.state (m + 1)).memory.descriptor h).next = none
        · refine Or.inr ⟨⟨hl, hth, hnext⟩, ?_⟩
          by_cases hag' : P.agent m = g
          · have hw : ¬ Waits (P.state m).memory g fg := by
              rcases hpcg with hpc | hpc <;> simp [Waits, hpc]
            obtain he | ⟨f', hf', -, hr⟩ := own_step hag' hfg hw
            · obtain ⟨fg', hfg', hlock, -⟩ := hlinking m hm hI
              obtain rfl : fg = fg' := by simpa [hfg] using hfg'
              rw [hlock] at he
              have := left_succ_of_leave he
              have := hI.1
              omega
            · simp only [hfg, hf', Thread.rank_busy]
              exact ⟨hr.le, fun _ => hr⟩
          · rw [Machine.thread_of_ne (P.next m) (Ne.symm hag')]
            exact ⟨le_rfl, fun h => absurd h hag'⟩
        · exact Or.inl (Or.inr ⟨hl, hth, hnext⟩)
      · have := left_mono (P := P) (l := l) (show n ≤ m + 1 by omega)
        exact Or.inl (Or.inl (by omega))

/-- The first handler of a queue does not wait for the lock to be handed over. -/
theorem not_waits_of_head {f : Frame H L} (hhd : (Handover.lines (P.trace n) l).head? = some h)
    (hf : (P.state n).thread h = .busy f) (hst : ¬ Stuck P l h n) :
    ¬ Waits (P.state n).memory h f := by
  intro hw
  obtain ⟨f', hf', hq⟩ := busy_of_mem (List.mem_of_head? hhd)
  obtain rfl : f = f' := by simpa [hf] using hf'
  obtain ⟨rfl, hr⟩ := Frame.of_queue hq
  cases hpc : f.pc <;> simp only [Waits, hpc] at hw
  case exchangeTail => simp [hpc, Pc.rank] at hr
  case awaitUnlocked =>
    obtain ⟨p, hp⟩ := Option.isSome_iff_exists.1
      ((holds_of_run (Clients.run_trace P n) hf).1 (Or.inr (Or.inr hpc)))
    have := awake_of_run (Clients.run_trace P n) f.lock h p hhd
      (by simp [queues, place, hf, Frame.place, hpc, hp])
    simp [queues, Descriptor.word, hw] at this
  case awaitNext => exact hst ⟨hhd, ⟨f, hf, hpc, rfl⟩, hw⟩

/-- The first handler of a queue leaves it at some time. -/
theorem exists_left_lt (hP : P.Fair Machine.Busy)
    (hhd : (Handover.lines (P.trace n) l).head? = some h) : ∃ m ≥ n, left P l n < left P l m := by
  have hhead : ∀ m ≥ n, left P l m = left P l n →
      (Handover.lines (P.trace m) l).head? = some h := fun m hm hl => head?_of_left_eq hm hl hhd
  have hlt : ∀ {m}, m ≥ n → left P l m ≠ left P l n → left P l n < left P l m := by
    intro m hm hne
    have := left_mono (P := P) (l := l) hm
    omega
  refine hP.climb (h := h) (I := fun m => left P l m = left P l n)
    (fun m => ((P.state m).thread h).rank fun f => f.pc.rank) 11 (fun m => ¬ Stuck P l h m) rfl
    (fun m hm hI => ?_) (fun m hm hI => Thread.rank_le (fun f => f.pc.rank_le) _)
    (fun m hm hI => ?_) fun m hm hI hst => ?_
  · obtain ⟨f, hf, -⟩ := busy_of_mem (List.mem_of_head? (hhead m hm hI))
    exact ⟨f, hf⟩
  · by_cases hst : Stuck P l h m
    · obtain ⟨i, hi, hgt | ⟨hl, hth, hn⟩⟩ := hst.released hP
      · exact ⟨i, hi.le, Or.inl (by omega)⟩
      · exact ⟨i, hi.le, Or.inr ⟨hl.trans hI, by rw [hth], fun hst' => hn hst'.2.2⟩⟩
    · exact ⟨m, le_rfl, Or.inr ⟨hI, le_rfl, hst⟩⟩
  · obtain ⟨f, hf, hq⟩ := busy_of_mem (List.mem_of_head? (hhead m hm hI))
    obtain ⟨rfl, -⟩ := Frame.of_queue hq
    by_cases hl : left P f.lock (m + 1) = left P f.lock n
    · refine Or.inr ⟨hl, ?_⟩
      by_cases hag : P.agent m = h
      · left
        obtain he | ⟨f', hf', -, hr⟩ :=
          own_step hag hf (not_waits_of_head (hhead m hm hI) hf hst)
        · have := left_succ_of_leave he
          omega
        · simpa only [hf, hf', Thread.rank_busy] using hr
      · have hth := Machine.thread_of_ne (P.next m) (Ne.symm hag)
        refine Or.inr ⟨by rw [hth], fun hst' => hst ⟨hhead m hm hI, ?_, ?_⟩, hag⟩
        · rw [← hth]
          exact hst'.2.1
        · by_contra hn
          exact next_of_step (P.next m) (Ne.symm hag) hn hst'.2.2
    · exact Or.inl (hlt (by omega) hl)

/-- In a fair execution every handler that has exchanged the tail of a lock enters its critical
section, and leaves it. -/
theorem starvation_free (hP : P.Fair Machine.Busy) (n : ℕ) (l : L) (h : H)
    (he : P.event n = some (.arrive l h)) :
    ∃ m > n, P.event m = some (.enter l h) ∧ ∃ i > m, P.event i = some (.leave l h) := by
  have hnext : ∀ n, (P.seen (Handover.Event.departed l) n).length <
      (P.seen (Handover.Event.arrived l) n).length →
      ∃ m ≥ n, left P l n < left P l m := by
    intro n hlt
    have hlen := congrArg List.length ((shown P n).arrived l)
    rw [List.length_append] at hlen
    cases hL : Handover.lines (P.trace n) l with
    | nil =>
      rw [hL, List.length_nil] at hlen
      exact absurd hlen hlt.ne'
    | cons h t => exact exists_left_lt hP (h := h) (by rw [hL]; rfl)
  obtain ⟨m, hm, ⟨e, hem, hent⟩, i, hi, e', hei, hdep⟩ := P.exists_served (Handover.Event.arrived l)
    (Handover.Event.entered l) (Handover.Event.departed l) (fun n => (shown P n).first_come l) hnext
    (fun e b hb => by cases e <;> simp_all [Handover.Event.arrived, Handover.Event.entered,
      Handover.Event.departed])
    (fun e b hb => by cases e <;> simp_all [Handover.Event.entered, Handover.Event.departed])
    (b := h) he (by simp [Handover.Event.arrived])
  obtain rfl : e = .enter l h := by
    cases e <;> simp_all [Handover.Event.entered]
  obtain rfl : e' = .leave l h := by
    cases e' <;> simp_all [Handover.Event.departed]
  exact ⟨m, hm, hem, i, hi, hei⟩

end Fair

/-- Two handlers in turns. -/
theorem starvation_free_turns : ∃ P : Runs Bool Unit, P.Fair Machine.Busy ∧
    P.event 6 = some (.arrive () false) ∧ ∃ m > 6, P.event m = some (.enter () false) ∧
      ∃ i > m, P.event i = some (.leave () false) := by
  let P : Runs Bool Unit := Machine.alternate (m := ⟨fun _ => none, fun _ => {}⟩) (fun _ => rfl)
    (fun tr s h f b hr hf => exec_isSome hr hf b) fun _ => ()
  have hP : P.Fair Machine.Busy := Execution.fair_of_turns fun _ => rfl
  have he : P.event 6 = some (.arrive () false) := by decide
  exact ⟨P, hP, he, starvation_free hP 6 () false he⟩

end RdmaMcsLock

end Farlock
