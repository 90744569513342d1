import Farlock.FARLock.Steps
import Farlock.Trace

/-!
# FARLock: mutual exclusion, tickets and order of service

* `mutual_exclusion`: at most one handler is in the critical section of a lock;
* `tickets_in_order`: the fetch-and-adds on `next_ticket_` do not overlap and return `0, 1, 2, …`;
* `served_in_order`: the critical section is entered in the order of the tickets and, inside a
  class, of the tail exchanges, and `current_ticket_` goes up by one with each `Unlock`;
* `overtaking`: between a complete request and the draw at most one other ticket is drawn.
-/

namespace Farlock

namespace FARLock

open Spec TwoParty
open Clients (steps)

variable {H L : Type} [DecidableEq H] [DecidableEq L] {C : Cluster H L}
  {tr : List (L × Event H UInt64)} {s s' : State H L} {l : L} {g h : H}

/-- The events on each lock are those of an abstract run. -/
theorem exists_shows (hr : (system C).Run tr s) (l : L) : ∃ K, Shows config (onLock l tr) K := by
  obtain ⟨k, pos, hS⟩ := simulated_of_run hr
  exact ⟨k l, hS.shows l⟩

/-- Handler `h` has returned from `Lock` on `l` and not yet updated `current_ticket_` in
`Unlock`. -/
def InCritical (s : State H L) (l : L) (h : H) : Prop :=
  ∃ f, s.thread h = .busy f ∧ f.lock = l ∧
    (f.pc = .critical ∨ f.pc = .loadCurrent ∨ f.pc = .storeCurrent)

/-- Handler `h` has returned from `LockPetersons` on `l` and not yet lowered its flag in
`UnlockPetersons`. -/
def InSection (s : State H L) (l : L) (h : H) : Prop :=
  ∃ f, s.thread h = .busy f ∧ f.lock = l ∧
    (f.pc = .loadNextTicket ∨ f.pc = .storeNextTicket ∨ f.pc = .clearFlag)

/-- Mutual exclusion, whatever the number of tickets drawn. -/
theorem mutual_exclusion (hs : (system C).Reachable s) (hg : InCritical s l g)
    (hh : InCritical s l h) : g = h := by
  obtain ⟨tr, hr⟩ := hs
  obtain ⟨k, pos, hS⟩ := simulated_of_run hr
  obtain ⟨fg, hfg, hlg, hpg⟩ := hg
  obtain ⟨fh, hfh, rfl, hph⟩ := hh
  have hcg : fg.phase = .critical := by rcases hpg with hp | hp | hp <;> simp [Frame.phase, hp]
  have hch : fh.phase = .critical := by rcases hph with hp | hp | hp <;> simp [Frame.phase, hp]
  have hAg := agrees_of_sim hS hfg (by simp [hcg])
  have hAh := agrees_of_sim hS hfh (by simp [hch])
  rw [hlg] at hAg
  exact hS.eq_of_place hfg (by simp [view, hcg]) hfh (by simp [view, hch]) hlg
    ((hS.reach fh.lock).inv.owner_unique (Or.inl (hAg.phase.trans hcg))
      (Or.inl (hAh.phase.trans hch)))

/-- The play of a schedule on a cluster with one lock, a local handler `false` and a remote handler
`true`. -/
abbrev playPair (sched : List (Bool × Act Unit)) :
    Option (State Bool Unit × List (Unit × Event Bool UInt64)) :=
  State.play (fun l => { lock := l }) (exec Cluster.pair) (.zero {}) sched

/-- The local handler is in its critical section while the remote one waits for its ticket. -/
theorem mutual_exclusion_pair : ∃ s : State Bool Unit, (system Cluster.pair).Reachable s ∧
    InCritical s () false ∧ ∀ h, InCritical s () h → h = false := by
  obtain ⟨y, hy, hf⟩ : ∃ y ∈ playPair ((false, .call ()) :: steps false 16 ++
      (true, .call ()) :: steps true 16),
      y.1.thread false = .busy { lock := (), pc := .critical } := by decide
  have hreach : (system Cluster.pair).Reachable y.1 := ⟨y.2, State.run_of_mem_play hy⟩
  have hin : InCritical y.1 () false := ⟨_, hf, rfl, Or.inl rfl⟩
  exact ⟨y.1, hreach, hin, fun h hh => mutual_exclusion hreach hh hin⟩

/-- The fetch-and-adds on `next_ticket_` do not overlap, and the `i`-th of them returns `i`. -/
theorem tickets_in_order (hr : (system C).Run tr s) (l : L) :
    (∀ g h, InSection s l g → InSection s l h → g = h) ∧
    (((onLock l tr).filterMap Event.drawn).length < 2 ^ 64 - 1 →
      ∀ (i : ℕ) (t : UInt64), ((onLock l tr).filterMap Event.drawn)[i]? = some t → t.toNat = i) := by
  constructor
  · rintro g h ⟨fg, hfg, hlg, hpg⟩ ⟨fh, hfh, rfl, hph⟩
    obtain ⟨k, pos, hS⟩ := simulated_of_run hr
    have hcg : fg.phase = .passed ∨ fg.phase = .drawn := by
      rcases hpg with hp | hp | hp <;> simp [Frame.phase, hp]
    have hch : fh.phase = .passed ∨ fh.phase = .drawn := by
      rcases hph with hp | hp | hp <;> simp [Frame.phase, hp]
    have hqg : fg.phase ≠ .absent := by rcases hcg with hp | hp <;> simp [hp]
    have hqh : fh.phase ≠ .absent := by rcases hch with hp | hp <;> simp [hp]
    have hAg := agrees_of_sim hS hfg hqg
    have hAh := agrees_of_sim hS hfh hqh
    rw [hlg] at hAg
    rw [← hAg.phase] at hcg
    rw [← hAh.phase] at hch
    exact hS.eq_of_place hfg hqg hfh hqh hlg ((hS.reach fh.lock).inv.section_unique
      (hcg.imp_right Or.inl) (hch.imp_right Or.inl))
  · intro hb i t hi
    obtain ⟨K, hK⟩ := exists_shows hr l
    rw [hK.drawn, List.length_map, List.length_range] at hb
    rw [hK.drawn, List.getElem?_map, Option.map_eq_some_iff] at hi
    obtain ⟨n, hn, rfl⟩ := hi
    obtain ⟨hlt, rfl⟩ := List.getElem?_eq_some_iff.1 hn
    rw [List.length_range] at hlt
    rw [List.getElem_range]
    exact word_toNat (by omega)

/-- The local handler has drawn a ticket and the remote one is about to complete its own draw. -/
theorem tickets_in_order_pair : ∃ (s : State Bool Unit) (tr : List (Unit × Event Bool UInt64)),
    (system Cluster.pair).Run tr s ∧ InSection s () true ∧ (∀ h, InSection s () h → h = true) ∧
    ((onLock () tr).filterMap Event.drawn)[0]? = some 0 ∧ (0 : UInt64).toNat = 0 := by
  obtain ⟨y, hy, hf, hd⟩ : ∃ y ∈ playPair ((false, .call ()) :: steps false 11 ++
      (true, .call ()) :: steps true 9 ++ (false, .run true) :: steps true 2),
      y.1.thread true = .busy
        { lock := (), pc := .storeNextTicket, ticket := 1, victim := some .rem } ∧
      (onLock () y.2).filterMap Event.drawn = [0] := by decide
  have hrun : (system Cluster.pair).Run y.2 y.1 := State.run_of_mem_play hy
  have hin : InSection y.1 () true := ⟨_, hf, rfl, Or.inr (Or.inl rfl)⟩
  have hlen : ((onLock () y.2).filterMap Event.drawn).length < 2 ^ 64 - 1 := by rw [hd]; decide
  have h0 : ((onLock () y.2).filterMap Event.drawn)[0]? = some 0 := by rw [hd]; rfl
  exact ⟨y.1, y.2, hrun, hin, fun h hh => (tickets_in_order hrun ()).1 h true hh hin, h0,
    (tickets_in_order hrun ()).2 hlen 0 0 h0⟩

/-! ### The order of service -/

/-- Only the store in `Unlock` changes `current_ticket_`. -/
theorem currentTicket_exec {f : Frame H L} {b : Bool} {x : Option (L × Event H UInt64)}
    (hex : exec C s h f b = some (s', x)) (hpc : f.pc ≠ .storeCurrent) (l : L) :
    (s'.locks l).currentTicket = (s.locks l).currentTicket ∧
      ∀ c g t, x ≠ some (l, .advance c g t) := by
  have hlock : ∀ w : LockWords H, w.currentTicket = (s.locks f.lock).currentTicket →
      ((s.setLock f.lock w).locks l).currentTicket = (s.locks l).currentTicket := by
    intro w hw
    rw [setLock_locks]
    split_ifs with hl
    · rw [hw, hl]
    · rfl
  cases hf : f.pc <;> simp only [exec, hf, Option.map_eq_some_iff, Option.some.injEq,
    Prod.mk.injEq] at hex
  case storeCurrent => exact absurd hf hpc
  case exchangeTail | awaitTicket | casTail =>
    split_ifs at hex <;> simp only [Option.some.injEq, Prod.mk.injEq] at hex <;>
      obtain ⟨rfl, rfl⟩ := hex
    all_goals first | exact ⟨rfl, by simp⟩ | exact ⟨hlock _ (by simp), by simp⟩
  case storePrevNext | loadPrevTicket | storePrevReleasable | storeToGetTicket | storeGranted =>
    obtain ⟨n, -, rfl, rfl⟩ := hex
    exact ⟨rfl, by simp⟩
  case storeFlag | storeVictim | storeNextTicket | clearFlag =>
    obtain ⟨rfl, rfl⟩ := hex
    exact ⟨hlock _ (by simp), by simp⟩
  all_goals
    obtain ⟨rfl, rfl⟩ := hex
    exact ⟨rfl, by simp⟩

/-- A step changes `current_ticket_` of lock `l` only in an `Unlock`, and there from the ticket of
the acquisition that ends to the next one. -/
theorem currentTicket_step (hr : (system C).Run tr s) (hb : (draws (onLock l tr)).length < 2 ^ 64 - 1)
    {x : Option (L × Event H UInt64)} (hs : (system C).step s x s') :
    ((s'.locks l).currentTicket = (s.locks l).currentTicket ∧
      ∀ c h t, x ≠ some (l, .advance c h t)) ∨
    ∃ c h t, x = some (l, .advance c h (t + 1)) ∧
      (c, (register (onLock l tr)).place h, t) ∈ draws (onLock l tr) ∧
      (s.locks l).currentTicket = t ∧ (s'.locks l).currentTicket = t + 1 ∧ t < t + 1 := by
  obtain ⟨h, a, hs⟩ := hs
  obtain ⟨k, pos, hS⟩ := simulated_of_run hr
  obtain ⟨l', -, -, rfl, rfl⟩ | ⟨b, f, -, hf, hs⟩ := State.step_cases hs
  · exact Or.inl ⟨rfl, by simp⟩
  · by_cases hpc : f.pc = .storeCurrent
    · by_cases hl : f.lock = l
      · subst hl
        have hph : f.phase = .critical := by simp [Frame.phase, hpc]
        have hA := agrees_of_sim hS hf (by simp [hph])
        have hp := hA.phase.trans hph
        have hK := hS.shows f.lock
        have hI := hK.reach.inv
        obtain ⟨hhas, ht⟩ := hI.ticket_of_owns (Or.inl hp)
        have hlt := (hI.glob _ _).lt hhas
        rw [hK.length_draws] at hb
        simp only [exec, hpc, hA.current hpc, Option.some.injEq, Prod.mk.injEq] at hs
        obtain ⟨rfl, rfl⟩ := hs
        refine Or.inr ⟨_, h, word (k f.lock).serving, rfl, hK.mem_draws.2 ⟨_, rfl, ?_⟩,
          (hS.words _).currentTicket, by simp, ?_⟩
        · rw [hK.place hA.who (by simp [hp]), Spec.mem_draws hK.reach]
          exact ⟨hhas, hI.lead_of_budget rfl hhas, ht⟩
        · rw [word_succ, UInt64.lt_iff_toNat_lt, word_toNat (by omega), word_toNat (by omega)]
          omega
      · left
        simp only [exec, hpc, Option.some.injEq, Prod.mk.injEq] at hs
        obtain ⟨rfl, rfl⟩ := hs
        simp [hl, Ne.symm hl]
    · exact Or.inl (currentTicket_exec hs hpc l)

/-- The `k`-th entry is under ticket `k`, drawn by the same acquisition. -/
theorem getElem_entries {K : Spec.State H} {M : List (Event H UInt64)} (hM : Shows config M K)
    {i p : ℕ} {c : Side} {t : UInt64} :
    (entries M)[i]? = some (c, p, t) ↔
      t = word i ∧ 13 ≤ (K.acq c p).rank ∧ (K.acq c p).ticket = i := by
  have hmap := map_entries_of_budget (fun _ => rfl) hM.reach
  have hget : ∀ {j n p : ℕ} {c : Side}, (entries K.log)[j]? = some (c, p, n) → n = j := by
    intro j n p c hj
    have := congrArg (·[j]?) hmap
    simp only [List.getElem?_map, hj, Option.map_some] at this
    obtain ⟨hlt, heq⟩ := List.getElem?_eq_some_iff.1 this.symm
    simpa using heq.symm
  rw [hM.getElem_entries]
  constructor
  · rintro ⟨n, rfl, hi⟩
    obtain rfl := hget hi
    exact ⟨rfl, (Spec.mem_entries hM.reach).1 (List.mem_of_getElem? hi)⟩
  · rintro ⟨rfl, hrank, ht⟩
    obtain ⟨j, hj⟩ := List.mem_iff_getElem?.1 ((Spec.mem_entries hM.reach).2 ⟨hrank, ht⟩)
    obtain rfl := hget hj
    exact ⟨_, rfl, hj⟩

/-- The order of service.  The `k`-th entry is under ticket `k`; the current ticket goes up by one
with each `Unlock`, from the ticket of the acquisition that ends; inside a class the order of the
tail exchanges is that of the tickets and of the entries. -/
theorem served_in_order (hr : (system C).Run tr s) (l : L)
    (hb : (draws (onLock l tr)).length < 2 ^ 64 - 1) :
    (∀ (k : ℕ) c p t, (entries (onLock l tr))[k]? = some (c, p, t) →
      t.toNat = k ∧ (c, p, t) ∈ draws (onLock l tr)) ∧
    (∀ x s', (system C).step s x s' →
      (s.locks l).currentTicket ≤ (s'.locks l).currentTicket ∧
      (((s'.locks l).currentTicket = (s.locks l).currentTicket ∧
          ∀ c h t, x ≠ some (l, .advance c h t)) ∨
        ∃ c h t, x = some (l, .advance c h (t + 1)) ∧
          (c, (register (onLock l tr)).place h, t) ∈ draws (onLock l tr) ∧
          (s.locks l).currentTicket = t ∧ (s'.locks l).currentTicket = t + 1)) ∧
    (∀ c p, (c, p) ∈ leaves (onLock l tr) → ∃ t,
      (c, p, t) ∈ draws (onLock l tr) ∧ (c, p, t + 1) ∈ advances (onLock l tr)) ∧
    (∀ c (p q : ℕ) t, p < q → (c, q, t) ∈ draws (onLock l tr) →
      ∃ t' < t, (c, p, t') ∈ draws (onLock l tr)) ∧
    (∀ c (p q i : ℕ) t, p < q → (entries (onLock l tr))[i]? = some (c, q, t) →
      ∃ j < i, ∃ t', (entries (onLock l tr))[j]? = some (c, p, t')) := by
  obtain ⟨K, hK⟩ := exists_shows hr l
  have hI := hK.reach.inv
  have hissued := hb
  rw [hK.length_draws] at hissued
  -- whoever has a ticket drew it
  have hdraw : ∀ c p, (K.acq c p).has = true →
      (c, p, word (K.acq c p).ticket) ∈ draws (onLock l tr) := fun c p hhas =>
    hK.mem_draws.2 ⟨_, rfl, (Spec.mem_draws hK.reach).2 ⟨hhas, hI.lead_of_budget rfl hhas, rfl⟩⟩
  refine ⟨?_, ?_, ?_, ?_, ?_⟩
  · intro k c p t hk
    obtain ⟨rfl, hrank, ht⟩ := (getElem_entries hK).1 hk
    have hhas := (hI.own c p).has (Nat.le_trans (by decide) hrank)
    have hlt := (hI.glob c p).lt hhas
    exact ⟨word_toNat (by omega), ht ▸ hdraw c p hhas⟩
  · intro x s' hs
    rcases currentTicket_step hr hb hs with hsame | ⟨c, h, t, hx, hmem, ht, ht', hlt⟩
    · exact ⟨UInt64.le_of_eq hsame.1.symm, Or.inl hsame⟩
    · exact ⟨by rw [ht, ht']; exact UInt64.le_of_lt hlt, Or.inr ⟨c, h, t, hx, hmem, ht, ht'⟩⟩
  · intro c p hp
    rw [hK.log, leaves_map, Spec.mem_leaves hK.reach] at hp
    have hhas := (hI.own c p).has (by grind)
    refine ⟨_, hdraw c p hhas, ?_⟩
    rw [hK.log, advances_map, word_succ]
    exact List.mem_map.2 ⟨_, (Spec.mem_advances hK.reach).2 ⟨by grind, hI.out_ne_handed rfl, rfl⟩, rfl⟩
  · intro c p q t hpq hq
    obtain ⟨n, rfl, hn⟩ := hK.mem_draws.1 hq
    obtain ⟨hqhas, -, rfl⟩ := (Spec.mem_draws hK.reach).1 hn
    have hlt := (hI.glob c q).lt hqhas
    have hlt' := hI.ticket_lt_of_lt hpq hqhas (hI.out_ne_handed rfl)
    refine ⟨_, ?_, hdraw c p (hI.has_of_lt hpq hqhas)⟩
    rw [UInt64.lt_iff_toNat_lt, word_toNat (by omega), word_toNat (by omega)]
    exact hlt'
  · intro c p q i t hpq hi
    obtain ⟨rfl, hrank, rfl⟩ := (getElem_entries hK).1 hi
    have hgone := hI.gone_of_lt hpq hrank
    refine ⟨_, hI.ticket_lt_of_lt hpq ((hI.own c q).has (Nat.le_trans (by decide) hrank))
      (hI.out_ne_handed rfl), _, (getElem_entries hK).2 ⟨rfl, by grind, rfl⟩⟩

/-- The local handler is served first, then the remote one. -/
theorem served_in_order_pair : ∃ (s : State Bool Unit) (tr : List (Unit × Event Bool UInt64)),
    (system Cluster.pair).Run tr s ∧
    (entries (onLock () tr))[1]? = some (.rem, 0, 1) ∧
    (1 : UInt64).toNat = 1 ∧ (.rem, 0, 1) ∈ draws (onLock () tr) ∧
    ∃ t, (.loc, 0, t) ∈ draws (onLock () tr) ∧ (.loc, 0, t + 1) ∈ advances (onLock () tr) := by
  obtain ⟨y, hy, he, hd, hl⟩ : ∃ y ∈ playPair ((false, .call ()) :: steps false 21 ++
      (true, .call ()) :: steps true 17),
      (entries (onLock () y.2))[1]? = some (.rem, 0, 1) ∧
      (draws (onLock () y.2)).length = 2 ∧ (.loc, 0) ∈ leaves (onLock () y.2) := by decide
  have hrun : (system Cluster.pair).Run y.2 y.1 := State.run_of_mem_play hy
  obtain ⟨h1, -, h3, -⟩ := served_in_order hrun () (by rw [hd]; decide)
  exact ⟨y.1, y.2, hrun, he, (h1 _ _ _ _ he).1, (h1 _ _ _ _ he).2, h3 _ _ hl⟩

/-! ### Overtaking -/

/-- From the moment when handler `h` has completed its request, at most one ticket is drawn before
its own, and at most one acquisition of the other class that had no ticket then enters before it
does. -/
theorem overtaking {tr' : List (L × Event H UInt64)} {c : Side}
    (hr : (system C).Run (tr ++ (l, .request c h) :: tr') s) :
    ((∀ t, (l, .draw c h t) ∉ tr') → ((onLock l tr').filterMap Event.drawn).length ≤ 1) ∧
    ((∀ t, (l, .enter c h t) ∉ tr') →
      {q | (∃ t, (other c, q, t) ∈ entries (onLock l (tr ++ (l, .request c h) :: tr'))) ∧
        ∀ t, (other c, q, t) ∉ draws (onLock l tr)}.encard ≤ 1) := by
  obtain ⟨K, hK⟩ := exists_shows hr l
  have hlog : onLock l (tr ++ (l, .request c h) :: tr') =
      onLock l tr ++ .request c h :: onLock l tr' := by simp
  rw [hlog] at hK ⊢
  refine ⟨fun hno => hK.draws_since_request fun t ht => hno t (mem_onLock.1 ht), fun hno => ?_⟩
  refine (Set.encard_le_encard ?_).trans
    (hK.encard_bypass_le fun t ht => hno t (mem_onLock.1 ht))
  rintro q ⟨⟨t, ht⟩, hnew⟩
  obtain ⟨hrank, -⟩ := hK.mem_entries.1 ht
  have hhas := (hK.reach.inv.own (other c) q).has (Nat.le_trans (by decide) hrank)
  refine ⟨⟨t, ht⟩, _, not_lt.1 fun hlt => ?_, hK.inBatch.2 ⟨hhas, rfl⟩⟩
  -- a ticket with a small number is among those drawn before the request
  have hget := hK.getElem_draws.2 ⟨rfl, (Spec.mem_draws hK.reach).2
    ⟨hhas, hK.reach.inv.lead_of_budget rfl hhas, rfl⟩⟩
  obtain ⟨rest, hrest⟩ := timed_prefix Event.drawn (onLock l tr) (.request c h :: onLock l tr')
  rw [draws, ← hrest, ← draws, List.getElem?_append_left hlt] at hget
  exact hnew _ (List.mem_of_getElem? hget)

/-- The local handler, which had no ticket, is served before the remote one, which had completed its
request. -/
theorem overtaking_pair : ∃ (s : State Bool Unit) (tr tr' : List (Unit × Event Bool UInt64)),
    (system Cluster.pair).Run (tr ++ ((), .request .rem true) :: tr') s ∧
    (.loc, 0, 0) ∈ entries (onLock () (tr ++ ((), .request .rem true) :: tr')) ∧
    draws (onLock () tr) = [] ∧ ((onLock () tr').filterMap Event.drawn).length ≤ 1 ∧
    {q | (∃ t, (.loc, q, t) ∈ entries (onLock () (tr ++ ((), .request .rem true) :: tr'))) ∧
      ∀ t, (.loc, q, t) ∉ draws (onLock () tr)}.encard ≤ 1 := by
  obtain ⟨y, hy, hev⟩ : ∃ y ∈ playPair ((false, .call ()) :: steps false 8 ++
      (true, .call ()) :: steps true 8 ++ steps false 9),
      y.2 = [((), .arrive .loc false), ((), .raise .loc false), ((), .request .loc false),
        ((), .arrive .rem true), ((), .raise .rem true)] ++ ((), .request .rem true) ::
        [((), .draw .loc false 0), ((), .lower .loc false), ((), .enter .loc false 0)] := by
    decide
  have hrun := State.run_of_mem_play hy
  rw [hev] at hrun
  obtain ⟨h1, h2⟩ := overtaking hrun
  exact ⟨y.1, _, _, hrun, by decide, by decide, h1 (by simp), h2 (by simp)⟩

end FARLock
end Farlock
