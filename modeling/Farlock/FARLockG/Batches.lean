import Farlock.FARLockG.Safety

/-!
# FARLockG: batches

The acquisitions that share one draw of a ticket are a batch; it is named by the number of that
draw, since the tickets themselves are counted modulo `2 ^ 64`.

* `BatchesOk`, `batches_well_formed`: batches are short segments of one queue, they are served one
  after the other, and the last member of each updates `current_ticket_`;
* `ticket_drawn_twice`: after `2 ^ 64` draws the first ticket comes back.
-/

namespace Farlock

namespace FARLockG

open Spec TwoParty
open Clients (steps)

variable {H L : Type} [DecidableEq H] [DecidableEq L] {C : Cluster H L} {B : LockConfig}
  {tr : List (L × Event H UInt64)} {s : State H L}

/-- The batches in the events `M` of a lock are well formed. -/
structure BatchesOk (B : LockConfig) (M : List (Event H UInt64)) : Prop where
  /-- the `i`-th draw returns `i` -/
  drawn : ∀ (i : ℕ) c p t, (draws M)[i]? = some (c, p, t) → t.toNat = i % 2 ^ 64
  /-- the `i`-th batch is a segment of `n` places of one class that starts with the acquisition that
  made the `i`-th draw; the first `m` of them have entered, and all of them once the ticket is
  done -/
  segment : ∀ (i : ℕ) c p t, (draws M)[i]? = some (c, p, t) → ∃ n m : ℕ,
    1 ≤ n ∧ n ≤ (B.kInitBudget c).toNat ∧ m ≤ n ∧
    (∀ c' q, InBatch M i c' q ↔ c' = c ∧ p ≤ q ∧ q < p + n) ∧
    (∀ c' q, InBatch M i c' q ∧ (∃ t', (c', q, t') ∈ entries M) ↔ c' = c ∧ p ≤ q ∧ q < p + m) ∧
    (i < (advances M).length → m = n)
  /-- every acquisition that enters belongs to one batch and uses the ticket of that draw, and the
  earlier tickets are done -/
  entry : ∀ c p t, (c, p, t) ∈ entries M → ∃ i, InBatch M i c p ∧ (∀ j, InBatch M j c p → j = i) ∧
    (∃ c' p', (draws M)[i]? = some (c', p', t)) ∧ i ≤ (advances M).length
  /-- batches are served in the order of their draws -/
  order : ∀ (a b : ℕ) c p t c' p' t' i j, a ≤ b → (entries M)[a]? = some (c, p, t) →
    (entries M)[b]? = some (c', p', t') → InBatch M i c p → InBatch M j c' p' → i ≤ j
  /-- the `i`-th update of `current_ticket_` sets it to `i + 1`; it is made by the last member of
  the `i`-th batch when the earlier members have left -/
  update : ∀ (i : ℕ) c q t, (advances M)[i]? = some (c, q, t) → t.toNat = (i + 1) % 2 ^ 64 ∧
    InBatch M i c q ∧ (c, q) ∉ hands M ∧
    ∀ q', InBatch M i c q' → q' ≤ q ∧ (q' < q → (c, q') ∈ leaves M)
  /-- whoever leaves has handed its ticket on or made the update -/
  leave : ∀ (i : ℕ) c q, InBatch M i c q → (c, q) ∈ leaves M →
    (c, q) ∈ hands M ∨ ∃ t, (advances M)[i]? = some (c, q, t)

section Shows

variable {hB : B.Positive} {M : List (Event H UInt64)} {K : Spec.State H} {i p q : ℕ} {c : Side}
  {t : UInt64}

theorem toNat_word (n : ℕ) : (word n).toNat = n % 2 ^ 64 := UInt64.toNat_ofNat'

theorem batch_segment (hM : Shows (config B hB) M K) (hi : (draws M)[i]? = some (c, p, t)) :
    ∃ n m : ℕ, 1 ≤ n ∧ n ≤ (B.kInitBudget c).toNat ∧ m ≤ n ∧
      (∀ c' q, InBatch M i c' q ↔ c' = c ∧ p ≤ q ∧ q < p + n) ∧
      (∀ c' q, InBatch M i c' q ∧ (∃ t', (c', q, t') ∈ entries M) ↔ c' = c ∧ p ≤ q ∧ q < p + m) ∧
      (i < (advances M).length → m = n) := by
  have hI := hM.reach.inv
  obtain ⟨-, hmem⟩ := hM.getElem_draws.1 hi
  obtain ⟨hhas, hlead, hpt⟩ := (Spec.mem_draws hM.reach).1 hmem
  obtain ⟨r, hpr, hr, hrt, ho⟩ := hI.exists_last hhas
  have hseg := hI.segment hhas hlead hr hrt ho
  have hlt := hI.lt_budget hpr hhas hr hrt.symm
  have hside : ∀ c' q, InBatch M i c' q ↔ c' = c ∧ p ≤ q ∧ q ≤ r := by
    intro c' q
    rw [hM.inBatch, ← hseg q, hpt]
    constructor
    · rintro ⟨hq, hqt⟩
      obtain rfl := hI.side_of_ticket hq hhas (hqt.trans hpt.symm)
      exact ⟨rfl, hq, hqt⟩
    · rintro ⟨rfl, hq, hqt⟩
      exact ⟨hq, hqt⟩
  have hentered : ∀ c' q, (∃ t', (c', q, t') ∈ entries M) ↔ q < (entryOrder c' K.log).length := by
    intro c' q
    rw [← List.mem_range, ← entryOrder_eq_range hM.reach, mem_entryOrder hM.reach]
    simp [hM.mem_entries]
  have hn : 1 ≤ r + 1 - p ∧ r + 1 - p ≤ (B.kInitBudget c).toNat := by
    simp only [config] at hlt
    omega
  refine ⟨r + 1 - p, min (entryOrder c K.log).length (r + 1) - p, hn.1, hn.2, by omega, ?_, ?_, ?_⟩
  · intro c' q
    rw [hside]
    exact and_congr_right fun _ => by omega
  · intro c' q
    rw [hside, hentered]
    constructor
    · rintro ⟨⟨rfl, h1, h2⟩, h3⟩
      exact ⟨rfl, by omega, by omega⟩
    · rintro ⟨rfl, h1, h2⟩
      exact ⟨⟨rfl, by omega, by omega⟩, by omega⟩
  · intro hdone
    rw [hM.length_advances] at hdone
    have h14 := (hI.glob c r).done hr (by omega)
    have hin : r ∈ entryOrder c K.log := (mem_entryOrder hM.reach).2 (by omega)
    rw [entryOrder_eq_range hM.reach, List.mem_range] at hin
    omega

theorem batchesOk_of_shows (hM : Shows (config B hB) M K) : BatchesOk B M where
  drawn i c p t hi := by
    obtain ⟨rfl, -⟩ := hM.getElem_draws.1 hi
    exact toNat_word i
  segment i c p t hi := batch_segment hM hi
  entry c p t ht := by
    have hI := hM.reach.inv
    obtain ⟨hrank, rfl⟩ := hM.mem_entries.1 ht
    have hhas := (hI.own c p).has (by omega)
    obtain ⟨p0, -, h1, h2, h3, -⟩ := hI.exists_leader hhas
    refine ⟨_, hM.inBatch.2 ⟨hhas, rfl⟩, fun j hj => (hM.inBatch.1 hj).2.symm,
      ⟨c, p0, hM.getElem_draws.2 ⟨rfl, (Spec.mem_draws hM.reach).2 ⟨h1, h2, h3⟩⟩⟩, ?_⟩
    rw [hM.length_advances]
    exact (hI.glob c p).le hrank
  order a b c p t c' p' t' i j hab ha hb hi hj := by
    obtain ⟨n, -, ha⟩ := hM.getElem_entries.1 ha
    obtain ⟨n', -, hb⟩ := hM.getElem_entries.1 hb
    obtain ⟨-, rfl⟩ := (Spec.mem_entries hM.reach).1 (List.mem_of_getElem? ha)
    obtain ⟨-, rfl⟩ := (Spec.mem_entries hM.reach).1 (List.mem_of_getElem? hb)
    rw [← (hM.inBatch.1 hi).2, ← (hM.inBatch.1 hj).2]
    rcases Nat.eq_or_lt_of_le hab with rfl | hlt
    · simp only [ha, Option.some.injEq, Prod.mk.injEq] at hb
      exact hb.2.2.le
    · obtain ⟨ha', ha⟩ := List.getElem?_eq_some_iff.1 ha
      obtain ⟨hb', hb⟩ := List.getElem?_eq_some_iff.1 hb
      have := List.pairwise_iff_getElem.1 (entries_pairwise hM.reach) a b ha' hb' hlt
      rwa [ha, hb] at this
  update i c q t hi := by
    have hI := hM.reach.inv
    obtain ⟨rfl, hmem⟩ := hM.getElem_advances.1 hi
    obtain ⟨hrank, ho, ht⟩ := (Spec.mem_advances hM.reach).1 hmem
    have hhas := (hI.own c q).has (by omega)
    have hqt : (K.acq c q).ticket = i := by omega
    refine ⟨toNat_word _, hM.inBatch.2 ⟨hhas, hqt⟩, fun hh => ho (hM.mem_hands.1 hh), ?_⟩
    intro q' hq'
    obtain ⟨hhas', hqt'⟩ := hM.inBatch.1 hq'
    refine ⟨not_lt.1 fun hlt => ho (hI.handed_of_ticket hlt hhas' (hqt.trans hqt'.symm)), ?_⟩
    exact fun hlt => hM.mem_leaves.2 (hI.gone_of_lt hlt (by omega))
  leave i c q hi hq := by
    obtain ⟨hhas, rfl⟩ := hM.inBatch.1 hi
    have hgone := hM.mem_leaves.1 hq
    by_cases ho : (K.acq c q).out = .handed
    · exact Or.inl (hM.mem_hands.2 ho)
    · refine Or.inr ⟨_, hM.getElem_advances.2 ⟨rfl, (Spec.mem_advances hM.reach).2 ⟨?_, ho, rfl⟩⟩⟩
      grind

end Shows

/-- The batches of a lock are well formed, and `current_ticket_` counts the updates. -/
theorem batches_well_formed (hB : B.Positive) (hr : (system C B).Run tr s) (l : L) :
    BatchesOk B (onLock l tr) ∧
      (s.locks l).currentTicket.toNat = (advances (onLock l tr)).length % 2 ^ 64 := by
  obtain ⟨k, pos, hS⟩ := simulated_of_run hB hr
  have hl := hS.shows l
  refine ⟨batchesOk_of_shows hl, ?_⟩
  rw [(hS.words l).currentTicket, hl.length_advances]
  exact toNat_word _

/-- Handlers 0 and 1 have run under ticket 0 and left. -/
theorem batches_well_formed_trio :
    ∃ (s : State (Fin 3) Unit) (tr : List (Unit × Event (Fin 3) UInt64)),
    (system trio ⟨2, 2⟩).Run tr s ∧
    entries (onLock () tr) = [(.loc, 0, 0), (.loc, 1, 0)] ∧
    advances (onLock () tr) = [(.loc, 1, 1)] ∧ BatchesOk ⟨2, 2⟩ (onLock () tr) ∧
    (s.locks ()).currentTicket.toNat = 1 := by
  obtain ⟨y, hy, he, ha⟩ : ∃ y ∈ playTrio ((0, .call ()) :: steps 0 12 ++
      (1, .call ()) :: steps 1 9 ++ steps 0 8 ++ steps 1 7 ++ steps 0 7 ++ steps 1 6),
      entries (onLock () y.2) = [(.loc, 0, 0), (.loc, 1, 0)] ∧
      advances (onLock () y.2) = [(.loc, 1, 1)] := by decide
  have hrun : (system trio ⟨2, 2⟩).Run y.2 y.1 := State.run_of_mem_play hy
  obtain ⟨h1, h2⟩ := batches_well_formed ⟨by decide, by decide⟩ hrun ()
  rw [ha] at h2
  exact ⟨y.1, y.2, hrun, he, ha, h1, h2⟩

/-! ### The tickets wrap around -/

/-- One lock that was used by the handler `false` on its own node only: free, with the next ticket
`w`. -/
def quiet (w : UInt64) (v : Option Side) (d : Descriptor Bool) : State Bool Unit where
  locks _ := { victim := v, nextTicket := w, currentTicket := w }
  descriptor c h := if c = .loc ∧ h = false then d else {}
  thread _ := .idle

/-- The same lock with the handler at `pc`, after it has drawn the ticket `w`. -/
def waiting (w t : UInt64) (pc : Pc) : State Bool Unit where
  locks _ := { localTail := some false, victim := some .loc, nextTicket := w + 1, currentTicket := w }
  descriptor c h := if c = .loc ∧ h = false then
    { ticketValid := true, batchTicket := t, budget := 1 } else {}
  thread h := if h = false then .busy { lock := (), pc := pc, ticket := w } else .idle

/-- The play of the handler `false` alone, with budgets of one. -/
abbrev playAlone (s : State Bool Unit) (acts : List (Act Unit)) :
    Option (State Bool Unit × List (Unit × Event Bool UInt64)) :=
  State.play (fun l => { lock := l }) (exec Cluster.pair ⟨1, 1⟩) s (acts.map fun a => (false, a))

omit [DecidableEq H] [DecidableEq L] in
theorem state_ext {s s' : State H L} (hl : s.locks = s'.locks)
    (hd : s.descriptor = s'.descriptor) (ht : s.thread = s'.thread) : s = s' := by
  cases s
  cases s'
  simp_all

/-- `Lock` up to the loop on `current_ticket_`. -/
theorem playAlone_lock (w : UInt64) (v : Option Side) (d : Descriptor Bool) :
    ∃ y, playAlone (quiet w v d) (.call () :: List.replicate 16 (.run true)) = some y ∧
      y.1 = waiting w d.batchTicket .awaitTicket ∧ (onLock () y.2).filterMap Event.drawn = [w] := by
  refine ⟨_, rfl, state_ext ?_ ?_ ?_, rfl⟩
  · funext l
    rfl
  · funext c h
    cases c <;> cases h <;> rfl
  · funext h
    cases h <;> rfl

/-- The ticket has come up already. -/
theorem playAlone_await (w t : UInt64) :
    playAlone (waiting w t .awaitTicket) [.run true] = some (waiting w t .storeBatchTicket, []) := by
  have hstep : State.step (fun l => { lock := l }) (exec Cluster.pair ⟨1, 1⟩)
      (waiting w t .awaitTicket) false (.run true) = some (waiting w t .storeBatchTicket, none) := by
    refine congrArg some (Prod.ext (state_ext rfl rfl ?_) rfl)
    funext h
    cases h
    · have hpc : (if w = w then Pc.storeBatchTicket else Pc.awaitTicket) = .storeBatchTicket :=
        if_pos rfl
      exact congrArg (fun pc => Thread.busy ({ lock := (), pc := pc, ticket := w } : Frame Bool Unit)) hpc
    · rfl
  exact Clients.play_cons_eq_some.2 ⟨_, _, _, hstep, rfl, rfl⟩

/-- The rest of `Lock`, and `Unlock`. -/
theorem playAlone_unlock (w t : UInt64) :
    ∃ y d, playAlone (waiting w t .storeBatchTicket) (List.replicate 7 (.run true)) = some y ∧
      y.1 = quiet (w + 1) (some .loc) d ∧ (onLock () y.2).filterMap Event.drawn = [] := by
  refine ⟨_, { ticketValid := true, batchTicket := w, budget := 1 }, rfl, state_ext ?_ ?_ ?_, rfl⟩
  · funext l
    rfl
  · funext c h
    cases c <;> cases h <;> rfl
  · funext h
    cases h <;> rfl

/-- The handler can draw as many tickets as it likes. -/
theorem exists_run_quiet (n : ℕ) : ∃ tr w v d, (system Cluster.pair ⟨1, 1⟩).Run tr (quiet w v d) ∧
    ((onLock () tr).filterMap Event.drawn).length = n := by
  induction n with
  | zero => exact ⟨[], 0, none, {}, .start ⟨fun _ => rfl, fun _ => rfl⟩, rfl⟩
  | succ n ih =>
    obtain ⟨tr, w, v, d, hr, hn⟩ := ih
    obtain ⟨y, hy, hs, hd⟩ := playAlone_lock w v d
    obtain ⟨z, d', hz, hs', hd'⟩ := playAlone_unlock w d.batchTicket
    have h1 := Clients.run_play hr hy
    rw [hs] at h1
    have h2 := Clients.run_play (Clients.run_play h1 (playAlone_await w _)) hz
    rw [hs'] at h2
    refine ⟨_, _, _, _, h2, ?_⟩
    simp only [onLock, List.filterMap_append, List.length_append] at hd hd' hn ⊢
    rw [hd, hd', hn]
    rfl

/-- The ticket of the first draw is returned again by the draw number `2 ^ 64`. -/
theorem ticket_drawn_twice : ∃ (s : State Bool Unit) (tr : List (Unit × Event Bool UInt64)),
    (system Cluster.pair ⟨1, 1⟩).Run tr s ∧ (draws (onLock () tr)).length = 2 ^ 64 + 1 ∧
    ((onLock () tr).filterMap Event.drawn)[0]? = some 0 ∧
    ((onLock () tr).filterMap Event.drawn)[2 ^ 64]? = some 0 := by
  obtain ⟨tr, w, v, d, hr, hn⟩ := exists_run_quiet (2 ^ 64 + 1)
  obtain ⟨K, hK⟩ := exists_shows ⟨by decide, by decide⟩ hr ()
  rw [hK.drawn, List.length_map, List.length_range] at hn
  refine ⟨_, tr, hr, hK.length_draws.trans hn, ?_, ?_⟩
  · rw [hK.drawn, hn, List.getElem?_map, List.getElem?_range (by decide)]
    rfl
  · rw [hK.drawn, hn, List.getElem?_map, List.getElem?_range (by decide)]
    rfl

end FARLockG

end Farlock
