import Farlock.Simulation
import Farlock.Spec.Bypass

/-!
# The events of a lock, with words for tickets

A run of a lock algorithm on one lock shows the log of an abstract run in which the ticket numbers
are replaced by the 64-bit words that hold them (`Shows`).  What the abstract log says about draws,
entries, updates, batches and overtaking is restated here for such a list of events.
-/

namespace Farlock

open Spec TwoParty

variable {H : Type}

/-- The events `M` are those of the abstract run to `K`, with words for tickets. -/
structure Shows (B : Config) (M : List (Event H UInt64)) (K : Spec.State H) : Prop where
  reach : Reachable B K
  log : M = K.log.map (Event.map word)

theorem map_eq_request {c : Side} {h : H} {f : ℕ → UInt64} {e : Event H ℕ}
    (he : .request c h = e.map f) : e = .request c h := by
  cases e <;> simp_all [Event.map]

/-- The part of a run before an event. -/
theorem Shows.split {B : Config} {M M' : List (Event H UInt64)} {e : Event H UInt64}
    {K : Spec.State H} (hM : Shows B (M ++ e :: M') K) :
    ∃ L e' L', K.log = L ++ e' :: L' ∧ M = L.map (Event.map word) ∧ e = e'.map word ∧
      M' = L'.map (Event.map word) := by
  obtain ⟨L, L2, hlog, h1, h2⟩ := List.append_eq_map_iff.1 hM.log
  obtain ⟨e', L', rfl, h3, h4⟩ := List.map_eq_cons_iff.1 h2
  exact ⟨L, e', L', hlog, h1.symm, h3.symm, h4.symm⟩

variable [DecidableEq H] {B : Config} {M M' : List (Event H UInt64)} {K : Spec.State H} {c : Side}
  {p q i : ℕ} {t : UInt64} {h : H}

/-- The number of draws, counted in the events themselves. -/
theorem length_timed {W : Type} (sel : Event H W → Option W) (L : List (Event H W)) :
    (timed sel L).length = (L.filterMap sel).length := by
  rw [← map_timed, List.length_map]

theorem Shows.getElem_draws (hM : Shows B M K) :
    (draws M)[i]? = some (c, p, t) ↔ t = word i ∧ (c, p, i) ∈ draws K.log := by
  rw [hM.log, draws_map, List.getElem?_map, Option.map_eq_some_iff]
  constructor
  · rintro ⟨⟨c', p', n⟩, hn, heq⟩
    obtain ⟨rfl, hmem⟩ := (Spec.getElem_draws hM.reach).1 hn
    simp only [mapTicket, Prod.mk.injEq] at heq
    obtain ⟨rfl, rfl, rfl⟩ := heq
    exact ⟨rfl, hmem⟩
  · rintro ⟨rfl, hmem⟩
    exact ⟨_, (Spec.getElem_draws hM.reach).2 ⟨rfl, hmem⟩, rfl⟩

/-- The tickets, in the order in which they were drawn. -/
theorem Shows.drawn (hM : Shows B M K) :
    M.filterMap Event.drawn = (List.range K.issued).map word := by
  rw [← map_timed, ← map_draws hM.reach, List.map_map, hM.log]
  change (draws (K.log.map (Event.map word))).map (·.2.2) = _
  rw [draws_map, List.map_map]
  rfl

theorem Shows.length_draws (hM : Shows B M K) : (draws M).length = K.issued := by
  rw [draws, length_timed, hM.drawn, List.length_map, List.length_range]

theorem Shows.mem_draws (hM : Shows B M K) :
    (c, p, t) ∈ draws M ↔ ∃ n, t = word n ∧ (c, p, n) ∈ draws K.log := by
  rw [hM.log, draws_map, List.mem_map]
  constructor
  · rintro ⟨⟨c', p', n⟩, hn, heq⟩
    simp only [mapTicket, Prod.mk.injEq] at heq
    obtain ⟨rfl, rfl, rfl⟩ := heq
    exact ⟨n, rfl, hn⟩
  · rintro ⟨n, rfl, hn⟩
    exact ⟨_, hn, rfl⟩

theorem Shows.getElem_entries (hM : Shows B M K) :
    (entries M)[i]? = some (c, p, t) ↔ ∃ n, t = word n ∧ (entries K.log)[i]? = some (c, p, n) := by
  rw [hM.log, entries_map, List.getElem?_map, Option.map_eq_some_iff]
  constructor
  · rintro ⟨⟨c', p', n⟩, hn, heq⟩
    simp only [mapTicket, Prod.mk.injEq] at heq
    obtain ⟨rfl, rfl, rfl⟩ := heq
    exact ⟨n, rfl, hn⟩
  · rintro ⟨n, rfl, hn⟩
    exact ⟨_, hn, rfl⟩

theorem Shows.mem_entries (hM : Shows B M K) :
    (c, p, t) ∈ entries M ↔ 13 ≤ (K.acq c p).rank ∧ t = word (K.acq c p).ticket := by
  rw [hM.log, entries_map, List.mem_map]
  constructor
  · rintro ⟨⟨c', p', n⟩, hn, heq⟩
    simp only [mapTicket, Prod.mk.injEq] at heq
    obtain ⟨rfl, rfl, rfl⟩ := heq
    obtain ⟨h1, rfl⟩ := (Spec.mem_entries hM.reach).1 hn
    exact ⟨h1, rfl⟩
  · rintro ⟨hrank, rfl⟩
    exact ⟨_, (Spec.mem_entries hM.reach).2 ⟨hrank, rfl⟩, rfl⟩

theorem Shows.inBatch (hM : Shows B M K) :
    InBatch M i c p ↔ (K.acq c p).has = true ∧ (K.acq c p).ticket = i := by
  rw [hM.log, inBatch_map, inBatch_iff hM.reach]

/-- The place of a handler that is in the queue. -/
theorem Shows.place (hM : Shows B M K) (hw : (K.acq c p).who = some h)
    (hg : (K.acq c p).phase ≠ .gone) : (register M).place h = p := by
  rw [hM.log, register_map, hM.reach.recorded.place c p h hw hg]

theorem Shows.mem_hands (hM : Shows B M K) : (c, p) ∈ hands M ↔ (K.acq c p).out = .handed := by
  rw [hM.log, hands_map, Spec.mem_hands hM.reach]

theorem Shows.mem_lowers (hM : Shows B M K) :
    (c, p) ∈ lowers M ↔ 10 ≤ (K.acq c p).rank ∧ (K.acq c p).out ≠ .handed := by
  rw [hM.log, lowers_map, Spec.mem_lowers hM.reach]

theorem Shows.mem_leaves (hM : Shows B M K) : (c, p) ∈ leaves M ↔ (K.acq c p).phase = .gone := by
  rw [hM.log, leaves_map, Spec.mem_leaves hM.reach]

theorem Shows.length_advances (hM : Shows B M K) : (advances M).length = K.serving := by
  have hlen := congrArg List.length (map_advances hM.reach)
  rw [hM.log, advances_map, List.length_map]
  simpa using hlen

theorem Shows.getElem_advances (hM : Shows B M K) :
    (advances M)[i]? = some (c, p, t) ↔ t = word (i + 1) ∧ (c, p, i + 1) ∈ advances K.log := by
  rw [hM.log, advances_map, List.getElem?_map, Option.map_eq_some_iff]
  constructor
  · rintro ⟨⟨c', p', n⟩, hn, heq⟩
    obtain ⟨rfl, hmem⟩ := (Spec.getElem_advances hM.reach).1 hn
    simp only [mapTicket, Prod.mk.injEq] at heq
    obtain ⟨rfl, rfl, rfl⟩ := heq
    exact ⟨rfl, hmem⟩
  · rintro ⟨rfl, hmem⟩
    exact ⟨_, (Spec.getElem_advances hM.reach).2 ⟨rfl, hmem⟩, rfl⟩

/-- The number of tickets drawn since a request, up to the draw of the requester. -/
theorem Shows.draws_since_request (hM : Shows B (M ++ .request c h :: M') K)
    (hno : ∀ t, .draw c h t ∉ M') : (M'.filterMap Event.drawn).length ≤ 1 := by
  obtain ⟨L, e', L', hlog, rfl, he, rfl⟩ := hM.split
  obtain rfl := map_eq_request he
  have hle := length_draws_le hM.reach hlog fun t ht => hno (word t) (List.mem_map.2 ⟨_, ht, rfl⟩)
  rw [hlog, draws, draws, length_timed, length_timed, List.filterMap_append, List.length_append,
    List.filterMap_cons] at hle
  have hsame : ((L'.map (Event.map word)).filterMap Event.drawn).length =
      (L'.filterMap Event.drawn).length := by
    rw [← length_timed, ← length_timed]
    exact (congrArg List.length (draws_map word L')).trans (List.length_map _)
  rw [hsame]
  simp only [Event.drawn] at hle
  omega

/-- The acquisitions of the other class that enter under a ticket drawn after a request, up to the
entry of the requester. -/
theorem Shows.encard_bypass_le (hM : Shows B (M ++ .request c h :: M') K)
    (hno : ∀ t, .enter c h t ∉ M') :
    {q | (∃ t, (other c, q, t) ∈ entries (M ++ .request c h :: M')) ∧
      ∃ i, (draws M).length ≤ i ∧ InBatch (M ++ .request c h :: M') i (other c) q}.encard ≤
      B.budget (other c) := by
  obtain ⟨L, e', L', hlog, hL, he, hL'⟩ := hM.split
  obtain rfl := map_eq_request he
  have key := Spec.encard_bypass_le hM.reach hlog fun t ht =>
    hno (word t) (hL' ▸ List.mem_map.2 ⟨_, ht, rfl⟩)
  have hlen : (draws M).length = (draws L).length := by rw [hL, draws_map, List.length_map]
  convert key using 4 with q
  rw [hlen, hM.log]
  simp only [inBatch_map, entries_map, List.mem_map]
  refine and_congr_left fun _ => ⟨?_, ?_⟩
  · rintro ⟨t, ⟨c', q', n⟩, hn, heq⟩
    simp only [mapTicket, Prod.mk.injEq] at heq
    obtain ⟨rfl, rfl, -⟩ := heq
    exact ⟨n, hn⟩
  · rintro ⟨n, hn⟩
    exact ⟨word n, _, hn, rfl⟩

/-! ### The events of a cluster -/

section Cluster

variable {L D F : Type} [DecidableEq L] {V : View H L D F} {C : Cluster H L}
  {tr : List (L × Event H UInt64)} {s : State H L D F} {k : L → Spec.State H} {pos : H → ℕ} {l : L}
  {f : F}

omit [DecidableEq H] in
/-- The events on each lock are those of its abstract state. -/
theorem Sim.shows (hS : Sim V B C tr s k pos) (l : L) : Shows B (onLock l tr) (k l) :=
  ⟨hS.reach l, hS.log l⟩

/-- The place of a handler in its queue can be told from the events. -/
theorem Sim.place_eq (hS : Sim V B C tr s k pos) (hf : s.thread h = .busy f)
    (hq : V.phase f ≠ .absent) : (register (onLock (V.lock f) tr)).place h = pos h := by
  have hat := hS.queued h f hf hq
  exact (hS.shows _).place (V.who hat) (V.phase_eq hat ▸ V.ne_gone f)

/-- Who stands in a queue is at work there. -/
theorem Sim.exists_of_who (hS : Sim V B C tr s k pos) (hw : ((k l).acq c p).who = some h)
    (hg : ((k l).acq c p).phase ≠ .gone) : ∃ f, s.thread h = .busy f ∧ V.lock f = l ∧
      C.side h l = c ∧ V.phase f ≠ .absent ∧ (register (onLock l tr)).place h = p := by
  obtain ⟨f, hf, hl, hc, -, hq⟩ := hS.active l c p h hw hg
  exact ⟨f, hf, hl, hc, hq, (hS.shows l).place hw hg⟩

/-- So is the successor of a handler that is. -/
theorem Sim.exists_of_succ (hS : Sim V B C tr s k pos) {g : H} (hf : s.thread g = .busy f)
    (hq : V.phase f ≠ .absent)
    (hw : ((k (V.lock f)).acq (C.side g (V.lock f)) (pos g + 1)).who = some h) :
    ∃ f', s.thread h = .busy f' ∧ V.lock f' = V.lock f ∧
      C.side h (V.lock f) = C.side g (V.lock f) ∧ V.phase f' ≠ .absent ∧
      (register (onLock (V.lock f) tr)).place h = pos g + 1 := by
  refine hS.exists_of_who hw ((hS.reach _).inv.succ_ne_gone ?_)
  rw [V.phase_eq (hS.queued g f hf hq)]
  exact V.ne_gone f

end Cluster

end Farlock
