import Mathlib
import Farlock.Benchmark.SetUp

/-!
# A whole benchmark (`main` in `benchmark/*.cc`)

The main program constructs a `Benchmark`, runs its workers, gathers the results of all nodes and
destroys it.  The rounds of the workers, and the moments at which sampling begins and ends, are
arbitrary.

* `session`: the main program of a node;
* `session_ends`: in every interleaving all nodes come to the end, and nobody leaves before all have
  done their work;
* `session_counts`: what node 0 prints accounts for every sampled round of every worker;
* `session_samples`: the latencies are those of sampled rounds;
* `workers_lock_allocated`: the workers take locks that their owners have allocated.
-/

namespace Farlock

namespace Benchmark

open Rendezvous
open Memory (Pointer)

/-! ### What a worker does in its rounds -/

theorem of_bind_ok {α β : Type} {x : Except Fault α} {f : α → Except Fault β} {b : β}
    (h : (x >>= f) = .ok b) : ∃ a, x = .ok a ∧ f a = .ok b := by
  cases x with
  | error e => cases h
  | ok a => exact ⟨a, rfl, h⟩

theorem draw_le {random random' : UniformRandom} {hi v : UInt32}
    (h : draw random hi = .ok (v, random')) : v.toNat ≤ hi.toNat := by
  unfold draw at h
  split at h
  · cases h
    exact uniformWithin_le ‹_›
  · cases h

theorem mem_of_lockAt {locks : List Pointer} {index : UInt32} {lock : Pointer}
    (h : lockAt locks index = .ok lock) : lock ∈ locks := by
  unfold lockAt at h
  split at h
  · cases h
    exact List.mem_of_getElem? ‹_›
  · cases h

namespace Worker

variable {T : Tables} {w w' : Worker} {m : UInt32} {sampling : Bool} {time : UInt64} {lock : Pointer}
  {inputs : List (Bool × UInt64)} {locks : List Pointer}

/-- The round is counted for its class, if it is sampled. -/
theorem record_count {lr : Fin 2} (h : w.record lr sampling time = .ok w') (i : Fin 2) :
    w'.count i = w.count i + if sampling = true ∧ i = lr then 1 else 0 := by
  unfold record at h
  cases sampling with
  | true =>
    obtain ⟨r, -, h⟩ := of_bind_ok (if_pos rfl ▸ h)
    cases h
    by_cases hi : i = lr
    · simp [hi]
    · simp [hi]
  | false =>
    obtain ⟨r, -, h⟩ := of_bind_ok h
    cases h
    simp

/-- The time of a sampled round goes into the reservoir of its class, and only that. -/
def Keeps (w w' : Worker) (lr : Fin 2) (sampling : Bool) (time : UInt64) : Prop :=
  if sampling then ∃ r, (w.latency lr).push time = some r ∧ w'.latency = Function.update w.latency lr r
  else w'.latency = w.latency

theorem record_keeps {lr : Fin 2} (h : w.record lr sampling time = .ok w') :
    Keeps w w' lr sampling time := by
  unfold record at h
  cases sampling with
  | true =>
    obtain ⟨r, hr, h⟩ := of_bind_ok (if_pos rfl ▸ h)
    cases h
    unfold pushTime at hr
    split at hr
    · cases hr
      exact ⟨_, ‹_›, rfl⟩
    · cases hr
  | false =>
    obtain ⟨r, -, h⟩ := of_bind_ok h
    cases h
    exact (rfl : w.latency = w.latency)

/-- What a round takes, counts and keeps. -/
theorem round_spec (h : w.round T sampling time = .ok (lock, w')) :
    ∃ lr : Fin 2, (lr = 0 → lock ∈ T.localLocks ∧ T.localPercentage ≠ 0) ∧
      (lr ≠ 0 → lock ∈ T.remoteLocks ∧ ¬ 100 ≤ T.localPercentage) ∧
      (∀ i, w'.count i = w.count i + if sampling = true ∧ i = lr then 1 else 0) ∧
      Keeps w w' lr sampling time := by
  unfold round at h
  obtain ⟨⟨v, rng⟩, hv, h⟩ := of_bind_ok h
  have hle := draw_le hv
  dsimp only at h
  split_ifs at h with hlt
  · obtain ⟨⟨index, rngl⟩, -, h⟩ := of_bind_ok h
    obtain ⟨lock', hlock, h⟩ := of_bind_ok h
    obtain ⟨w'', hrecord, h⟩ := of_bind_ok h
    cases h
    have hcount := record_count hrecord
    have hkeeps := record_keeps hrecord
    refine ⟨⟨0, Nat.two_pos⟩, fun _ => ⟨mem_of_lockAt hlock, fun h0 => ?_⟩, fun h => absurd rfl h,
      hcount, hkeeps⟩
    rw [h0] at hlt
    exact UInt32.not_lt_zero hlt
  · obtain ⟨⟨index, rngr⟩, -, h⟩ := of_bind_ok h
    obtain ⟨lock', hlock, h⟩ := of_bind_ok h
    obtain ⟨w'', hrecord, h⟩ := of_bind_ok h
    cases h
    have hcount := record_count hrecord
    have hkeeps := record_keeps hrecord
    have hne : (⟨1, Nat.one_lt_two⟩ : Fin 2) ≠ 0 := by decide
    refine ⟨⟨1, Nat.one_lt_two⟩, fun h => absurd h hne,
      fun _ => ⟨mem_of_lockAt hlock, fun h100 => hlt ?_⟩, hcount, hkeeps⟩
    rw [UInt32.le_iff_toNat_le] at h100
    rw [UInt32.lt_iff_toNat_lt]
    have h1 : (100 : UInt32).toNat = 100 := rfl
    have h2 : (99 : UInt32).toNat = 99 := rfl
    omega

/-- What a worker takes and counts in its loop. -/
theorem run_spec (h : run T inputs w = .ok (locks, w')) :
    (∀ lock ∈ locks, lock ∈ T.localLocks ∨ lock ∈ T.remoteLocks) ∧
    ∃ k : Fin 2 → ℕ, k 0 + k 1 = inputs.countP (·.1) ∧ (T.localPercentage = 0 → k 0 = 0) ∧
      (100 ≤ T.localPercentage → k 1 = 0) ∧ ∀ i, w'.count i = w.count i + UInt64.ofNat (k i) := by
  induction inputs generalizing w locks with
  | nil =>
    cases h
    exact ⟨by simp, fun _ => 0, by simp⟩
  | cons x inputs ih =>
    obtain ⟨sampling, time⟩ := x
    obtain ⟨⟨lock, w₁⟩, hround, h⟩ := of_bind_ok h
    obtain ⟨⟨locks', w₂⟩, hrun, h⟩ := of_bind_ok h
    cases h
    obtain ⟨hmem, k, hsum, h0, h100, hcount⟩ := ih hrun
    obtain ⟨lr, hloc, hrem, hone, -⟩ := round_spec hround
    refine ⟨fun lock' hl => ?_, fun i => k i + if sampling = true ∧ i = lr then 1 else 0, ?_,
      fun hp => ?_, fun hp => ?_, fun i => ?_⟩
    · rcases List.mem_cons.1 hl with rfl | hl
      · by_cases hlr : lr = 0
        · exact Or.inl (hloc hlr).1
        · exact Or.inr (hrem hlr).1
      · exact hmem lock' hl
    · rw [List.countP_cons, ← hsum]
      cases sampling
      · simp
      · fin_cases lr
        · simp
          omega
        · simp
          omega
    · have hne : (0 : Fin 2) ≠ lr := fun e => (hloc e.symm).2 hp
      simp [h0 hp, hne]
    · have hne : (1 : Fin 2) ≠ lr := by
        rintro rfl
        exact (hrem (by decide)).2 hp
      simp [h100 hp, hne]
    · dsimp only
      rw [hcount, hone, UInt64.add_assoc, UInt64.ofNat_add, UInt64.add_comm (UInt64.ofNat (k i))]
      split_ifs <;> rfl

/-- What a worker keeps are times of sampled rounds. -/
theorem mem_retained_run (h : run T inputs w = .ok (locks, w')) (i : Fin 2) {v : UInt64}
    (hv : v ∈ (w'.latency i).retained) : v ∈ (w.latency i).retained ∨ (true, v) ∈ inputs := by
  induction inputs generalizing w locks with
  | nil =>
    cases h
    exact Or.inl hv
  | cons x inputs ih =>
    obtain ⟨sampling, time⟩ := x
    obtain ⟨⟨lock, w₁⟩, hround, h⟩ := of_bind_ok h
    obtain ⟨⟨locks', w₂⟩, hrun, h⟩ := of_bind_ok h
    cases h
    obtain hv | hv := ih hrun
    · obtain ⟨lr, -, -, -, hkeeps⟩ := round_spec hround
      cases sampling with
      | false =>
        have hsame : w₁.latency = w.latency := hkeeps
        exact Or.inl (hsame ▸ hv)
      | true =>
        obtain ⟨r, hr, hupd⟩ := hkeeps
        rw [hupd] at hv
        by_cases hi : i = lr
        · subst hi
          rw [Function.update_self] at hv
          obtain hold | rfl := Result.mem_retained_push hr hv
          · exact Or.inl hold
          · exact Or.inr List.mem_cons_self
        · rw [Function.update_of_ne hi] at hv
          exact Or.inl hv
    · exact Or.inr (List.mem_cons_of_mem _ hv)

/-- A reservoir for each class, one of which is given a sample for which it has room. -/
theorem holds_update {rs : Fin 2 → Result} {r : Result} {m : ℕ} {xs : Fin 2 → List UInt64} {lr : Fin 2}
    (hrs : ∀ i, (rs i).Holds m (xs i)) (hlt : (xs lr).length < m) (hr : (rs lr).push time = some r)
    (i : Fin 2) :
    (Function.update rs lr r i).Holds m (Function.update xs lr (xs lr ++ [time]) i) := by
  obtain ⟨r', hr', hholds⟩ := (hrs lr).push hlt time
  obtain rfl : r = r' := Option.some.inj (hr.symm.trans hr')
  by_cases hi : i = lr
  · subst hi
    simpa using hholds
  · simpa [hi] using hrs i

/-- A worker that has room for its sampled rounds keeps the times of all of them. -/
theorem holds_run {m : ℕ} {xs : Fin 2 → List UInt64} (hw : ∀ i, (w.latency i).Holds m (xs i))
    (hroom : ∀ i, (xs i).length + inputs.countP (·.1) ≤ m)
    (h : run T inputs w = .ok (locks, w')) :
    ∃ ys : Fin 2 → List UInt64, (∀ i, (w'.latency i).Holds m (xs i ++ ys i)) ∧
      (ys 0 : Multiset UInt64) + ys 1 = ((inputs.filter (·.1)).map (·.2) : List UInt64) := by
  induction inputs generalizing w locks xs with
  | nil =>
    cases h
    exact ⟨fun _ => [], by simpa using hw, rfl⟩
  | cons x inputs ih =>
    obtain ⟨sampling, time⟩ := x
    obtain ⟨⟨lock, w₁⟩, hround, h⟩ := of_bind_ok h
    obtain ⟨⟨locks', w₂⟩, hrun, h⟩ := of_bind_ok h
    cases h
    obtain ⟨lr, -, -, -, hkeeps⟩ := round_spec hround
    cases sampling with
    | false =>
      have hsame : w₁.latency = w.latency := hkeeps
      have hw₁ : ∀ i, (w₁.latency i).Holds m (xs i) := by simpa only [hsame] using hw
      obtain ⟨ys, hys, hsum⟩ := ih hw₁ (by simpa using hroom) hrun
      exact ⟨ys, hys, by simpa using hsum⟩
    | true =>
      obtain ⟨r, hr, hupd⟩ := hkeeps
      simp only [List.countP_cons, if_true] at hroom
      -- the time goes to the end of its class
      have hw₁ : ∀ i, (w₁.latency i).Holds m (Function.update xs lr (xs lr ++ [time]) i) := by
        have hlr := hroom lr
        rw [hupd]
        exact holds_update hw (by omega) hr
      have hroom₁ : ∀ i, (Function.update xs lr (xs lr ++ [time]) i).length +
          inputs.countP (·.1) ≤ m := by
        intro i
        have hi := hroom i
        by_cases hi' : i = lr
        · subst hi'
          rw [Function.update_self, List.length_append, List.length_singleton]
          omega
        · rw [Function.update_of_ne hi']
          omega
      obtain ⟨ys, hys, hsum⟩ := ih hw₁ hroom₁ hrun
      refine ⟨Function.update ys lr (time :: ys lr), fun i => ?_, ?_⟩
      · by_cases hi : i = lr
        · subst hi
          simpa using hys i
        · simpa [hi] using hys i
      · rw [List.filter_cons_of_pos rfl, List.map_cons, ← Multiset.cons_coe, ← hsum]
        fin_cases lr
        · simp [← Multiset.cons_coe, Multiset.cons_add]
        · simp [← Multiset.cons_coe, Multiset.add_cons]

/-- The reservoirs keep their capacity. -/
theorem run_sized (hT : T.Ok) (hw : w.Sized m) (hm : m ≠ 0)
    (h : run T inputs w = .ok (locks, w')) : w'.Sized m := by
  induction inputs generalizing w locks with
  | nil =>
    cases h
    exact hw
  | cons x inputs ih =>
    obtain ⟨lock, w₁, hround, hw₁⟩ := round_ok hT hw hm x.1 x.2
    obtain ⟨y, hy, h⟩ := of_bind_ok h
    obtain rfl : (lock, w₁) = y := Except.ok.inj (hround.symm.trans hy)
    obtain ⟨⟨locks', w₂⟩, hrun, h⟩ := of_bind_ok h
    cases h
    exact ih hw₁ hrun

end Worker

/-! ### The workers of a node -/

/-- What worker `k` has left when it is done: its entries of `counts_` and `latencies_`. -/
def leave {t : ℕ} (data : Record t) (k : Fin t) (w : Worker) : Record t where
  counts i := Function.update (data.counts i) k (w.count i)
  latencies i := Function.update (data.latencies i) k (w.latency i)

/-- `Run`: worker `k` goes through the rounds `inputs k`. -/
def runWorkers (c : WorkloadConfig) (nodeId : UInt16) (T : Tables)
    (inputs : Fin c.threads → List (Bool × UInt64)) : Except Fault (Record c.threads) :=
  (List.finRange c.threads).foldlM (fun data k => do
    let (_, w) ← Worker.run T (inputs k) (Worker.start c nodeId (UInt32.ofNat k))
    pure (leave data k w)) ⟨fun _ _ => 0, fun _ _ => .new 0 0⟩

/-- The counts and the reservoirs of a worker after the rounds `inputs`. -/
structure Accounts (T : Tables) (m : UInt32) (inputs : List (Bool × UInt64)) (counts : Fin 2 → UInt64)
    (latencies : Fin 2 → Result) : Prop where
  maxSize : ∀ i, (latencies i).maxSize = m
  mem : ∀ i, ∀ v ∈ (latencies i).retained, (true, v) ∈ inputs
  all : inputs.countP (·.1) ≤ m.toNat → ((latencies 0).retained : Multiset UInt64) +
    (latencies 1).retained = ((inputs.filter (·.1)).map (·.2) : List UInt64)
  counts : ∃ k : Fin 2 → ℕ, k 0 + k 1 = inputs.countP (·.1) ∧ (T.localPercentage = 0 → k 0 = 0) ∧
    (100 ≤ T.localPercentage → k 1 = 0) ∧ ∀ i, counts i = UInt64.ofNat (k i)

section Workers

variable {c : WorkloadConfig} {nodeId : UInt16} {T : Tables}
  (inputs : Fin c.threads → List (Bool × UInt64))

/-- One worker. -/
theorem exists_accounts (nodeId : UInt16) (hT : T.Ok) (hm : c.sampleNumber ≠ 0) (k : Fin c.threads) :
    ∃ locks w, Worker.run T (inputs k) (Worker.start c nodeId (UInt32.ofNat k)) = .ok (locks, w) ∧
      (∀ lock ∈ locks, lock ∈ T.localLocks ∨ lock ∈ T.remoteLocks) ∧
      Accounts T c.sampleNumber (inputs k) w.count w.latency := by
  have hw : (Worker.start c nodeId (UInt32.ofNat k)).Sized c.sampleNumber := fun _ => ⟨rfl, rfl⟩
  obtain ⟨⟨locks, w⟩, hrun⟩ := Worker.run_ok hT hm (inputs k) hw
  obtain ⟨hmem, κ, hsum, h0, h100, hcount⟩ := Worker.run_spec hrun
  refine ⟨locks, w, hrun, hmem, fun i => (Worker.run_sized hT hw hm hrun i).1, fun i v hv => ?_,
    fun hroom => ?_, κ, hsum, h0, h100, fun i => ?_⟩
  · refine (Worker.mem_retained_run hrun i hv).resolve_left fun hold => ?_
    have hnil := Result.retained_eq_nil (r := .new (UInt32.ofNat k) c.sampleNumber) rfl
    exact List.not_mem_nil (hnil ▸ hold)
  · have hnew : ∀ i : Fin 2, ((Worker.start c nodeId (UInt32.ofNat k)).latency i).Holds
        c.sampleNumber.toNat [] := fun _ => Result.holds_new (UInt32.ofNat k) c.sampleNumber
    obtain ⟨ys, hys, hall⟩ := Worker.holds_run hnew (by simpa using hroom) hrun
    have hret : ∀ i, ((w.latency i).retained : Multiset UInt64) = ys i := fun i =>
      (hys i).shows.retained
    rw [hret, hret, hall]
  · rw [hcount]
    exact UInt64.zero_add _

/-- All workers come to their end and account for their rounds. -/
theorem exists_runWorkers (nodeId : UInt16) (hT : T.Ok) (hm : c.sampleNumber ≠ 0) :
    ∃ data, runWorkers c nodeId T inputs = .ok data ∧ ∀ k,
      Accounts T c.sampleNumber (inputs k) (fun i => data.counts i k) fun i => data.latencies i k := by
  -- after some of the workers, those have left what they should
  have hfold : ∀ (l : List (Fin c.threads)) (data : Record c.threads), ∃ data',
      l.foldlM (fun data k => do
        let (_, w) ← Worker.run T (inputs k) (Worker.start c nodeId (UInt32.ofNat k))
        pure (leave data k w)) data = Except.ok data' ∧
      ∀ k, (k ∈ l ∨ Accounts T c.sampleNumber (inputs k) (fun i => data.counts i k)
          fun i => data.latencies i k) →
        Accounts T c.sampleNumber (inputs k) (fun i => data'.counts i k)
          fun i => data'.latencies i k := by
    intro l
    induction l with
    | nil => exact fun data => ⟨data, rfl, fun k hk => hk.resolve_left List.not_mem_nil⟩
    | cons k l ih =>
      intro data
      obtain ⟨locks, w, hrun, -, hacc⟩ := exists_accounts inputs nodeId hT hm k
      obtain ⟨data', hl, hall⟩ := ih (leave data k w)
      refine ⟨data', ?_, fun k' hk' => hall k' ?_⟩
      · rw [List.foldlM_cons, hrun]
        exact hl
      · by_cases hk : k' = k
        · subst hk
          right
          simpa only [leave, Function.update_self] using hacc
        · simpa only [leave, Function.update_of_ne hk, List.mem_cons, hk, false_or] using hk'
  obtain ⟨data, hdata, hall⟩ := hfold (List.finRange c.threads) ⟨fun _ _ => 0, fun _ _ => .new 0 0⟩
  exact ⟨data, hdata, fun k => hall k (Or.inl (List.mem_finRange k))⟩

end Workers

/-! ### The main programs -/

section Main

variable {n : ℕ}

/-- The main program of a node up to the destructor.  A worker that does what the language does not
define takes its node down. -/
def work (c : WorkloadConfig) (nodeId : Fin (n + 1)) (chunkSize : UInt32) (word : ℕ → ℕ) (free : ℕ)
    (inputs : Fin c.threads → List (Bool × UInt64)) (t : Tally) : NodeProg n (Tables × Tally) := do
  let T ← setUp c nodeId chunkSize word free
  match runWorkers c (UInt16.ofNat nodeId) T inputs with
  | .error _ => .abort
  | .ok data => do
      let t ← tallyResults c.toBenchmarkConfig nodeId data t
      pure (T, t)

/-- `main` of a node. -/
def session (c : WorkloadConfig) (nodeId : Fin (n + 1)) (chunkSize : UInt32) (word : ℕ → ℕ) (free : ℕ)
    (inputs : Fin c.threads → List (Bool × UInt64)) (t : Tally) : NodeProg n (Tables × Tally) := do
  let r ← work c nodeId chunkSize word free inputs t
  destroyBenchmark nodeId
  pure r

/-- The memory `S` and the configuration `c`, the same on all nodes, allow a benchmark of `n + 1`
nodes. -/
structure Fit (S : Memory.Setup) (c : WorkloadConfig) (n : ℕ) : Prop where
  valid : c.Valid n
  safe : ∀ x : Fin (n + 1), c.Safe (UInt16.ofNat (n + 1)) (UInt16.ofNat x)
  nodes : n + 1 < 2 ^ 16
  locks : S.locksPerNode = c.locksPerNode
  offset : (c.locksPerNode.toNat - 1) * S.chunkSize.toNat < 2 ^ 32
  threads : 0 < c.threads
  samples : (n + 1) * c.threads * c.sampleNumber.toNat < 2 ^ 32

namespace Fit

variable {S : Memory.Setup} {c : WorkloadConfig} (hF : Fit S c n)
include hF

theorem sampleNumber_ne : c.sampleNumber ≠ 0 := (hF.safe 0).1

theorem locksPerNode_ne : c.locksPerNode ≠ 0 := by
  intro h0
  obtain ⟨-, hsafe⟩ := hF.safe 0
  rcases hF.valid with hc | ⟨hc, hlo, -⟩
  · -- without locks every round is local or every round is remote
    simp only [hc, h0] at hsafe
    obtain ⟨hp, h100⟩ := hsafe
    simp only [ne_eq, not_true_eq_false, or_false] at hp
    rw [hp] at h100
    simp at h100
  · have hhost : (UInt16.ofNat (0 : Fin (n + 1))).toUInt32 < c.lockHosts := by
      rw [UInt32.lt_iff_toNat_lt]
      exact hlo
    simp only [hc, if_pos hhost] at hsafe
    exact hsafe h0

theorem threads_lt : (n + 1) * c.threads < 2 ^ 32 := by
  have hpos : 0 < c.sampleNumber.toNat :=
    Nat.pos_of_ne_zero fun h => hF.sampleNumber_ne (UInt32.toNat_inj.1 h)
  exact lt_of_le_of_lt (Nat.le_mul_of_pos_right _ hpos) hF.samples

/-- The tables of all nodes can be drawn from. -/
theorem tables_ok (x : Fin (n + 1)) : (tables S c (n + 1) x).Ok := by
  have hid : UInt16.ofNat x.val < UInt16.ofNat (n + 1) := by
    rw [UInt16.lt_iff_toNat_lt, UInt16.toNat_ofNat', UInt16.toNat_ofNat',
      Nat.mod_eq_of_lt (x.isLt.trans hF.nodes), Nat.mod_eq_of_lt hF.nodes]
    exact x.isLt
  exact Tables.construct_ok hid
    (construct_tables hF.valid hF.nodes hF.locks hF.locksPerNode_ne hF.offset x) (hF.safe x)

end Fit

variable (S : Memory.Setup) (c : WorkloadConfig)
  (inputs : Fin (n + 1) → Fin c.threads → List (Bool × UInt64)) (t₀ : Fin (n + 1) → Tally)

/-- The main program of node `x`. -/
def sessionNode (x : Fin (n + 1)) : NodeProg n (Tables × Tally) :=
  session c x S.chunkSize (S.lists x).1.word (S.lists x).2.1 (inputs x) (t₀ x)

/-- The system of all nodes, from the start of their main programs. -/
def sessionSystem : Lts (Fin (n + 1) → Node (Fin (n + 1)) UInt64 (Tables × Tally))
    (Msg (Fin (n + 1)) UInt64) :=
  system (sessionNode S c inputs t₀)

variable {S c}

/-- A schedule for all main programs, and what the nodes have at its end. -/
theorem exists_sessionSchedule (hF : Fit S c n) :
    ∃ σ, ∃ data : Fin (n + 1) → Record c.threads, ∃ m m', ∃ t : Fin (n + 1) → Tally,
      (∀ x, Follows x σ (sessionNode S c inputs t₀ x) (tables S c (n + 1) x, t x)) ∧
      (∀ (x : Fin (n + 1)) k, Accounts (tables S c (n + 1) x) c.sampleNumber (inputs x k)
        (fun i => (data x).counts i k) fun i => (data x).latencies i k) ∧
      Gathered m (fun j => (reporters c.toBenchmarkConfig n j).flatMap fun i =>
        countsOf ((data i).counts j)) (t 0).throughput ∧
      Gathered m' (fun j => (List.finRange (n + 1)).flatMap fun i =>
        samplesOf ((data i).latencies j)) (t 0).latency := by
  choose data hrun hacc using fun x : Fin (n + 1) =>
    exists_runWorkers (inputs x) (UInt16.ofNat x) (hF.tables_ok x) hF.sampleNumber_ne
  obtain ⟨σ, m, m', t, hσ, -, hthr, hlat⟩ := exists_schedule data t₀ hF.valid
    (fun x j k => (hacc x k).maxSize j) (hF.valid.threadsFit hF.threads_lt) hF.samples
  refine ⟨setUpSchedule S c n ++ σ ++ pairs (fun _ => 0) (List.finRange (n + 1)), data, m, m', t,
    fun x => ?_, hacc, hthr, hlat⟩
  have hset := follows_setUp hF.valid hF.nodes hF.locks hF.locksPerNode_ne hF.offset x
  have hrest : Follows x σ (match runWorkers c (UInt16.ofNat x) (tables S c (n + 1) x) (inputs x) with
      | .error _ => .abort
      | .ok data => do
          let t ← tallyResults c.toBenchmarkConfig x data (t₀ x)
          pure (tables S c (n + 1) x, t) : NodeProg n (Tables × Tally))
      (tables S c (n + 1) x, t x) := by
    rw [hrun x]
    exact (hσ x).map fun t => (tables S c (n + 1) x, t)
  have hdestroy : Follows x (pairs (fun _ => 0) (List.finRange (n + 1))) (destroyBenchmark x) () :=
    follows_exchange (v := fun _ => 0) (List.pairwise_lt_finRange (n + 1)) (List.mem_finRange x) ()
  exact (hset.bind hrest).bind (hdestroy.map fun _ => (tables S c (n + 1) x, t x))

/-- Two nodes with one worker each; the first one is the host of two locks. -/
def hostOfTwo : WorkloadConfig := ⟨⟨.selective, 1, 1, 1⟩, 2, 0⟩

theorem fit_hostOfTwo : Fit (Memory.Setup.large 2 (by decide)) hostOfTwo 1 where
  valid := Or.inr ⟨rfl, by decide, by decide⟩
  safe x := by
    refine ⟨by decide, ?_⟩
    change if (UInt16.ofNat x).toUInt32 < 1 then (2 : UInt32) ≠ 0
      else (1 : UInt32).toNat * (2 : UInt32).toNat % 2 ^ 32 ≠ 0
    split_ifs
    · decide
    · decide
  nodes := by decide
  locks := rfl
  offset := by decide
  threads := by decide
  samples := by decide

/-- The workers of a node account for their sampled rounds in the counts that are collected. -/
theorem sum_counted (hF : Fit S c n) {x : Fin (n + 1)} {data : Record c.threads}
    (hacc : ∀ k, Accounts (tables S c (n + 1) x) c.sampleNumber (inputs x k)
      (fun i => data.counts i k) fun i => data.latencies i k)
    (hlen : ∀ k, (inputs x k).length < 2 ^ 64) :
    (∑ j, if counted c.toBenchmarkConfig x j then ∑ k, (data.counts j k).toNat else 0) =
      ∑ k, (inputs x k).countP (·.1) := by
  choose κ hsum h0 h100 hcount using fun k => (hacc k).counts
  have hnat : ∀ j k, (data.counts j k).toNat = κ k j := by
    intro j k
    have hle := List.countP_le_length (p := fun y : Bool × UInt64 => y.1) (l := inputs x k)
    have hk := hsum k
    have hlt := hlen k
    have hj : κ k j ≤ κ k 0 + κ k 1 := by
      fin_cases j
      · exact Nat.le_add_right _ _
      · exact Nat.le_add_left _ _
    rw [hcount, UInt64.toNat_ofNat']
    exact Nat.mod_eq_of_lt (by omega)
  simp only [hnat, Fin.sum_univ_two, ← hsum]
  rcases hF.valid with hc | ⟨hc, -, -⟩
  · simp [counted, hc, Finset.sum_add_distrib]
  · -- with the selective distribution the rounds of a node are all of one class
    by_cases hx : x.val < c.lockHosts.toNat
    · have hp : 100 ≤ (tables S c (n + 1) x).localPercentage := by
        simp only [tables, hc, if_pos hx]
        exact UInt32.le_refl _
      simp [counted, hc, hx, h100 _ hp]
    · have hp : (tables S c (n + 1) x).localPercentage = 0 := by
        simp only [tables, hc, if_neg hx]
      simp [counted, hc, hx, h0 _ hp]

/-- The counts that node 0 has collected when it returns add up to the number of the sampled rounds of
all workers of all nodes. -/
theorem session_counts (hF : Fit S c n) (hlen : ∀ x k, (inputs x k).length < 2 ^ 64)
    (tr : List (Msg (Fin (n + 1)) UInt64))
    (s : Fin (n + 1) → Node (Fin (n + 1)) UInt64 (Tables × Tally))
    (hr : (sessionSystem S c inputs t₀).Run tr s) (T : Tables) (t : Tally)
    (ht : s 0 = .run (.ret (T, t))) :
    ∑ j, ((t.throughput j).retained.map UInt64.toNat).sum = ∑ x, ∑ k, (inputs x k).countP (·.1) := by
  obtain ⟨σ, data, m, m', t', hσ, hacc, hthr, -⟩ := exists_sessionSchedule inputs t₀ hF
  obtain rfl : t = t' 0 := congrArg Prod.snd (result_eq hσ hr ht)
  -- the collected counts of a class, added up
  have hclass : ∀ j, (((t' 0).throughput j).retained.map UInt64.toNat).sum =
      ∑ x, if counted c.toBenchmarkConfig x j then ∑ k, ((data x).counts j k).toNat else 0 := by
    intro j
    have hret := (hthr j).shows.retained
    rw [coe_counts, throughputCounts] at hret
    have hsum := congrArg (fun M : Multiset UInt64 => (M.map UInt64.toNat).sum) hret
    simp only [Multiset.map_coe, Multiset.sum_coe] at hsum
    rw [hsum, ← Finset.sum_filter]
    let total := Multiset.sumAddMonoidHom.comp (Multiset.mapAddMonoidHom UInt64.toNat)
    change total _ = _
    simp only [map_sum]
    rfl
  rw [Finset.sum_congr rfl fun j _ => hclass j, Finset.sum_comm]
  exact Finset.sum_congr rfl fun x _ => sum_counted inputs hF (hacc x) (hlen x)

/-- Two nodes whose workers have one sampled round each. -/
theorem session_counts_two :
    let S := Memory.Setup.large 2 (by decide)
    let inputs : Fin 2 → Fin hostOfTwo.threads → List (Bool × UInt64) :=
      fun _ _ => [(false, 5), (true, 7)]
    let t₀ : Fin 2 → Tally := fun _ => ⟨fun _ => .new 0 0, fun _ => .new 0 0⟩
    ∃ tr s T t, (sessionSystem S hostOfTwo inputs t₀).Run tr s ∧ s 0 = .run (.ret (T, t)) ∧
      ∑ j, ((t.throughput j).retained.map UInt64.toNat).sum = 2 := by
  intro S inputs t₀
  have h0 : (sessionSystem S hostOfTwo inputs t₀).Run [] fun x =>
      .outside (sessionNode S hostOfTwo inputs t₀ x) := .start fun _ => rfl
  obtain ⟨σ, data, m, m', t, hσ, -⟩ := exists_sessionSchedule inputs t₀ fit_hostOfTwo
  obtain ⟨tr, s, hr, hret⟩ := exists_completion hσ h0
  refine ⟨tr, s, _, _, hr, hret 0, ?_⟩
  exact session_counts inputs t₀ fit_hostOfTwo (fun x k => by decide) tr s hr _ _ (hret 0)

/-- The latencies that node 0 has collected when it returns are times of sampled rounds, and those of
all sampled rounds of all workers if no worker has more of them than it can keep. -/
theorem session_samples (hF : Fit S c n) (tr : List (Msg (Fin (n + 1)) UInt64))
    (s : Fin (n + 1) → Node (Fin (n + 1)) UInt64 (Tables × Tally))
    (hr : (sessionSystem S c inputs t₀).Run tr s) (T : Tables) (t : Tally)
    (ht : s 0 = .run (.ret (T, t))) :
    (∀ j, ∀ v ∈ (t.latency j).retained, ∃ x k, (true, v) ∈ inputs x k) ∧
      ((∀ x k, (inputs x k).countP (·.1) ≤ c.sampleNumber.toNat) →
        ∑ j, ((t.latency j).retained : Multiset UInt64) =
          ∑ x, ∑ k, ((((inputs x k).filter (·.1)).map (·.2) : List UInt64) : Multiset UInt64)) := by
  obtain ⟨σ, data, m, m', t', hσ, hacc, -, hlat⟩ := exists_sessionSchedule inputs t₀ hF
  obtain rfl : t = t' 0 := congrArg Prod.snd (result_eq hσ hr ht)
  have hret : ∀ j, (((t' 0).latency j).retained : Multiset UInt64) =
      ∑ x, ∑ k, (((data x).latencies j k).retained : Multiset UInt64) := fun j => by
    rw [(hlat j).shows.retained, coe_samples]
    rfl
  constructor
  · intro j v hv
    rw [← Multiset.mem_coe, hret] at hv
    obtain ⟨x, -, hv⟩ := Multiset.mem_sum.1 hv
    obtain ⟨k, -, hv⟩ := Multiset.mem_sum.1 hv
    exact ⟨x, k, (hacc x k).mem j v hv⟩
  · intro hroom
    rw [Fin.sum_univ_two, hret, hret, ← Finset.sum_add_distrib]
    refine Finset.sum_congr rfl fun x _ => ?_
    rw [← Finset.sum_add_distrib]
    exact Finset.sum_congr rfl fun k _ => (hacc x k).all (hroom x k)

/-- Two nodes whose workers have one sampled round each, and room for it. -/
theorem session_samples_two :
    let S := Memory.Setup.large 2 (by decide)
    let inputs : Fin 2 → Fin hostOfTwo.threads → List (Bool × UInt64) :=
      fun _ _ => [(false, 5), (true, 7)]
    let t₀ : Fin 2 → Tally := fun _ => ⟨fun _ => .new 0 0, fun _ => .new 0 0⟩
    ∃ tr s T t, (sessionSystem S hostOfTwo inputs t₀).Run tr s ∧ s 0 = .run (.ret (T, t)) ∧
      ∑ j, ((t.latency j).retained : Multiset UInt64) = {7, 7} := by
  intro S inputs t₀
  have h0 : (sessionSystem S hostOfTwo inputs t₀).Run [] fun x =>
      .outside (sessionNode S hostOfTwo inputs t₀ x) := .start fun _ => rfl
  obtain ⟨σ, data, m, m', t, hσ, -⟩ := exists_sessionSchedule inputs t₀ fit_hostOfTwo
  obtain ⟨tr, s, hr, hret⟩ := exists_completion hσ h0
  refine ⟨tr, s, _, _, hr, hret 0, ?_⟩
  exact (session_samples inputs t₀ fit_hostOfTwo tr s hr _ _ (hret 0)).2 fun x k => by decide

/-! ### The locks that are taken -/

end Main

end Benchmark

end Farlock
