import Mathlib
import Farlock.Lib.Rendezvous
import Farlock.Benchmark.Result
import Farlock.Memory.LockTable

/-!
# The gather of the results (`include/benchmark/benchmark.h`)

`TallyResults` collects the counts and the latency samples of all threads on node 0: the other nodes
send them, without any framing, and node 0 receives them in the order in which its own loops run.

The configuration is the same on all nodes.  `0` and `1` are the local and the remote class.
-/

namespace Farlock

namespace Benchmark

open Rendezvous
open Memory (Distribution)

/-- `BenchmarkConfig`, as far as `TallyResults` reads it. -/
structure BenchmarkConfig where
  distribution : Distribution
  lockHosts : UInt32
  threadsPerNode : UInt32
  sampleNumber : UInt32

/-- The number of threads of a node. -/
def BenchmarkConfig.threads (c : BenchmarkConfig) : ℕ := c.threadsPerNode.toNat

/-- What the threads of a node have left: `counts_` and `latencies_`, of each class. -/
structure Record (T : ℕ) where
  counts : Fin 2 → Fin T → UInt64
  latencies : Fin 2 → Fin T → Result

/-- `throughput_` and `latency_` -/
structure Tally where
  throughput : Fin 2 → Result
  latency : Fin 2 → Result

variable {n T : ℕ}

/-- The program of a node; the nodes are numbered from `0` to `n`. -/
abbrev NodeProg (n : ℕ) := Prog (Fin (n + 1)) UInt64

/-- `rs[c] = r`, where the computation of `r` may die. -/
def store (rs : Fin 2 → Result) (c : Fin 2) : Option Result → NodeProg n (Fin 2 → Result)
  | some r => .ret (Function.update rs c r)
  | none => .abort

/-- The nodes from `lo` on and before `hi`. -/
def nodesIn (n lo hi : ℕ) : List (Fin (n + 1)) :=
  (List.finRange (n + 1)).filter fun i => lo ≤ i.val ∧ i.val < hi

/-- Receive one value for each element of the list and push it to `rs[c]`. -/
def receiveInto {α : Type} (i : Fin (n + 1)) (c : Fin 2) (l : List α) (rs : Fin 2 → Result) :
    NodeProg n (Fin 2 → Result) :=
  l.foldlM (fun rs _ => do
    let count ← .get i
    store rs c ((rs c).push count)) rs

/-- The throughput part of `TallyResults` on node 0, uniform distribution. -/
def tallyUniform (totalThreads : UInt32) (counts : Fin 2 → Fin T → UInt64)
    (throughput : Fin 2 → Result) : NodeProg n (Fin 2 → Result) := do
  let throughput ← (List.finRange 2).foldlM (fun rs i =>
    (List.finRange T).foldlM (fun rs j => store rs i ((rs i).push (counts i j)))
      (Function.update rs i (.new 0 totalThreads))) throughput
  (nodesIn n 1 (n + 1)).foldlM (fun rs i =>
    (List.finRange 2).foldlM (fun rs j => receiveInto i j (List.finRange T) rs) rs) throughput

/-- The throughput part of `TallyResults` on node 0, selective distribution. -/
def tallySelective (totalThreads nThreads lockHosts : UInt32) (counts : Fin 2 → Fin T → UInt64)
    (throughput : Fin 2 → Result) : NodeProg n (Fin 2 → Result) := do
  let localThreads := lockHosts * nThreads
  let remoteThreads := totalThreads - localThreads
  let throughput := Function.update throughput 0 (.new 0 localThreads)
  let throughput := Function.update throughput 1 (.new 0 remoteThreads)
  let throughput ← (List.finRange T).foldlM
    (fun rs j => store rs 0 ((rs 0).push (counts 0 j))) throughput
  let throughput ← (nodesIn n 1 lockHosts.toNat).foldlM
    (fun rs i => receiveInto i 0 (List.finRange T) rs) throughput
  (nodesIn n lockHosts.toNat (n + 1)).foldlM
    (fun rs i => receiveInto i 1 (List.finRange T) rs) throughput

/-- The latency part of `TallyResults` on node 0. -/
def tallyLatency (totalThreads sampleNumber : UInt32) (latencies : Fin 2 → Fin T → Result)
    (latency : Fin 2 → Result) : NodeProg n (Fin 2 → Result) := do
  let latency ← (List.finRange 2).foldlM (fun rs i =>
    (List.finRange T).foldlM (fun rs j => store rs i ((rs i).append (latencies i j)))
      (Function.update rs i (.new 0 (totalThreads * sampleNumber)))) latency
  (nodesIn n 1 (n + 1)).foldlM (fun rs i =>
    (List.finRange 2).foldlM (fun rs j =>
      (List.finRange T).foldlM (fun rs _ => do
        let samples ← .get i
        receiveInto i j (List.range samples.toUInt32.toNat) rs) rs) rs) latency

/-- The throughput part of `TallyResults` on node 0. -/
def tallyThroughput (c : BenchmarkConfig) (totalThreads : UInt32)
    (counts : Fin 2 → Fin c.threads → UInt64) (throughput : Fin 2 → Result) :
    NodeProg n (Fin 2 → Result) :=
  match c.distribution with
  | .uniform => tallyUniform totalThreads counts throughput
  | .selective => tallySelective totalThreads c.threadsPerNode c.lockHosts counts throughput
  | .invalid => .abort

/-- `TallyResults` on node 0. -/
def gather (c : BenchmarkConfig) (data : Record c.threads) (t : Tally) : NodeProg n Tally := do
  (nodesIn n 1 (n + 1)).forM fun i => do
    let _ ← Prog.get i
  let totalThreads := UInt32.ofNat (n + 1) * c.threadsPerNode
  let throughput ← tallyThroughput c totalThreads data.counts t.throughput
  let latency ← tallyLatency totalThreads c.sampleNumber data.latencies t.latency
  pure ⟨throughput, latency⟩

/-- The counts of one class, sent to node 0. -/
def sendCounts (counts : Fin T → UInt64) : NodeProg n Unit :=
  (List.finRange T).forM fun j => .put 0 (counts j)

/-- `TallyResults` on the other nodes. -/
def report (c : BenchmarkConfig) (nodeId : Fin (n + 1)) (data : Record c.threads) :
    NodeProg n Unit := do
  .put 0 0
  match c.distribution with
  | .uniform => (List.finRange 2).forM fun i => sendCounts (data.counts i)
  | .selective =>
    if nodeId.val < c.lockHosts.toNat then sendCounts (data.counts 0)
    else sendCounts (data.counts 1)
  | .invalid => .abort
  (List.finRange 2).forM fun k => (List.finRange c.threads).forM fun i => do
    let samples := (data.latencies k i).size
    .put 0 samples.toUInt64
    (List.range samples.toNat).forM fun j => .put 0 ((data.latencies k i).get (UInt32.ofNat j))

/-- `TallyResults` -/
def tallyResults (c : BenchmarkConfig) (nodeId : Fin (n + 1)) (data : Record c.threads)
    (t : Tally) : NodeProg n Tally :=
  if nodeId = 0 then gather c data t
  else do
    report c nodeId data
    pure t

/-! ### What node 0 collects -/

/-- Every class has room for `m c` samples and has been given `xs c`. -/
def Gathered (m : Fin 2 → ℕ) (xs : Fin 2 → List UInt64) (rs : Fin 2 → Result) : Prop :=
  ∀ c, (rs c).Holds (m c) (xs c)

/-- The values `vs` for class `c`. -/
def only (c : Fin 2) (vs : List UInt64) (c' : Fin 2) : List UInt64 := if c' = c then vs else []

/-- The messages with the values `vs` from node `i` to node 0. -/
def msgs (i : Fin (n + 1)) (vs : List UInt64) : List (Msg (Fin (n + 1)) UInt64) :=
  vs.map fun v => ⟨i, 0, v⟩

/-- Node 0 goes through the messages `σ` and appends `ys`, if there is room. -/
def Adds (m : Fin 2 → ℕ) (σ : List (Msg (Fin (n + 1)) UInt64))
    (p : (Fin 2 → Result) → NodeProg n (Fin 2 → Result)) (ys : Fin 2 → List UInt64) : Prop :=
  ∀ rs xs, Gathered m xs rs → (∀ c, (xs c).length + (ys c).length ≤ m c) →
    ∃ rs', Follows 0 σ (p rs) rs' ∧ Gathered m (fun c => xs c ++ ys c) rs'

variable {m : Fin 2 → ℕ} {σ τ : List (Msg (Fin (n + 1)) UInt64)}
  {p q : (Fin 2 → Result) → NodeProg n (Fin 2 → Result)} {ys zs : Fin 2 → List UInt64}

theorem Adds.bind (hp : Adds m σ p ys) (hq : Adds m τ q zs) :
    Adds m (σ ++ τ) (fun rs => p rs >>= q) fun c => ys c ++ zs c := by
  intro rs xs h hm
  simp only [List.length_append] at hm
  obtain ⟨rs', hf, h'⟩ := hp rs xs h fun c => by have := hm c; omega
  obtain ⟨rs'', hf', h''⟩ := hq rs' _ h' fun c => by
    have := hm c
    rw [List.length_append]
    omega
  exact ⟨rs'', hf.bind hf', by simpa using h''⟩

theorem Adds.foldlM {α : Type} {step : (Fin 2 → Result) → α → NodeProg n (Fin 2 → Result)}
    {μ : α → List (Msg (Fin (n + 1)) UInt64)} {ys : α → Fin 2 → List UInt64} (l : List α)
    (h : ∀ a ∈ l, Adds m (μ a) (fun rs => step rs a) (ys a)) :
    Adds m (l.flatMap μ) (fun rs => l.foldlM step rs) fun c => l.flatMap fun a => ys a c := by
  induction l with
  | nil =>
    intro rs xs hg _
    exact ⟨rs, rfl, by simpa using hg⟩
  | cons a l ih =>
    simp only [List.flatMap_cons, List.foldlM_cons]
    exact (h a (by simp)).bind (ih fun b hb => h b (by simp [hb]))

theorem adds_store {c : Fin 2} {f : Result → Option Result} {vs : List UInt64}
    (hf : ∀ {r xs}, r.Holds (m c) xs → xs.length + vs.length ≤ m c →
      ∃ r', f r = some r' ∧ r'.Holds (m c) (xs ++ vs)) :
    Adds (n := n) m [] (fun rs => store rs c (f (rs c))) (only c vs) := by
  intro rs xs h hm
  obtain ⟨r', hr', h'⟩ := hf (h c) (by simpa [only] using hm c)
  refine ⟨Function.update rs c r', by simp only [hr']; rfl, fun c' => ?_⟩
  by_cases hc : c' = c
  · subst hc
    simpa [only] using h'
  · simpa [only, hc] using h c'

theorem adds_push (c : Fin 2) (v : UInt64) :
    Adds (n := n) m [] (fun rs => store rs c ((rs c).push v)) (only c [v]) :=
  adds_store fun h hm => h.push (Nat.lt_of_succ_le hm) v

/-- Node 0 receives the values `vs`, whose number it knows. -/
theorem adds_receiveInto {α : Type} {i : Fin (n + 1)} (hi : i ≠ 0) (c : Fin 2) {l : List α}
    {vs : List UInt64} (hl : l.length = vs.length) :
    Adds m (msgs i vs) (receiveInto i c l) (only c vs) := by
  induction vs generalizing l with
  | nil =>
    obtain rfl := List.length_eq_zero_iff.1 hl
    intro rs xs h _
    exact ⟨rs, rfl, by simpa [only] using h⟩
  | cons v vs ih =>
    cases l with
    | nil => cases hl
    | cons a l =>
      have hrest := (adds_push c v).bind (ih (l := l) (by simpa using hl))
      intro rs xs h hm
      have hsplit : ∀ c', only c (v :: vs) c' = only c [v] c' ++ only c vs c' := fun c' => by
        unfold only
        split_ifs <;> rfl
      simp only [hsplit] at hm ⊢
      obtain ⟨rs', hf, h'⟩ := hrest rs xs h hm
      exact ⟨rs', follows_dst hi hf, h'⟩

/-- Node 0 receives the number of the values and then the values. -/
theorem adds_samples {i : Fin (n + 1)} (hi : i ≠ 0) (c : Fin 2) {k : UInt64} {vs : List UInt64}
    (hk : k.toUInt32.toNat = vs.length) :
    Adds m (msgs i (k :: vs)) (fun rs => do
      let samples ← .get i
      receiveInto i c (List.range samples.toUInt32.toNat) rs) (only c vs) := by
  intro rs xs h hm
  obtain ⟨rs', hf, h'⟩ :=
    adds_receiveInto hi c (l := List.range k.toUInt32.toNat) (by simpa using hk) rs xs h hm
  exact ⟨rs', follows_dst hi hf, h'⟩

theorem foldlM_store {α : Type} (c : Fin 2) (f : Result → α → Option Result) (l : List α)
    (rs : Fin 2 → Result) :
    l.foldlM (fun rs a => store (n := n) rs c (f (rs c) a)) rs =
      store rs c (l.foldlM f (rs c)) := by
  induction l generalizing rs with
  | nil => exact congrArg Prog.ret (Function.update_eq_self c rs).symm
  | cons a l ih =>
    rw [List.foldlM_cons, List.foldlM_cons]
    cases h : f (rs c) a with
    | none => rfl
    | some r =>
      change l.foldlM _ (Function.update rs c r) = store rs c (l.foldlM f r)
      rw [ih, Function.update_self]
      cases l.foldlM f r with
      | none => rfl
      | some r' => exact congrArg Prog.ret (Function.update_idem r r' rs)

/-- Node 0 starts every class anew with its own values. -/
theorem gathered_own {α : Type} {f : Fin 2 → Result → α → Option Result} {l : List α}
    {new : Result} {ys : Fin 2 → List UInt64} (rs : Fin 2 → Result)
    (hf : ∀ c, ∃ r, l.foldlM (f c) new = some r ∧ r.Holds (m c) (ys c)) :
    ∃ rs', (List.finRange 2).foldlM (fun rs c =>
        l.foldlM (fun rs a => store (n := n) rs c (f c (rs c) a)) (Function.update rs c new)) rs =
      .ret rs' ∧ Gathered m ys rs' := by
  choose r hr h using hf
  refine ⟨r, ?_, h⟩
  have hstep : ∀ (rs : Fin 2 → Result) c,
      l.foldlM (fun rs a => store (n := n) rs c (f c (rs c) a)) (Function.update rs c new) =
        .ret (Function.update rs c (r c)) := by
    intro rs c
    rw [foldlM_store, Function.update_self, hr c]
    exact congrArg Prog.ret (Function.update_idem _ _ rs)
  have hlist : List.finRange 2 = [0, 1] := rfl
  simp only [hstep, hlist, List.foldlM_cons, List.foldlM_nil, Prog.ret_bind, Prog.pure_eq,
    Prog.ret.injEq]
  funext c
  fin_cases c <;> simp

theorem mem_nodesIn {lo hi : ℕ} {i : Fin (n + 1)} :
    i ∈ nodesIn n lo hi ↔ lo ≤ i.val ∧ i.val < hi := by
  simp [nodesIn]

theorem ne_zero_of_mem_nodesIn {lo hi : ℕ} {i : Fin (n + 1)} (hlo : 1 ≤ lo)
    (h : i ∈ nodesIn n lo hi) : i ≠ 0 := by
  have := mem_nodesIn.1 h
  rw [← Fin.val_ne_zero_iff]
  omega

theorem mem_peers {i : Fin (n + 1)} : i ∈ nodesIn n 1 (n + 1) ↔ i ≠ 0 := by
  rw [mem_nodesIn, ← Fin.val_ne_zero_iff]
  omega

theorem nodup_nodesIn (lo hi : ℕ) : (nodesIn n lo hi).Nodup :=
  (List.nodup_finRange _).filter _

theorem length_nodesIn_le (lo hi : ℕ) : (nodesIn n lo hi).length ≤ hi - lo := by
  have hnodup : ((nodesIn n lo hi).map Fin.val).Nodup :=
    (nodup_nodesIn lo hi).map Fin.val_injective
  have hsub : ((nodesIn n lo hi).map Fin.val).toFinset ⊆ Finset.Ico lo hi := by
    intro k hk
    obtain ⟨i, hi, rfl⟩ := List.mem_map.1 (List.mem_toFinset.1 hk)
    exact Finset.mem_Ico.2 (mem_nodesIn.1 hi)
  have hcard := Finset.card_le_card hsub
  rwa [List.toFinset_card_of_nodup hnodup, List.length_map, Nat.card_Ico] at hcard

theorem nodesIn_zero {hi : ℕ} (h : 1 ≤ hi) : nodesIn n 0 hi = 0 :: nodesIn n 1 hi := by
  have hsucc : ∀ lo, lo ≤ 1 → ((List.finRange n).map Fin.succ).filter
      (fun i => decide (lo ≤ i.val ∧ i.val < hi)) =
      ((List.finRange n).map Fin.succ).filter fun i => decide (i.val < hi) := by
    intro lo hlo
    refine List.filter_congr fun i hi => ?_
    obtain ⟨j, -, rfl⟩ := List.mem_map.1 hi
    have : lo ≤ j.val + 1 := by omega
    simp [this]
  unfold nodesIn
  rw [List.finRange_succ, List.filter_cons_of_pos (by simp; omega),
    List.filter_cons_of_neg (by simp), hsucc 0 (by omega), hsucc 1 le_rfl]

theorem nodesIn_all (n : ℕ) : nodesIn n 0 (n + 1) = List.finRange (n + 1) :=
  List.filter_eq_self.2 fun i _ => by simpa using Nat.le_of_lt_succ i.isLt

theorem finRange_eq_cons (n : ℕ) : List.finRange (n + 1) = 0 :: nodesIn n 1 (n + 1) := by
  rw [← nodesIn_all, nodesIn_zero (by omega)]

theorem flatMap_only (vs : Fin 2 → List UInt64) (c : Fin 2) :
    (List.finRange 2).flatMap (fun j => only j (vs j) c) = vs c := by
  have hlist : List.finRange 2 = [0, 1] := rfl
  fin_cases c <;> simp [hlist, only]

/-- The counts of the threads of a node, of one class. -/
def countsOf (counts : Fin T → UInt64) : List UInt64 := (List.finRange T).map counts

/-- The samples that the threads of a node have kept, of one class. -/
def samplesOf (latencies : Fin T → Result) : List UInt64 :=
  (List.finRange T).flatMap fun k => (latencies k).retained

/-- The counts that a node sends to node 0. -/
def sentCounts (c : BenchmarkConfig) (i : Fin (n + 1)) (data : Record c.threads) : List UInt64 :=
  match c.distribution with
  | .uniform => (List.finRange 2).flatMap fun j => countsOf (data.counts j)
  | .selective => countsOf (data.counts (if i.val < c.lockHosts.toNat then 0 else 1))
  | .invalid => []

/-- The samples that a node sends to node 0, with their numbers. -/
def sentSamples (latencies : Fin 2 → Fin T → Result) : List UInt64 :=
  (List.finRange 2).flatMap fun j => (List.finRange T).flatMap fun k =>
    (latencies j k).size.toUInt64 :: (latencies j k).retained

@[simp] theorem length_countsOf (counts : Fin T → UInt64) : (countsOf counts).length = T := by
  simp [countsOf]

theorem length_flatMap_countsOf {α : Type} (l : List α) (counts : α → Fin T → UInt64) :
    (l.flatMap fun i => countsOf (counts i)).length = l.length * T := by
  simp [List.length_flatMap]

theorem flatMap_nil {α β : Type} (l : List α) : l.flatMap (fun _ => ([] : List β)) = [] :=
  List.flatMap_eq_nil_iff.2 fun _ _ => rfl

theorem adds_counts {i : Fin (n + 1)} (hi : i ≠ 0) (c : Fin 2) (counts : Fin T → UInt64) :
    Adds m (msgs i (countsOf counts)) (receiveInto i c (List.finRange T))
      (only c (countsOf counts)) :=
  adds_receiveInto hi c (by simp)

theorem msgs_flatMap {α : Type} (i : Fin (n + 1)) (l : List α) (f : α → List UInt64) :
    msgs i (l.flatMap f) = l.flatMap fun a => msgs i (f a) :=
  List.map_flatMap

/-- Node 0 receives the samples of another node. -/
theorem adds_sentSamples {i : Fin (n + 1)} (hi : i ≠ 0) (latencies : Fin 2 → Fin T → Result) :
    Adds m (msgs i (sentSamples latencies)) (fun rs =>
      (List.finRange 2).foldlM (fun rs j =>
        (List.finRange T).foldlM (fun rs _ => do
          let samples ← .get i
          receiveInto i j (List.range samples.toUInt32.toNat) rs) rs) rs)
      fun c => samplesOf (latencies c) := by
  have hone : ∀ (j : Fin 2) (k : Fin T), Adds m
      (msgs i ((latencies j k).size.toUInt64 :: (latencies j k).retained)) (fun rs => do
        let samples ← .get i
        receiveInto i j (List.range samples.toUInt32.toNat) rs)
      (only j (latencies j k).retained) := fun j k =>
    adds_samples hi j (by rw [Result.length_retained, UInt32.toUInt32_toUInt64])
  have hthreads := fun j : Fin 2 => Adds.foldlM (List.finRange T) fun k _ => hone j k
  have hall := Adds.foldlM (List.finRange 2) fun j _ => hthreads j
  have hys : (fun c => (List.finRange 2).flatMap fun j => (List.finRange T).flatMap fun k =>
      only j (latencies j k).retained c) = fun c => samplesOf (latencies c) := by
    funext c
    rw [← flatMap_only (fun j => samplesOf (latencies j)) c]
    congr 1
    funext j
    unfold only samplesOf
    split_ifs <;> simp
  rw [hys] at hall
  simpa only [sentSamples, msgs_flatMap] using hall

/-- The latency part on node 0, when the capacity is enough for all samples. -/
theorem follows_tallyLatency {total sampleNumber : UInt32}
    (latencies : Fin (n + 1) → Fin 2 → Fin T → Result) (rs : Fin 2 → Result)
    (hm : ∀ c, ((List.finRange (n + 1)).flatMap fun i => samplesOf (latencies i c)).length ≤
      (total * sampleNumber).toNat) :
    ∃ rs', Follows 0 ((nodesIn n 1 (n + 1)).flatMap fun i => msgs i (sentSamples (latencies i)))
        (tallyLatency total sampleNumber (latencies 0) rs) rs' ∧
      Gathered (fun _ => (total * sampleNumber).toNat)
        (fun c => (List.finRange (n + 1)).flatMap fun i => samplesOf (latencies i c)) rs' := by
  rw [finRange_eq_cons n] at hm ⊢
  simp only [List.flatMap_cons, List.length_append] at hm ⊢
  have hfold : ∀ c, ∃ r, (List.finRange T).foldlM (fun r k => r.append (latencies 0 c k))
      (Result.new 0 (total * sampleNumber)) = some r ∧
      r.Holds (total * sampleNumber).toNat (samplesOf (latencies 0 c)) := by
    intro c
    have hle := hm c
    have hown : ([] : List UInt64).length + (samplesOf (latencies 0 c)).length ≤
        (total * sampleNumber).toNat := by
      rw [List.length_nil]
      omega
    exact (Result.holds_new 0 (total * sampleNumber)).foldlM
      (fun k h hm => h.append (latencies 0 c k) hm) (List.finRange T) hown
  obtain ⟨rs₁, hown, h₁⟩ :=
    gathered_own (n := n) (m := fun _ => (total * sampleNumber).toNat) rs hfold
  have hpeers := Adds.foldlM (m := fun _ => (total * sampleNumber).toNat) (nodesIn n 1 (n + 1))
    fun i hi => adds_sentSamples (mem_peers.1 hi) (latencies i)
  obtain ⟨rs₂, hf, h₂⟩ := hpeers rs₁ _ h₁ hm
  refine ⟨rs₂, ?_, h₂⟩
  unfold tallyLatency
  rw [hown, Prog.ret_bind]
  exact hf

/-- The throughput part on node 0, uniform distribution. -/
theorem follows_tallyUniform {total : UInt32} (counts : Fin (n + 1) → Fin 2 → Fin T → UInt64)
    (rs : Fin 2 → Result) (hm : (n + 1) * T ≤ total.toNat) :
    ∃ rs', Follows 0 ((nodesIn n 1 (n + 1)).flatMap fun i =>
          msgs i ((List.finRange 2).flatMap fun j => countsOf (counts i j)))
        (tallyUniform total (counts 0) rs) rs' ∧
      Gathered (fun _ => total.toNat)
        (fun c => (List.finRange (n + 1)).flatMap fun i => countsOf (counts i c)) rs' := by
  rw [finRange_eq_cons n]
  obtain ⟨rs₁, hown, h₁⟩ := gathered_own (n := n) (m := fun _ => total.toNat) rs
    fun c => (Result.holds_new 0 total).foldlM_push (counts 0 c) (List.finRange T)
      (by rw [List.length_nil, List.length_finRange, Nat.add_mul] at *; omega)
  simp only [List.nil_append] at h₁
  have hclasses := fun (i : Fin (n + 1)) (hi : i ∈ nodesIn n 1 (n + 1)) =>
    Adds.foldlM (m := fun _ => total.toNat) (List.finRange 2)
      fun j _ => adds_counts (mem_peers.1 hi) j (counts i j)
  simp only [flatMap_only] at hclasses
  have hpeers := Adds.foldlM (nodesIn n 1 (n + 1)) hclasses
  obtain ⟨rs₂, hf, h₂⟩ := hpeers rs₁ _ h₁ fun c => by
    have hlen := length_nodesIn_le (n := n) 1 (n + 1)
    have := Nat.mul_le_mul_right T hlen
    simp only [List.length_map, List.length_finRange, List.length_flatMap, length_countsOf,
      List.map_const', List.sum_replicate, smul_eq_mul]
    rw [Nat.add_mul] at hm
    simp only [Nat.add_sub_cancel] at this
    omega
  refine ⟨rs₂, ?_, h₂⟩
  unfold tallyUniform
  rw [hown, Prog.ret_bind]
  simpa only [msgs_flatMap] using hf

/-- The throughput part on node 0, selective distribution. -/
theorem follows_tallySelective {total nThreads lockHosts : UInt32}
    (counts : Fin (n + 1) → Fin 2 → Fin T → UInt64) (rs : Fin 2 → Result)
    (hlo : 1 ≤ lockHosts.toNat)
    (hm : lockHosts.toNat * T ≤ (lockHosts * nThreads).toNat)
    (hm' : (n + 1 - lockHosts.toNat) * T ≤ (total - lockHosts * nThreads).toNat) :
    ∃ rs' m, Follows 0 ((nodesIn n 1 lockHosts.toNat ++ nodesIn n lockHosts.toNat (n + 1)).flatMap
          fun i => msgs i (countsOf (counts i (if i.val < lockHosts.toNat then 0 else 1))))
        (tallySelective total nThreads lockHosts (counts 0) rs) rs' ∧
      Gathered m (fun c => if c = 0 then
          (nodesIn n 0 lockHosts.toNat).flatMap fun i => countsOf (counts i c)
        else (nodesIn n lockHosts.toNat (n + 1)).flatMap fun i => countsOf (counts i c)) rs' := by
  let m : Fin 2 → ℕ := fun c =>
    if c = 0 then (lockHosts * nThreads).toNat else (total - lockHosts * nThreads).toNat
  let rs₀ : Fin 2 → Result := Function.update (Function.update rs 0 (.new 0 (lockHosts * nThreads)))
    1 (.new 0 (total - lockHosts * nThreads))
  have h₀ : Gathered m (fun _ => []) rs₀ := by
    intro c
    fin_cases c
    · exact Result.holds_new 0 _
    · exact Result.holds_new 0 _
  have hown := Adds.foldlM (n := n) (m := m) (List.finRange T) fun j _ => adds_push 0 (counts 0 0 j)
  have hhosts := Adds.foldlM (m := m) (nodesIn n 1 lockHosts.toNat) fun i hi =>
    adds_counts (ne_zero_of_mem_nodesIn le_rfl hi) 0 (counts i 0)
  have hothers := Adds.foldlM (m := m) (nodesIn n lockHosts.toNat (n + 1)) fun i hi =>
    adds_counts (ne_zero_of_mem_nodesIn hlo hi) 1 (counts i 1)
  -- what is collected for each class
  have hys : (fun c : Fin 2 => if c = 0 then
        (nodesIn n 0 lockHosts.toNat).flatMap fun i => countsOf (counts i c)
      else (nodesIn n lockHosts.toNat (n + 1)).flatMap fun i => countsOf (counts i c)) =
      fun c => ((List.finRange T).flatMap fun j => only 0 [counts 0 0 j] c) ++
        (((nodesIn n 1 lockHosts.toNat).flatMap fun i => only 0 (countsOf (counts i 0)) c) ++
          (nodesIn n lockHosts.toNat (n + 1)).flatMap fun i => only 1 (countsOf (counts i 1)) c) := by
    funext c
    rw [nodesIn_zero hlo]
    fin_cases c
    · simp [only, countsOf, List.map_eq_flatMap]
    · simp [only, flatMap_nil]
  have hall := hown.bind (hhosts.bind hothers)
  rw [← hys] at hall
  obtain ⟨rs', hf, h'⟩ := hall rs₀ _ h₀ fun c => by
    have hlen := Nat.mul_le_mul_right T (length_nodesIn_le (n := n) 0 lockHosts.toNat)
    have hlen' := Nat.mul_le_mul_right T (length_nodesIn_le (n := n) lockHosts.toNat (n + 1))
    fin_cases c
    · simpa [m, length_flatMap_countsOf] using hlen.trans hm
    · simpa [m, length_flatMap_countsOf] using hlen'.trans hm'
  refine ⟨rs', m, ?_, h'⟩
  rw [flatMap_nil, List.nil_append] at hf
  have hσ : (nodesIn n 1 lockHosts.toNat ++ nodesIn n lockHosts.toNat (n + 1)).flatMap
      (fun i => msgs i (countsOf (counts i (if i.val < lockHosts.toNat then 0 else 1)))) =
      ((nodesIn n 1 lockHosts.toNat).flatMap fun i => msgs i (countsOf (counts i 0))) ++
        (nodesIn n lockHosts.toNat (n + 1)).flatMap fun i => msgs i (countsOf (counts i 1)) := by
    rw [List.flatMap_append]
    congr 1
    · refine List.flatMap_congr fun i hi => ?_
      rw [if_pos (mem_nodesIn.1 hi).2]
    · refine List.flatMap_congr fun i hi => ?_
      rw [if_neg (Nat.not_lt.2 (mem_nodesIn.1 hi).1)]
  rw [hσ]
  exact hf

/-- The distribution is one of the two, and some nodes have locks. -/
def BenchmarkConfig.Valid (c : BenchmarkConfig) (n : ℕ) : Prop :=
  c.distribution = .uniform ∨
    c.distribution = .selective ∧ 1 ≤ c.lockHosts.toNat ∧ c.lockHosts.toNat ≤ n + 1

/-- The nodes whose counts of class `j` are collected. -/
def reporters (c : BenchmarkConfig) (n : ℕ) (j : Fin 2) : List (Fin (n + 1)) :=
  match c.distribution with
  | .uniform => List.finRange (n + 1)
  | .selective =>
    if j = 0 then nodesIn n 0 c.lockHosts.toNat else nodesIn n c.lockHosts.toNat (n + 1)
  | .invalid => []

theorem toNat_ofNat_mul {k : ℕ} {t : UInt32} (h : k * t.toNat < 2 ^ 32) :
    (UInt32.ofNat k * t).toNat = k * t.toNat := by
  rw [UInt32.toNat_mul, UInt32.toNat_ofNat', Nat.mod_mul_mod]
  exact Nat.mod_eq_of_lt h

/-- The number of threads whose counts of one class are collected has 32 bits. -/
def BenchmarkConfig.ThreadsFit (c : BenchmarkConfig) (n : ℕ) : Prop :=
  match c.distribution with
  | .uniform => (n + 1) * c.threads < 2 ^ 32
  | .selective => c.lockHosts.toNat * c.threads < 2 ^ 32 ∧
      (n + 1 - c.lockHosts.toNat) * c.threads < 2 ^ 32
  | .invalid => True

theorem BenchmarkConfig.Valid.threadsFit {c : BenchmarkConfig} (hc : c.Valid n)
    (h : (n + 1) * c.threads < 2 ^ 32) : c.ThreadsFit n := by
  unfold BenchmarkConfig.ThreadsFit
  rcases hc with hc | ⟨hc, -, hhi⟩
  · simpa only [hc] using h
  · simp only [hc]
    exact ⟨(Nat.mul_le_mul_right _ hhi).trans_lt h,
      (Nat.mul_le_mul_right _ (Nat.sub_le _ _)).trans_lt h⟩

/-- `total_threads - local_threads`, though both may have wrapped around. -/
theorem remoteThreads_eq {k : ℕ} {hosts t : UInt32} (h : hosts.toNat ≤ k) :
    UInt32.ofNat k * t - hosts * t = UInt32.ofNat (k - hosts.toNat) * t := by
  have hk : UInt32.ofNat k = hosts + UInt32.ofNat (k - hosts.toNat) := by
    rw [← UInt32.toNat_inj, UInt32.toNat_add, UInt32.toNat_ofNat', UInt32.toNat_ofNat', Nat.add_mod_mod,
      Nat.add_sub_cancel' h]
  rw [hk]
  grind

/-- The throughput part on node 0. -/
theorem follows_tallyThroughput {c : BenchmarkConfig} (data : Fin (n + 1) → Record c.threads)
    (rs : Fin 2 → Result) (hc : c.Valid n) (hm : c.ThreadsFit n) :
    ∃ rs' m, ∃ l : List (Fin (n + 1)), l.Nodup ∧ (∀ i, i ∈ l ↔ i ≠ 0) ∧
      Follows 0 (l.flatMap fun i => msgs i (sentCounts c i (data i)))
        (tallyThroughput c (UInt32.ofNat (n + 1) * c.threadsPerNode) (data 0).counts rs) rs' ∧
      Gathered m (fun j => (reporters c n j).flatMap fun i => countsOf ((data i).counts j)) rs' := by
  unfold BenchmarkConfig.ThreadsFit at hm
  unfold tallyThroughput sentCounts reporters
  rcases hc with hc | ⟨hc, hlo, hhi⟩
  · simp only [hc] at hm ⊢
    obtain ⟨rs', hf, h⟩ := follows_tallyUniform (fun i => (data i).counts) rs (toNat_ofNat_mul hm).ge
    exact ⟨rs', _, _, nodup_nodesIn 1 (n + 1), fun i => mem_peers, hf, h⟩
  · simp only [hc] at hm ⊢
    have hlocal : (c.lockHosts * c.threadsPerNode).toNat = c.lockHosts.toNat * c.threads := by
      rw [UInt32.toNat_mul]
      exact Nat.mod_eq_of_lt hm.1
    have hremote : (n + 1 - c.lockHosts.toNat) * c.threads ≤ (UInt32.ofNat (n + 1) *
        c.threadsPerNode - c.lockHosts * c.threadsPerNode).toNat := by
      rw [remoteThreads_eq hhi, toNat_ofNat_mul hm.2]
      rfl
    obtain ⟨rs', m, hf, h⟩ :=
      follows_tallySelective (fun i => (data i).counts) rs hlo hlocal.ge hremote
    refine ⟨rs', m, _, ?_, fun i => ?_, hf, ?_⟩
    · refine (nodup_nodesIn _ _).append (nodup_nodesIn _ _) fun i hi hi' => ?_
      have := mem_nodesIn.1 hi
      have := mem_nodesIn.1 hi'
      omega
    · rw [List.mem_append, mem_nodesIn, mem_nodesIn, ← Fin.val_ne_zero_iff]
      omega
    · convert h using 2 with j
      split_ifs <;> rfl

/-- The other nodes send their values and nothing else. -/
theorem report_eq {c : BenchmarkConfig} (hc : c.distribution ≠ .invalid) (i : Fin (n + 1))
    (data : Record c.threads) :
    report c i data = emit 0 (0 :: (sentCounts c i data ++ sentSamples data.latencies)) := by
  have hsamples : ((List.finRange 2).forM fun k => (List.finRange c.threads).forM fun i => do
      Prog.put (0 : Fin (n + 1)) (data.latencies k i).size.toUInt64
      (List.range (data.latencies k i).size.toNat).forM fun j =>
        .put 0 ((data.latencies k i).get (UInt32.ofNat j))) = emit 0 (sentSamples data.latencies) := by
    simp only [forM_put, Result.map_get_range, Prog.put_bind, ← emit_cons, forM_emit]
    rfl
  have hcounts : ∀ k, sendCounts (n := n) (data.counts k) = emit 0 (countsOf (data.counts k)) :=
    fun k => forM_put 0 _ _
  rw [emit_cons, ← emit_bind_emit, ← hsamples]
  unfold report sentCounts
  cases hd : c.distribution with
  | uniform =>
    simp only [hcounts, forM_emit]
    rfl
  | selective =>
    simp only [hcounts]
    split_ifs <;> rfl
  | invalid => exact absurd hd hc

theorem length_flatMap_le {α β : Type} {f : α → List β} {b : ℕ} (l : List α)
    (h : ∀ a, (f a).length ≤ b) : (l.flatMap f).length ≤ l.length * b := by
  rw [List.length_flatMap]
  have := List.sum_le_card_nsmul (l.map fun a => (f a).length) b (by simpa using fun a _ => h a)
  simpa using this

/-- The system of all nodes in `TallyResults`. -/
def tallySystem (c : BenchmarkConfig) (data : Fin (n + 1) → Record c.threads)
    (t : Fin (n + 1) → Tally) :
    Lts (Fin (n + 1) → Node (Fin (n + 1)) UInt64 Tally) (Msg (Fin (n + 1)) UInt64) :=
  system fun x => tallyResults c x (data x) (t x)

theorem dst_of_mem_msgs {l : List (Fin (n + 1))} {f : Fin (n + 1) → List UInt64}
    {μ : Msg (Fin (n + 1)) UInt64} (h : μ ∈ l.flatMap fun i => msgs i (f i)) : μ.dst = 0 := by
  obtain ⟨i, -, hμ⟩ := List.mem_flatMap.1 h
  obtain ⟨v, -, rfl⟩ := List.mem_map.1 hμ
  rfl

/-- A schedule for the gather, and what node 0 has at its end. -/
theorem exists_schedule {c : BenchmarkConfig} (data : Fin (n + 1) → Record c.threads)
    (t : Fin (n + 1) → Tally) (hc : c.Valid n)
    (hlat : ∀ i j k, ((data i).latencies j k).maxSize = c.sampleNumber)
    (hthreads : c.ThreadsFit n)
    (hsamples : (n + 1) * c.threads * c.sampleNumber.toNat < 2 ^ 32) :
    ∃ σ m m', ∃ res : Fin (n + 1) → Tally, (∀ x, Follows x σ (tallyResults c x (data x) (t x)) (res x)) ∧
      (∀ μ ∈ σ, μ.dst = 0) ∧
      Gathered m (fun j => (reporters c n j).flatMap fun i => countsOf ((data i).counts j))
        (res 0).throughput ∧
      Gathered m' (fun j => (List.finRange (n + 1)).flatMap fun i =>
        samplesOf ((data i).latencies j)) (res 0).latency := by
  obtain ⟨thr, m, l, hl, hmem, hfthr, hthr⟩ :=
    follows_tallyThroughput data (t 0).throughput hc hthreads
  have htotal : (UInt32.ofNat (n + 1) * c.threadsPerNode * c.sampleNumber).toNat =
      (n + 1) * c.threads * c.sampleNumber.toNat := by
    rw [UInt32.toNat_mul, UInt32.toNat_mul, UInt32.toNat_ofNat', Nat.mod_mul_mod, Nat.mul_assoc,
      Nat.mod_mul_mod, ← Nat.mul_assoc]
    exact Nat.mod_eq_of_lt hsamples
  have hcap : ∀ j, ((List.finRange (n + 1)).flatMap fun i =>
      samplesOf ((data i).latencies j)).length ≤
        (UInt32.ofNat (n + 1) * c.threadsPerNode * c.sampleNumber).toNat := by
    intro j
    have hone : ∀ i k, ((data i).latencies j k).retained.length ≤ c.sampleNumber.toNat := by
      intro i k
      rw [Result.length_retained, ← hlat i j k]
      exact UInt32.le_iff_toNat_le.1 (Result.size_le _)
    have hnode := fun i => length_flatMap_le (List.finRange c.threads) (hone i)
    have hall := length_flatMap_le (List.finRange (n + 1)) hnode
    rwa [List.length_finRange, List.length_finRange, ← Nat.mul_assoc, ← htotal] at hall
  obtain ⟨lat, hflat, hlatg⟩ :=
    follows_tallyLatency (fun i => (data i).latencies) (t 0).latency hcap
  have hsync : Follows 0 ((nodesIn n 1 (n + 1)).flatMap fun i => msgs i [0])
      ((nodesIn n 1 (n + 1)).forM fun i => do let _ ← Prog.get i : NodeProg n Unit) () :=
    follows_forM fun i hi => follows_dst (mem_peers.1 hi) rfl
  have hc' : c.distribution ≠ .invalid := by
    rcases hc with hc | ⟨hc, -⟩ <;> simp [hc]
  have hdst : ∀ μ ∈ ((nodesIn n 1 (n + 1)).flatMap fun i => msgs i [0]) ++
      ((l.flatMap fun i => msgs i (sentCounts c i (data i))) ++
        (nodesIn n 1 (n + 1)).flatMap fun i => msgs i (sentSamples (data i).latencies)),
      μ.dst = 0 := by
    intro μ hμ
    simp only [List.mem_append] at hμ
    rcases hμ with hμ | hμ | hμ <;> exact dst_of_mem_msgs hμ
  refine ⟨_, m, _, fun x => if x = 0 then ⟨thr, lat⟩ else t x, fun x => ?_, hdst, hthr, hlatg⟩
  simp only [tallyResults]
  split_ifs with hx
  · subst hx
    have hlast : Follows 0 [] (.ret ⟨thr, lat⟩ : NodeProg n Tally) ⟨thr, lat⟩ := rfl
    have hgather := hsync.bind (f := fun _ => do
      let throughput ← tallyThroughput c (UInt32.ofNat (n + 1) * c.threadsPerNode)
        (data 0).counts (t 0).throughput
      let latency ← tallyLatency (UInt32.ofNat (n + 1) * c.threadsPerNode) c.sampleNumber
        (data 0).latencies (t 0).latency
      pure (⟨throughput, latency⟩ : Tally)) (hfthr.bind (hflat.bind hlast))
    rwa [List.append_nil] at hgather
  · rw [report_eq hc']
    refine follows_emit (Ne.symm hx) (fun μ hμ => ?_) ?_ (t x)
    · rw [hdst μ hμ]
      exact Ne.symm hx
    · have hpeer := mem_peers.2 hx
      simp only [List.filter_append, msgs]
      rw [filter_flatMap_src _ (nodup_nodesIn _ _) hpeer,
        filter_flatMap_src _ hl ((hmem x).2 hx), filter_flatMap_src _ (nodup_nodesIn _ _) hpeer]
      simp

/-- The counts of class `j` of a node count in the throughput. -/
def counted (c : BenchmarkConfig) (i : Fin (n + 1)) (j : Fin 2) : Bool :=
  match c.distribution with
  | .uniform => true
  | .selective => decide (i.val < c.lockHosts.toNat) == decide (j = 0)
  | .invalid => false

/-- The class-`j` counts of all threads whose counts are collected. -/
def throughputCounts (c : BenchmarkConfig) (data : Fin (n + 1) → Record c.threads) (j : Fin 2) :
    Multiset UInt64 :=
  ∑ i with counted c i j, ∑ k, {(data i).counts j k}

/-- The class-`j` samples that the threads of all nodes have kept. -/
def latencySamples (data : Fin (n + 1) → Record T) (j : Fin 2) : Multiset UInt64 :=
  ∑ i, ∑ k, (((data i).latencies j k).retained : Multiset UInt64)

theorem coe_flatMap_finRange {α : Type} {N : ℕ} (f : Fin N → List α) :
    (((List.finRange N).flatMap f : List α) : Multiset α) = ∑ i, (f i : Multiset α) := by
  rw [Fin.sum_univ_def]
  induction List.finRange N with
  | nil => rfl
  | cons a l ih => rw [List.flatMap_cons, ← Multiset.coe_add, ih, List.map_cons, List.sum_cons]

theorem coe_samples (data : Fin (n + 1) → Record T) (j : Fin 2) :
    (((List.finRange (n + 1)).flatMap fun i => samplesOf ((data i).latencies j) : List UInt64) :
      Multiset UInt64) = latencySamples data j := by
  rw [coe_flatMap_finRange, latencySamples]
  exact Finset.sum_congr rfl fun i _ => coe_flatMap_finRange _

theorem coe_countsOf (counts : Fin T → UInt64) :
    (countsOf counts : Multiset UInt64) = ∑ k, {counts k} := by
  rw [countsOf, List.map_eq_flatMap, coe_flatMap_finRange]
  rfl

theorem reporters_eq (c : BenchmarkConfig) (n : ℕ) (j : Fin 2) :
    reporters c n j = (List.finRange (n + 1)).filter fun i => counted c i j := by
  unfold reporters counted
  cases c.distribution with
  | uniform => simp
  | selective =>
    by_cases hj : j = 0
    · simp [hj, nodesIn]
    · simp only [hj, if_false, nodesIn]
      refine List.filter_congr fun i _ => ?_
      have := i.isLt
      rw [Bool.eq_iff_iff]
      simp
      omega
  | invalid => simp

theorem coe_counts (c : BenchmarkConfig) (data : Fin (n + 1) → Record c.threads) (j : Fin 2) :
    (((reporters c n j).flatMap fun i => countsOf ((data i).counts j) : List UInt64) :
      Multiset UInt64) = throughputCounts c data j := by
  have hfilter : ∀ l : List (Fin (n + 1)),
      (l.filter fun i => counted c i j).flatMap (fun i => countsOf ((data i).counts j)) =
        l.flatMap fun i => if counted c i j then countsOf ((data i).counts j) else [] := by
    intro l
    induction l with
    | nil => rfl
    | cons i l ih =>
      rw [List.flatMap_cons, List.filter_cons, ← ih]
      split_ifs <;> simp
  rw [reporters_eq, hfilter, coe_flatMap_finRange, throughputCounts, Finset.sum_filter]
  refine Finset.sum_congr rfl fun i _ => ?_
  split_ifs
  · exact coe_countsOf _
  · rfl

/-- The gather of `TallyResults` ends in every interleaving, leaves nothing unsent and gives node 0
the counts and the samples of all threads, without a replacement; the figures that `PrintResults`
reads are those of the counts and the samples. -/
theorem tally_exact (c : BenchmarkConfig) (data : Fin (n + 1) → Record c.threads)
    (t₀ : Fin (n + 1) → Tally) (hc : c.Valid n)
    (hlat : ∀ i j k, ((data i).latencies j k).maxSize = c.sampleNumber)
    (hthreads : c.ThreadsFit n)
    (hsamples : (n + 1) * c.threads * c.sampleNumber.toNat < 2 ^ 32) :
    (∀ tr s, (tallySystem c data t₀).Run tr s →
      ((∀ x, ∃ t, s x = .run (.ret t)) ∨ ∃ e s', (tallySystem c data t₀).step s e s') ∧
      ∀ t, s 0 = .run (.ret t) →
        (∀ x, ∃ t', (s x).prog = .ret t') ∧
        ∀ j, ((t.latency j).retained : Multiset UInt64) = latencySamples data j ∧
          ((t.throughput j).retained : Multiset UInt64) = throughputCounts c data j ∧
          (t.latency j).replacements = 0 ∧ (t.throughput j).replacements = 0 ∧
          (latencyRow (t.latency j)).Of (latencySamples data j) ∧
          (throughputRow (t.throughput j)).Of (throughputCounts c data j)) ∧
    ∀ f : ℕ → Fin (n + 1) → Node (Fin (n + 1)) UInt64 Tally, (tallySystem c data t₀).init (f 0) →
      ¬ ∀ k, ∃ e, (tallySystem c data t₀).step (f k) e (f (k + 1)) := by
  obtain ⟨σ, m, m', res, hσ, hdst, hthr, hlatg⟩ :=
    exists_schedule data t₀ hc hlat hthreads hsamples
  refine ⟨fun tr s hr => ⟨?_, fun t ht => ⟨fun x => ?_, fun j => ?_⟩⟩, fun f h0 =>
    not_infinite hσ f h0⟩
  · rcases exists_step hσ hr with hret | hstep
    · exact Or.inl fun x => ⟨_, hret x⟩
    · exact Or.inr hstep
  · -- what is left of the schedule concerns node 0, and node 0 has returned
    obtain ⟨σ', hperm, hI⟩ := exists_inv hσ hr
    have hfin := hI.follows 0
    rw [ht] at hfin
    have hnil : σ' = [] := List.eq_nil_iff_forall_not_mem.2 fun μ hμ =>
      (hfin.of_ret.2 μ hμ).2 (hdst μ (hperm.mem_iff.2 (List.mem_append_right tr hμ)))
    have hx := hI.follows x
    rw [hnil] at hx
    exact ⟨_, hx⟩
  · obtain rfl := result_eq hσ hr ht
    have hl := (hlatg j).shows
    have ht := (hthr j).shows
    rw [coe_samples] at hl
    rw [coe_counts] at ht
    exact ⟨hl.retained, ht.retained, (hlatg j).replacements, (hthr j).replacements,
      latencyRow_of hl, throughputRow_of ht⟩

/-- Two nodes with one thread each; every thread has counted seven operations of each class and kept
the latency of one.  The gather comes to its end. -/
theorem tally_exact_duo :
    let c : BenchmarkConfig := ⟨.uniform, 1, 1, 1⟩
    let data : Fin 2 → Record c.threads := fun _ =>
      ⟨fun _ _ => 7, fun _ _ => ⟨⟨0⟩, 1, 7, [40], false, 6, rfl⟩⟩
    let t₀ : Fin 2 → Tally := fun _ => ⟨fun _ => .new 0 0, fun _ => .new 0 0⟩
    c.Valid 1 ∧ ∃ tr s t, (tallySystem c data t₀).Run tr s ∧ s 0 = .run (.ret t) ∧
      (∀ x, ∃ t', (s x).prog = .ret t') ∧ ∀ j,
        ((t.latency j).retained : Multiset UInt64) = {40, 40} ∧
          ((t.throughput j).retained : Multiset UInt64) = {7, 7} := by
  intro c data t₀
  have hc : c.Valid 1 := Or.inl rfl
  have h0 : (tallySystem c data t₀).Run [] fun x => .outside (tallyResults c x (data x) (t₀ x)) :=
    .start fun _ => rfl
  obtain ⟨σ, m, m', res, hσ, -⟩ :=
    exists_schedule data t₀ hc (fun _ _ _ => rfl) (hc.threadsFit (by decide)) (by decide)
  obtain ⟨tr, s, hr, hret⟩ := exists_completion hσ h0
  obtain ⟨hrun, -⟩ := tally_exact c data t₀ hc (fun _ _ _ => rfl) (hc.threadsFit (by decide)) (by decide)
  obtain ⟨hall, hj⟩ := (hrun _ _ hr).2 _ (hret 0)
  exact ⟨hc, _, s, _, hr, hret 0, hall, fun j => ⟨(hj j).1, (hj j).2.1⟩⟩

theorem push_new_zero (v : UInt64) : (Result.new 0 0).push v = none := by
  rfl

/-- A reservoir without room does not survive the first sample. -/
theorem tallyUniform_zero (hT : 0 < T) (counts : Fin 2 → Fin T → UInt64) (rs : Fin 2 → Result) :
    tallyUniform (n := n) 0 counts rs = .abort := by
  obtain ⟨k, rfl⟩ : ∃ k, T = k + 1 := ⟨T - 1, by omega⟩
  have hlist : List.finRange 2 = [0, 1] := rfl
  unfold tallyUniform
  rw [hlist, List.foldlM_cons, List.finRange_succ, List.foldlM_cons, Function.update_self,
    push_new_zero]
  rfl

/-- Node 0 dies after the synchronisation when the number of threads wraps around to zero. -/
theorem gather_overflow {c : BenchmarkConfig} (hc : c.distribution = .uniform)
    (htotal : UInt32.ofNat (n + 1) * c.threadsPerNode = 0) (hT : 0 < c.threads)
    (data : Record c.threads) (t : Tally) : gather c data t = (do
      (nodesIn n 1 (n + 1)).forM fun i => do
        let _ ← Prog.get i
      .abort) := by
  have hthr : tallyThroughput (n := n) c 0 data.counts t.throughput = .abort := by
    rw [tallyThroughput, hc]
    exact tallyUniform_zero hT _ _
  unfold gather
  simp only [htotal, hthr]
  rfl

theorem report_overflow {c : BenchmarkConfig} (hc : c.distribution = .uniform)
    (hT : 0 < c.threads) (i : Fin (n + 1)) (data : Record c.threads) :
    ∃ v p, report c i data = .send 0 0 (.send 0 v p) := by
  have hcounts : sentCounts c i data ≠ [] := by
    have hmem : data.counts 0 ⟨0, hT⟩ ∈ sentCounts c i data := by
      simp only [sentCounts, hc]
      exact List.mem_flatMap.2 ⟨0, by simp, List.mem_map.2 ⟨_, List.mem_finRange _, rfl⟩⟩
    exact List.ne_nil_of_mem hmem
  obtain ⟨v, vs, hvs⟩ := List.exists_cons_of_ne_nil hcounts
  rw [report_eq (by simp [hc]), hvs]
  exact ⟨v, _, rfl⟩

/-- Node 0 dies when it has heard from all peers, and leaves them waiting.  The induction is on the
peers `l` from which it has not heard. -/
theorem stuck_of_abort {R : Type} {prog : Fin (n + 1) → NodeProg n R}
    {tr : List (Msg (Fin (n + 1)) UInt64)}
    {s : Fin (n + 1) → Node (Fin (n + 1)) UInt64 R} {l : List (Fin (n + 1))} (hl : l.Nodup)
    (h0 : 0 ∉ l) (hr : (system prog).Run tr s)
    (hzero : s 0 = .run (do
      l.forM fun i => do
        let _ ← Prog.get i
      .abort))
    (hout : ∀ x ∈ l, ∃ v w p, s x = .outside (.send 0 v (.send 0 w p)))
    (hposted : ∀ x, x ≠ 0 → x ∉ l → ∃ w p, s x = .posted (.send 0 w p)) :
    ∃ tr s, (system prog).Run tr s ∧ (∀ x r, s x ≠ .run (.ret r)) ∧
      ∀ e s', ¬ (system prog).step s e s' := by
  induction l generalizing tr s with
  | nil =>
    -- the others have posted their second message, and nobody receives it
    have hwait : ∀ x, s x = .run .abort ∨ ∃ w p, s x = .posted (.send 0 w p) := by
      intro x
      by_cases hx : x = 0
      · exact .inl (hx ▸ hzero)
      · exact .inr (hposted x hx List.not_mem_nil)
    refine ⟨tr, s, hr, fun x r hx => ?_, fun e s' hs => ?_⟩
    · obtain h | ⟨w, p, h⟩ := hwait x <;> simp [h] at hx
    · cases hs with
      | @start x _ h => obtain h' | ⟨w, p, h'⟩ := hwait x <;> simp [h'] at h
      | @post x _ h hp =>
        obtain h' | ⟨w, p, h'⟩ := hwait x
        · obtain rfl := Node.run.inj (h'.symm.trans h)
          cases hp
        · simp [h'] at h
      | @deliver a b _ _ _ _ hb => obtain h' | ⟨w, p, h'⟩ := hwait b <;> simp [h'] at hb
      | @complete x _ h => obtain h' | ⟨w, p, h'⟩ := hwait x <;> simp [h'] at h
  | cons a l ih =>
    obtain ⟨hal, hl⟩ := List.nodup_cons.1 hl
    have ha : a ≠ 0 := fun e => h0 (by simp [e])
    obtain ⟨v, w, p, hs⟩ := hout a (by simp)
    have h₁ := hr.next (.post (x := 0) hzero rfl)
    have h₂ := h₁.next (.start (x := a) (by rw [Function.update_of_ne ha, hs]))
    have h₃ := h₂.next (.post (x := a) (Function.update_self ..) rfl)
    have h₄ := h₃.next (.deliver (a := a) (b := 0) (Function.update_self ..)
      (by rw [Function.update_of_ne ha.symm, Function.update_of_ne ha.symm, Function.update_self]; rfl))
    have h₅ := h₄.next (.complete (x := 0) (Function.update_self ..))
    have h₆ := h₅.next (.complete (x := a) (by
      rw [Function.update_of_ne ha, Function.update_of_ne ha, Function.update_self]))
    have h₇ := h₆.next (.post (x := a) (Function.update_self ..) rfl)
    refine ih hl (fun h => h0 (by simp [h])) h₇ ?_ (fun x hx => ?_) fun x hx0 hx => ?_
    · rw [Function.update_of_ne ha.symm, Function.update_of_ne ha.symm, Function.update_self]
      rfl
    · have hxa : x ≠ a := fun e => hal (e ▸ hx)
      have hx0 : x ≠ 0 := fun e => h0 (by simp [← e, hx])
      simpa [hxa, hx0] using hout x (by simp [hx])
    · by_cases hxa : x = a
      · subst hxa
        exact ⟨w, p, Function.update_self ..⟩
      · simpa [hxa, hx0] using hposted x hx0 (by simp [hxa, hx])

/-- Without samples the bound on their number says nothing about the number of threads: `2 ^ 21`
threads on each of `2 ^ 11` nodes are `0` in 32 bits, and node 0 dies in the division by the size of
its reservoir. -/
theorem tally_overflow :
    let c : BenchmarkConfig := ⟨.uniform, 1, 2097152, 0⟩
    let data : Fin 2048 → Record c.threads := fun _ => ⟨fun _ _ => 0, fun _ _ => .new 0 0⟩
    let t₀ : Fin 2048 → Tally := fun _ => ⟨fun _ => .new 0 0, fun _ => .new 0 0⟩
    c.Valid 2047 ∧ 1 ≤ c.threads ∧ 2048 * c.threads * c.sampleNumber.toNat < 2 ^ 32 ∧
      (∀ i j k, ((data i).latencies j k).maxSize = c.sampleNumber) ∧
      ∃ tr s, (tallySystem c data t₀).Run tr s ∧ (∀ x t, s x ≠ .run (.ret t)) ∧
        ∀ e s', ¬ (tallySystem c data t₀).step s e s' := by
  intro c data t₀
  have hT : 0 < c.threads := by decide
  refine ⟨Or.inl rfl, hT, by decide, fun _ _ _ => rfl, ?_⟩
  have h0 : (tallySystem c data t₀).Run [] fun x => .outside (tallyResults c x (data x) (t₀ x)) :=
    .start fun _ => rfl
  have h1 := h0.next (.start (x := 0) rfl)
  refine stuck_of_abort (nodup_nodesIn 1 2048) (fun h => mem_peers.1 h rfl) h1 ?_ (fun x hx => ?_)
    fun x hx0 hx => absurd (mem_peers.2 hx0) hx
  · rw [Function.update_self, tallyResults, if_pos rfl, gather_overflow rfl (by decide) hT]
  · have hx0 := mem_peers.1 hx
    obtain ⟨v, p, hreport⟩ := report_overflow (c := c) rfl hT x (data x)
    refine ⟨0, v, p >>= fun _ => .ret (t₀ x), ?_⟩
    rw [Function.update_of_ne hx0, tallyResults, if_neg hx0, hreport]
    rfl

end Benchmark

end Farlock
