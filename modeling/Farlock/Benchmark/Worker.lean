import Mathlib
import Farlock.Memory.LockTable
import Farlock.Benchmark.Reservoir
import Farlock.Benchmark.Tally

/-!
# The worker loop (`Run` in `include/benchmark/benchmark.h`)

A worker draws whether it takes a local or a remote lock, draws the lock from its table, and puts
the time it has needed into a reservoir.  The bounds of the draws are the sizes of the tables minus
one, in 32 bits, so an empty table has the bound `2 ^ 32 - 1`.

* `Tables.construct`: the tables that the constructor sets up;
* `Worker.round`, `Worker.run`: the loop; a `Fault` is a remainder by zero or an index outside a
  table;
* `worker_safe`: a configuration that is `Safe` has no faults.
-/

namespace Farlock

namespace Benchmark

open Memory (Pointer)

/-- `BenchmarkConfig`, as far as the constructor and the workers read it. -/
structure WorkloadConfig extends BenchmarkConfig where
  locksPerNode : UInt32
  localPercentage : UInt32

/-- `local_locks_`, `remote_locks_` and `local_percentage_` -/
structure Tables where
  localLocks : List Pointer
  remoteLocks : List Pointer
  localPercentage : UInt32

/-- `local_locks[0]` is sent to the peers if there are any; there is nothing to send from an empty
table. -/
def sendFirst (localLocks : List Pointer) (peers : Prop) [Decidable peers] : Option Unit :=
  if peers ∧ localLocks = [] then none else some ()

/-- The constructor of `Benchmark`.  `word` and `free` are the memory and the shared free list of
the node, and `base a` is the pointer that it receives from node `a`. -/
def Tables.construct (c : WorkloadConfig) (nodes nodeId : UInt16) (chunkSize : UInt32) (word : ℕ → ℕ)
    (free : ℕ) (base : ℕ → Pointer) : Option Tables :=
  match c.distribution with
  | .uniform => do
      let (localLocks, _) ← Memory.allocateLocalLocks nodeId chunkSize.toNat c.locksPerNode.toNat word free
      sendFirst localLocks (1 < nodes)
      pure ⟨localLocks, Memory.remoteLocks .uniform c.lockHosts.toNat nodes.toNat nodeId.toNat chunkSize
        c.locksPerNode base, c.localPercentage⟩
  | .selective =>
      if nodeId.toUInt32 < c.lockHosts then do
        let (localLocks, _) ← Memory.allocateLocalLocks nodeId chunkSize.toNat c.locksPerNode.toNat word free
        -- the loop over the peers has a 16-bit counter
        sendFirst localLocks (c.lockHosts.toUInt16 < nodes)
        pure ⟨localLocks, [], 100⟩
      else
        pure ⟨[], Memory.remoteLocks .selective c.lockHosts.toNat nodes.toNat nodeId.toNat chunkSize
          c.locksPerNode base, 0⟩
  | .invalid => none

/-- What the language does not define. -/
inductive Fault
  /-- a remainder by zero -/
  | remainder
  /-- an index outside a table -/
  | index

/-- The state of a worker; `0` and `1` are the local and the remote class. -/
structure Worker where
  rng : UniformRandom
  rngl : UniformRandom
  rngr : UniformRandom
  latency : Fin 2 → Result
  tmpLatency : Fin 2 → Result
  count : Fin 2 → UInt64
  tmpCount : Fin 2 → UInt64

/-- `uniform_within(0, hi)` -/
def draw (random : UniformRandom) (hi : UInt32) : Except Fault (UInt32 × UniformRandom) :=
  match random.uniformWithin 0 hi with
  | some p => .ok p
  | none => .error .remainder

/-- `locks.size() - 1`, as a `uint32_t` -/
def bound (locks : List Pointer) : UInt32 := (UInt64.ofNat locks.length - 1).toUInt32

/-- `locks[index]` -/
def lockAt (locks : List Pointer) (index : UInt32) : Except Fault Pointer :=
  match locks[index.toNat]? with
  | some lock => .ok lock
  | none => .error .index

/-- `r << time` -/
def pushTime (r : Result) (time : UInt64) : Except Fault Result :=
  match r.push time with
  | some r => .ok r
  | none => .error .remainder

namespace Worker

/-- A worker at the start of its loop. -/
def start (c : WorkloadConfig) (nodeId : UInt16) (threadId : UInt32) : Worker :=
  let random : UniformRandom := ⟨(nodeId.toUInt32 * c.threadsPerNode + threadId).toUInt64⟩
  { rng := random
    rngl := random
    rngr := random
    latency := fun _ => Result.new threadId c.sampleNumber
    tmpLatency := fun _ => Result.new threadId c.sampleNumber
    count := fun _ => 0
    tmpCount := fun _ => 0 }

/-- The end of a round: the time goes into the reservoir of the class. -/
def record (w : Worker) (lr : Fin 2) (sampling : Bool) (time : UInt64) : Except Fault Worker :=
  if sampling then do
    let r ← pushTime (w.latency lr) time
    pure { w with latency := Function.update w.latency lr r
                  count := Function.update w.count lr (w.count lr + 1) }
  else do
    let r ← pushTime (w.tmpLatency lr) time
    pure { w with tmpLatency := Function.update w.tmpLatency lr r
                  tmpCount := Function.update w.tmpCount lr (w.tmpCount lr + 1) }

/-- One round of the loop: the lock that is taken, and the worker after it.  `sampling` is
`sampling_flag_` and `time` what it took to lock and unlock. -/
def round (T : Tables) (w : Worker) (sampling : Bool) (time : UInt64) : Except Fault (Pointer × Worker) := do
  let (lr, rng) ← draw w.rng 99
  let w := { w with rng := rng }
  if lr < T.localPercentage then
    let (index, rngl) ← draw w.rngl (bound T.localLocks)
    let lock ← lockAt T.localLocks index
    let w ← record { w with rngl := rngl } ⟨0, Nat.two_pos⟩ sampling time
    pure (lock, w)
  else
    let (index, rngr) ← draw w.rngr (bound T.remoteLocks)
    let lock ← lockAt T.remoteLocks index
    let w ← record { w with rngr := rngr } ⟨1, Nat.one_lt_two⟩ sampling time
    pure (lock, w)

/-- The loop, as long as there are inputs. -/
def run (T : Tables) : List (Bool × UInt64) → Worker → Except Fault (List Pointer × Worker)
  | [], w => pure ([], w)
  | (sampling, time) :: inputs, w => do
      let (lock, w) ← round T w sampling time
      let (locks, w) ← run T inputs w
      pure (lock :: locks, w)

end Worker

/-- There are samples to keep, and a table that can be drawn from has locks, not a multiple of
`2 ^ 32`. -/
def WorkloadConfig.Safe (c : WorkloadConfig) (nodes nodeId : UInt16) : Prop :=
  c.sampleNumber ≠ 0 ∧
  match c.distribution with
  | .uniform => (c.localPercentage = 0 ∨ c.locksPerNode ≠ 0) ∧
      (100 ≤ c.localPercentage ∨ (nodes.toNat - 1) * c.locksPerNode.toNat % 2 ^ 32 ≠ 0)
  | .selective => if nodeId.toUInt32 < c.lockHosts then c.locksPerNode ≠ 0
      else c.lockHosts.toNat * c.locksPerNode.toNat % 2 ^ 32 ≠ 0
  | .invalid => True

/-! ### The tables -/

/-- A table that is drawn from has locks, not a multiple of `2 ^ 32`. -/
structure Tables.Ok (T : Tables) : Prop where
  localLocks : T.localPercentage = 0 ∨ T.localLocks.length % 2 ^ 32 ≠ 0
  remoteLocks : 100 ≤ T.localPercentage ∨ T.remoteLocks.length % 2 ^ 32 ≠ 0

theorem length_allocateLocalLocks {id : UInt16} {chunkSize n free : ℕ} {word : ℕ → ℕ}
    {r : List Pointer × (ℕ → ℕ)} (h : Memory.allocateLocalLocks id chunkSize n word free = some r) :
    r.1.length = n := by
  induction n generalizing word free r with
  | zero =>
    cases h
    rfl
  | succ n ih =>
    simp only [Memory.allocateLocalLocks] at h
    split_ifs at h
    obtain ⟨r', hr', h⟩ := Option.bind_eq_some_iff.1 h
    cases h
    simp [ih hr']

theorem length_remoteLocks (D : Memory.Distribution) (lockHosts nodes b : ℕ)
    (chunkSize locksPerNode : UInt32) (base : ℕ → Pointer) :
    (Memory.remoteLocks D lockHosts nodes b chunkSize locksPerNode base).length =
      (D.owners lockHosts nodes b).length * locksPerNode.toNat := by
  rw [Memory.remoteLocks, List.length_flatMap, List.sum_eq_card_nsmul, List.length_map, smul_eq_mul]
  intro n hn
  obtain ⟨a, -, rfl⟩ := List.mem_map.1 hn
  simp [Memory.peerLocks]

theorem length_owners_uniform {lockHosts nodes b : ℕ} (hb : b < nodes) :
    (Memory.Distribution.uniform.owners lockHosts nodes b).length = nodes - 1 := by
  have herase : (List.range nodes).filter (· ≠ b) = (List.range nodes).erase b := by
    rw [List.nodup_range.erase_eq_filter]
    apply List.filter_congr
    intro x _
    by_cases hx : x = b <;> simp [hx]
  rw [Memory.Distribution.owners, herase, List.length_erase_of_mem (List.mem_range.2 hb), List.length_range]

theorem mod_ne_zero {n : UInt32} (h : n ≠ 0) : n.toNat % 2 ^ 32 ≠ 0 := by
  rw [Nat.mod_eq_of_lt n.toNat_lt]
  exact fun h0 => h (UInt32.toNat_inj.1 h0)

/-- A safe configuration has tables that can be drawn from. -/
theorem Tables.construct_ok {c : WorkloadConfig} {nodes nodeId : UInt16} {chunkSize : UInt32}
    {word : ℕ → ℕ} {free : ℕ} {base : ℕ → Pointer} {T : Tables} (hid : nodeId < nodes)
    (hT : construct c nodes nodeId chunkSize word free base = some T) (hc : c.Safe nodes nodeId) : T.Ok := by
  obtain ⟨-, hc⟩ := hc
  unfold construct at hT
  cases hd : c.distribution with
  | invalid => simp [hd] at hT
  | uniform =>
    simp only [hd] at hT hc
    obtain ⟨r, hr, hT⟩ := Option.bind_eq_some_iff.1 hT
    obtain ⟨-, -, hT⟩ := Option.bind_eq_some_iff.1 hT
    cases hT
    refine ⟨hc.1.imp_right fun h => ?_, hc.2.imp_right fun h => ?_⟩
    · simp only [length_allocateLocalLocks hr]
      exact mod_ne_zero h
    · rwa [length_remoteLocks, length_owners_uniform (UInt16.lt_iff_toNat_lt.1 hid)]
  | selective =>
    simp only [hd] at hT hc
    split_ifs at hT hc with hhost
    · obtain ⟨r, hr, hT⟩ := Option.bind_eq_some_iff.1 hT
      obtain ⟨-, -, hT⟩ := Option.bind_eq_some_iff.1 hT
      cases hT
      refine ⟨.inr ?_, .inl (UInt32.le_refl _)⟩
      simp only [length_allocateLocalLocks hr]
      exact mod_ne_zero hc
    · cases hT
      refine ⟨.inl rfl, .inr ?_⟩
      rw [length_remoteLocks]
      have hhost' : ¬ nodeId.toNat < c.lockHosts.toNat := by
        rwa [UInt32.lt_iff_toNat_lt, UInt16.toNat_toUInt32] at hhost
      simpa [Memory.Distribution.owners, hhost'] using hc

/-! ### The loop -/

theorem bound_add_one (locks : List Pointer) : bound locks + 1 = UInt32.ofNat locks.length := by
  rw [bound, UInt64.toUInt32_sub, UInt64.toUInt32_ofNat']
  exact UInt32.sub_add_cancel _ _

/-- A draw from a table gives one of its locks. -/
theorem draw_lock (random : UniformRandom) {locks : List Pointer} (h : locks.length % 2 ^ 32 ≠ 0) :
    ∃ index random' lock, draw random (bound locks) = .ok (index, random') ∧
      lockAt locks index = .ok lock := by
  have hne : bound locks + 1 ≠ 0 := by
    rw [bound_add_one]
    intro h0
    apply h
    have := congrArg UInt32.toNat h0
    rwa [UInt32.toNat_ofNat'] at this
  obtain ⟨index, random', hdraw⟩ := uniformWithin_isSome random hne
  have hle := uniformWithin_le hdraw
  have hbound := Result.toNat_add_one hne
  rw [bound_add_one, UInt32.toNat_ofNat'] at hbound
  have hmod := Nat.mod_le locks.length (2 ^ 32)
  have hlt : index.toNat < locks.length := by omega
  refine ⟨index, random', locks[index.toNat], ?_, ?_⟩
  · rw [draw, hdraw]
  · rw [lockAt, List.getElem?_eq_getElem hlt]

namespace Worker

variable {w : Worker} {m : UInt32}

/-- All reservoirs of a worker have the capacity `m`. -/
def Sized (w : Worker) (m : UInt32) : Prop :=
  ∀ lr, (w.latency lr).maxSize = m ∧ (w.tmpLatency lr).maxSize = m

theorem update_sized {rs : Fin 2 → Result} (h : ∀ lr, (rs lr).maxSize = m) (lr : Fin 2) {r : Result}
    (hr : r.maxSize = m) (lr' : Fin 2) : (Function.update rs lr r lr').maxSize = m := by
  by_cases heq : lr' = lr
  · rw [heq, Function.update_self, hr]
  · rw [Function.update_of_ne heq, h]

theorem pushTime_ok {r : Result} (hr : r.maxSize = m) (hm : m ≠ 0) (time : UInt64) :
    ∃ r', pushTime r time = .ok r' ∧ r'.maxSize = m := by
  obtain ⟨r', hr', hmax⟩ := Result.push_isSome (hr ▸ hm) time
  refine ⟨r', ?_, hmax.trans hr⟩
  rw [pushTime, hr']

theorem record_ok (hw : w.Sized m) (hm : m ≠ 0) (lr : Fin 2) (sampling : Bool) (time : UInt64) :
    ∃ w', w.record lr sampling time = .ok w' ∧ w'.Sized m := by
  cases sampling with
  | true =>
    obtain ⟨r, hr, hmax⟩ := pushTime_ok (hw lr).1 hm time
    refine ⟨{ w with latency := Function.update w.latency lr r
                     count := Function.update w.count lr (w.count lr + 1) }, ?_, fun lr' => ⟨?_, (hw lr').2⟩⟩
    · rw [record, if_pos rfl, hr]
      rfl
    · exact update_sized (fun lr => (hw lr).1) lr hmax lr'
  | false =>
    obtain ⟨r, hr, hmax⟩ := pushTime_ok (hw lr).2 hm time
    refine ⟨{ w with tmpLatency := Function.update w.tmpLatency lr r
                     tmpCount := Function.update w.tmpCount lr (w.tmpCount lr + 1) }, ?_,
      fun lr' => ⟨(hw lr').1, ?_⟩⟩
    · rw [record, if_neg (by decide), hr]
      rfl
    · exact update_sized (fun lr => (hw lr).2) lr hmax lr'

theorem ok_bind {α β : Type} (a : α) (f : α → Except Fault β) : (Except.ok a >>= f) = f a := rfl

/-- A round has no fault, and the next one can begin. -/
theorem round_ok {T : Tables} (hT : T.Ok) (hw : w.Sized m) (hm : m ≠ 0) (sampling : Bool)
    (time : UInt64) : ∃ lock w', w.round T sampling time = .ok (lock, w') ∧ w'.Sized m := by
  obtain ⟨lr, rng, hlr⟩ := uniformWithin_isSome w.rng (show (99 : UInt32) + 1 ≠ 0 by decide)
  have hle : lr.toNat ≤ 99 := uniformWithin_le hlr
  have hdraw : draw w.rng 99 = .ok (lr, rng) := by rw [draw, hlr]
  by_cases hlocal : lr < T.localPercentage
  · have hlen := hT.localLocks.resolve_left fun h0 => by
      rw [h0] at hlocal
      exact UInt32.not_lt_zero hlocal
    obtain ⟨index, rngl, lock, hindex, hlock⟩ := draw_lock w.rngl hlen
    obtain ⟨w', hrecord, hw'⟩ := record_ok (w := { w with rng := rng, rngl := rngl }) hw hm ⟨0, _⟩ sampling time
    refine ⟨lock, w', ?_, hw'⟩
    rw [round, hdraw, ok_bind]
    dsimp only
    rw [if_pos hlocal, hindex, ok_bind]
    dsimp only
    rw [hlock, ok_bind, hrecord, ok_bind]
    rfl
  · have hlen := hT.remoteLocks.resolve_left fun h100 => by
      rw [UInt32.le_iff_toNat_le] at h100
      rw [UInt32.lt_iff_toNat_lt] at hlocal
      have : (100 : UInt32).toNat = 100 := rfl
      omega
    obtain ⟨index, rngr, lock, hindex, hlock⟩ := draw_lock w.rngr hlen
    obtain ⟨w', hrecord, hw'⟩ := record_ok (w := { w with rng := rng, rngr := rngr }) hw hm ⟨1, _⟩ sampling time
    refine ⟨lock, w', ?_, hw'⟩
    rw [round, hdraw, ok_bind]
    dsimp only
    rw [if_neg hlocal, hindex, ok_bind]
    dsimp only
    rw [hlock, ok_bind, hrecord, ok_bind]
    rfl

theorem error_bind {α β : Type} (e : Fault) (f : α → Except Fault β) :
    (Except.error e >>= f) = Except.error e := rfl

/-- A worker that has only remote locks to take, and none of them, divides by zero in its first
round. -/
theorem round_no_locks {T : Tables} (h0 : T.localPercentage = 0) (hlocks : T.remoteLocks = [])
    (w : Worker) (sampling : Bool) (time : UInt64) : w.round T sampling time = .error .remainder := by
  obtain ⟨lr, rng, hlr⟩ := uniformWithin_isSome w.rng (show (99 : UInt32) + 1 ≠ 0 by decide)
  have hdraw : draw w.rng 99 = .ok (lr, rng) := by rw [draw, hlr]
  have hlocal : ¬ lr < T.localPercentage := by
    rw [h0]
    exact UInt32.not_lt_zero
  have hnone : draw w.rngr (bound T.remoteLocks) = .error .remainder := by
    rw [draw, hlocks, UniformRandom.uniformWithin, if_neg (by decide), if_pos (by decide)]
  rw [round, hdraw, ok_bind]
  dsimp only
  rw [if_neg hlocal, hnone, error_bind]

/-- A loop of any length has no fault. -/
theorem run_ok {T : Tables} (hT : T.Ok) (hm : m ≠ 0) (inputs : List (Bool × UInt64)) (hw : w.Sized m) :
    ∃ r, run T inputs w = .ok r := by
  induction inputs generalizing w with
  | nil => exact ⟨_, rfl⟩
  | cons i inputs ih =>
    obtain ⟨lock, w', hround, hw'⟩ := round_ok hT hw hm i.1 i.2
    obtain ⟨r, hr⟩ := ih hw'
    refine ⟨(lock :: r.1, r.2), ?_⟩
    rw [run, hround]
    change (run T inputs w' >>= _) = _
    rw [hr]
    rfl

end Worker

/-- The workers of a node whose configuration is safe divide by zero nowhere and take every lock
from a table, for every length of their loops, every time a round takes and every moment at which
sampling begins or ends. -/
theorem worker_safe {c : WorkloadConfig} {nodes nodeId : UInt16} {chunkSize : UInt32} {word : ℕ → ℕ}
    {free : ℕ} {base : ℕ → Pointer} {T : Tables} (hid : nodeId < nodes)
    (hT : Tables.construct c nodes nodeId chunkSize word free base = some T) (hc : c.Safe nodes nodeId)
    (threadId : UInt32) (inputs : List (Bool × UInt64)) :
    ∃ r, Worker.run T inputs (Worker.start c nodeId threadId) = .ok r := by
  have hTok := Tables.construct_ok hid hT hc
  have hw : (Worker.start c nodeId threadId).Sized c.sampleNumber := fun _ => ⟨rfl, rfl⟩
  exact Worker.run_ok hTok hc.1 inputs hw

/-- Two nodes with two locks each. -/
def twoLocks (localPercentage : UInt32) : WorkloadConfig := ⟨⟨.uniform, 0, 1, 10⟩, 2, localPercentage⟩

/-- The tables of the first of two nodes, with the chunks at 64 and 128 in the shared list. -/
theorem construct_twoLocks (localPercentage : UInt32) :
    Tables.construct (twoLocks localPercentage) 2 0 64 (fun x => if x = 64 then 128 else 0) 64
        (fun _ => Pointer.of 1 64) =
      some ⟨[Pointer.of 0 64, Pointer.of 0 128], [Pointer.of 1 64, Pointer.of 1 128], localPercentage⟩ :=
  rfl

/-- The rounds draw from both tables. -/
theorem worker_safe_two : ∃ r,
    Worker.run ⟨[Pointer.of 0 64, Pointer.of 0 128], [Pointer.of 1 64, Pointer.of 1 128], 50⟩
      [(false, 5), (true, 7), (true, 9), (true, 8)] (Worker.start (twoLocks 50) 0 0) = .ok r := by
  apply worker_safe _ (construct_twoLocks 50) _ 0
  · decide
  · exact ⟨by decide, .inr (by decide), .inr (by decide)⟩

/-- One node with one lock. -/
def oneLock (localPercentage : UInt32) : WorkloadConfig := ⟨⟨.uniform, 0, 1, 10⟩, 1, localPercentage⟩

theorem construct_oneLock (localPercentage : UInt32) :
    Tables.construct (oneLock localPercentage) 1 0 64 (fun _ => 0) 64 (fun _ => Pointer.null) =
      some ⟨[Pointer.of 0 64], [], localPercentage⟩ :=
  rfl

/-- The lock is never local, and the first round draws from the empty table of remote locks. -/
theorem worker_divides_by_zero :
    Tables.construct (oneLock 0) 1 0 64 (fun _ => 0) 64 (fun _ => Pointer.null) =
        some ⟨[Pointer.of 0 64], [], 0⟩ ∧
      Worker.run ⟨[Pointer.of 0 64], [], 0⟩ [(true, 7)] (Worker.start (oneLock 0) 0 0) =
        .error .remainder := by
  refine ⟨construct_oneLock 0, ?_⟩
  rw [Worker.run, Worker.round_no_locks rfl rfl, Worker.error_bind]

end Benchmark

end Farlock
