import Mathlib
import Farlock.Benchmark.Exchange
import Farlock.Benchmark.Worker

/-!
# Setting up the lock tables (`include/benchmark/benchmark.h`)

The constructor of `Benchmark` allocates the locks of the node and sends the pointer to the first of
them to the nodes that use them; these compute the other pointers.  With the uniform distribution all
nodes exchange their pointers in pairs, with the selective one the hosts send theirs to the rest.

* `setUp`: the constructor of one node, from its memory to its tables;
* `Setup.tables`: the tables that a node should have, its own locks and those of the owners;
* `set_up_tables`: in every interleaving all nodes get these.
-/

namespace Farlock

namespace Memory

namespace Setup

variable (S : Setup)

/-- The locks of node `a`: consecutive chunks from the start of its region. -/
def locksOf (a : ℕ) : List Pointer :=
  (List.range S.locksPerNode.toNat).map fun j =>
    Pointer.of (UInt16.ofNat a) (UInt64.ofNat (S.start a + j * S.chunkSize.toNat))

theorem base_eq (hn : S.locksPerNode ≠ 0) (a : ℕ) :
    S.base a = Pointer.of (UInt16.ofNat a) (UInt64.ofNat (S.start a)) ∧
      ∃ l, S.locksOf a = S.base a :: l := by
  obtain ⟨word, hloc, -⟩ := S.localLocks_spec a
  obtain ⟨m, hm⟩ : ∃ m, S.locksPerNode.toNat = m + 1 := by
    refine Nat.exists_eq_add_of_le' (Nat.one_le_iff_ne_zero.2 fun h => hn ?_)
    exact UInt32.toNat_inj.1 h
  rw [hm, List.range_succ_eq_map, List.map_cons] at hloc
  have hbase : S.base a = Pointer.of (UInt16.ofNat a) (UInt64.ofNat (S.start a)) := by
    simp only [base, hloc, zero_mul, add_zero]
  have hlocks : S.locksOf a = S.base a :: ((List.range m).map Nat.succ).map fun j =>
      Pointer.of (UInt16.ofNat a) (UInt64.ofNat (S.start a + j * S.chunkSize.toNat)) := by
    rw [locksOf, hm, List.range_succ_eq_map, List.map_cons, hbase, zero_mul, add_zero]
  exact ⟨hbase, _, hlocks⟩

/-- The pointers that a node computes for the locks of `a` are these locks. -/
theorem peerLocks_eq (hn : S.locksPerNode ≠ 0)
    (hoff : (S.locksPerNode.toNat - 1) * S.chunkSize.toNat < 2 ^ 32) (a : ℕ) :
    peerLocks S.chunkSize S.locksPerNode.toNat (S.base a) = S.locksOf a := by
  refine List.map_congr_left fun j hj => ?_
  have hj := List.mem_range.1 hj
  have hlt : j * S.chunkSize.toNat < 2 ^ 32 :=
    lt_of_le_of_lt (Nat.mul_le_mul_right _ (by omega)) hoff
  have hnum := S.locksPerNode.toNat_lt
  have hword : (UInt32.ofNat j * S.chunkSize).toUInt64 =
      UInt64.ofNat (j * S.chunkSize.toNat % 2 ^ 32) := by
    rw [← UInt64.toNat_inj, UInt32.toNat_toUInt64, UInt32.toNat_mul, UInt32.toNat_ofNat',
      UInt64.toNat_ofNat', Nat.mod_mul_mod]
    omega
  rw [(S.base_eq hn a).1, hword, (add_eq_iff (S.lock_lt a j hj)).2 hlt]

end Setup

end Memory

namespace Benchmark

open Rendezvous
open Memory (Pointer)

variable {n : ℕ}

/-- What a host of the selective distribution sends to the other nodes. -/
def sendLocks (lockHosts : UInt32) (localLocks : List Pointer) : NodeProg n Unit :=
  -- the counter of the loop has 16 bits
  (nodesIn n lockHosts.toUInt16.toNat (n + 1)).forM (sendLock localLocks)

/-- What the other nodes receive from the hosts. -/
def receiveLocks (lockHosts locksPerNode chunkSize : UInt32) : NodeProg n (List Pointer) :=
  (nodesIn n 0 lockHosts.toNat).foldlM (fun remoteLocks i => do
    let lock ← .get i
    pure (remoteLocks ++ Memory.peerLocks chunkSize locksPerNode.toNat (Pointer.ofRaw lock))) []

/-- The part of the constructor of `Benchmark` that comes after `rdma_manager_.Init`; `word` and
`free` are the memory and the shared free list of the node. -/
def setUp (c : WorkloadConfig) (nodeId : Fin (n + 1)) (chunkSize : UInt32) (word : ℕ → ℕ) (free : ℕ) :
    NodeProg n Tables :=
  let allocated := Memory.allocateLocalLocks (UInt16.ofNat nodeId) chunkSize.toNat
    c.locksPerNode.toNat word free
  match c.distribution with
  | .uniform =>
    match allocated with
    | none => .abort
    | some (localLocks, _) => do
        let remoteLocks ← exchangeLockTable nodeId localLocks chunkSize
        pure ⟨localLocks, remoteLocks, c.localPercentage⟩
  | .selective =>
    if nodeId.val < c.lockHosts.toNat then
      match allocated with
      | none => .abort
      | some (localLocks, _) => do
          sendLocks c.lockHosts localLocks
          pure ⟨localLocks, [], 100⟩
    else do
      let remoteLocks ← receiveLocks c.lockHosts c.locksPerNode chunkSize
      pure ⟨[], remoteLocks, 0⟩
  | .invalid => .abort

/-- The tables that node `b` should have. -/
def tables (S : Memory.Setup) (c : WorkloadConfig) (nodes b : ℕ) : Tables :=
  match c.distribution with
  | .uniform =>
      ⟨S.locksOf b, (c.distribution.owners c.lockHosts.toNat nodes b).flatMap S.locksOf,
        c.localPercentage⟩
  | .selective =>
      if b < c.lockHosts.toNat then ⟨S.locksOf b, [], 100⟩
      else ⟨[], (c.distribution.owners c.lockHosts.toNat nodes b).flatMap S.locksOf, 0⟩
  | .invalid => ⟨[], [], 0⟩

/-! ### Lists of nodes -/

theorem flatMap_owners {β : Type} (f : ℕ → List β) (lockHosts : ℕ) (x : Fin (n + 1)) :
    (Memory.Distribution.uniform.owners lockHosts (n + 1) x).flatMap f =
      (List.finRange (n + 1)).flatMap fun i => if i = x then [] else f i := by
  have hfilter : ∀ l : List (Fin (n + 1)), ((l.map Fin.val).filter (· ≠ x.val)).flatMap f =
      l.flatMap fun i => if i = x then [] else f i := by
    intro l
    induction l with
    | nil => rfl
    | cons i l ih =>
      rw [List.map_cons, List.filter_cons, List.flatMap_cons, ← ih]
      by_cases hi : i = x
      · simp [hi]
      · simp [hi, Fin.val_ne_of_ne hi]
  rw [Memory.Distribution.owners, ← hfilter, List.map_coe_finRange_eq_range]

theorem map_val_nodesIn {hi : ℕ} (h : hi ≤ n + 1) :
    (nodesIn n 0 hi).map Fin.val = List.range hi := by
  have hfilter : ∀ l : List (Fin (n + 1)), (l.filter fun i => decide (0 ≤ i.val ∧ i.val < hi)).map
      Fin.val = (l.map Fin.val).filter (· < hi) := by
    intro l
    induction l with
    | nil => rfl
    | cons i l ih =>
      rw [List.filter_cons, List.map_cons, List.filter_cons, ← ih]
      by_cases hlt : i.val < hi
      · simp [hlt]
      · simp [hlt]
  obtain ⟨k, hk⟩ := Nat.exists_eq_add_of_le h
  have hlow : (List.range hi).filter (· < hi) = List.range hi :=
    List.filter_eq_self.2 fun i hi => by simpa using hi
  have hhigh : ((List.range k).map (hi + ·)).filter (· < hi) = [] := by
    simp
  rw [nodesIn, hfilter, List.map_coe_finRange_eq_range, hk, List.range_add, List.filter_append, hlow,
    hhigh, List.append_nil]

/-! ### The exchange -/

section Exchange

variable (S : Memory.Setup) (c : WorkloadConfig)

/-- The constructor of node `x`, when its memory is that of `S`. -/
def setUpNode (n : ℕ) (x : Fin (n + 1)) : NodeProg n Tables :=
  setUp c x S.chunkSize (S.lists x).1.word (S.lists x).2.1

/-- The system of all nodes in their constructors. -/
def setUpSystem (n : ℕ) :
    Lts (Fin (n + 1) → Node (Fin (n + 1)) UInt64 Tables) (Msg (Fin (n + 1)) UInt64) :=
  system (setUpNode S c n)

/-- The messages of the constructors. -/
def setUpSchedule (n : ℕ) : List (Msg (Fin (n + 1)) UInt64) :=
  match c.distribution with
  | .uniform => pairs (fun x => (S.base x).raw) (List.finRange (n + 1))
  | .selective => broadcast (fun x => (S.base x).raw) (nodesIn n 0 c.lockHosts.toNat)
      (nodesIn n c.lockHosts.toNat (n + 1))
  | .invalid => []

variable {S c}

theorem firstLock_locksOf (hn : S.locksPerNode ≠ 0) (a : ℕ) : firstLock (S.locksOf a) = S.base a := by
  obtain ⟨-, l, hl⟩ := S.base_eq hn a
  rw [hl]
  rfl

/-- `ExchangeLockTable` -/
theorem follows_exchangeLocks (hn : S.locksPerNode ≠ 0)
    (hoff : (S.locksPerNode.toNat - 1) * S.chunkSize.toNat < 2 ^ 32) (lockHosts : ℕ) (x : Fin (n + 1)) :
    Follows x (pairs (fun x : Fin (n + 1) => (S.base x).raw) (List.finRange (n + 1)))
      (exchangeLockTable x (S.locksOf x) S.chunkSize)
      ((Memory.Distribution.uniform.owners lockHosts (n + 1) x).flatMap S.locksOf) := by
  have hne : ∀ y : Fin (n + 1), S.locksOf y ≠ [] := fun y => by
    obtain ⟨-, l, hl⟩ := S.base_eq hn y
    rw [hl]
    exact List.cons_ne_nil _ _
  have hlen : (S.locksOf x).length = S.locksPerNode.toNat := by simp [Memory.Setup.locksOf]
  have hex := follows_exchangeLockTable (fun _ => hne) x S.chunkSize
  simp only [firstLock_locksOf hn, hlen, S.peerLocks_eq hn hoff] at hex
  rwa [flatMap_owners]

/-- What the hosts send. -/
theorem follows_sendLocks (hn : S.locksPerNode ≠ 0) {x : Fin (n + 1)} {lockHosts : UInt32}
    (hnodes : n + 1 < 2 ^ 16) (hhosts : lockHosts.toNat ≤ n + 1) (hx : x.val < lockHosts.toNat) :
    Follows x (broadcast (fun x => (S.base x).raw) (nodesIn n 0 lockHosts.toNat)
        (nodesIn n lockHosts.toNat (n + 1))) (sendLocks lockHosts (S.locksOf x)) () := by
  obtain ⟨-, l, hl⟩ := S.base_eq hn x
  have h16 : lockHosts.toUInt16.toNat = lockHosts.toNat := by
    rw [UInt32.toNat_toUInt16]
    exact Nat.mod_eq_of_lt (by omega)
  rw [sendLocks, hl, h16]
  refine follows_broadcast_send (v := fun x : Fin (n + 1) => (S.base x).raw) (nodup_nodesIn _ _)
    (mem_nodesIn.2 ⟨Nat.zero_le _, hx⟩) fun h => ?_
  exact (mem_nodesIn.1 h).1.not_gt hx

/-- What the other nodes receive. -/
theorem follows_receiveLocks (hn : S.locksPerNode ≠ 0)
    (hoff : (S.locksPerNode.toNat - 1) * S.chunkSize.toNat < 2 ^ 32) {x : Fin (n + 1)}
    {lockHosts : UInt32} (hhosts : lockHosts.toNat ≤ n + 1) (hx : ¬ x.val < lockHosts.toNat) :
    Follows x (broadcast (fun x => (S.base x).raw) (nodesIn n 0 lockHosts.toNat)
        (nodesIn n lockHosts.toNat (n + 1))) (receiveLocks lockHosts S.locksPerNode S.chunkSize)
      ((Memory.Distribution.selective.owners lockHosts.toNat (n + 1) x).flatMap S.locksOf) := by
  rw [Memory.Distribution.owners, if_neg hx]
  have hhost : x ∉ nodesIn n 0 lockHosts.toNat := fun h => hx (mem_nodesIn.1 h).2
  have hrecv := follows_broadcast_recv (v := fun x : Fin (n + 1) => (S.base x).raw)
    (nodup_nodesIn lockHosts.toNat (n + 1)) (mem_nodesIn.2 ⟨Nat.not_lt.1 hx, x.isLt⟩) hhost
    (fun remoteLocks lock => remoteLocks ++
      Memory.peerLocks S.chunkSize S.locksPerNode.toNat (Pointer.ofRaw lock)) []
  have hres : (nodesIn n 0 lockHosts.toNat).foldl (fun remoteLocks (a : Fin (n + 1)) => remoteLocks ++
      Memory.peerLocks S.chunkSize S.locksPerNode.toNat (Pointer.ofRaw (S.base a.val).raw)) [] =
        (List.range lockHosts.toNat).flatMap S.locksOf := by
    rw [← map_val_nodesIn hhosts, List.flatMap_map]
    have hfold := foldl_append_eq_flatMap (fun _ : Fin (n + 1) => False)
      (fun a => Memory.peerLocks S.chunkSize S.locksPerNode.toNat (Pointer.ofRaw (S.base a.val).raw))
      (nodesIn n 0 lockHosts.toNat) []
    simp only [if_false, List.nil_append] at hfold
    rw [hfold]
    exact List.flatMap_congr fun a _ => S.peerLocks_eq hn hoff a
  rwa [hres] at hrecv

/-- All nodes are ready for the messages in this order, and get the tables that they should have. -/
theorem follows_setUp (hc : c.Valid n) (hnodes : n + 1 < 2 ^ 16)
    (hS : S.locksPerNode = c.locksPerNode) (hn : c.locksPerNode ≠ 0)
    (hoff : (c.locksPerNode.toNat - 1) * S.chunkSize.toNat < 2 ^ 32)
    (x : Fin (n + 1)) :
    Follows x (setUpSchedule S c n) (setUpNode S c n x) (tables S c (n + 1) x) := by
  rw [← hS] at hn hoff
  obtain ⟨word, hloc, -⟩ := S.localLocks_spec x
  change _ = some (S.locksOf x, word) at hloc
  rw [Memory.Setup.localLocks, hS] at hloc
  unfold setUpSchedule setUpNode setUp tables
  rcases hc with hc | ⟨hc, -, hhi⟩
  · simp only [hc, hloc]
    exact (follows_exchangeLocks hn hoff _ x).map fun remoteLocks =>
      Tables.mk (S.locksOf x) remoteLocks c.localPercentage
  · simp only [hc, hloc]
    split_ifs with hx
    · exact (follows_sendLocks hn hnodes hhi hx).map fun _ => Tables.mk (S.locksOf x) [] 100
    · rw [← hS]
      exact (follows_receiveLocks hn hoff hhi hx).map fun remoteLocks => Tables.mk [] remoteLocks 0

/-- In every interleaving of the constructors no state is stuck before all nodes have their tables,
no run goes on for ever, and a node has in its tables its own locks and those of the owners, in the
order of their ids. -/
theorem set_up_tables (S : Memory.Setup) (c : WorkloadConfig) (n : ℕ) (hc : c.Valid n)
    (hnodes : n + 1 < 2 ^ 16) (hS : S.locksPerNode = c.locksPerNode) (hn : c.locksPerNode ≠ 0)
    (hoff : (c.locksPerNode.toNat - 1) * S.chunkSize.toNat < 2 ^ 32) :
    (∀ tr s, (setUpSystem S c n).Run tr s →
      ((∀ x, ∃ T, s x = .run (.ret T)) ∨ ∃ e s', (setUpSystem S c n).step s e s') ∧
      ∀ x T, s x = .run (.ret T) → T = tables S c (n + 1) x) ∧
    ∀ f : ℕ → Fin (n + 1) → Node (Fin (n + 1)) UInt64 Tables, (setUpSystem S c n).init (f 0) →
      ¬ ∀ k, ∃ e, (setUpSystem S c n).step (f k) e (f (k + 1)) := by
  have hσ := follows_setUp hc hnodes hS hn hoff
  refine ⟨fun tr s hr => ⟨?_, fun x T hx => result_eq hσ hr hx⟩, fun f h0 => not_infinite hσ f h0⟩
  exact (exists_step hσ hr).imp_left fun hret x => ⟨_, hret x⟩

/-- Two nodes with two locks each, the first one the host of the selective distribution, go through
their constructors to the end. -/
theorem set_up_tables_duo :
    let S := Memory.Setup.large 2 (by decide)
    let c : WorkloadConfig := ⟨⟨.selective, 1, 1, 1⟩, 2, 0⟩
    c.Valid 1 ∧ ∃ tr s T T', (setUpSystem S c 1).Run tr s ∧
      s 0 = .run (.ret T) ∧ T = ⟨[Pointer.of 0 4096, Pointer.of 0 4160], [], 100⟩ ∧
      s 1 = .run (.ret T') ∧ T' = ⟨[], [Pointer.of 0 4096, Pointer.of 0 4160], 0⟩ := by
  intro S c
  have hc : c.Valid 1 := Or.inr ⟨rfl, by decide, by decide⟩
  obtain ⟨hrun, -⟩ := set_up_tables S c 1 hc (by decide) rfl (by decide) (by decide)
  have h0 : (setUpSystem S c 1).Run [] fun x => .outside (setUpNode S c 1 x) := .start fun _ => rfl
  obtain ⟨tr, s, hr, hret⟩ :=
    exists_completion (follows_setUp (S := S) hc (by decide) rfl (by decide) (by decide)) h0
  exact ⟨hc, tr, s, _, _, hr, hret 0, (hrun _ _ hr).2 0 _ (hret 0), hret 1,
    (hrun _ _ hr).2 1 _ (hret 1)⟩

/-- The model of the workers has the same tables. -/
theorem construct_tables (hc : c.Valid n) (hnodes : n + 1 < 2 ^ 16)
    (hS : S.locksPerNode = c.locksPerNode) (hn : c.locksPerNode ≠ 0)
    (hoff : (c.locksPerNode.toNat - 1) * S.chunkSize.toNat < 2 ^ 32)
    (x : Fin (n + 1)) :
    Tables.construct c (UInt16.ofNat (n + 1)) (UInt16.ofNat x) S.chunkSize (S.lists x).1.word
      (S.lists x).2.1 S.base = some (tables S c (n + 1) x) := by
  rw [← hS] at hn hoff
  obtain ⟨word, hloc, -⟩ := S.localLocks_spec x
  change _ = some (S.locksOf x, word) at hloc
  rw [Memory.Setup.localLocks, hS] at hloc
  have hfirst : ∀ (peers : Prop) [Decidable peers], sendFirst (S.locksOf x) peers = some () := by
    intro peers _
    obtain ⟨-, l, hl⟩ := S.base_eq hn x
    simp [sendFirst, hl]
  have hnum : (UInt16.ofNat (n + 1)).toNat = n + 1 := by
    rw [UInt16.toNat_ofNat']
    exact Nat.mod_eq_of_lt hnodes
  have hid : (UInt16.ofNat x.val).toNat = x.val := by
    rw [UInt16.toNat_ofNat']
    exact Nat.mod_eq_of_lt (x.isLt.trans hnodes)
  have hpeer : ∀ l : List ℕ, l.flatMap (fun a =>
      Memory.peerLocks S.chunkSize c.locksPerNode.toNat (S.base a)) = l.flatMap S.locksOf := fun l =>
    List.flatMap_congr fun a _ => hS ▸ S.peerLocks_eq hn hoff a
  unfold Tables.construct tables
  rcases hc with hc | ⟨hc, -, hhi⟩
  · simp only [hc, hloc, Option.bind_eq_bind, Option.bind_some, hfirst, Memory.remoteLocks, hpeer, hnum,
      hid]
    rfl
  · have hhost : (UInt16.ofNat x.val).toUInt32 < c.lockHosts ↔ x.val < c.lockHosts.toNat := by
      rw [UInt32.lt_iff_toNat_lt, UInt16.toNat_toUInt32, hid]
    simp only [hc, hloc, Option.bind_eq_bind, Option.bind_some, hfirst, hhost]
    split_ifs with hx
    · rfl
    · simp only [Memory.remoteLocks, Memory.Distribution.owners, hid, if_neg hx, hpeer]
      rfl

end Exchange

end Benchmark

end Farlock
