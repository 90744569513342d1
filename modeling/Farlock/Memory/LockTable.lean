import Mathlib
import Farlock.Memory.Pointer
import Farlock.Memory.Region

/-!
# The lock tables (`include/benchmark/benchmark.h`)

The owner of locks takes them from the shared list of its region, one after the other, and zeroes
each of them; it then sends the first pointer to its peers, which compute the others from it with a
32-bit product.

* `allocateLocalLocks`, `remoteLocks`: the tables of the two sides;
* `lock_tables_agree`: when the two sides agree.
-/

namespace Farlock

namespace Memory

/-- `AllocateShared` of the node `id`: the pointer and the new `free_list_.next`. -/
def allocateShared (id : UInt16) (word : ℕ → ℕ) (free : ℕ) : Pointer × ℕ :=
  if free = 0 then (Pointer.null, free) else (Pointer.of id (UInt64.ofNat free), word free)

/-- `memset(a, 0, n)` -/
def memset (word : ℕ → ℕ) (a n : ℕ) : ℕ → ℕ := fun x => if a ≤ x ∧ x < a + n then 0 else word x

/-- `AllocateLocalLocks`; there is no table if `memset` is called with a null pointer. -/
def allocateLocalLocks (id : UInt16) (chunkSize : ℕ) :
    ℕ → (ℕ → ℕ) → ℕ → Option (List Pointer × (ℕ → ℕ))
  | 0, word, _ => some ([], word)
  | n + 1, word, free =>
      let (lock, free) := allocateShared id word free
      if lock = Pointer.null then none
      else do
        let (locks, word) ← allocateLocalLocks id chunkSize n
          (memset word lock.address.toNat chunkSize) free
        pure (lock :: locks, word)

/-- The pointers that a peer computes from the first of `size` locks: `lock + j * chunk_size` in
32 bits. -/
def peerLocks (chunkSize : UInt32) (size : ℕ) (lock : Pointer) : List Pointer :=
  (List.range size).map fun j => lock.add (UInt32.ofNat j * chunkSize).toUInt64

/-- The distribution of the locks over the nodes; the code compares a string with the first two. -/
inductive Distribution
  | uniform
  | selective
  | invalid
  deriving DecidableEq

/-- The nodes whose locks node `b` has in its table of remote locks, in the order of the table. -/
def Distribution.owners (lockHosts nodes b : ℕ) : Distribution → List ℕ
  | .uniform => (List.range nodes).filter (· ≠ b)
  | .selective => if b < lockHosts then [] else List.range lockHosts
  | .invalid => []

/-- `remote_locks_` of node `b`: `ExchangeLockTable`, or the loop of the selective distribution.
`base a` is the pointer that was received from node `a`. -/
def remoteLocks (D : Distribution) (lockHosts nodes b : ℕ) (chunkSize locksPerNode : UInt32)
    (base : ℕ → Pointer) : List Pointer :=
  (D.owners lockHosts nodes b).flatMap fun a => peerLocks chunkSize locksPerNode.toNat (base a)

/-! ### The owner's table -/

/-- Locks that are taken from consecutive chunks: their pointers, and zeroes in all of them. -/
theorem allocateLocalLocks_spec {chunkSize : ℕ} (id : UInt16) (hc : 0 < chunkSize) {n k p free : ℕ}
    {word : ℕ → ℕ} (hlist : IsList word free (List.range' p k chunkSize)) (hn : n ≤ k)
    (hp : ∀ j < n, p + j * chunkSize < 2 ^ 48) :
    ∃ word', allocateLocalLocks id chunkSize n word free =
        some ((List.range n).map fun j => Pointer.of id (UInt64.ofNat (p + j * chunkSize)), word') ∧
      (∀ x, p ≤ x → x < p + n * chunkSize → word' x = 0) ∧ ∀ x < p, word' x = word x := by
  induction n generalizing k p free word with
  | zero =>
    refine ⟨word, rfl, fun x h1 h2 => ?_, fun _ _ => rfl⟩
    omega
  | succ n ih =>
    obtain ⟨k, rfl⟩ := Nat.exists_eq_add_of_le' (show 1 ≤ k by omega)
    rw [List.range'_succ] at hlist
    obtain ⟨rfl, hfree, hrest⟩ := hlist
    have hp0 : free < 2 ^ 48 := by simpa using hp 0 n.succ_pos
    have hlt : (UInt64.ofNat free).toNat < 2 ^ 48 := by
      rw [UInt64.toNat_ofNat']
      exact lt_of_le_of_lt (Nat.mod_le _ _) hp0
    have haddr : (Pointer.of id (UInt64.ofNat free)).address.toNat = free := by
      rw [Pointer.address_of hlt, UInt64.toNat_ofNat']
      exact Nat.mod_eq_of_lt (by omega)
    have hnull : Pointer.of id (UInt64.ofNat free) ≠ Pointer.null := by
      intro h0
      rw [h0] at haddr
      exact hfree haddr.symm
    -- the rest of the list is behind the chunk that is zeroed
    have hrest' : IsList (memset word free chunkSize) (word free)
        (List.range' (free + chunkSize) k chunkSize) := by
      apply hrest.congr
      intro a ha
      obtain ⟨i, -, rfl⟩ := mem_range'_iff.1 ha
      exact if_neg (by omega)
    obtain ⟨word', hloc, hzero, hold⟩ := ih hrest' (by omega) fun j hj => by
      have := hp (j + 1) (by omega)
      rw [Nat.succ_mul] at this
      omega
    refine ⟨word', ?_, fun x h1 h2 => ?_, fun x hx => ?_⟩
    · simp only [allocateLocalLocks, allocateShared, if_neg hfree, if_neg hnull, haddr, hloc,
        List.range_succ_eq_map, List.map_cons, List.map_map]
      simp only [Option.bind_eq_bind, Option.bind_some, Option.pure_def, Option.some.injEq,
        Prod.mk.injEq, List.cons.injEq, zero_mul, add_zero, true_and, and_true]
      apply List.map_congr_left
      intro j _
      simp only [Function.comp, Nat.succ_mul]
      congr 2
      omega
    · by_cases hx : x < free + chunkSize
      · rw [hold x hx]
        exact if_pos ⟨h1, hx⟩
      · apply hzero x (by omega)
        rw [Nat.succ_mul] at h2
        omega
    · rw [hold x (by omega)]
      exact if_neg (by omega)

/-! ### The two sides -/

/-- The block of `a` in a table that has a block of the same length for each of several nodes. -/
theorem getElem?_flatMap_idxOf {β : Type} {l : List ℕ} {f : ℕ → List β} {n a j : ℕ}
    (hf : ∀ x, (f x).length = n) (ha : a ∈ l) (hj : j < n) :
    (l.flatMap f)[l.idxOf a * n + j]? = (f a)[j]? := by
  induction l with
  | nil => cases ha
  | cons b l ih =>
    rw [List.flatMap_cons]
    by_cases hab : b = a
    · subst hab
      rw [List.idxOf_cons_self, zero_mul, zero_add, List.getElem?_append_left (by rwa [hf])]
    · have hmem : a ∈ l := (List.mem_cons.1 ha).resolve_left (Ne.symm hab)
      rw [List.idxOf_cons_ne l hab, Nat.succ_mul, List.getElem?_append_right (by rw [hf]; omega), hf,
        show l.idxOf a * n + n + j - n = l.idxOf a * n + j by omega]
      exact ih hmem

/-- The pointer with an offset of 32 bits is the pointer to the address with the whole offset if and
only if the offset has 32 bits. -/
theorem add_eq_iff {id : UInt16} {p x : ℕ} (hx : p + x < 2 ^ 48) :
    (Pointer.of id (UInt64.ofNat p)).add (UInt64.ofNat (x % 2 ^ 32)) =
      Pointer.of id (UInt64.ofNat (p + x)) ↔ x < 2 ^ 32 := by
  have hmod := Nat.mod_le x (2 ^ 32)
  have hlt : ∀ {n : ℕ}, n ≤ p + x → (UInt64.ofNat n).toNat = n := fun hn => by
    rw [UInt64.toNat_ofNat']
    exact Nat.mod_eq_of_lt (by omega)
  have hadd : (UInt64.ofNat p).toNat + (UInt64.ofNat (x % 2 ^ 32)).toNat < 2 ^ 48 := by
    rw [hlt (by omega), hlt (by omega)]
    omega
  rw [Pointer.add_of hadd, ← UInt64.ofNat_add,
    Pointer.of_inj (by rw [hlt (by omega)]; omega) (by rw [hlt (by omega)]; omega),
    ← UInt64.toNat_inj, hlt (by omega), hlt (by omega), and_iff_right rfl]
  omega

/-- What the nodes have in common, and where each of them has its region. -/
structure Setup where
  chunkSize : UInt32
  size : ℕ
  localPools : ℕ
  unsharedChunkNum : ℕ
  locksPerNode : UInt32
  /-- the start of the region of a node -/
  start : ℕ → ℕ
  /-- what is in the memory of a node before -/
  memory : ℕ → Heap
  le_chunkSize : 64 ≤ chunkSize.toNat
  chunkSize_le : chunkSize.toNat ≤ 4096
  start_ne_zero : ∀ a, start a ≠ 0
  /-- addresses have 48 bits -/
  region_le : ∀ a, start a + max chunkSize.toNat size ≤ 2 ^ 48
  /-- there are not more locks than chunks in the shared list -/
  locks_le : locksPerNode.toNat ≤ max 1 (chunkNum size chunkSize.toNat - unsharedChunkNum)

namespace Setup

variable (S : Setup)

/-- The region of node `a` after `InitFreeLists`. -/
def lists (a : ℕ) : Heap × ℕ × List ℕ :=
  initFreeLists (S.start a) S.size S.chunkSize.toNat S.localPools S.unsharedChunkNum (S.memory a)

/-- `local_locks_` of node `a`, and its memory when it sends the first pointer. -/
def localLocks (a : ℕ) : Option (List Pointer × (ℕ → ℕ)) :=
  allocateLocalLocks (UInt16.ofNat a) S.chunkSize.toNat S.locksPerNode.toNat (S.lists a).1.word
    (S.lists a).2.1

/-- `local_locks[0].raw()`, as the peers receive it. -/
def base (a : ℕ) : Pointer :=
  match S.localLocks a with
  | some (lock :: _, _) => lock
  | _ => Pointer.null

/-- The locks are within the region. -/
theorem lock_lt (a j : ℕ) (hj : j < S.locksPerNode.toNat) :
    S.start a + j * S.chunkSize.toNat < 2 ^ 48 := by
  have hregion := S.region_le a
  have hlocks := S.locks_le
  have hc := S.le_chunkSize
  have hnum : chunkNum S.size S.chunkSize.toNat ≤ S.size / S.chunkSize.toNat := Nat.mod_le _ _
  rcases Nat.eq_zero_or_pos j with rfl | hpos
  · rw [zero_mul]
    omega
  · have hle : (j + 1) * S.chunkSize.toNat ≤ S.size := by
      calc (j + 1) * S.chunkSize.toNat ≤ S.size / S.chunkSize.toNat * S.chunkSize.toNat :=
            Nat.mul_le_mul_right _ (by omega)
        _ ≤ S.size := Nat.div_mul_le_self _ _
    rw [Nat.succ_mul] at hle
    omega

/-- Node `a` has its locks in consecutive chunks from the start of its region, all of them
zeroed. -/
theorem localLocks_spec (a : ℕ) :
    ∃ word, S.localLocks a = some ((List.range S.locksPerNode.toNat).map fun j =>
        Pointer.of (UInt16.ofNat a) (UInt64.ofNat (S.start a + j * S.chunkSize.toNat)), word) ∧
      ∀ x, S.start a ≤ x → x < S.start a + S.locksPerNode.toNat * S.chunkSize.toNat → word x = 0 := by
  have hc : 0 < S.chunkSize.toNat := by
    have := S.le_chunkSize
    omega
  obtain ⟨-, hlist, -⟩ := initFreeLists_spec S.size S.localPools S.unsharedChunkNum (S.memory a)
    (S.start_ne_zero a) hc
  obtain ⟨word, hloc, hzero, -⟩ :=
    allocateLocalLocks_spec (UInt16.ofNat a) hc hlist S.locks_le (S.lock_lt a)
  exact ⟨word, hloc, hzero⟩

/-- What a node `b` and the owner `a` of locks in its table should agree on: the owner has its
locks, `b` computes the same pointers, and each lock was zeroed when the first pointer was sent. -/
def Agree (D : Distribution) (lockHosts nodes a b : ℕ) : Prop :=
  ∃ locks word, S.localLocks a = some (locks, word) ∧ locks.length = S.locksPerNode.toNat ∧
    ∀ j < S.locksPerNode.toNat, ∃ lock, locks[j]? = some lock ∧
      (remoteLocks D lockHosts nodes b S.chunkSize S.locksPerNode S.base)[
        (D.owners lockHosts nodes b).idxOf a * S.locksPerNode.toNat + j]? = some lock ∧
      ∀ x, lock.address.toNat ≤ x → x < lock.address.toNat + S.chunkSize.toNat → word x = 0

/-- The pointers that `b` computes for `a`. -/
theorem remoteLocks_getElem? {D : Distribution} {lockHosts nodes a b j : ℕ}
    (ha : a ∈ D.owners lockHosts nodes b)
    (hj : j < S.locksPerNode.toNat) :
    (remoteLocks D lockHosts nodes b S.chunkSize S.locksPerNode S.base)[
        (D.owners lockHosts nodes b).idxOf a * S.locksPerNode.toNat + j]? =
      some ((Pointer.of (UInt16.ofNat a) (UInt64.ofNat (S.start a))).add
        (UInt64.ofNat (j * S.chunkSize.toNat % 2 ^ 32))) := by
  have hbase : S.base a = Pointer.of (UInt16.ofNat a) (UInt64.ofNat (S.start a)) := by
    obtain ⟨word, hloc, -⟩ := S.localLocks_spec a
    obtain ⟨n, hn⟩ := Nat.exists_eq_add_of_le' (show 1 ≤ S.locksPerNode.toNat by omega)
    rw [hn, List.range_succ_eq_map] at hloc
    simp only [base, hloc, List.map_cons, zero_mul, add_zero]
  have hoff : (UInt32.ofNat j * S.chunkSize).toUInt64 =
      UInt64.ofNat (j * S.chunkSize.toNat % 2 ^ 32) := by
    have hlt := S.locksPerNode.toNat_lt
    rw [← UInt64.toNat_inj, UInt32.toNat_toUInt64, UInt32.toNat_mul, UInt32.toNat_ofNat',
      UInt64.toNat_ofNat', Nat.mod_mul_mod]
    omega
  rw [remoteLocks, getElem?_flatMap_idxOf (fun x => by simp [peerLocks]) ha hj, peerLocks, hbase,
    List.getElem?_map,
    List.getElem?_range hj, Option.map_some, hoff]

/-- If the two sides agree on the last lock, its offset has 32 bits. -/
theorem Agree.offset_lt {D : Distribution} {lockHosts nodes a b : ℕ} (h : S.Agree D lockHosts nodes a b)
    (ha : a ∈ D.owners lockHosts nodes b) : (S.locksPerNode.toNat - 1) * S.chunkSize.toNat < 2 ^ 32 := by
  obtain ⟨locks, word, hloc', -, hagree⟩ := h
  obtain ⟨word', hloc, -⟩ := S.localLocks_spec a
  rw [hloc] at hloc'
  obtain ⟨rfl, rfl⟩ := Prod.mk.inj (Option.some.inj hloc')
  rcases Nat.eq_zero_or_pos S.locksPerNode.toNat with h0 | hpos
  · rw [h0]
    norm_num
  · obtain ⟨lock, hl, hr, -⟩ := hagree (S.locksPerNode.toNat - 1) (by omega)
    rw [S.remoteLocks_getElem? ha (by omega)] at hr
    rw [List.getElem?_map, List.getElem?_range (by omega), Option.map_some] at hl
    rw [← add_eq_iff (S.lock_lt a _ (by omega))]
    exact Option.some.inj (hr.trans hl.symm)

/-- A node and the owner of the locks agree if and only if the offset of the last lock has 32
bits. -/
theorem lock_tables_agree (D : Distribution) (lockHosts nodes a b : ℕ)
    (ha : a ∈ D.owners lockHosts nodes b) :
    S.Agree D lockHosts nodes a b ↔ (S.locksPerNode.toNat - 1) * S.chunkSize.toNat < 2 ^ 32 := by
  obtain ⟨word, hloc, hzero⟩ := S.localLocks_spec a
  constructor
  · exact fun h => h.offset_lt S ha
  · intro hlt
    refine ⟨_, word, hloc, by simp, fun j hj => ?_⟩
    have haddr : (Pointer.of (UInt16.ofNat a)
        (UInt64.ofNat (S.start a + j * S.chunkSize.toNat))).address.toNat =
        S.start a + j * S.chunkSize.toNat := by
      have hlt48 := S.lock_lt a j hj
      have hval : (UInt64.ofNat (S.start a + j * S.chunkSize.toNat)).toNat =
          S.start a + j * S.chunkSize.toNat := by
        rw [UInt64.toNat_ofNat']
        exact Nat.mod_eq_of_lt (by omega)
      rw [Pointer.address_of (by omega), hval]
    have hoff : j * S.chunkSize.toNat < 2 ^ 32 :=
      lt_of_le_of_lt (Nat.mul_le_mul_right _ (by omega)) hlt
    refine ⟨_, by rw [List.getElem?_map, List.getElem?_range hj, Option.map_some], ?_, fun x h1 h2 => ?_⟩
    · rw [S.remoteLocks_getElem? ha hj, (add_eq_iff (S.lock_lt a j hj)).2 hoff]
    · rw [haddr] at h1 h2
      apply hzero x (by omega)
      have : (j + 1) * S.chunkSize.toNat ≤ S.locksPerNode.toNat * S.chunkSize.toNat :=
        Nat.mul_le_mul_right _ hj
      rw [Nat.succ_mul] at this
      omega

/-- Nodes with regions of 8192 MiB in chunks of 64 bytes, three quarters of them shared. -/
def large (locksPerNode : UInt32) (h : locksPerNode ≤ 100663296) : Setup where
  chunkSize := 64
  size := 8192 * 2 ^ 20
  localPools := 1
  unsharedChunkNum := 2 ^ 25
  locksPerNode := locksPerNode
  start _ := 4096
  memory _ := ⟨fun _ => 7, []⟩
  le_chunkSize := by decide
  chunkSize_le := by decide
  start_ne_zero _ := by decide
  region_le _ := by decide
  locks_le := le_trans (UInt32.le_iff_toNat_le.1 h) (by decide)

/-- With `2 ^ 26` locks to a node all nodes agree. -/
theorem lock_tables_agree_large : 0 ∈ Distribution.uniform.owners 0 2 1 ∧
    (large 67108864 (by decide)).Agree .uniform 0 2 0 1 :=
  ⟨by decide, (lock_tables_agree _ .uniform 0 2 0 1 (by decide)).2 (by decide)⟩

/-- With one lock more, the offset of the last lock wraps to zero. -/
theorem lock_tables_differ : ¬ (large 67108865 (by decide)).Agree .uniform 0 2 0 1 := by
  intro h
  exact absurd (h.offset_lt _ (by decide)) (by decide)

end Setup

end Memory

end Farlock
