import Farlock.Lib.FreeList
import Mathlib.Data.List.Range

/-!
# The free lists of a region (`InitFreeLists` of `include/rdma/manager.h`)

`InitFreeLists` cuts the region into chunks and links them, with one running pointer, into the
shared list and one list for each pool.  Addresses are numbers and the memory holds a word at each
of them; the addresses of the stores are recorded.

* `initFreeLists`: the two nested loops;
* `Carved`: the lists are as they should be, and no store was made outside the region;
* `region_carved`: when they are.
-/

namespace Farlock

namespace Memory

/-- The memory, and the addresses of the stores that have been made. -/
structure Heap where
  word : ℕ → ℕ
  stores : List ℕ

/-- A store of the word `v` at the address `a`. -/
def Heap.store (m : Heap) (a v : ℕ) : Heap where
  word := Function.update m.word a v
  stores := m.stores ++ [a]

/-- `k` rounds of `current->next = current + chunk_size_; current = current->next;` -/
def linkChunks (chunkSize : ℕ) : ℕ → Heap → ℕ → Heap × ℕ
  | 0, m, current => (m, current)
  | k + 1, m, current =>
      let m := m.store current (current + chunkSize)
      linkChunks chunkSize k m (m.word current)

/-- One list that starts at `current`: the loop from `1` to `n`, then `current->next = nullptr`. -/
def initList (chunkSize n : ℕ) (m : Heap) (current : ℕ) : Heap × ℕ :=
  let (m, current) := linkChunks chunkSize (n - 1) m current
  (m.store current 0, current)

/-- The lists of the pools, each with its first chunk behind `current`. -/
def initPools (chunkSize chunkPerThread : ℕ) : ℕ → Heap → ℕ → Heap × List ℕ
  | 0, m, _ => (m, [])
  | k + 1, m, current =>
      let first := current + chunkSize
      let (m, current) := initList chunkSize chunkPerThread m first
      let (m, rest) := initPools chunkSize chunkPerThread k m current
      (m, first :: rest)

/-- The number of chunks of a region. -/
def chunkNum (size chunkSize : ℕ) : ℕ := size / chunkSize % 2 ^ 32

/-- `InitFreeLists`: the memory, `free_list_.next` and the `next` of each of `free_lists`.  The
number of chunks that are not shared is what the code computes from `shared_ratio`. -/
def initFreeLists (start size chunkSize localPools unsharedChunkNum : ℕ) (m : Heap) :
    Heap × ℕ × List ℕ :=
  let chunkPerThread := unsharedChunkNum / localPools
  let sharedChunkNum := chunkNum size chunkSize - unsharedChunkNum
  let (m, current) := initList chunkSize sharedChunkNum m start
  let (m, pools) := initPools chunkSize chunkPerThread localPools m current
  (m, start, pools)

/-! ### What the loops do -/

section Loops

variable {chunkSize : ℕ}

theorem store_word_of_ne (m : Heap) {a b : ℕ} (v : ℕ) (h : b ≠ a) :
    (m.store a v).word b = m.word b := by
  simp [Heap.store, Function.update_of_ne h]

theorem mem_range'_iff {p n step a : ℕ} : a ∈ List.range' p n step ↔ ∃ i < n, a = p + i * step := by
  rw [List.mem_range']
  constructor <;>
  · rintro ⟨i, hi, rfl⟩
    exact ⟨i, hi, by ring⟩

theorem linkChunks_snd (k : ℕ) (m : Heap) (current : ℕ) :
    (linkChunks chunkSize k m current).2 = current + k * chunkSize := by
  induction k generalizing m current with
  | zero => simp [linkChunks]
  | succ k ih =>
    rw [linkChunks, ih]
    simp only [Heap.store, Function.update_self]
    ring

theorem linkChunks_stores (k : ℕ) (m : Heap) (current : ℕ) :
    (linkChunks chunkSize k m current).1.stores = m.stores ++ List.range' current k chunkSize := by
  induction k generalizing m current with
  | zero => simp [linkChunks]
  | succ k ih =>
    rw [linkChunks, ih, List.range'_succ]
    simp [Heap.store]

/-- The loop changes no word outside the chunks it links. -/
theorem linkChunks_word_of_notMem {k a : ℕ} {m : Heap} {current : ℕ}
    (ha : a ∉ List.range' current k chunkSize) :
    (linkChunks chunkSize k m current).1.word a = m.word a := by
  induction k generalizing m current with
  | zero => rfl
  | succ k ih =>
    rw [List.range'_succ, List.mem_cons, not_or] at ha
    rw [linkChunks, ih]
    · exact store_word_of_ne m _ ha.1
    · simpa [Heap.store] using ha.2

/-- Each chunk is linked to the one behind it. -/
theorem linkChunks_word (hc : 0 < chunkSize) {k i : ℕ} (hi : i < k) (m : Heap) (current : ℕ) :
    (linkChunks chunkSize k m current).1.word (current + i * chunkSize) =
      current + (i + 1) * chunkSize := by
  induction k generalizing i m current with
  | zero => omega
  | succ k ih =>
    rw [linkChunks]
    simp only [Heap.store, Function.update_self]
    cases i with
    | zero =>
      rw [linkChunks_word_of_notMem]
      · simp
      · rw [mem_range'_iff]
        rintro ⟨j, -, hj⟩
        omega
    | succ i =>
      rw [show current + (i + 1) * chunkSize = current + chunkSize + i * chunkSize by ring,
        ih (by omega)]
      ring

/-- A list of `n` chunks is made of the chunks from `current` on, and of nothing else. -/
theorem initList_spec (hc : 0 < chunkSize) {n : ℕ} (hn : 1 ≤ n) (m : Heap) {current : ℕ}
    (h0 : current ≠ 0) :
    (initList chunkSize n m current).2 = current + (n - 1) * chunkSize ∧
    (initList chunkSize n m current).1.stores = m.stores ++ List.range' current n chunkSize ∧
    (∀ a ∉ List.range' current n chunkSize,
      (initList chunkSize n m current).1.word a = m.word a) ∧
    IsList (initList chunkSize n m current).1.word current (List.range' current n chunkSize) := by
  obtain ⟨k, rfl⟩ := Nat.exists_eq_add_of_le' hn
  have hlast : List.range' current (k + 1) chunkSize =
      List.range' current k chunkSize ++ [current + k * chunkSize] := by
    rw [List.range'_concat, mul_comm]
  simp only [initList, Nat.add_sub_cancel, linkChunks_snd, true_and]
  refine ⟨?_, ?_, ?_⟩
  · simp [Heap.store, linkChunks_stores, hlast]
  · intro a ha
    rw [hlast, List.mem_append, List.mem_singleton, not_or] at ha
    rw [store_word_of_ne _ _ ha.2, linkChunks_word_of_notMem ha.1]
  · apply isList_range' h0
    · intro i hi
      rw [store_word_of_ne, linkChunks_word hc hi]
      have := Nat.mul_lt_mul_of_pos_right hi hc
      omega
    · simp [Heap.store]

/-- The loop starts at `1`, so a list of no chunks is a list of one. -/
theorem initList_max (n : ℕ) (m : Heap) (current : ℕ) :
    initList chunkSize n m current = initList chunkSize (max 1 n) m current := by
  unfold initList
  rw [show max 1 n - 1 = n - 1 by omega]

theorem initPools_max (n k : ℕ) (m : Heap) (current : ℕ) :
    initPools chunkSize n k m current = initPools chunkSize (max 1 n) k m current := by
  induction k generalizing m current with
  | zero => rfl
  | succ k ih => simp only [initPools, initList_max n, ih]

/-- The chunks of the lists of `k` pools. -/
def poolChunks (chunkSize n : ℕ) : ℕ → ℕ → List (List ℕ)
  | 0, _ => []
  | k + 1, first => List.range' first n chunkSize :: poolChunks chunkSize n k (first + n * chunkSize)

theorem flatten_poolChunks (n k first : ℕ) :
    (poolChunks chunkSize n k first).flatten = List.range' first (k * n) chunkSize := by
  induction k generalizing first with
  | zero => simp [poolChunks]
  | succ k ih =>
    rw [poolChunks, List.flatten_cons, ih, Nat.succ_mul, Nat.add_comm (k * n), mul_comm n chunkSize,
      List.range'_append]

theorem length_of_mem_poolChunks {n k first : ℕ} {l : List ℕ}
    (hl : l ∈ poolChunks chunkSize n k first) : l.length = n := by
  induction k generalizing first with
  | zero => cases hl
  | succ k ih =>
    rcases List.mem_cons.1 hl with rfl | hl
    · simp
    · exact ih hl

/-- The lists of the pools lie one after the other behind `current`. -/
theorem initPools_spec (hc : 0 < chunkSize) {n : ℕ} (hn : 1 ≤ n) (k : ℕ) (m : Heap) (current : ℕ) :
    (initPools chunkSize n k m current).1.stores =
      m.stores ++ List.range' (current + chunkSize) (k * n) chunkSize ∧
    (∀ a ∉ List.range' (current + chunkSize) (k * n) chunkSize,
      (initPools chunkSize n k m current).1.word a = m.word a) ∧
    List.Forall₂ (IsList (initPools chunkSize n k m current).1.word)
      (initPools chunkSize n k m current).2 (poolChunks chunkSize n k (current + chunkSize)) := by
  induction k generalizing m current with
  | zero => simp [initPools, poolChunks]
  | succ k ih =>
    have h0' : current + chunkSize ≠ 0 := by omega
    obtain ⟨hcur, hst, hword, hlist⟩ := initList_spec hc hn m h0'
    have hfirst : (initList chunkSize n m (current + chunkSize)).2 + chunkSize =
        current + chunkSize + n * chunkSize := by
      rw [hcur]
      obtain ⟨n, rfl⟩ := Nat.exists_eq_add_of_le' hn
      simp only [Nat.add_sub_cancel]
      ring
    obtain ⟨ihst, ihword, ihlist⟩ := ih (initList chunkSize n m (current + chunkSize)).1
      (initList chunkSize n m (current + chunkSize)).2
    rw [hfirst] at ihst ihword ihlist
    have hsplit : List.range' (current + chunkSize) ((k + 1) * n) chunkSize =
        List.range' (current + chunkSize) n chunkSize ++
          List.range' (current + chunkSize + n * chunkSize) (k * n) chunkSize := by
      rw [Nat.succ_mul, Nat.add_comm (k * n), mul_comm n chunkSize, List.range'_append]
    simp only [initPools, poolChunks]
    refine ⟨?_, ?_, .cons ?_ ihlist⟩
    · rw [ihst, hst, hsplit, List.append_assoc]
    · intro a ha
      rw [hsplit, List.mem_append, not_or] at ha
      rw [ihword a ha.2, hword a ha.1]
    · apply hlist.congr
      intro a ha
      apply ihword
      -- the chunks of the first list are not among the later ones
      intro ha'
      obtain ⟨i, hi, rfl⟩ := mem_range'_iff.1 ha
      obtain ⟨j, -, hj⟩ := mem_range'_iff.1 ha'
      have := Nat.mul_lt_mul_of_pos_right hi hc
      omega

theorem initPools_length (n k : ℕ) (m : Heap) (current : ℕ) :
    (initPools chunkSize n k m current).2.length = k := by
  induction k generalizing m current with
  | zero => rfl
  | succ k ih => simp [initPools, ih]

end Loops

/-! ### The lists as they should be -/

/-- After `InitFreeLists` the shared list and the lists of the pools are null-terminated, disjoint
and made of aligned chunks inside the region, they have the lengths they should have, and no store
was made outside the region. -/
def Carved (start size chunkSize localPools unsharedChunkNum : ℕ) (m : Heap) : Prop :=
  let r := initFreeLists start size chunkSize localPools unsharedChunkNum m
  ∃ (shared : List ℕ) (pools : List (List ℕ)),
    IsList r.1.word r.2.1 shared ∧ List.Forall₂ (IsList r.1.word) r.2.2 pools ∧
    pools.length = localPools ∧
    shared.length = chunkNum size chunkSize - unsharedChunkNum ∧
    (∀ l ∈ pools, l.length = unsharedChunkNum / localPools) ∧
    (shared ++ pools.flatten).Nodup ∧
    (∀ a ∈ shared ++ pools.flatten, chunkSize ∣ a ∧ start ≤ a ∧ a + chunkSize ≤ start + size) ∧
    ∃ stores, r.1.stores = m.stores ++ stores ∧ ∀ a ∈ stores, start ≤ a ∧ a + 8 ≤ start + size

/-- The lists lie one after the other, and each of them has at least one chunk. -/
theorem initFreeLists_spec {start chunkSize : ℕ} (size localPools unsharedChunkNum : ℕ) (m : Heap)
    (h0 : start ≠ 0) (hc : 0 < chunkSize) :
    let r := initFreeLists start size chunkSize localPools unsharedChunkNum m
    let sharedChunkNum := max 1 (chunkNum size chunkSize - unsharedChunkNum)
    let chunkPerThread := max 1 (unsharedChunkNum / localPools)
    r.1.stores = m.stores ++
      List.range' start (sharedChunkNum + localPools * chunkPerThread) chunkSize ∧
    IsList r.1.word r.2.1 (List.range' start sharedChunkNum chunkSize) ∧
    List.Forall₂ (IsList r.1.word) r.2.2
      (poolChunks chunkSize chunkPerThread localPools (start + sharedChunkNum * chunkSize)) := by
  intro r sharedChunkNum chunkPerThread
  have hn : 1 ≤ sharedChunkNum := le_max_left _ _
  have hr : r = ((initPools chunkSize chunkPerThread localPools
      (initList chunkSize sharedChunkNum m start).1 (initList chunkSize sharedChunkNum m start).2).1,
      start, (initPools chunkSize chunkPerThread localPools
      (initList chunkSize sharedChunkNum m start).1 (initList chunkSize sharedChunkNum m start).2).2) := by
    simp only [r, initFreeLists, initPools_max (unsharedChunkNum / localPools),
      initList_max (chunkNum size chunkSize - unsharedChunkNum)]
    rfl
  obtain ⟨hcur, hst, -, hlist⟩ := initList_spec hc hn m h0
  have hfirst : (initList chunkSize sharedChunkNum m start).2 + chunkSize =
      start + sharedChunkNum * chunkSize := by
    rw [hcur]
    obtain ⟨k, hk⟩ := Nat.exists_eq_add_of_le' hn
    rw [hk, Nat.add_sub_cancel]
    ring
  obtain ⟨pst, pword, plist⟩ := initPools_spec hc (n := chunkPerThread) (le_max_left _ _) localPools
    (initList chunkSize sharedChunkNum m start).1 (initList chunkSize sharedChunkNum m start).2
  rw [hfirst] at pst pword plist
  rw [hr]
  refine ⟨?_, ?_, plist⟩
  · refine pst.trans ?_
    rw [hst, List.append_assoc, mul_comm sharedChunkNum chunkSize, List.range'_append]
  · apply hlist.congr
    intro a ha
    apply pword
    intro ha'
    obtain ⟨i, hi, rfl⟩ := mem_range'_iff.1 ha
    obtain ⟨j, -, hj⟩ := mem_range'_iff.1 ha'
    have := Nat.mul_lt_mul_of_pos_right hi hc
    omega

/-- Every list gets a chunk, so the lists can only be right if each of them should have one. -/
theorem Carved.bounds {start size chunkSize localPools unsharedChunkNum : ℕ} {m : Heap}
    (h : Carved start size chunkSize localPools unsharedChunkNum m) (h0 : start ≠ 0)
    (hc : 0 < chunkSize) (hpools : 1 ≤ localPools) :
    unsharedChunkNum < chunkNum size chunkSize ∧ localPools ≤ unsharedChunkNum := by
  obtain ⟨shared, pools, hlist, hlists, hlen, hshared, hthread, -⟩ := h
  constructor
  · -- the shared list has a chunk at the start of the region
    by_contra hge
    have hnil : shared = [] := List.length_eq_zero_iff.1 (by omega)
    exact h0 ((hlist.eq_nil_iff).1 hnil)
  · by_contra hlt
    rw [Nat.div_eq_of_lt (by omega)] at hthread
    obtain ⟨k, rfl⟩ := Nat.exists_eq_add_of_le' hpools
    cases hlists with
    | cons hl _ =>
      have hnil := List.length_eq_zero_iff.1 (hthread _ List.mem_cons_self)
      have := (hl.eq_nil_iff).1 hnil
      omega

/-- `InitFreeLists` carves the region as it should if and only if at least one chunk is shared and
there is at least one chunk for each pool. -/
theorem region_carved {start size chunkSize localPools unsharedChunkNum : ℕ} (m : Heap)
    (h0 : start ≠ 0) (hc : 8 ≤ chunkSize) (hstart : chunkSize ∣ start) (hsize : chunkSize ∣ size)
    (hnum : size / chunkSize < 2 ^ 32) (hpools : 1 ≤ localPools)
    (hunshared : unsharedChunkNum ≤ chunkNum size chunkSize) :
    Carved start size chunkSize localPools unsharedChunkNum m ↔
      unsharedChunkNum < chunkNum size chunkSize ∧ localPools ≤ unsharedChunkNum := by
  constructor
  · exact fun h => h.bounds h0 (by omega) hpools
  · rintro ⟨hshared, hthread⟩
    have hper : 1 ≤ unsharedChunkNum / localPools := Nat.div_pos hthread (by omega)
    have hc : 0 < chunkSize := by omega
    obtain ⟨hst, hlist, hlists⟩ := initFreeLists_spec size localPools unsharedChunkNum m h0 hc
    have hone : 1 ≤ chunkNum size chunkSize - unsharedChunkNum := Nat.sub_pos_of_lt hshared
    rw [max_eq_right hone] at hst hlist hlists
    rw [max_eq_right hper] at hst hlists
    have hall : List.range' start (chunkNum size chunkSize - unsharedChunkNum) chunkSize ++
        (poolChunks chunkSize (unsharedChunkNum / localPools) localPools
          (start + (chunkNum size chunkSize - unsharedChunkNum) * chunkSize)).flatten =
        List.range' start (chunkNum size chunkSize - unsharedChunkNum +
          localPools * (unsharedChunkNum / localPools)) chunkSize := by
      rw [flatten_poolChunks, mul_comm _ chunkSize, List.range'_append]
    -- all chunks are within the region
    have hle : chunkNum size chunkSize - unsharedChunkNum +
        localPools * (unsharedChunkNum / localPools) ≤ size / chunkSize := by
      have := Nat.mul_div_le unsharedChunkNum localPools
      rw [chunkNum, Nat.mod_eq_of_lt hnum] at hunshared ⊢
      omega
    have hin : ∀ a ∈ List.range' start (chunkNum size chunkSize - unsharedChunkNum +
        localPools * (unsharedChunkNum / localPools)) chunkSize,
        chunkSize ∣ a ∧ start ≤ a ∧ a + chunkSize ≤ start + size := by
      intro a ha
      obtain ⟨i, hi, rfl⟩ := mem_range'_iff.1 ha
      refine ⟨hstart.add (Dvd.intro_left i rfl), Nat.le_add_right _ _, ?_⟩
      have hlast : (i + 1) * chunkSize ≤ size := by
        calc (i + 1) * chunkSize ≤ size / chunkSize * chunkSize :=
              Nat.mul_le_mul_right _ (by omega)
          _ = size := Nat.div_mul_cancel hsize
      rw [Nat.succ_mul] at hlast
      omega
    refine ⟨_, _, hlist, hlists, ?_, by simp, fun l hl => length_of_mem_poolChunks hl, ?_, ?_, _, hst, ?_⟩
    · rw [← hlists.length_eq]
      exact initPools_length _ _ _ _
    · rw [hall]
      exact List.nodup_range' chunkSize (by omega)
    · rw [hall]
      exact hin
    · intro a ha
      obtain ⟨-, h1, h2⟩ := hin a ha
      omega

/-- Four chunks, two of them shared, and two pools. -/
theorem region_carved_four : Carved 4096 256 64 2 2 ⟨fun _ => 7, []⟩ :=
  (region_carved _ (by decide) (by decide) (by decide) (by decide) (by decide) (by decide)
    (by decide)).2 ⟨by decide, by decide⟩

/-- With nothing shared the shared list still gets a chunk, and the last list runs past the region;
with more pools than chunks for them each pool still gets one. -/
theorem region_overrun :
    ¬ Carved 4096 256 64 2 4 ⟨fun _ => 7, []⟩ ∧
    4096 + 256 ∈ (initFreeLists 4096 256 64 2 4 ⟨fun _ => 7, []⟩).1.stores ∧
    ¬ Carved 4096 256 64 4 2 ⟨fun _ => 7, []⟩ ∧
    4096 + 256 ∈ (initFreeLists 4096 256 64 4 2 ⟨fun _ => 7, []⟩).1.stores := by
  refine ⟨fun h => ?_, by decide, fun h => ?_, by decide⟩
  · exact absurd (h.bounds (by decide) (by decide) (by decide)).1 (by decide)
  · exact absurd (h.bounds (by decide) (by decide) (by decide)).2 (by decide)

end Memory

end Farlock
