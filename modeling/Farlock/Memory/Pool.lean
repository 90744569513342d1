import Mathlib
import Farlock.Lib.FreeList
import Farlock.Lib.Transition
import Farlock.Memory.Pointer

/-!
# The memory pool of a thread (`include/rdma/memory_pool.h`)

A `MemoryPool` has the free list that was carved for it.  Its constructor takes chunks from the list
and cuts them into the scratch words of the value-form RDMA operations; `Allocate` and `Free` hand
out and take back the others.  The links of the list are the first words of the chunks in it, and
the clients write what they want into the chunks they hold.

* `new`, `allocate`, `free`, `nextBuffer`, `isLocal`: the code;
* `Step`: what the pool, its clients and its RDMA operations can do;
* `never_handed_out_twice`: free, held and scratch chunks are disjoint and make up the chunks of the
  pool.
-/

namespace Farlock

namespace Memory

/-- `MemoryPool` -/
structure MemoryPool where
  /-- `free_list_.next` -/
  freeList : ℕ
  chunkSize : ℕ
  nodeId : UInt16
  bufferCount : ℕ
  bufferIndex : ℕ
  /-- `local_buffer_pointers_` -/
  buffers : List Pointer

namespace MemoryPool

/-- `Allocate`: the pointer, and the pool without its first free chunk. -/
def allocate (P : MemoryPool) (word : ℕ → ℕ) : Pointer × MemoryPool :=
  if P.freeList = 0 then (Pointer.null, P)
  else (Pointer.of P.nodeId (UInt64.ofNat P.freeList), { P with freeList := word P.freeList })

/-- `Free`: the memory and the pool with the chunk in front of the free list. -/
def free (P : MemoryPool) (word : ℕ → ℕ) (ptr : Pointer) : (ℕ → ℕ) × MemoryPool :=
  let chunk := ptr.address.toNat
  (Function.update word chunk P.freeList, { P with freeList := chunk })

/-- `bindex = buffer_index_++; buffer_index_ %= buffer_count_;` and the scratch word at `bindex`. -/
def nextBuffer (P : MemoryPool) : Option Pointer × MemoryPool :=
  (P.buffers[P.bufferIndex]?, { P with bufferIndex := (P.bufferIndex + 1) % P.bufferCount })

/-- The words of a chunk, up to `n` of them. -/
def wordsOf (ptr : Pointer) (n : ℕ) : List Pointer :=
  (List.range n).map fun j => ptr.add (UInt64.ofNat (j * 8))

/-- The loop of the constructor, in at most `rounds` rounds: a chunk is taken and as many words of
it as are still needed.  There is no pool if the free list runs out. -/
def fillBuffers (word : ℕ → ℕ) : ℕ → MemoryPool → Option MemoryPool
  | 0, P => if P.buffers.length < P.bufferCount then none else some P
  | rounds + 1, P =>
      if P.buffers.length < P.bufferCount then
        let (ptr, P) := P.allocate word
        if ptr = Pointer.null then none
        else
          let n := min (P.chunkSize / 8) (P.bufferCount - P.buffers.length)
          fillBuffers word rounds { P with buffers := P.buffers ++ wordsOf ptr n }
      else some P

/-- The constructor.  Every round of the loop fills at least one of the scratch words; there is no
pool if the counter of the loop, an `int`, would overflow. -/
def new (word : ℕ → ℕ) (freeList chunkSize : ℕ) (nodeId : UInt16) (bufferCount : ℕ) :
    Option MemoryPool :=
  if 2 ^ 31 ≤ bufferCount then none
  else fillBuffers word bufferCount ⟨freeList, chunkSize, nodeId, bufferCount, 0, []⟩

/-- `IsLocal` -/
def isLocal (P : MemoryPool) (ptr : Pointer) : Bool := ptr.id == P.nodeId

end MemoryPool

/-- The memory, the pool and the chunks that its clients hold. -/
structure PoolState where
  word : ℕ → ℕ
  pool : MemoryPool
  held : List ℕ

/-- What happens to a pool. -/
inductive PoolStep : PoolState → Option Pointer → PoolState → Prop
  /-- a client calls `Allocate` and gets a chunk -/
  | allocate {s : PoolState} {ptr : Pointer} {P : MemoryPool} :
      s.pool.allocate s.word = (ptr, P) → ptr ≠ Pointer.null →
      PoolStep s none ⟨s.word, P, ptr.address.toNat :: s.held⟩
  /-- a client calls `Allocate` in vain -/
  | exhausted {s : PoolState} {P : MemoryPool} :
      s.pool.allocate s.word = (Pointer.null, P) → PoolStep s none ⟨s.word, P, s.held⟩
  /-- a client calls `Free` with a chunk it holds -/
  | free {s : PoolState} {c : ℕ} {word : ℕ → ℕ} {P : MemoryPool} :
      c ∈ s.held → s.pool.free s.word (Pointer.of s.pool.nodeId (UInt64.ofNat c)) = (word, P) →
      PoolStep s none ⟨word, P, s.held.erase c⟩
  /-- a value-form RDMA operation puts a value into the next scratch word `ptr` -/
  | scratch {s : PoolState} {ptr : Pointer} {P : MemoryPool} {v : ℕ} :
      s.pool.nextBuffer = (some ptr, P) →
      PoolStep s (some ptr) ⟨Function.update s.word ptr.address.toNat v, P, s.held⟩
  /-- a client writes into a chunk it holds -/
  | write {s : PoolState} {c : ℕ} {word : ℕ → ℕ} :
      c ∈ s.held → (∀ x, ¬ (c ≤ x ∧ x < c + s.pool.chunkSize) → word x = s.word x) →
      PoolStep s none ⟨word, s.pool, s.held⟩

/-! ### Chunks and words -/

/-- The chunks `cs` that a pool is given. -/
structure Chunks (chunkSize : ℕ) (cs : List ℕ) : Prop where
  size : ∃ k, 6 ≤ k ∧ k ≤ 12 ∧ chunkSize = 2 ^ k
  nodup : cs.Nodup
  ne_zero : ∀ c ∈ cs, c ≠ 0
  aligned : ∀ c ∈ cs, chunkSize ∣ c
  /-- addresses have 48 bits -/
  le : ∀ c ∈ cs, c + chunkSize ≤ 2 ^ 48

section Chunks

variable {chunkSize : ℕ} {cs : List ℕ} {c x : ℕ} {id : UInt16}

theorem Chunks.le_chunkSize (h : Chunks chunkSize cs) : 64 ≤ chunkSize := by
  obtain ⟨k, hk, -, rfl⟩ := h.size
  calc 64 = 2 ^ 6 := rfl
    _ ≤ 2 ^ k := Nat.pow_le_pow_right (by norm_num) hk

theorem Chunks.eight_dvd (h : Chunks chunkSize cs) : 8 ∣ chunkSize := by
  obtain ⟨k, hk, -, rfl⟩ := h.size
  exact pow_dvd_pow 2 (by omega : 3 ≤ k)

theorem Chunks.lt (h : Chunks chunkSize cs) (hc : c ∈ cs) : c < 2 ^ 48 := by
  have h1 := h.le_chunkSize
  have h2 := h.le c hc
  omega

/-- An aligned address within a chunk is the start of the chunk. -/
theorem eq_of_aligned (hc : chunkSize ∣ c) (hx : chunkSize ∣ x) (hle : c ≤ x)
    (hlt : x < c + chunkSize) : x = c := by
  obtain ⟨i, rfl⟩ := hc
  obtain ⟨j, rfl⟩ := hx
  have hij : i ≤ j := by
    by_contra hji
    have := Nat.mul_lt_mul_of_pos_left (show j < i by omega) (by omega : 0 < chunkSize)
    omega
  have hji : j < i + 1 := by
    by_contra hji
    have := Nat.mul_le_mul_left chunkSize (show i + 1 ≤ j by omega)
    rw [Nat.mul_succ] at this
    omega
  rw [show j = i by omega]

theorem toNat_ofNat_of_lt {n : ℕ} (hn : n < 2 ^ 48) : (UInt64.ofNat n).toNat = n := by
  rw [UInt64.toNat_ofNat']
  exact Nat.mod_eq_of_lt (by omega)

/-- The pointer to a chunk holds its address. -/
theorem address_chunk (hx : x < 2 ^ 48) : (Pointer.of id (UInt64.ofNat x)).address.toNat = x := by
  rw [Pointer.address_of (by rwa [toNat_ofNat_of_lt hx]), toNat_ofNat_of_lt hx]

theorem chunk_ne_null (h0 : x ≠ 0) (hx : x < 2 ^ 48) : Pointer.of id (UInt64.ofNat x) ≠ Pointer.null := by
  intro h
  have : (Pointer.of id (UInt64.ofNat x)).address.toNat = x := address_chunk hx
  rw [h] at this
  exact h0 this.symm

/-- The pointer to a word of a chunk holds the address of the word. -/
theorem address_word {j : ℕ} (hx : x + j * 8 < 2 ^ 48) :
    ((Pointer.of id (UInt64.ofNat x)).add (UInt64.ofNat (j * 8))).address.toNat = x + j * 8 := by
  have hoff : (UInt64.ofNat x).toNat + (UInt64.ofNat (j * 8)).toNat < 2 ^ 48 := by
    rwa [toNat_ofNat_of_lt (by omega), toNat_ofNat_of_lt (by omega)]
  rw [Pointer.add_of hoff, ← UInt64.ofNat_add, address_chunk hx]

end Chunks

/-! ### The constructor -/

namespace MemoryPool

/-- The address of a scratch word. -/
def addr (ptr : Pointer) : ℕ := ptr.address.toNat

/-- All words of the chunks `cs`. -/
def words (id : UInt16) (chunkSize : ℕ) (cs : List ℕ) : List Pointer :=
  cs.flatMap fun c => wordsOf (Pointer.of id (UInt64.ofNat c)) (chunkSize / 8)

theorem words_cons (id : UInt16) (chunkSize c : ℕ) (cs : List ℕ) :
    words id chunkSize (c :: cs) =
      wordsOf (Pointer.of id (UInt64.ofNat c)) (chunkSize / 8) ++ words id chunkSize cs :=
  List.flatMap_cons

theorem length_words (id : UInt16) (chunkSize : ℕ) (cs : List ℕ) :
    (words id chunkSize cs).length = cs.length * (chunkSize / 8) := by
  induction cs with
  | nil => simp [words]
  | cons c cs ih =>
    rw [words_cons, List.length_append, ih, List.length_cons, Nat.succ_mul]
    simp [wordsOf, Nat.add_comm]

theorem wordsOf_take (ptr : Pointer) (n k : ℕ) : (wordsOf ptr n).take k = wordsOf ptr (min k n) := by
  simp [wordsOf, ← List.map_take, List.take_range]

/-- The loop takes chunks from the front of the free list until it has enough words, and no more. -/
theorem fillBuffers_spec {word : ℕ → ℕ} {cs : List ℕ} {P : MemoryPool} {rounds : ℕ}
    (hlist : IsList word P.freeList cs) (hlt : ∀ c ∈ cs, c < 2 ^ 48) (hw : 0 < P.chunkSize / 8)
    (hle : P.buffers.length ≤ P.bufferCount)
    (henough : P.bufferCount - P.buffers.length ≤ cs.length * (P.chunkSize / 8))
    (hrounds : P.bufferCount - P.buffers.length ≤ rounds) :
    ∃ scratch rest P', cs = scratch ++ rest ∧ fillBuffers word rounds P = some P' ∧
      IsList word P'.freeList rest ∧
      P'.buffers = P.buffers ++
        (words P.nodeId P.chunkSize scratch).take (P.bufferCount - P.buffers.length) ∧
      P.bufferCount - P.buffers.length ≤ scratch.length * (P.chunkSize / 8) ∧
      scratch.length * (P.chunkSize / 8) < P.bufferCount - P.buffers.length + P.chunkSize / 8 ∧
      P'.chunkSize = P.chunkSize ∧ P'.nodeId = P.nodeId ∧ P'.bufferCount = P.bufferCount ∧
      P'.bufferIndex = P.bufferIndex := by
  induction rounds generalizing P cs with
  | zero =>
    refine ⟨[], cs, P, rfl, if_neg (by omega), hlist, ?_, by simp; omega, by simp; omega, rfl, rfl, rfl, rfl⟩
    simp [words]
  | succ rounds ih =>
    by_cases hfull : P.buffers.length < P.bufferCount
    · cases cs with
      | nil => simp at henough; omega
      | cons c cs =>
        obtain ⟨hfree, hc0, hrest⟩ := hlist
        have hc : c < 2 ^ 48 := hlt c List.mem_cons_self
        set n := min (P.chunkSize / 8) (P.bufferCount - P.buffers.length) with hn
        have hlen : (P.buffers ++ wordsOf (Pointer.of P.nodeId (UInt64.ofNat c)) n).length =
            P.buffers.length + n := by simp [wordsOf]
        rw [List.length_cons, Nat.succ_mul] at henough
        obtain ⟨scratch, rest, P', rfl, hfill, hlist', hbuf, h1, h2, hsize, hid, hcount, hidx⟩ := ih
          (P := { P with
            freeList := word c
            buffers := P.buffers ++ wordsOf (Pointer.of P.nodeId (UInt64.ofNat c)) n }) hrest
          (fun a ha => hlt a (List.mem_cons_of_mem c ha)) hw (by simp only [hlen]; omega)
          (by simp only [hlen]; omega) (by simp only [hlen]; omega)
        simp only [hlen] at hbuf h1 h2
        refine ⟨c :: scratch, rest, P', rfl, ?_, hlist', ?_, ?_, ?_, hsize, hid, hcount, hidx⟩
        · simp only [fillBuffers, if_pos hfull, allocate, hfree, if_neg hc0, if_neg (chunk_ne_null hc0 hc)]
          exact hfill
        · rw [hbuf, List.append_assoc]
          congr 1
          rw [words_cons, List.take_append, wordsOf_take, min_comm, ← hn]
          congr 2
          simp [wordsOf]
          omega
        · rw [List.length_cons, Nat.succ_mul]
          omega
        · rw [List.length_cons, Nat.succ_mul]
          by_cases hrem : P.chunkSize / 8 ≤ P.bufferCount - P.buffers.length
          · omega
          · -- no further chunk is taken after the last one
            have hlast : scratch.length * (P.chunkSize / 8) < 1 * (P.chunkSize / 8) := by omega
            rw [show scratch.length = 0 from Nat.lt_one_iff.1 (Nat.lt_of_mul_lt_mul_right hlast)]
            omega
    · refine ⟨[], cs, P, rfl, ?_, hlist, ?_, by simp; omega, by simp; omega, rfl, rfl, rfl, rfl⟩
      · rw [fillBuffers, if_neg hfull]
      · simp [words]

section Words

variable {chunkSize : ℕ} {cs : List ℕ} {id : UInt16} (hcs : Chunks chunkSize cs)

include hcs

theorem addr_wordsOf {c j : ℕ} (hc : c ∈ cs) (hj : j < chunkSize / 8) :
    addr ((Pointer.of id (UInt64.ofNat c)).add (UInt64.ofNat (j * 8))) = c + j * 8 := by
  apply address_word
  have := hcs.le c hc
  omega

/-- A word of some chunks lies in one of them. -/
theorem exists_chunk {p : Pointer} (hp : p ∈ words id chunkSize cs) :
    ∃ c ∈ cs, ∃ j < chunkSize / 8, addr p = c + j * 8 := by
  obtain ⟨c, hc, hpc⟩ := List.mem_flatMap.1 hp
  obtain ⟨j, hj, rfl⟩ := List.mem_map.1 hpc
  rw [List.mem_range] at hj
  exact ⟨c, hc, j, hj, addr_wordsOf hcs hc hj⟩

/-- The words of distinct chunks do not overlap. -/
theorem pairwise_words :
    (words id chunkSize cs).Pairwise fun p q => addr p + 8 ≤ addr q ∨ addr q + 8 ≤ addr p := by
  rw [words, List.pairwise_flatMap]
  constructor
  · intro c hc
    rw [wordsOf, List.pairwise_map, List.pairwise_iff_getElem]
    intro i j hi hj hij
    simp only [List.length_range] at hi hj
    rw [List.getElem_range, List.getElem_range, addr_wordsOf hcs hc hi, addr_wordsOf hcs hc hj]
    omega
  · refine List.Pairwise.imp_of_mem ?_ hcs.nodup
    intro c d hc hd hne p hp q hq
    obtain ⟨i, hi, rfl⟩ := List.mem_map.1 hp
    obtain ⟨j, hj, rfl⟩ := List.mem_map.1 hq
    rw [List.mem_range] at hi hj
    rw [addr_wordsOf hcs hc hi, addr_wordsOf hcs hd hj]
    -- otherwise one chunk would start within the other
    by_contra hover
    rcases le_total c d with hle | hle
    · exact hne (eq_of_aligned (hcs.aligned c hc) (hcs.aligned d hd) hle (by omega)).symm
    · exact hne (eq_of_aligned (hcs.aligned d hd) (hcs.aligned c hc) hle (by omega))

end Words

end MemoryPool

/-! ### The pool and its clients -/

open MemoryPool

/-- The pool with the free list `freeList` of chunks `cs`, as it starts and runs. -/
def poolSystem (s₀ : PoolState) : Lts PoolState Pointer where
  init s := s = s₀
  step := PoolStep

/-- What holds of a pool that was given the chunks `cs` and made `bufferCount` scratch words. -/
structure PoolOk (cs : List ℕ) (bufferCount : ℕ) (s : PoolState) : Prop where
  /-- the free chunks, the held chunks and the chunks of the scratch words are the chunks of the
  pool -/
  split : ∃ free scratch, IsList s.word s.pool.freeList free ∧
    (free ++ s.held ++ scratch).Perm cs ∧ (free ++ s.held ++ scratch).Nodup ∧
    (∀ p ∈ s.pool.buffers, ∃ c ∈ scratch, c ≤ addr p ∧ addr p + 8 ≤ c + s.pool.chunkSize) ∧
    ∀ c ∈ scratch, ∃ p ∈ s.pool.buffers, c ≤ addr p ∧ addr p + 8 ≤ c + s.pool.chunkSize
  /-- the scratch words are disjoint aligned words -/
  length : s.pool.buffers.length = bufferCount
  aligned : ∀ p ∈ s.pool.buffers, 8 ∣ addr p
  disjoint : s.pool.buffers.Pairwise fun p q => addr p + 8 ≤ addr q ∨ addr q + 8 ≤ addr p
  /-- the next operation uses one of them -/
  next : ∃ p ∈ s.pool.buffers, s.pool.nextBuffer.1 = some p
  /-- no held chunk overlaps a scratch word -/
  apart : ∀ c ∈ s.held, ∀ p ∈ s.pool.buffers, addr p + 8 ≤ c ∨ c + s.pool.chunkSize ≤ addr p

/-- The pool has the words `ws` in the chunks `scratch`, and the other chunks of `cs` are free or
held. -/
structure PoolInv (cs scratch : List ℕ) (size count : ℕ) (ws : List Pointer) (s : PoolState) :
    Prop where
  chunkSize : s.pool.chunkSize = size
  bufferCount : s.pool.bufferCount = count
  buffers : s.pool.buffers = ws
  index : s.pool.bufferIndex < count
  free : ∃ free, IsList s.word s.pool.freeList free ∧ (free ++ s.held ++ scratch).Perm cs

section Inv

variable {cs scratch : List ℕ} {size count : ℕ} {ws : List Pointer} {s s' : PoolState}
  {e : Option Pointer}

/-- A store into a chunk that is not free leaves the free list as it is. -/
theorem isList_of_store {free : List ℕ} {word word' : ℕ → ℕ} {p c : ℕ} (hcs : Chunks size cs)
    (hlist : IsList word p free) (hfree : ∀ a ∈ free, a ∈ cs) (hc : c ∈ cs) (hnot : c ∉ free)
    (hword : ∀ x, ¬ (c ≤ x ∧ x < c + size) → word' x = word x) : IsList word' p free := by
  apply hlist.congr
  intro a ha
  apply hword
  rintro ⟨h1, h2⟩
  have := eq_of_aligned (hcs.aligned c hc) (hcs.aligned a (hfree a ha)) h1 h2
  exact hnot (this ▸ ha)

/-- Every step keeps the invariant, and uses no scratch word but those of the pool. -/
theorem PoolInv.step (h : PoolInv cs scratch size count ws s) (hcs : Chunks size cs)
    (hws : ws.length = count)
    (hin : ∀ p ∈ ws, ∃ c ∈ scratch, c ≤ addr p ∧ addr p + 8 ≤ c + size)
    (hs : PoolStep s e s') : PoolInv cs scratch size count ws s' ∧ ∀ p ∈ e, p ∈ ws := by
  obtain ⟨free, hlist, hperm⟩ := h.free
  have hmem : ∀ a, a ∈ free ∨ a ∈ s.held ∨ a ∈ scratch → a ∈ cs := by
    intro a ha
    apply hperm.mem_iff.1
    simpa [or_assoc] using ha
  have hnodup : (free ++ s.held ++ scratch).Nodup := hperm.nodup_iff.2 hcs.nodup
  rw [List.append_assoc] at hnodup
  have hdisj := List.disjoint_of_nodup_append hnodup
  cases hs with
  | @allocate ptr P hal hne =>
    refine ⟨?_, by simp⟩
    unfold MemoryPool.allocate at hal
    split_ifs at hal with h0
    · exact absurd (congrArg Prod.fst hal).symm hne
    · obtain ⟨rest, rfl, hrest⟩ := hlist.exists_cons h0
      obtain ⟨rfl, rfl⟩ := Prod.mk.inj hal
      have hlt := hcs.lt (hmem s.pool.freeList (.inl List.mem_cons_self))
      refine ⟨h.chunkSize, h.bufferCount, h.buffers, h.index, rest, hrest, ?_⟩
      rw [address_chunk hlt]
      refine List.Perm.trans ?_ hperm
      simp only [List.cons_append, List.append_assoc]
      exact List.perm_middle
  | @exhausted P hal =>
    refine ⟨?_, by simp⟩
    unfold MemoryPool.allocate at hal
    split_ifs at hal with h0
    · obtain ⟨-, rfl⟩ := Prod.mk.inj hal
      exact h
    · obtain ⟨rest, rfl, -⟩ := hlist.exists_cons h0
      have hlt := hcs.lt (hmem s.pool.freeList (.inl List.mem_cons_self))
      exact absurd (congrArg Prod.fst hal) (chunk_ne_null h0 hlt)
  | @free c word P hc hfree =>
    refine ⟨?_, by simp⟩
    have hcc := hmem c (.inr (.inl hc))
    have hnot : c ∉ free := fun hcf => hdisj hcf (List.mem_append_left _ hc)
    simp only [MemoryPool.free, address_chunk (hcs.lt hcc), Prod.mk.injEq] at hfree
    obtain ⟨rfl, rfl⟩ := hfree
    refine ⟨h.chunkSize, h.bufferCount, h.buffers, h.index, c :: free,
      hlist.push (hcs.ne_zero c hcc) hnot, ?_⟩
    refine List.Perm.trans ?_ hperm
    have herase := List.perm_cons_erase hc
    calc c :: free ++ s.held.erase c ++ scratch
        = c :: (free ++ s.held.erase c) ++ scratch := rfl
      _ |>.Perm (free ++ c :: s.held.erase c ++ scratch) :=
          List.perm_middle.symm.append_right scratch
      _ |>.Perm (free ++ s.held ++ scratch) :=
          (herase.symm.append_left free).append_right scratch
  | @scratch ptr P v hnext =>
    simp only [MemoryPool.nextBuffer, Prod.mk.injEq] at hnext
    obtain ⟨hptr, rfl⟩ := hnext
    have hp : ptr ∈ ws := h.buffers ▸ List.mem_of_getElem? hptr
    refine ⟨⟨h.chunkSize, h.bufferCount, h.buffers, ?_, free, ?_, hperm⟩, by simpa using hp⟩
    · show (s.pool.bufferIndex + 1) % s.pool.bufferCount < count
      rw [h.bufferCount]
      exact Nat.mod_lt _ (by have := h.index; omega)
    · obtain ⟨c, hc, h1, h2⟩ := hin ptr hp
      refine isList_of_store hcs hlist (fun a ha => hmem a (.inl ha)) (hmem c (.inr (.inr hc)))
        (fun hcf => hdisj hcf (List.mem_append_right _ hc)) fun x hx => ?_
      apply Function.update_of_ne
      rintro rfl
      exact hx ⟨h1, lt_of_lt_of_le (Nat.lt_add_of_pos_right (by norm_num)) h2⟩
  | @write c word hc hword =>
    refine ⟨⟨h.chunkSize, h.bufferCount, h.buffers, h.index, free, ?_, hperm⟩, by simp⟩
    rw [h.chunkSize] at hword
    exact isList_of_store hcs hlist (fun a ha => hmem a (.inl ha)) (hmem c (.inr (.inl hc)))
      (fun hcf => hdisj hcf (List.mem_append_left _ hc)) hword

/-- What the invariant says of the pool. -/
theorem PoolInv.poolOk (h : PoolInv cs scratch size count ws s) (hcs : Chunks size cs)
    (hws : ws.length = count)
    (hin : ∀ p ∈ ws, ∃ c ∈ scratch, ∃ j < size / 8, addr p = c + j * 8)
    (hused : ∀ c ∈ scratch, ∃ p ∈ ws, addr p = c)
    (hdisj : ws.Pairwise fun p q => addr p + 8 ≤ addr q ∨ addr q + 8 ≤ addr p) :
    PoolOk cs count s := by
  obtain ⟨free, hlist, hperm⟩ := h.free
  have hnodup : (free ++ s.held ++ scratch).Nodup := hperm.nodup_iff.2 hcs.nodup
  have h64 := hcs.le_chunkSize
  refine ⟨⟨free, scratch, hlist, hperm, hnodup, ?_, ?_⟩, ?_, ?_, ?_, ?_, ?_⟩
  · intro p hp
    obtain ⟨c, hc, j, hj, hpc⟩ := hin p (h.buffers ▸ hp)
    rw [h.chunkSize]
    exact ⟨c, hc, by omega, by omega⟩
  · intro c hc
    obtain ⟨p, hp, hpc⟩ := hused c hc
    rw [h.chunkSize, h.buffers]
    exact ⟨p, hp, by omega, by omega⟩
  · rw [h.buffers, hws]
  · intro p hp
    obtain ⟨c, hc, j, -, hpc⟩ := hin p (h.buffers ▸ hp)
    have hcc : c ∈ cs := hperm.mem_iff.1 (List.mem_append_right _ hc)
    rw [hpc]
    exact (hcs.eight_dvd.trans (hcs.aligned c hcc)).add (Nat.dvd_mul_left 8 j)
  · rwa [h.buffers]
  · have hlt : s.pool.bufferIndex < s.pool.buffers.length := by
      rw [h.buffers, hws]
      exact h.index
    exact ⟨_, List.getElem_mem hlt, List.getElem?_eq_getElem hlt⟩
  · intro c hc p hp
    obtain ⟨d, hd, j, hj, hpd⟩ := hin p (h.buffers ▸ hp)
    have hcc : c ∈ cs := hperm.mem_iff.1 (List.mem_append_left _ (List.mem_append_right _ hc))
    have hdc : d ∈ cs := hperm.mem_iff.1 (List.mem_append_right _ hd)
    rw [List.append_assoc, List.nodup_append] at hnodup
    have hne : c ≠ d := (List.nodup_append.1 hnodup.2.1).2.2 c hc d hd
    rw [h.chunkSize, hpd]
    by_contra hover
    rcases le_total c d with hle | hle
    · exact hne (eq_of_aligned (hcs.aligned c hcc) (hcs.aligned d hdc) hle (by omega)).symm
    · exact hne (eq_of_aligned (hcs.aligned d hdc) (hcs.aligned c hcc) hle (by omega))

end Inv

/-- The scratch chunks are all used: the first word of each of them is a scratch word. -/
theorem exists_first_word {id : UInt16} {size count : ℕ} {scratch : List ℕ} (hcs : Chunks size scratch)
    (hlt : scratch.length * (size / 8) < count + size / 8) {c : ℕ} (hc : c ∈ scratch) :
    ∃ p ∈ (words id size scratch).take count, addr p = c := by
  have h64 := hcs.le_chunkSize
  have hw : 0 < size / 8 := by omega
  obtain ⟨l₁, l₂, rfl⟩ := List.append_of_mem hc
  have hpos : l₁.length * (size / 8) < count := by
    have hle : (l₁.length + 1) * (size / 8) ≤ (l₁ ++ c :: l₂).length * (size / 8) :=
      Nat.mul_le_mul_right _ (by simp)
    rw [Nat.succ_mul] at hle
    omega
  have hsplit : words id size (l₁ ++ c :: l₂) = words id size l₁ ++ words id size (c :: l₂) :=
    List.flatMap_append
  have hget : (words id size (l₁ ++ c :: l₂))[l₁.length * (size / 8)]? =
      some ((Pointer.of id (UInt64.ofNat c)).add (UInt64.ofNat (0 * 8))) := by
    rw [hsplit, List.getElem?_append_right (by rw [length_words]), length_words, Nat.sub_self,
      words_cons, List.getElem?_append_left (by simpa [wordsOf] using hw), wordsOf, List.getElem?_map,
      List.getElem?_range hw, Option.map_some]
  rw [← List.getElem?_take_of_lt hpos] at hget
  exact ⟨_, List.mem_of_getElem? hget, addr_wordsOf hcs hc hw⟩

/-- A pool never hands out memory twice.  Given a free list of chunks that is long enough for the
scratch words, the constructor succeeds, and then, whatever its clients and its RDMA operations do,
the free chunks, the held chunks and the chunks of the scratch words are disjoint and together the
chunks of the pool, the scratch words are disjoint aligned words, and every operation uses one of
them. -/
theorem never_handed_out_twice {word : ℕ → ℕ} {freeList chunkSize : ℕ} {cs : List ℕ} (nodeId : UInt16)
    {bufferCount : ℕ} (hcs : Chunks chunkSize cs) (hlist : IsList word freeList cs)
    (hpos : 1 ≤ bufferCount) (hint : bufferCount ≤ 2 ^ 31 - 1)
    (henough : bufferCount ≤ cs.length * (chunkSize / 8)) :
    ∃ P, MemoryPool.new word freeList chunkSize nodeId bufferCount = some P ∧
      ∀ tr s, (poolSystem ⟨word, P, []⟩).Run tr s →
        PoolOk cs bufferCount s ∧ ∀ p ∈ tr, p ∈ s.pool.buffers := by
  have h64 := hcs.le_chunkSize
  obtain ⟨scratch, rest, P, rfl, hnew, hrest, hbuf, henough', hlast, hsize, -, hcount, hidx⟩ :=
    fillBuffers_spec (P := ⟨freeList, chunkSize, nodeId, bufferCount, 0, []⟩) hlist
      (fun c hc => hcs.lt hc) (by simp only; omega) (by simp) (by simpa using henough)
      (show bufferCount - 0 ≤ bufferCount by omega)
  simp only [List.length_nil, Nat.sub_zero, List.nil_append] at hbuf henough' hlast
  have hscratch : Chunks chunkSize scratch := by
    refine ⟨hcs.size, (List.nodup_append.1 hcs.nodup).1, ?_, ?_, ?_⟩
    · exact fun c hc => hcs.ne_zero c (List.mem_append_left _ hc)
    · exact fun c hc => hcs.aligned c (List.mem_append_left _ hc)
    · exact fun c hc => hcs.le c (List.mem_append_left _ hc)
  have hws : P.buffers.length = bufferCount := by
    rw [hbuf, List.length_take, length_words]
    exact Nat.min_eq_left henough'
  have hin : ∀ p ∈ P.buffers, ∃ c ∈ scratch, ∃ j < chunkSize / 8, addr p = c + j * 8 := by
    intro p hp
    rw [hbuf] at hp
    exact exists_chunk hscratch (List.mem_of_mem_take hp)
  have hin' : ∀ p ∈ P.buffers, ∃ c ∈ scratch, c ≤ addr p ∧ addr p + 8 ≤ c + chunkSize := by
    intro p hp
    obtain ⟨c, hc, j, hj, hpc⟩ := hin p hp
    exact ⟨c, hc, by omega, by omega⟩
  refine ⟨P, ?_, fun tr s hr => ?_⟩
  · unfold MemoryPool.new
    rw [if_neg (by omega)]
    exact hnew
  have key : PoolInv (scratch ++ rest) scratch chunkSize bufferCount P.buffers s ∧
      ∀ p ∈ tr, p ∈ P.buffers := by
    refine hr.invariant (I := fun tr s => PoolInv (scratch ++ rest) scratch chunkSize bufferCount
      P.buffers s ∧ ∀ p ∈ tr, p ∈ P.buffers) ?_ ?_
    · rintro s rfl
      refine ⟨⟨hsize, hcount, rfl, ?_, rest, hrest, ?_⟩, by simp⟩
      · show P.bufferIndex < bufferCount
        rw [hidx]
        exact hpos
      · simpa using List.perm_append_comm
    · rintro tr s e s' - ⟨hI, htr⟩ hs
      obtain ⟨hI', he⟩ := hI.step hcs hws hin' hs
      refine ⟨hI', fun p hp => ?_⟩
      rcases List.mem_append.1 hp with hp | hp
      · exact htr p hp
      · exact he p (by simpa using hp)
  refine ⟨key.1.poolOk hcs hws hin ?_ ?_, ?_⟩
  · intro c hc
    rw [hbuf]
    exact exists_first_word hscratch hlast hc
  · rw [hbuf]
    exact (pairwise_words hscratch).sublist (List.take_sublist _ _)
  · rw [key.1.buffers]
    exact key.2

/-- A free list of four chunks of 64 bytes. -/
def fourChunks (x : ℕ) : ℕ := if x = 64 then 128 else if x = 128 then 192 else if x = 192 then 256 else 0

/-- What the constructor makes of it with nine scratch words. -/
def fourPool : MemoryPool :=
  ⟨192, 64, 0, 9, 0, MemoryPool.wordsOf (Pointer.of 0 64) 8 ++ MemoryPool.wordsOf (Pointer.of 0 128) 1⟩

/-- A client takes a chunk and writes over its link, an operation uses the first scratch word, the
chunk goes back and is handed out again. -/
theorem never_handed_out_twice_four :
    MemoryPool.new fourChunks 64 64 0 9 = some fourPool ∧
      ∃ s, (poolSystem ⟨fourChunks, fourPool, []⟩).Run [Pointer.of 0 64] s ∧ s.held = [192] ∧
        s.pool.freeList = 256 ∧ PoolOk [64, 128, 192, 256] 9 s ∧
        Pointer.of 0 64 ∈ s.pool.buffers := by
  have hpool : ∃ P, MemoryPool.new fourChunks 64 64 0 9 = some P ∧
      ∀ tr s, (poolSystem ⟨fourChunks, P, []⟩).Run tr s →
        PoolOk [64, 128, 192, 256] 9 s ∧ ∀ p ∈ tr, p ∈ s.pool.buffers := by
    refine never_handed_out_twice 0 ⟨⟨6, by decide⟩, ?_, ?_, ?_, ?_⟩ ?_ ?_ ?_ ?_
    all_goals simp [IsList, fourChunks]
  obtain ⟨P, hnew, hrun⟩ := hpool
  obtain rfl : fourPool = P := Option.some.inj hnew
  have h0 : (poolSystem ⟨fourChunks, fourPool, []⟩).Run [] ⟨fourChunks, fourPool, []⟩ := .start rfl
  have h1 := h0.next (.allocate rfl (by decide))
  have hlink : ∀ x, ¬ (192 ≤ x ∧ x < 192 + 64) → Function.update fourChunks 192 7 x = fourChunks x :=
    fun x hx => Function.update_of_ne (by omega) _ _
  have h2 := h1.next (.write (c := 192) (by decide) hlink)
  have h3 := h2.next (.scratch (v := 5) rfl)
  have h4 := h3.next (.free (c := 192) (by decide) rfl)
  have h5 := h4.next (.allocate rfl (by decide))
  obtain ⟨hok, hmem⟩ := hrun [Pointer.of 0 64] _ h5
  exact ⟨hnew, _, h5, rfl, rfl, hok, hmem _ (by simp)⟩

end Memory

end Farlock
