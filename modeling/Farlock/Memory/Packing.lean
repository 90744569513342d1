import Mathlib
import Farlock.Memory.Pool

/-!
# Pointers under offsets (`include/rdma/pointer.h`, `include/rdma/memory_pool.h`)

Remote memory is addressed by a pointer to a chunk and by offsets, of the chunk in its table, of a
word in the chunk or of a field in a record, that are added to it one after the other.  The
additions are on the whole word; they do not carry into the node as long as the address stays below
`2 ^ 48`.

* `Packs`: what a pointer with a given node and address answers;
* `Packs.foldl`: offsets one after the other;
* `packing_faithful`: the pointers that are built from a node and an address.
-/

namespace Farlock

namespace Memory

/-- The pointer `p` is one to the address `n` of the node `id`, and every pool can tell. -/
structure Packs (p : Pointer) (id : UInt16) (n : ℕ) : Prop where
  id_eq : p.id = id
  address_eq : p.address.toNat = n
  rebuilt : (Pointer.ofRaw p.raw).eq p = true
  null_iff : p.eqNull = true ↔ id = 0 ∧ n = 0
  local_iff : ∀ P : MemoryPool, P.isLocal p = true ↔ P.nodeId = id

variable {id : UInt16} {a offset : UInt64} {p : Pointer} {n : ℕ}

/-- The two fields decide everything else. -/
theorem packs_iff : Packs p id n ↔ p.id = id ∧ p.address.toNat = n := by
  constructor
  · exact fun h => ⟨h.id_eq, h.address_eq⟩
  · rintro ⟨rfl, rfl⟩
    refine ⟨rfl, rfl, Pointer.eq_eq_true_iff.2 rfl, ?_, fun P => ?_⟩
    · rw [Pointer.eqNull_iff, ← UInt64.toNat_inj, UInt64.toNat_zero]
    · rw [MemoryPool.isLocal, beq_iff_eq]
      exact eq_comm

theorem packs_of (ha : a.toNat < 2 ^ 48) : Packs (Pointer.of id a) id a.toNat :=
  packs_iff.2 ⟨Pointer.id_of ha, by rw [Pointer.address_of ha]⟩

/-- One offset. -/
theorem Packs.add (h : Packs p id n) (hn : n + offset.toNat < 2 ^ 48) :
    Packs (p.add offset) id (n + offset.toNat) := by
  have hid := p.id.toNat_lt
  have hraw : (p.add offset).raw.toNat = p.id.toNat * 2 ^ 48 + (n + offset.toNat) := by
    rw [Pointer.add, UInt64.toNat_add, p.toNat_raw, h.address_eq, Nat.add_assoc]
    exact Nat.mod_eq_of_lt (by omega)
  rw [packs_iff, Pointer.toNat_address, ← UInt16.toNat_inj, Pointer.toNat_id, hraw, h.id_eq]
  omega

/-- Offsets one after the other: it is enough that the last address is below `2 ^ 48`. -/
theorem Packs.foldl (h : Packs p id n) (offsets : List UInt64)
    (hn : n + (offsets.map UInt64.toNat).sum < 2 ^ 48) :
    Packs (offsets.foldl Pointer.add p) id (n + (offsets.map UInt64.toNat).sum) := by
  induction offsets generalizing p n with
  | nil => exact h
  | cons offset offsets ih =>
    rw [List.map_cons, List.sum_cons, ← Nat.add_assoc] at hn ⊢
    exact ih (h.add (by omega)) hn

/-- A pointer that is built from a node and an address of 48 bits keeps both under every offset, and
under offsets one after the other, that leave the address below `2 ^ 48`; and no two of these pairs
give the same pointer. -/
theorem packing_faithful (id : UInt16) (a : UInt64) (ha : a.toNat < 2 ^ 48) :
    (∀ offset : UInt64, a.toNat + offset.toNat < 2 ^ 48 →
      Packs ((Pointer.of id a).add offset) id (a.toNat + offset.toNat) ∧
      Packs ((Pointer.of id a).addAssign offset) id (a.toNat + offset.toNat)) ∧
    (∀ offsets : List UInt64, a.toNat + (offsets.map UInt64.toNat).sum < 2 ^ 48 →
      Packs (offsets.foldl Pointer.add (Pointer.of id a)) id
        (a.toNat + (offsets.map UInt64.toNat).sum)) ∧
    (∀ (id' : UInt16) (a' : UInt64), a'.toNat < 2 ^ 48 →
      ((Pointer.of id a).eq (Pointer.of id' a') = true ↔ id = id' ∧ a = a')) ∧
    ((Pointer.of id a).eqNull = true ↔ id = 0 ∧ a = 0) ∧
    ∀ p : Pointer, p.eqNull = true ↔ p.id = 0 ∧ p.address = 0 := by
  have hof : Packs (Pointer.of id a) id a.toNat := packs_of ha
  refine ⟨fun offset h => ⟨hof.add h, hof.add h⟩, fun offsets h => hof.foldl offsets h,
    fun id' a' ha' => ?_, ?_, fun p => Pointer.eqNull_iff⟩
  · rw [Pointer.eq_eq_true_iff, Pointer.of_inj ha ha']
  · rw [hof.null_iff, ← UInt64.toNat_inj, UInt64.toNat_zero]

/-- The last field of the last chunk of 64 bytes that node 65535 can address. -/
theorem packing_faithful_last :
    Packs ((Pointer.of 65535 0xFFFFFFFFFFC0).add 56) 65535 (0xFFFFFFFFFFC0 + 56) :=
  ((packing_faithful 65535 0xFFFFFFFFFFC0 (by decide)).1 56 (by decide)).1

end Memory

end Farlock
