import Mathlib

/-!
# Pointers (`include/rdma/pointer.h`)

An `rdma::Pointer` is one 64-bit word: the node in the upper 16 bits and the address in the lower
48.  Nothing masks the address when a pointer is made, and an offset is added to the whole word.
-/

namespace Farlock

namespace Memory

/-- `rdma::Pointer` -/
structure Pointer where
  raw : UInt64
  deriving DecidableEq, Repr

namespace Pointer

/-- `Pointer(id, address)` -/
def of (id : UInt16) (address : UInt64) : Pointer := ⟨id.toUInt64 <<< 48 ||| address⟩

/-- `Pointer(raw)` -/
def ofRaw (raw : UInt64) : Pointer := ⟨raw⟩

/-- `Pointer(nullptr)` -/
def null : Pointer := ⟨0⟩

/-- `operator+` -/
def add (p : Pointer) (offset : UInt64) : Pointer := ⟨p.raw + offset⟩

/-- `operator+=`: the pointer after it. -/
def addAssign (p : Pointer) (offset : UInt64) : Pointer := { p with raw := p.raw + offset }

/-- `operator==` with a pointer. -/
def eq (p other : Pointer) : Bool := p.raw == other.raw

/-- `operator==` with `nullptr`. -/
def eqNull (p : Pointer) : Bool := p.raw == 0

/-- `id()` -/
def id (p : Pointer) : UInt16 := (p.raw >>> 48).toUInt16

/-- `address()` -/
def address (p : Pointer) : UInt64 := p.raw &&& 0x0000FFFFFFFFFFFF

variable {id id' : UInt16} {a a' offset : UInt64} {p q : Pointer}

theorem eq_iff_raw : p = q ↔ p.raw = q.raw := by
  cases p
  cases q
  simp

/-- The two fields of a pointer to an address of 48 bits do not overlap. -/
theorem toNat_raw_of (ha : a.toNat < 2 ^ 48) : (of id a).raw.toNat = id.toNat * 2 ^ 48 + a.toNat := by
  have hid := id.toNat_lt
  unfold of
  rw [UInt64.toNat_or, UInt64.toNat_shiftLeft, UInt16.toNat_toUInt64]
  rw [show (48 : UInt64).toNat % 64 = 48 from rfl, Nat.shiftLeft_eq,
    Nat.mod_eq_of_lt (by omega), ← Nat.shiftLeft_eq, ← Nat.shiftLeft_add_eq_or_of_lt ha]

theorem toNat_address (p : Pointer) : p.address.toNat = p.raw.toNat % 2 ^ 48 := by
  unfold address
  rw [UInt64.toNat_and, show (0x0000FFFFFFFFFFFF : UInt64).toNat = 2 ^ 48 - 1 from rfl,
    Nat.and_two_pow_sub_one_eq_mod]

theorem toNat_id (p : Pointer) : p.id.toNat = p.raw.toNat / 2 ^ 48 := by
  have hraw := p.raw.toNat_lt
  unfold id
  rw [UInt64.toNat_toUInt16, UInt64.toNat_shiftRight, show (48 : UInt64).toNat % 64 = 48 from rfl,
    Nat.shiftRight_eq_div_pow]
  exact Nat.mod_eq_of_lt (by omega)

/-- The two fields make up the word. -/
theorem toNat_raw (p : Pointer) : p.raw.toNat = p.id.toNat * 2 ^ 48 + p.address.toNat := by
  rw [toNat_id, toNat_address]
  omega

theorem address_of (ha : a.toNat < 2 ^ 48) : (of id a).address = a := by
  rw [← UInt64.toNat_inj, toNat_address, toNat_raw_of ha]
  omega

theorem id_of (ha : a.toNat < 2 ^ 48) : (of id a).id = id := by
  rw [← UInt16.toNat_inj, toNat_id, toNat_raw_of ha]
  omega

theorem of_inj (ha : a.toNat < 2 ^ 48) (ha' : a'.toNat < 2 ^ 48) :
    of id a = of id' a' ↔ id = id' ∧ a = a' := by
  constructor
  · intro h
    have hid := congrArg Pointer.id h
    have haddr := congrArg address h
    rw [id_of ha, id_of ha'] at hid
    rw [address_of ha, address_of ha'] at haddr
    exact ⟨hid, haddr⟩
  · rintro ⟨rfl, rfl⟩
    rfl

/-- An offset that stays below `2 ^ 48` is added to the address: there is no carry into the node. -/
theorem add_of (h : a.toNat + offset.toNat < 2 ^ 48) : (of id a).add offset = of id (a + offset) := by
  have hid := id.toNat_lt
  have hsum : (a + offset).toNat = a.toNat + offset.toNat := by
    rw [UInt64.toNat_add]
    exact Nat.mod_eq_of_lt (by omega)
  rw [eq_iff_raw, ← UInt64.toNat_inj, add, UInt64.toNat_add, toNat_raw_of (by omega),
    toNat_raw_of (by omega), hsum, ← Nat.add_assoc]
  exact Nat.mod_eq_of_lt (by omega)

theorem eq_eq_true_iff : p.eq q = true ↔ p = q := by
  rw [eq_iff_raw]
  exact beq_iff_eq

/-- Two pointers with the same fields are equal. -/
theorem eq_iff : p.eq q = true ↔ p.id = q.id ∧ p.address = q.address := by
  constructor
  · intro h
    rw [eq_eq_true_iff.1 h]
    exact ⟨rfl, rfl⟩
  · rintro ⟨hid, haddr⟩
    rw [eq_eq_true_iff, eq_iff_raw, ← UInt64.toNat_inj, toNat_raw p, toNat_raw q, hid, haddr]

theorem eqNull_iff : p.eqNull = true ↔ p.id = 0 ∧ p.address = 0 :=
  eq_iff (p := p) (q := null)

end Pointer

end Memory

end Farlock
