import Mathlib

/-!
# The size of a chunk (`InitMemoryRegion` of `include/rdma/manager.h`)

`InitMemoryRegion` rounds the configured `chunk_size_byte` up to a power of two with a count of
leading zeros and a shift of the `int` 1, and then clamps it.  The count is undefined at zero and
the shift by 32 or more bits; both are faults here.

* `chunk_size_rounded`: the requests for which the rounding is defined, and right.
-/

namespace Farlock

namespace Memory

/-- Why `InitMemoryRegion` gives no region. -/
inductive Fault
  /-- the C++ standard does not define what is evaluated -/
  | undefined
  /-- `SPDLOG_FATAL` -/
  | fatal
  deriving DecidableEq, Repr

/-- `kMinChunkSize` -/
def kMinChunkSize : UInt64 := (1 : UInt64) <<< 6

/-- `kMaxChunkSize` -/
def kMaxChunkSize : UInt64 := (1 : UInt64) <<< 12

/-- `__builtin_clzll` -/
def clzll (x : UInt64) : Except Fault ℕ :=
  if x = 0 then .error .undefined else .ok (63 - x.toNat.log2)

/-- `1 << n`, an `int`, assigned to a `size_t`. -/
def shiftOne (n : ℕ) : Except Fault UInt64 :=
  if 32 ≤ n then .error .undefined else .ok ⟨((1#32) <<< n).signExtend 64⟩

/-- The chunk size within its limits. -/
def clampChunkSize (chunkSize : UInt64) : UInt64 :=
  if chunkSize < kMinChunkSize then kMinChunkSize
  else if kMaxChunkSize < chunkSize then kMaxChunkSize
  else chunkSize

/-- The chunk size for the configured one. -/
def alignChunkSize (chunkSize : UInt64) : Except Fault UInt64 := do
  let zeros ← clzll (chunkSize - 1)
  let chunkSize ← shiftOne (64 - zeros)
  pure (clampChunkSize chunkSize)

/-- The start of `InitMemoryRegion`, up to the allocation: `chunk_size_`. -/
def initMemoryRegion (chunkSize desiredSize : UInt64) : Except Fault UInt64 := do
  let chunkSize ← alignChunkSize chunkSize
  if desiredSize % chunkSize ≠ 0 then .error .fatal else pure chunkSize

/-- `region_size` of `Init` -/
def regionSize (regionSizeMb : UInt32) : UInt64 := regionSizeMb.toUInt64 * 1024 * 1024

/-- `c` is the least power of two that is not below the request, clamped to the allowed sizes. -/
def IsRounded (request : UInt32) (c : UInt64) : Prop :=
  ∃ p, IsLeast {p : ℕ | (∃ k, p = 2 ^ k) ∧ request.toNat ≤ p} p ∧ c.toNat = max 64 (min p 4096)

theorem clzll_of_ne_zero {x : UInt64} (hx : x ≠ 0) : clzll x = .ok (63 - x.toNat.log2) := if_neg hx

/-- The value of the shift: at 31 the sign is extended. -/
theorem shiftOne_of_lt {n : ℕ} (hn : n < 32) :
    ∃ c, shiftOne n = .ok c ∧ c.toNat = if n = 31 then 2 ^ 64 - 2 ^ 31 else 2 ^ n := by
  have key : ∀ n : Fin 32, (((1#32) <<< n.val).signExtend 64).toNat =
      if n.val = 31 then 2 ^ 64 - 2 ^ 31 else 2 ^ n.val := by decide
  exact ⟨_, if_neg (by omega), key ⟨n, hn⟩⟩

/-- The least power of two that is not below `x + 1`. -/
theorem isLeast_two_pow {x : ℕ} (hx : x ≠ 0) :
    IsLeast {p : ℕ | (∃ k, p = 2 ^ k) ∧ x + 1 ≤ p} (2 ^ (x.log2 + 1)) := by
  refine ⟨⟨⟨_, rfl⟩, Nat.lt_log2_self⟩, ?_⟩
  rintro p ⟨⟨k, rfl⟩, hk⟩
  apply Nat.pow_le_pow_right (by norm_num)
  have hlt : 2 ^ x.log2 < 2 ^ k := lt_of_le_of_lt (Nat.log2_self_le hx) hk
  exact (Nat.pow_lt_pow_iff_right (by norm_num)).1 hlt

theorem toNat_sub_one {request : UInt32} (h1 : 1 ≤ request.toNat) :
    (request.toUInt64 - 1).toNat = request.toNat - 1 := by
  have hle : (1 : UInt64) ≤ request.toUInt64 := by
    rw [UInt64.le_iff_toNat_le, UInt32.toNat_toUInt64]
    exact h1
  rw [UInt64.toNat_sub_of_le _ _ hle, UInt32.toNat_toUInt64]
  rfl

theorem toNat_clampChunkSize (c : UInt64) :
    (clampChunkSize c).toNat = max 64 (min c.toNat 4096) := by
  have hmin : kMinChunkSize.toNat = 64 := rfl
  have hmax : kMaxChunkSize.toNat = 4096 := rfl
  unfold clampChunkSize
  simp only [UInt64.lt_iff_toNat_lt, hmin, hmax]
  split_ifs <;> omega

/-- The rounding where it is defined. -/
theorem alignChunkSize_of_le {request : UInt32} (h2 : 2 ≤ request.toNat)
    (hle : request.toNat ≤ 2 ^ 31) :
    ∃ c, alignChunkSize request.toUInt64 = .ok c ∧ IsRounded request c := by
  have hx : (request.toUInt64 - 1).toNat = request.toNat - 1 := toNat_sub_one (by omega)
  have hne : request.toUInt64 - 1 ≠ 0 := by
    intro h0
    rw [h0] at hx
    simp at hx
    omega
  have hlog : (request.toNat - 1).log2 < 31 :=
    (Nat.log2_lt (by omega)).2 (by omega)
  obtain ⟨c, hc, hval⟩ := shiftOne_of_lt (n := (request.toNat - 1).log2 + 1) (by omega)
  have hshift : 64 - (63 - (request.toNat - 1).log2) = (request.toNat - 1).log2 + 1 := by omega
  have hleast := isLeast_two_pow (x := request.toNat - 1) (by omega)
  rw [Nat.sub_add_cancel (by omega)] at hleast
  refine ⟨clampChunkSize c, ?_, _, hleast, ?_⟩
  · unfold alignChunkSize
    rw [clzll_of_ne_zero hne, hx]
    show (shiftOne (64 - (63 - (request.toNat - 1).log2)) >>= _) = _
    rw [hshift, hc]
    rfl
  · rw [toNat_clampChunkSize, hval]
    split_ifs with h31
    · rw [h31]
      norm_num
    · rfl

/-- The chunk size divides every size of a region. -/
theorem regionSize_mod {request : UInt32} {c : UInt64} (hc : IsRounded request c)
    (regionSizeMb : UInt32) : regionSize regionSizeMb % c = 0 := by
  obtain ⟨p, ⟨⟨⟨k, rfl⟩, -⟩, -⟩, hval⟩ := hc
  have hdvd : c.toNat ∣ 2 ^ 20 := by
    rw [hval]
    obtain hk | hk := Nat.lt_or_ge k 6
    · have : (2 : ℕ) ^ k ≤ 2 ^ 6 := Nat.pow_le_pow_right (by norm_num) hk.le
      rw [show max 64 (min (2 ^ k) 4096) = 2 ^ 6 by omega]
      exact pow_dvd_pow 2 (by norm_num)
    · have h6 : (2 : ℕ) ^ 6 ≤ 2 ^ k := Nat.pow_le_pow_right (by norm_num) hk
      obtain hk' | hk' := Nat.lt_or_ge k 12
      · have h12 : (2 : ℕ) ^ k ≤ 2 ^ 12 := Nat.pow_le_pow_right (by norm_num) hk'.le
        rw [show max 64 (min (2 ^ k) 4096) = 2 ^ k by omega]
        exact pow_dvd_pow 2 (by omega)
      · have h12 : (2 : ℕ) ^ 12 ≤ 2 ^ k := Nat.pow_le_pow_right (by norm_num) hk'
        rw [show max 64 (min (2 ^ k) 4096) = 2 ^ 12 by omega]
        exact pow_dvd_pow 2 (by norm_num)
  have hsize : (regionSize regionSizeMb).toNat = regionSizeMb.toNat * 2 ^ 20 := by
    have hlt := regionSizeMb.toNat_lt
    unfold regionSize
    rw [UInt64.toNat_mul, UInt64.toNat_mul, UInt32.toNat_toUInt64, show (1024 : UInt64).toNat = 1024 from rfl]
    omega
  rw [← UInt64.toNat_inj, UInt64.toNat_mod, hsize, UInt64.toNat_zero]
  exact Nat.mod_eq_zero_of_dvd (hdvd.mul_left _)

/-- A request above `2 ^ 31` shifts by 32 bits. -/
theorem alignChunkSize_of_gt {request : UInt32} (hgt : 2 ^ 31 < request.toNat) :
    alignChunkSize request.toUInt64 = .error .undefined := by
  have hx : (request.toUInt64 - 1).toNat = request.toNat - 1 := toNat_sub_one (by omega)
  have hlt := request.toNat_lt
  have hne : request.toUInt64 - 1 ≠ 0 := by
    intro h0
    rw [h0] at hx
    simp at hx
    omega
  have hlog : (request.toNat - 1).log2 = 31 :=
    (Nat.log2_eq_iff (by omega)).2 ⟨by omega, by omega⟩
  unfold alignChunkSize
  rw [clzll_of_ne_zero hne, hx, hlog]
  rfl

/-- For a request of at least one byte, the rounding evaluates nothing undefined, gives the least
power of two not below the request, clamped, passes the assertions of `MemoryPool` and divides every
region size, if and only if the request is at least 2 and at most `2 ^ 31`. -/
theorem chunk_size_rounded (request : UInt32) (h1 : 1 ≤ request.toNat) :
    (∃ c, alignChunkSize request.toUInt64 = .ok c ∧ IsRounded request c ∧
      kMinChunkSize ≤ c ∧ c ≤ kMaxChunkSize ∧
      ∀ regionSizeMb, initMemoryRegion request.toUInt64 (regionSize regionSizeMb) = .ok c) ↔
    2 ≤ request.toNat ∧ request.toNat ≤ 2 ^ 31 := by
  constructor
  · rintro ⟨c, hc, -⟩
    constructor
    · by_contra hlt
      obtain rfl : request = 1 := UInt32.toNat_inj.1 (by simp; omega)
      have hund : alignChunkSize (1 : UInt32).toUInt64 = .error .undefined := by decide
      rw [hund] at hc
      cases hc
    · by_contra hgt
      rw [alignChunkSize_of_gt (by omega)] at hc
      cases hc
  · rintro ⟨h2, hle⟩
    obtain ⟨c, hc, hr⟩ := alignChunkSize_of_le h2 hle
    refine ⟨c, hc, hr, ?_, ?_, fun regionSizeMb => ?_⟩
    · obtain ⟨p, -, hp⟩ := hr
      rw [UInt64.le_iff_toNat_le, hp, show kMinChunkSize.toNat = 64 from rfl]
      omega
    · obtain ⟨p, -, hp⟩ := hr
      rw [UInt64.le_iff_toNat_le, hp, show kMaxChunkSize.toNat = 4096 from rfl]
      omega
    · unfold initMemoryRegion
      rw [hc]
      show (if regionSize regionSizeMb % c ≠ 0 then _ else _) = _
      rw [if_neg (not_not_intro (regionSize_mod hr regionSizeMb))]
      rfl

/-- A request for 100 bytes gives chunks of 128. -/
theorem chunk_size_rounded_hundred :
    (1 ≤ (100 : UInt32).toNat) ∧ ∃ c, alignChunkSize (100 : UInt32).toUInt64 = .ok c ∧
      IsRounded 100 c ∧ kMinChunkSize ≤ c ∧ c ≤ kMaxChunkSize ∧
      ∀ regionSizeMb, initMemoryRegion (100 : UInt32).toUInt64 (regionSize regionSizeMb) = .ok c :=
  ⟨by decide, (chunk_size_rounded 100 (by decide)).2 ⟨by decide, by decide⟩⟩

/-- A request for one byte counts the leading zeros of zero, and one for `2 ^ 31 + 1` bytes shifts
by 32. -/
theorem chunk_size_undefined :
    alignChunkSize (1 : UInt32).toUInt64 = .error .undefined ∧
    alignChunkSize (2147483649 : UInt32).toUInt64 = .error .undefined := by
  constructor <;> decide

end Memory

end Farlock
