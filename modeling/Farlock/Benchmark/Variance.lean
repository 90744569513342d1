import Mathlib
import Farlock.Benchmark.Reservoir

/-!
# The variance of a reservoir (`Variance` in `include/benchmark/result.h`)

`double` arithmetic is exact here.  The deviation of a sample from the mean goes through an unsigned
integer before it is squared, so a sample below the mean has none that the language defines.

* `toUInt64`: the conversion from `double`;
* `Result.variance`;
* `variance_exact_iff`: the variance is right only if all samples are equal.
-/

namespace Farlock

namespace Benchmark

/-- The conversion of a `double` to `uint64_t` drops the fraction; there is no value where the rest
does not fit. -/
def toUInt64 (q : ℚ) : Option UInt64 :=
  if -1 < q ∧ q < 2 ^ 64 then some (UInt64.ofNat ⌊q⌋₊) else none

namespace Result

/-- `Mean` -/
def mean (r : Result) : ℚ × Result :=
  let (sum, r) := r.sum
  (sum.toNat / r.numberOfSamples.toNat, r)

/-- The differences that the loop of `Variance` converts: `samples_[i] - mean`. -/
def differences (r : Result) (mean : ℚ) : List ℚ :=
  (List.range r.numberOfSamples.toNat).map fun i => (r.get (UInt32.ofNat i)).toNat - mean

/-- One round of the loop: `uint64_t diff = samples_[i] - mean; sum += diff * diff;` -/
def addSquare (sum difference : ℚ) : Option ℚ := do
  let diff ← toUInt64 difference
  pure (sum + (diff * diff).toNat)

/-- `Variance` -/
def variance (r : Result) : Option (ℚ × Result) :=
  if r.numberOfSamples = 0 then some (0, r)
  else do
    let (mean, r) := r.truncate.mean
    let sum ← (r.differences mean).foldlM addSquare 0
    pure (sum / r.numberOfSamples.toNat, r)

/-- What `Variance` converts. -/
def converted (r : Result) : List ℚ := r.truncate.mean.2.differences r.truncate.mean.1

/-! ### The mean of a list of samples -/

/-- The mean of `xs`. -/
def meanOf (xs : List UInt64) : ℚ := (xs.map fun x => (x.toNat : ℚ)).sum / xs.length

/-- `Variance` gives the variance of the retained samples up to truncation: nothing negative is
converted, no square wraps, and the value is between that of the truncated deviations and that of
the deviations. -/
structure VarianceOk (r : Result) : Prop where
  nonneg : ∀ q ∈ r.converted, 0 ≤ q
  square : ∀ q ∈ r.converted, ∀ diff, toUInt64 q = some diff → diff.toNat * diff.toNat < 2 ^ 64
  value : ∃ v r', r.variance = some (v, r') ∧
    (r.retained.map fun x => (⌊|(x.toNat : ℚ) - meanOf r.retained|⌋₊ : ℚ) ^ 2).sum / r.retained.length ≤ v ∧
    v ≤ (r.retained.map fun x => ((x.toNat : ℚ) - meanOf r.retained) ^ 2).sum / r.retained.length

variable {r : Result}

/-- `Mean` gives the mean of the retained samples if their sum does not wrap. -/
theorem mean_truncate (hsum : (r.retained.map UInt64.toNat).sum < 2 ^ 64) :
    r.truncate.mean = (meanOf r.retained, r.truncate) := by
  have hle := r.truncate_le
  have hlen : r.truncate.numberOfSamples.toNat = r.retained.length := by
    rw [← size_of_le hle, ← length_retained, retained_truncate]
  have hsnd : r.truncate.sum.2 = r.truncate := by rw [sum_snd, truncate_of_le hle]
  have hfst : r.truncate.sum.1.toNat = (r.retained.map UInt64.toNat).sum := by
    rw [toNat_sum, retained_truncate, Nat.mod_eq_of_lt hsum]
  have hcast : ((r.retained.map UInt64.toNat).sum : ℚ) = (r.retained.map fun x => (x.toNat : ℚ)).sum := by
    rw [Nat.cast_list_sum, List.map_map]
    rfl
  simp only [mean, hsnd, hfst, hlen, hcast, meanOf]

theorem differences_truncate (r : Result) (m : ℚ) :
    r.truncate.differences m = r.retained.map fun x => (x.toNat : ℚ) - m := by
  rw [← retained_truncate, ← map_get_range, size_of_le r.truncate_le, List.map_map]
  rfl

/-- The loop converts the deviations of the retained samples from their mean. -/
theorem converted_eq (hsum : (r.retained.map UInt64.toNat).sum < 2 ^ 64) :
    r.converted = r.retained.map fun x => (x.toNat : ℚ) - meanOf r.retained := by
  rw [converted, mean_truncate hsum, differences_truncate]

/-- The deviations from the mean add up to zero. -/
theorem sum_deviations {xs : List UInt64} (hne : xs ≠ []) :
    (xs.map fun x => (x.toNat : ℚ) - meanOf xs).sum = 0 := by
  have hlen : (xs.length : ℚ) ≠ 0 := by simpa using hne
  have hsub : ∀ (l : List UInt64) (m : ℚ), (l.map fun x => (x.toNat : ℚ) - m).sum =
      (l.map fun x => (x.toNat : ℚ)).sum - l.length * m := by
    intro l m
    induction l with
    | nil => simp
    | cons x l ih =>
      simp only [List.map_cons, List.sum_cons, ih, List.length_cons, Nat.cast_succ]
      ring
  rw [hsub, meanOf, mul_div_cancel₀ _ hlen, sub_self]

/-- No deviation is negative only if all samples are equal. -/
theorem all_eq_of_nonneg {xs : List UInt64} (h : ∀ x ∈ xs, 0 ≤ (x.toNat : ℚ) - meanOf xs) :
    ∀ x ∈ xs, ∀ y ∈ xs, x = y := by
  intro x hx y hy
  have hne : xs ≠ [] := List.ne_nil_of_mem hx
  have hzero : ∀ z ∈ xs, (z.toNat : ℚ) = meanOf xs := by
    intro z hz
    apply sub_eq_zero.1
    refine List.all_zero_of_le_zero_le_of_sum_eq_zero (fun q hq => ?_) (sum_deviations hne)
      (List.mem_map_of_mem hz)
    obtain ⟨y, hy, rfl⟩ := List.mem_map.1 hq
    exact h y hy
  have hxy : (x.toNat : ℚ) = y.toNat := (hzero x hx).trans (hzero y hy).symm
  exact UInt64.toNat_inj.1 (by exact_mod_cast hxy)

/-- Equal samples are equal to their mean. -/
theorem eq_meanOf {xs : List UInt64} (h : ∀ x ∈ xs, ∀ y ∈ xs, x = y) {x : UInt64} (hx : x ∈ xs) :
    (x.toNat : ℚ) - meanOf xs = 0 := by
  have hrep : xs = List.replicate xs.length x := List.eq_replicate_iff.2 ⟨rfl, fun y hy => h y hy x hx⟩
  have hlen : (xs.length : ℚ) ≠ 0 := by simpa using List.ne_nil_of_mem hx
  have hsum : (xs.map fun y => (y.toNat : ℚ)).sum = xs.length * x.toNat := by
    rw [hrep, List.map_replicate, List.sum_replicate, List.length_replicate, nsmul_eq_mul]
  rw [meanOf, hsum, mul_div_cancel_left₀ _ hlen, sub_self]

theorem toUInt64_zero : toUInt64 0 = some 0 := by
  simp [toUInt64]

/-- The loop over differences that are all zero. -/
theorem foldlM_addSquare_zero {l : List ℚ} (h : ∀ q ∈ l, q = 0) : l.foldlM addSquare 0 = some 0 := by
  induction l with
  | nil => rfl
  | cons q l ih =>
    have hq : addSquare 0 q = some 0 := by
      rw [h q List.mem_cons_self, addSquare, toUInt64_zero]
      simp
    rw [List.foldlM_cons, hq]
    exact ih fun q' hq' => h q' (List.mem_cons_of_mem _ hq')

/-- `Variance` is right if and only if all retained samples are equal. -/
theorem variance_exact_iff (hne : r.retained ≠ []) (hsum : (r.retained.map UInt64.toNat).sum < 2 ^ 64) :
    r.VarianceOk ↔ ∀ x ∈ r.retained, ∀ y ∈ r.retained, x = y := by
  have hconv := converted_eq hsum
  constructor
  · intro h
    apply all_eq_of_nonneg
    intro x hx
    apply h.nonneg
    rw [hconv]
    exact List.mem_map_of_mem hx
  · intro h
    have hzero : ∀ q ∈ r.converted, q = 0 := by
      intro q hq
      rw [hconv] at hq
      obtain ⟨x, hx, rfl⟩ := List.mem_map.1 hq
      exact eq_meanOf h hx
    refine ⟨fun q hq => (hzero q hq).ge, fun q hq diff hdiff => ?_, 0, r.truncate, ?_, ?_, ?_⟩
    · rw [hzero q hq, toUInt64_zero, Option.some.injEq] at hdiff
      subst hdiff
      decide
    · have h0 : r.numberOfSamples ≠ 0 := fun h0 => hne (retained_eq_nil h0)
      rw [converted, mean_truncate hsum] at hzero
      rw [variance, if_neg h0, mean_truncate hsum]
      simp [foldlM_addSquare_zero hzero]
    · apply le_of_eq
      rw [List.sum_eq_zero, zero_div]
      intro q hq
      obtain ⟨x, hx, rfl⟩ := List.mem_map.1 hq
      simp [eq_meanOf h hx]
    · apply ge_of_eq
      rw [List.sum_eq_zero, zero_div]
      intro q hq
      obtain ⟨x, hx, rfl⟩ := List.mem_map.1 hq
      simp [eq_meanOf h hx]

/-- Two equal samples. -/
theorem variance_exact_iff_two : (two 5 5).VarianceOk := by
  apply (variance_exact_iff (r := two 5 5) _ _).2
  · simp [retained_two]
  · simp [retained_two]
  · simp [retained_two]

/-- The samples `1` and `3`: the loop converts `1 - 2`. -/
theorem variance_undefined :
    ((new 0 2).push 1).bind (fun r => r.push 3) = some (two 1 3) ∧ (two 1 3).retained = [1, 3] ∧
      (two 1 3).variance = none ∧ ¬ (two 1 3).VarianceOk := by
  have h1 : UInt64.toNat 1 = 1 := rfl
  have h3 : UInt64.toNat 3 = 3 := rfl
  have hmean : meanOf [1, 3] = 2 := by norm_num [meanOf, h1, h3]
  have hsum : ((two 1 3).retained.map UInt64.toNat).sum < 2 ^ 64 := by simp [retained_two]
  have hconv : (two 1 3).converted = [-1, 1] := by
    rw [converted_eq hsum, retained_two, hmean]
    norm_num [h1, h3]
  refine ⟨rfl, rfl, ?_, fun h => ?_⟩
  · rw [converted, mean_truncate hsum] at hconv
    rw [variance, if_neg (by decide), mean_truncate hsum]
    simp [hconv, addSquare, toUInt64]
  · have := h.nonneg (-1) (by simp [hconv])
    norm_num at this

end Result

end Benchmark

end Farlock
