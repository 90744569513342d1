import Mathlib.Data.UInt
import Mathlib.Algebra.Order.BigOperators.Group.Multiset
import Mathlib.Data.List.Sort

/-!
# The sample reservoir of the benchmark (`include/benchmark/result.h`)

A `Result` keeps at most `max_size_` samples; a sample that arrives when it is full replaces a
random one. The figures are read with `Size`, `Sum`, `Max` and `Min`, which sort the samples and cut
the counter to the capacity on the way.

`Holds` describes a reservoir that has only been appended to, `Shows` one that is being read.
-/

namespace Farlock

namespace Benchmark

/-- `foedus::assorted::UniformRandom` -/
structure UniformRandom where
  seed : UInt64

/-- `next_uint32` -/
def UniformRandom.nextUInt32 (r : UniformRandom) : UInt32 × UniformRandom :=
  let seed := r.seed * 0xD04C3175 + 0x53DA9022
  (((seed >>> 32) ^^^ (seed &&& 0xFFFFFFFF)).toUInt32, ⟨seed⟩)

/-- `uniform_within`; there is no value where the code divides by zero. -/
def UniformRandom.uniformWithin (r : UniformRandom) (lo hi : UInt32) :
    Option (UInt32 × UniformRandom) :=
  if lo = hi then some (lo, r)
  else if hi - lo + 1 = 0 then none
  else
    let (v, r) := r.nextUInt32
    some (lo + v % (hi - lo + 1), r)

/-- `Result` -/
structure Result where
  random : UniformRandom
  maxSize : UInt32
  numberOfSamples : UInt32
  samples : List UInt64
  sorted : Bool
  /-- How often a sample came when the reservoir was full; the code does not count this. -/
  replacements : ℕ
  length_samples : samples.length = maxSize.toNat

namespace Result

/-- The constructor. -/
def new (threadId maxSize : UInt32) : Result where
  random := ⟨threadId.toUInt64⟩
  maxSize := maxSize
  numberOfSamples := 0
  samples := List.replicate maxSize.toNat 0
  sorted := false
  replacements := 0
  length_samples := List.length_replicate

/-- `operator[]` -/
def get (r : Result) (index : UInt32) : UInt64 := r.samples.getD index.toNat 0

/-- `samples_[index] = sample` -/
def set (r : Result) (index : UInt32) (sample : UInt64) : Result where
  __ := r
  samples := r.samples.set index.toNat sample
  length_samples := by rw [List.length_set, r.length_samples]

/-- `operator<<` -/
def push (r : Result) (sample : UInt64) : Option Result :=
  if r.maxSize ≤ r.numberOfSamples then do
    let (k, random) ← r.random.uniformWithin 0 (r.numberOfSamples - 1)
    let r := { r with random := random, replacements := r.replacements + 1 }
    let r := if k < r.maxSize then r.set k sample else r
    pure { r with numberOfSamples := r.numberOfSamples + 1 }
  else
    let r := r.set r.numberOfSamples sample
    some { r with numberOfSamples := r.numberOfSamples + 1 }

/-- `Size` -/
def size (r : Result) : UInt32 :=
  if r.maxSize < r.numberOfSamples then r.maxSize else r.numberOfSamples

/-- `operator+=` -/
def append (r other : Result) : Option Result :=
  (List.range other.size.toNat).foldlM (fun r i => r.push (other.get (UInt32.ofNat i))) r

/-- The counter is cut to the capacity. -/
def truncate (r : Result) : Result :=
  if r.maxSize < r.numberOfSamples then { r with numberOfSamples := r.maxSize } else r

/-- `Sum` -/
def sum (r : Result) : UInt64 × Result :=
  if r.numberOfSamples = 0 then (0, r)
  else
    let r := r.truncate
    ((List.range r.numberOfSamples.toNat).foldl (fun s i => s + r.get (UInt32.ofNat i)) 0, r)

/-- `std::sort` of the samples that count. -/
def sortSamples (r : Result) : Result where
  __ := r
  samples := (r.samples.take r.numberOfSamples.toNat).mergeSort (fun a b => decide (a ≤ b)) ++
    r.samples.drop r.numberOfSamples.toNat
  sorted := true
  length_samples := by
    rw [List.length_append, List.length_mergeSort, ← List.length_append, List.take_append_drop,
      r.length_samples]

/-- `Sort` -/
def sort (r : Result) : Result :=
  if r.numberOfSamples = 0 then r
  else
    let r := if r.maxSize < r.numberOfSamples then
        { r with numberOfSamples := r.maxSize, sorted := false } else r
    if r.sorted then r else r.sortSamples

/-- `Max` -/
def max (r : Result) : UInt64 × Result :=
  if r.numberOfSamples = 0 then (0, r)
  else
    let r := r.sort
    (r.get (r.numberOfSamples - 1), r)

/-- `Min` -/
def min (r : Result) : UInt64 × Result :=
  if r.numberOfSamples = 0 then (0, r)
  else
    let r := r.sort
    (r.get 0, r)

/-- The samples that the reservoir has kept. -/
def retained (r : Result) : List UInt64 := r.samples.take r.size.toNat

/-- The reservoir has room for `m` samples and has been given `xs`, one after the other, and nothing
else. -/
structure Holds (r : Result) (m : ℕ) (xs : List UInt64) : Prop where
  maxSize : r.maxSize.toNat = m
  number : r.numberOfSamples.toNat = xs.length
  samples : r.samples.take xs.length = xs
  sorted : r.sorted = false
  replacements : r.replacements = 0

variable {r : Result} {m : ℕ} {xs : List UInt64}

theorem holds_new (threadId maxSize : UInt32) : (new threadId maxSize).Holds maxSize.toNat [] :=
  ⟨rfl, rfl, rfl, rfl, rfl⟩

theorem Holds.length_le (h : r.Holds m xs) : xs.length ≤ m := by
  have hlen := congrArg List.length h.samples
  rw [List.length_take, r.length_samples, h.maxSize] at hlen
  omega

/-- A sample for which there is room is appended. -/
theorem Holds.push (h : r.Holds m xs) (hm : xs.length < m) (v : UInt64) :
    ∃ r', r.push v = some r' ∧ r'.Holds m (xs ++ [v]) := by
  have hlt : ¬ r.maxSize ≤ r.numberOfSamples := by
    rw [UInt32.le_iff_toNat_le, h.maxSize, h.number]
    omega
  have hmax := r.maxSize.toNat_lt
  rw [h.maxSize] at hmax
  refine ⟨_, if_neg hlt, h.maxSize, ?_, ?_, h.sorted, h.replacements⟩
  · simp only [set, UInt32.toNat_add, h.number, List.length_append, List.length_singleton]
    exact Nat.mod_eq_of_lt (by simp; omega)
  · have hlen : xs.length < r.samples.length := by rwa [r.length_samples, h.maxSize]
    simp only [set, h.number, List.length_append, List.length_singleton]
    rw [List.take_add_one, List.take_set_of_le le_rfl, h.samples]
    simp [hlen]

/-- A loop that appends `ys a` in its step for `a`. -/
theorem Holds.foldlM {α : Type} {f : Result → α → Option Result} {ys : α → List UInt64}
    (hf : ∀ {r xs} (a : α), r.Holds m xs → xs.length + (ys a).length ≤ m →
      ∃ r', f r a = some r' ∧ r'.Holds m (xs ++ ys a))
    (h : r.Holds m xs) (l : List α) (hm : xs.length + (l.flatMap ys).length ≤ m) :
    ∃ r', l.foldlM f r = some r' ∧ r'.Holds m (xs ++ l.flatMap ys) := by
  induction l generalizing r xs with
  | nil => exact ⟨r, rfl, by simpa using h⟩
  | cons a l ih =>
    rw [List.flatMap_cons, List.length_append] at hm
    obtain ⟨r', hr', h'⟩ := hf a h (by omega)
    obtain ⟨r'', hr'', h''⟩ := ih h' (by rw [List.length_append]; omega)
    refine ⟨r'', ?_, by simpa using h''⟩
    rw [List.foldlM_cons, hr']
    exact hr''

/-- Samples for which there is room are appended. -/
theorem Holds.foldlM_push {α : Type} (h : r.Holds m xs) (v : α → UInt64) (l : List α)
    (hm : xs.length + l.length ≤ m) :
    ∃ r', l.foldlM (fun r a => r.push (v a)) r = some r' ∧ r'.Holds m (xs ++ l.map v) := by
  rw [List.map_eq_flatMap]
  refine h.foldlM (fun a h hm => h.push (Nat.lt_of_succ_le hm) (v a)) l ?_
  rwa [← List.map_eq_flatMap, List.length_map]

theorem size_le (r : Result) : r.size ≤ r.maxSize := by
  unfold size
  split_ifs with h
  · exact UInt32.le_refl _
  · exact UInt32.not_lt.1 h

theorem length_retained (r : Result) : r.retained.length = r.size.toNat := by
  have := UInt32.le_iff_toNat_le.1 r.size_le
  rw [retained, List.length_take, r.length_samples]
  omega

theorem retained_eq_nil (h0 : r.numberOfSamples = 0) : r.retained = [] := by
  have hle : r.numberOfSamples ≤ r.maxSize := h0 ▸ UInt32.zero_le
  rw [retained, size, if_neg (UInt32.not_lt.2 hle), h0]
  rfl

/-- What is read sample by sample is what was kept. -/
theorem map_get_range (r : Result) :
    (List.range r.size.toNat).map (fun i => r.get (UInt32.ofNat i)) = r.retained := by
  have hlt := r.size.toNat_lt
  apply List.ext_getElem
  · rw [List.length_map, List.length_range, length_retained]
  · intro i hi hi'
    rw [length_retained] at hi'
    have hmod : i % 4294967296 = i := Nat.mod_eq_of_lt (by omega)
    have hlen : i < r.samples.length := by
      have := UInt32.le_iff_toNat_le.1 r.size_le
      rw [r.length_samples]
      omega
    simp [Result.get, retained, hmod, hlen]

theorem Holds.append (h : r.Holds m xs) (other : Result)
    (hm : xs.length + other.retained.length ≤ m) :
    ∃ r', r.append other = some r' ∧ r'.Holds m (xs ++ other.retained) := by
  rw [length_retained] at hm
  rw [← map_get_range]
  exact h.foldlM_push _ _ (by rwa [List.length_range])

/-- The reservoir is within its capacity and shows the samples `M` to those who read it. -/
structure Shows (r : Result) (M : Multiset UInt64) : Prop where
  le : r.numberOfSamples ≤ r.maxSize
  retained : (r.retained : Multiset UInt64) = M
  sorted : r.sorted = true → r.retained.Pairwise (· ≤ ·)

theorem size_of_le (h : r.numberOfSamples ≤ r.maxSize) : r.size = r.numberOfSamples :=
  if_neg (UInt32.not_lt.2 h)

theorem truncate_of_le (h : r.numberOfSamples ≤ r.maxSize) : r.truncate = r :=
  if_neg (UInt32.not_lt.2 h)

theorem truncate_le (r : Result) : r.truncate.numberOfSamples ≤ r.truncate.maxSize := by
  unfold truncate
  split_ifs with h
  · exact UInt32.le_refl _
  · exact UInt32.not_lt.1 h

theorem retained_truncate (r : Result) : r.truncate.retained = r.retained := by
  by_cases h : r.maxSize < r.numberOfSamples
  · simp only [retained, size, truncate, if_pos h, if_neg (UInt32.lt_irrefl _)]
  · rw [truncate_of_le (UInt32.not_lt.1 h)]

theorem Holds.shows (h : r.Holds m xs) : r.Shows xs := by
  have hle : r.numberOfSamples ≤ r.maxSize := by
    rw [UInt32.le_iff_toNat_le, h.number, h.maxSize]
    exact h.length_le
  refine ⟨hle, ?_, fun hs => ?_⟩
  · rw [Result.retained, size_of_le hle, h.number, h.samples]
  · rw [h.sorted] at hs
    cases hs

variable {M : Multiset UInt64}

theorem Shows.card (h : r.Shows M) : M.card = r.numberOfSamples.toNat := by
  rw [← h.retained, Multiset.coe_card, length_retained, size_of_le h.le]

theorem Shows.eq_zero_iff (h : r.Shows M) : M = 0 ↔ r.numberOfSamples = 0 := by
  rw [← Multiset.card_eq_zero, h.card, ← UInt32.toNat_inj, UInt32.toNat_zero]

theorem Shows.truncate (h : r.Shows M) : r.truncate = r := truncate_of_le h.le

theorem foldl_add_toNat (l : List UInt64) (a : UInt64) :
    (l.foldl (· + ·) a).toNat = (a.toNat + (l.map UInt64.toNat).sum) % 2 ^ 64 := by
  induction l generalizing a with
  | nil => simp [Nat.mod_eq_of_lt a.toNat_lt]
  | cons b l ih =>
    rw [List.foldl_cons, ih, List.map_cons, List.sum_cons, UInt64.toNat_add, Nat.mod_add_mod,
      Nat.add_assoc]

/-- `Sum` gives the sum of the retained samples modulo `2 ^ 64`. -/
theorem toNat_sum (r : Result) : r.sum.1.toNat = (r.retained.map UInt64.toNat).sum % 2 ^ 64 := by
  unfold Result.sum
  split_ifs with h0
  · rw [retained_eq_nil h0]
    rfl
  · simp only
    rw [← List.foldl_map (f := fun i => r.truncate.get (UInt32.ofNat i)) (g := (· + ·)),
      ← size_of_le r.truncate_le, map_get_range, foldl_add_toNat, retained_truncate]
    simp

theorem sum_snd (r : Result) : r.sum.2 = r.truncate := by
  unfold Result.sum
  split_ifs with h0
  · exact (truncate_of_le (h0 ▸ UInt32.zero_le)).symm
  · rfl

/-- `Sum` changes nothing in a reservoir that is within its capacity. -/
theorem Shows.sum (h : r.Shows M) :
    r.sum.1.toNat = (M.map UInt64.toNat).sum % 2 ^ 64 ∧ r.sum.2 = r := by
  refine ⟨?_, ?_⟩
  · rw [toNat_sum, ← h.retained]
    simp
  · rw [sum_snd, h.truncate]

theorem retained_sortSamples (h : r.numberOfSamples ≤ r.maxSize) :
    r.sortSamples.retained = r.retained.mergeSort fun a b => decide (a ≤ b) := by
  have hsize : r.sortSamples.size = r.numberOfSamples := size_of_le h
  have hlen := r.length_retained
  simp only [retained, size_of_le h] at hlen ⊢
  rw [hsize]
  exact List.take_left' (by rw [List.length_mergeSort, hlen])

theorem Shows.sortSamples (h : r.Shows M) :
    r.sortSamples.Shows M ∧ r.sortSamples.retained.Pairwise (· ≤ ·) := by
  have hpw : r.sortSamples.retained.Pairwise (· ≤ ·) := by
    rw [retained_sortSamples h.le]
    have htrans : ∀ a b c : UInt64, decide (a ≤ b) = true → decide (b ≤ c) = true →
        decide (a ≤ c) = true := by
      simpa using fun a b c => UInt64.le_trans
    have htotal : ∀ a b : UInt64, (decide (a ≤ b) || decide (b ≤ a)) = true := by
      simpa using UInt64.le_total
    exact (List.pairwise_mergeSort htrans htotal r.retained).imp fun hab => of_decide_eq_true hab
  refine ⟨⟨h.le, ?_, fun _ => hpw⟩, hpw⟩
  rw [retained_sortSamples h.le, ← h.retained]
  exact Multiset.coe_eq_coe.2 (List.mergeSort_perm _ _)

/-- `Sort` keeps the samples and puts them in order. -/
theorem Shows.sort (h : r.Shows M) (h0 : r.numberOfSamples ≠ 0) :
    r.sort.Shows M ∧ r.sort.retained.Pairwise (· ≤ ·) := by
  unfold Result.sort
  simp only [if_neg h0, if_neg (UInt32.not_lt.2 h.le)]
  split_ifs with hs
  · exact ⟨h, h.sorted hs⟩
  · exact h.sortSamples

theorem get_eq (r : Result) {i : UInt32} (hi : i.toNat < r.retained.length) :
    r.get i = r.retained[i.toNat] := by
  have hlen : i.toNat < r.samples.length := by
    rw [retained, List.length_take] at hi
    omega
  simp [Result.get, retained, hlen]

theorem getElem_le_getElem {l : List UInt64} (h : l.Pairwise (· ≤ ·)) {i j : ℕ} (hij : i ≤ j)
    (hj : j < l.length) : l[i] ≤ l[j] := by
  rcases hij.eq_or_lt with rfl | hlt
  · exact UInt64.le_refl _
  · exact List.pairwise_iff_getElem.1 h i j _ hj hlt

/-- `Max` gives the greatest sample, or `0` if there is none. -/
theorem Shows.max (h : r.Shows M) :
    r.max.2.Shows M ∧ (M = 0 → r.max.1 = 0) ∧
      (M ≠ 0 → r.max.1 ∈ M ∧ ∀ v ∈ M, v ≤ r.max.1) := by
  unfold Result.max
  split_ifs with h0
  · exact ⟨h, fun _ => rfl, fun hM => absurd (h.eq_zero_iff.2 h0) hM⟩
  · obtain ⟨hs, hpw⟩ := h.sort h0
    refine ⟨hs, fun hM => absurd (h.eq_zero_iff.1 hM) h0, fun hM => ?_⟩
    have hlen := hs.card
    have hpos := Multiset.card_pos.2 hM
    have hlast : (r.sort.numberOfSamples - 1).toNat = r.sort.numberOfSamples.toNat - 1 := by
      have h1 : (1 : UInt32) ≤ r.sort.numberOfSamples := by
        rw [UInt32.le_iff_toNat_le, ← hlen]
        exact hpos
      rw [UInt32.toNat_sub_of_le _ _ h1]
      rfl
    rw [← hs.retained, Multiset.coe_card] at hlen hpos
    have hlt : (r.sort.numberOfSamples - 1).toNat < r.sort.retained.length := by omega
    simp only [← hs.retained, get_eq _ hlt]
    refine ⟨List.getElem_mem hlt, fun v hv => ?_⟩
    obtain ⟨i, hi, rfl⟩ := List.getElem_of_mem (Multiset.mem_coe.1 hv)
    exact getElem_le_getElem hpw (by omega) hlt

/-- `Min` gives the least sample, or `0` if there is none. -/
theorem Shows.min (h : r.Shows M) :
    r.min.2.Shows M ∧ (M = 0 → r.min.1 = 0) ∧
      (M ≠ 0 → r.min.1 ∈ M ∧ ∀ v ∈ M, r.min.1 ≤ v) := by
  unfold Result.min
  split_ifs with h0
  · exact ⟨h, fun _ => rfl, fun hM => absurd (h.eq_zero_iff.2 h0) hM⟩
  · obtain ⟨hs, hpw⟩ := h.sort h0
    refine ⟨hs, fun hM => absurd (h.eq_zero_iff.1 hM) h0, fun hM => ?_⟩
    have hpos := Multiset.card_pos.2 hM
    rw [← hs.retained, Multiset.coe_card] at hpos
    have hlt : (0 : UInt32).toNat < r.sort.retained.length := hpos
    simp only [← hs.retained, get_eq _ hlt]
    refine ⟨List.getElem_mem hlt, fun v hv => ?_⟩
    obtain ⟨i, hi, rfl⟩ := List.getElem_of_mem (Multiset.mem_coe.1 hv)
    exact getElem_le_getElem hpw (Nat.zero_le i) hi

end Result

/-- The integer figures of one row of the report. -/
structure Figures where
  size : UInt32
  sum : UInt64
  max : UInt64
  min : UInt64

/-- A row of the throughput report: `Size`, `Sum`, `Max` and `Min` are read in this order. -/
def throughputRow (r : Result) : Figures :=
  let size := r.size
  let (sum, r) := r.sum
  let (max, r) := r.max
  let (min, _) := r.min
  ⟨size, sum, max, min⟩

/-- A row of the latency report: `Size`, `Max`, `Min`, and `Mean`, which reads `Sum`. -/
def latencyRow (r : Result) : Figures :=
  let size := r.size
  let (max, r) := r.max
  let (min, r) := r.min
  let (sum, _) := r.sum
  ⟨size, sum, max, min⟩

/-- The figures are those of the samples `M`; the greatest and the least of none is `0`. -/
structure Figures.Of (f : Figures) (M : Multiset UInt64) : Prop where
  size : f.size.toNat = M.card
  sum : f.sum.toNat = (M.map UInt64.toNat).sum % 2 ^ 64
  empty : M = 0 → f.max = 0 ∧ f.min = 0
  max : M ≠ 0 → f.max ∈ M ∧ ∀ v ∈ M, v ≤ f.max
  min : M ≠ 0 → f.min ∈ M ∧ ∀ v ∈ M, f.min ≤ v

theorem throughputRow_of {r : Result} {M : Multiset UInt64} (h : r.Shows M) :
    (throughputRow r).Of M := by
  obtain ⟨hsum, hr⟩ := h.sum
  have hmax := (hr.symm ▸ h).max
  have hmin := hmax.1.min
  refine ⟨?_, hsum, fun h0 => ⟨hmax.2.1 h0, hmin.2.1 h0⟩, hmax.2.2, hmin.2.2⟩
  rw [h.card, ← Result.size_of_le h.le]
  rfl

theorem latencyRow_of {r : Result} {M : Multiset UInt64} (h : r.Shows M) :
    (latencyRow r).Of M := by
  have hmax := h.max
  have hmin := hmax.1.min
  refine ⟨?_, hmin.1.sum.1, fun h0 => ⟨hmax.2.1 h0, hmin.2.1 h0⟩, hmax.2.2, hmin.2.2⟩
  rw [h.card, ← Result.size_of_le h.le]
  rfl

end Benchmark

end Farlock
