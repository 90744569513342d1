import Mathlib
import Farlock.Lib.Transition
import Farlock.Benchmark.Reservoir

/-!
# Asking a reservoir for its figures (`include/benchmark/result.h`)

`Max`, `Min`, `Percentile` and `Median` sort the samples in place and remember in `sorted_` that
they have done so.  Only `Sort` clears this flag, and only when it cuts the counter; `operator<<`,
`operator+=` and `Reset` leave it set.

* `Result.ask`: the queries;
* `Right`: what a query should answer;
* `Fit`: when the flag does not lie, and `Median` is asked where its index does not matter;
* `queries_right`: in every run the queries are right in the states that are fit for them.
-/

namespace Farlock

namespace Benchmark

/-- The queries. -/
inductive Query
  | sum
  | max
  | min
  | percentile (p : ℚ)
  | median

namespace Result

/-- `Reset` -/
def reset (r : Result) : Result := { r with numberOfSamples := 0 }

/-- `Percentile` -/
def percentile (r : Result) (p : ℚ) : UInt64 × Result :=
  if r.numberOfSamples = 0 ∨ p < 0 ∨ 100 < p then (0, r)
  else
    let p := p / 100
    let r := r.truncate.sort
    let index := UInt32.ofNat ⌊r.numberOfSamples.toNat * p⌋₊
    let last := r.numberOfSamples - 1
    (r.get (if last < index then last else index), r)

/-- `Median` -/
def median (r : Result) : UInt64 × Result := r.percentile 0.5

/-- The value of a query, and the reservoir it leaves. -/
def ask (r : Result) : Query → UInt64 × Result
  | .sum => r.sum
  | .max => r.max
  | .min => r.min
  | .percentile p => r.percentile p
  | .median => r.median

end Result

/-- The samples in order. -/
def ordered (xs : List UInt64) : List UInt64 := xs.mergeSort fun a b => decide (a ≤ b)

/-- The sample in the middle. -/
def middle (xs : List UInt64) : Option UInt64 := (ordered xs)[min (xs.length / 2) (xs.length - 1)]?

/-- What a query should answer if the samples are `xs`. -/
def Right (xs : List UInt64) (v : UInt64) : Query → Prop
  | .sum => v.toNat = (xs.map UInt64.toNat).sum % 2 ^ 64
  | .max => xs ≠ [] → v ∈ xs ∧ ∀ x ∈ xs, x ≤ v
  | .min => xs ≠ [] → v ∈ xs ∧ ∀ x ∈ xs, v ≤ x
  | .percentile p => xs ≠ [] → 0 ≤ p → p ≤ 100 →
      (ordered xs)[min ⌊xs.length * p / 100⌋₊ (xs.length - 1)]? = some v
  | .median => xs ≠ [] → middle xs = some v

/-- The flag is not set while the samples are out of order; `Max` and `Min` do not trust it if the
counter is above the capacity.  `Median` asks for percentile 0.5 and has to find there what is in
the middle. -/
def Result.Fit (r : Result) : Query → Prop
  | .sum => True
  | .max | .min => r.numberOfSamples ≤ r.maxSize → r.sorted = true → r.retained.Pairwise (· ≤ ·)
  | .percentile _ => r.sorted = true → r.retained.Pairwise (· ≤ ·)
  | .median => (r.sorted = true → r.retained.Pairwise (· ≤ ·)) ∧
      (ordered r.retained)[r.retained.length / 200]? = middle r.retained

/-! ### Sorting -/

namespace Result

variable {r : Result} {M : Multiset UInt64}

/-- What `Sort` does before it looks at the flag. -/
def cut (r : Result) : Result :=
  if r.maxSize < r.numberOfSamples then { r with numberOfSamples := r.maxSize, sorted := false } else r

theorem cut_of_le (h : r.numberOfSamples ≤ r.maxSize) : r.cut = r := if_neg (UInt32.not_lt.2 h)

theorem cut_spec (r : Result) :
    r.cut.maxSize = r.maxSize ∧ r.cut.numberOfSamples = r.truncate.numberOfSamples ∧
      r.cut.retained = r.retained := by
  by_cases h : r.maxSize < r.numberOfSamples
  · simp [cut, truncate, retained, size, h]
  · simp [cut, truncate, h]

theorem cut_le (r : Result) : r.cut.numberOfSamples ≤ r.cut.maxSize := by
  unfold cut
  split_ifs with h
  · exact UInt32.le_refl _
  · exact UInt32.not_lt.1 h

theorem sort_eq (h0 : r.numberOfSamples ≠ 0) :
    r.sort = if r.cut.sorted then r.cut else r.cut.sortSamples := if_neg h0

/-- `Sort` keeps the samples, whatever the flag says. -/
theorem perm_sort (r : Result) : r.sort.retained.Perm r.retained := by
  by_cases h0 : r.numberOfSamples = 0
  · rw [sort, if_pos h0]
  · obtain ⟨-, -, hret⟩ := r.cut_spec
    rw [sort_eq h0, ← hret]
    split_ifs
    · exact List.Perm.refl _
    · rw [retained_sortSamples r.cut_le]
      exact List.mergeSort_perm _ _

theorem sort_number (r : Result) :
    r.sort.maxSize = r.maxSize ∧ r.sort.numberOfSamples = r.truncate.numberOfSamples := by
  by_cases h0 : r.numberOfSamples = 0
  · rw [sort, if_pos h0, truncate_of_le (h0 ▸ UInt32.zero_le)]
    exact ⟨rfl, rfl⟩
  · obtain ⟨hmax, hnum, -⟩ := r.cut_spec
    rw [sort_eq h0]
    split_ifs
    · exact ⟨hmax, hnum⟩
    · exact ⟨hmax, hnum⟩

/-- The reservoir shows its samples if the flag does not lie. -/
theorem shows_cut (hs : r.numberOfSamples ≤ r.maxSize → r.sorted = true → r.retained.Pairwise (· ≤ ·)) :
    r.cut.Shows r.retained := by
  obtain ⟨-, -, hret⟩ := r.cut_spec
  refine ⟨r.cut_le, by rw [hret], ?_⟩
  rw [hret]
  by_cases h : r.maxSize < r.numberOfSamples
  · simp [cut, h]
  · rw [cut_of_le (UInt32.not_lt.1 h)]
    exact hs (UInt32.not_lt.1 h)

theorem shows_truncate (hs : r.sorted = true → r.retained.Pairwise (· ≤ ·)) :
    r.truncate.Shows r.retained := by
  refine ⟨r.truncate_le, by rw [retained_truncate], ?_⟩
  rw [retained_truncate]
  by_cases h : r.maxSize < r.numberOfSamples
  · simpa [truncate, h] using hs
  · rwa [truncate_of_le (UInt32.not_lt.1 h)]

/-- `Sort` puts the samples in order. -/
theorem Shows.retained_sort (h : r.Shows M) (h0 : r.numberOfSamples ≠ 0) :
    r.sort.retained = ordered r.retained := by
  rw [sort_eq h0, cut_of_le h.le]
  split_ifs with hs
  · exact (List.mergeSort_eq_self (· ≤ ·) (h.sorted hs)).symm
  · exact retained_sortSamples h.le

/-- The counter is not cut to zero. -/
theorem truncate_number_ne_zero (hm : r.maxSize ≠ 0) (h0 : r.numberOfSamples ≠ 0) :
    r.truncate.numberOfSamples ≠ 0 := by
  unfold truncate
  split_ifs
  · exact hm
  · exact h0

/-- `Sort` cuts the counter before it sorts. -/
theorem sort_cut (hm : r.maxSize ≠ 0) (h0 : r.numberOfSamples ≠ 0) : r.cut.sort = r.sort := by
  have hcut : r.cut.numberOfSamples ≠ 0 := by
    rw [r.cut_spec.2.1]
    exact truncate_number_ne_zero hm h0
  rw [sort_eq h0, sort_eq hcut, cut_of_le r.cut_le]

theorem max_cut (hm : r.maxSize ≠ 0) (h0 : r.numberOfSamples ≠ 0) : r.cut.max = r.max := by
  have hcut : r.cut.numberOfSamples ≠ 0 := by
    rw [r.cut_spec.2.1]
    exact truncate_number_ne_zero hm h0
  simp only [max, if_neg h0, if_neg hcut, sort_cut hm h0]

theorem min_cut (hm : r.maxSize ≠ 0) (h0 : r.numberOfSamples ≠ 0) : r.cut.min = r.min := by
  have hcut : r.cut.numberOfSamples ≠ 0 := by
    rw [r.cut_spec.2.1]
    exact truncate_number_ne_zero hm h0
  simp only [min, if_neg h0, if_neg hcut, sort_cut hm h0]

/-- `Percentile` reads the sample at its index in order. -/
theorem percentile_spec (hm : r.maxSize ≠ 0) (hs : r.sorted = true → r.retained.Pairwise (· ≤ ·)) {p : ℚ}
    (hne : r.retained ≠ []) (hp : 0 ≤ p) (hp' : p ≤ 100) :
    (ordered r.retained)[Min.min ⌊r.retained.length * p / 100⌋₊ (r.retained.length - 1)]? =
      some (r.percentile p).1 := by
  have h0 : r.numberOfSamples ≠ 0 := fun h0 => hne (retained_eq_nil h0)
  have hcond : ¬ (r.numberOfSamples = 0 ∨ p < 0 ∨ 100 < p) := by
    push Not
    exact ⟨h0, hp, hp'⟩
  have hshows := shows_truncate hs
  have hsort := hshows.retained_sort (truncate_number_ne_zero hm h0)
  rw [retained_truncate] at hsort
  have hn : r.truncate.sort.numberOfSamples.toNat = r.retained.length := by
    rw [r.truncate.sort_number.2, truncate_of_le r.truncate_le, ← size_of_le r.truncate_le,
      ← length_retained, retained_truncate]
  have hpos := List.length_pos_iff.2 hne
  have hlt := r.truncate.sort.numberOfSamples.toNat_lt
  -- the index is at most the number of samples, so it is not cut by the conversion
  have hfloor : ⌊(r.retained.length * (p / 100) : ℚ)⌋₊ ≤ r.retained.length := by
    apply Nat.floor_le_of_le
    have : p / 100 ≤ 1 := by linarith
    nlinarith
  have hindex : (UInt32.ofNat ⌊(r.retained.length * (p / 100) : ℚ)⌋₊).toNat =
      ⌊(r.retained.length * p / 100 : ℚ)⌋₊ := by
    rw [UInt32.toNat_ofNat', Nat.mod_eq_of_lt (by omega), mul_div_assoc]
  have hlast : (r.truncate.sort.numberOfSamples - 1).toNat = r.retained.length - 1 := by
    rw [UInt32.toNat_sub_of_le, hn]
    · rfl
    · rw [UInt32.le_iff_toNat_le, hn]
      exact hpos
  simp only [percentile, if_neg hcond, hn]
  generalize UInt32.ofNat ⌊(r.retained.length * (p / 100) : ℚ)⌋₊ = index at hindex
  generalize r.truncate.sort.numberOfSamples - 1 = last at hlast
  rw [← hindex, ← hlast]
  have hmin : (if last < index then last else index).toNat = Min.min index.toNat last.toNat := by
    split_ifs with h
    · rw [UInt32.lt_iff_toNat_lt] at h
      exact (min_eq_right h.le).symm
    · rw [UInt32.lt_iff_toNat_lt] at h
      exact (min_eq_left (by omega)).symm
  have hi : (if last < index then last else index).toNat < r.truncate.sort.retained.length := by
    rw [hmin, hsort, ordered, List.length_mergeSort]
    omega
  rw [get_eq _ hi, ← hmin, ← hsort, List.getElem?_eq_getElem hi]

/-- A query that meets a fit reservoir is right. -/
theorem ask_right (hm : r.maxSize ≠ 0) {q : Query} (hq : r.Fit q) : Right r.retained (r.ask q).1 q := by
  cases q with
  | sum => exact r.toNat_sum
  | max =>
    intro hne
    have h0 : r.numberOfSamples ≠ 0 := fun h0 => hne (retained_eq_nil h0)
    obtain ⟨-, -, hmax⟩ := (shows_cut hq).max
    rw [max_cut hm h0] at hmax
    simpa [ask] using hmax (by simpa using hne)
  | min =>
    intro hne
    have h0 : r.numberOfSamples ≠ 0 := fun h0 => hne (retained_eq_nil h0)
    obtain ⟨-, -, hmin⟩ := (shows_cut hq).min
    rw [min_cut hm h0] at hmin
    simpa [ask] using hmin (by simpa using hne)
  | percentile p =>
    intro hne hp hp'
    exact percentile_spec hm hq hne hp hp'
  | median =>
    intro hne
    have hmed := percentile_spec hm hq.1 hne (p := 0.5) (by norm_num) (by norm_num)
    have hindex : ⌊(r.retained.length * 0.5 / 100 : ℚ)⌋₊ = r.retained.length / 200 := by
      rw [← Nat.floor_div_eq_div (K := ℚ) r.retained.length 200]
      congr 1
      push_cast
      ring
    have hpos := List.length_pos_iff.2 hne
    rw [hindex, min_eq_left (by omega), hq.2] at hmed
    exact hmed

/-- No query changes the samples. -/
theorem perm_ask (r : Result) (q : Query) : (r.ask q).2.retained.Perm r.retained := by
  have hpercentile : ∀ p, (r.percentile p).2.retained.Perm r.retained := by
    intro p
    unfold percentile
    split_ifs
    · exact List.Perm.refl _
    · exact r.truncate.perm_sort.trans (by rw [retained_truncate])
  cases q with
  | sum =>
    simp only [ask]
    rw [sum_snd, retained_truncate]
  | max =>
    simp only [ask, max]
    split_ifs
    · exact List.Perm.refl _
    · exact r.perm_sort
  | min =>
    simp only [ask, min]
    split_ifs
    · exact List.Perm.refl _
    · exact r.perm_sort
  | percentile p => exact hpercentile p
  | median => exact hpercentile 0.5

/-- A query leaves the counter or cuts it to the capacity. -/
theorem ask_number (r : Result) (q : Query) :
    (r.ask q).2.maxSize = r.maxSize ∧ ((r.ask q).2.numberOfSamples = r.numberOfSamples ∨
      (r.ask q).2.numberOfSamples = r.truncate.numberOfSamples) := by
  have htrunc : r.truncate.maxSize = r.maxSize := by
    unfold truncate
    split_ifs <;> rfl
  have hpercentile : ∀ p, (r.percentile p).2.maxSize = r.maxSize ∧
      ((r.percentile p).2.numberOfSamples = r.numberOfSamples ∨
        (r.percentile p).2.numberOfSamples = r.truncate.numberOfSamples) := by
    intro p
    unfold percentile
    split_ifs
    · exact ⟨rfl, .inl rfl⟩
    · obtain ⟨hmax, hnum⟩ := r.truncate.sort_number
      rw [truncate_of_le r.truncate_le] at hnum
      exact ⟨hmax.trans htrunc, .inr hnum⟩
  have hsort := r.sort_number
  cases q with
  | sum =>
    simp only [ask]
    rw [sum_snd]
    exact ⟨htrunc, .inr rfl⟩
  | max =>
    simp only [ask, max]
    split_ifs
    · exact ⟨rfl, .inl rfl⟩
    · exact ⟨hsort.1, .inr hsort.2⟩
  | min =>
    simp only [ask, min]
    split_ifs
    · exact ⟨rfl, .inl rfl⟩
    · exact ⟨hsort.1, .inr hsort.2⟩
  | percentile p => exact hpercentile p
  | median => exact hpercentile 0.5

/-! ### The counter -/

/-- The reservoir has room for `m` samples and has been given `n` since it was last empty; the
counter may have been cut. -/
structure Counted (r : Result) (m : UInt32) (n : ℕ) : Prop where
  maxSize : r.maxSize = m
  number : r.numberOfSamples.toNat = n ∨
    m.toNat ≤ r.numberOfSamples.toNat ∧ r.numberOfSamples.toNat ≤ n
  lt : n < 2 ^ 32

variable {m : UInt32} {n : ℕ}

theorem Counted.push (h : r.Counted m n) (hn : n + 1 < 2 ^ 32) {x : UInt64} {r' : Result}
    (hr : r.push x = some r') : r'.Counted m (n + 1) := by
  obtain ⟨r'', hr'', heq⟩ := push_mem_outcomes hr
  obtain ⟨hmax, hnum⟩ := outcomes_spec hr''
  have hmax' : r'.maxSize = r''.maxSize := by rw [heq]
  have hnum' : r'.numberOfSamples = r''.numberOfSamples := by rw [heq]
  have hcount := h.number
  have hadd : (r.numberOfSamples + 1).toNat = r.numberOfSamples.toNat + 1 := by
    rw [UInt32.toNat_add, UInt32.toNat_one]
    omega
  refine ⟨(hmax'.trans hmax).trans h.maxSize, ?_, hn⟩
  rw [hnum', hnum, hadd]
  omega

theorem Counted.foldlM {α : Type} {v : α → UInt64} (l : List α) (h : r.Counted m n)
    (hn : n + l.length < 2 ^ 32) {r' : Result} (hr : l.foldlM (fun r a => r.push (v a)) r = some r') :
    r'.Counted m (n + l.length) := by
  induction l generalizing r n with
  | nil =>
    cases hr
    exact h
  | cons a l ih =>
    rw [List.length_cons] at hn ⊢
    rw [List.foldlM_cons] at hr
    obtain ⟨r'', hr'', hr⟩ := Option.bind_eq_some_iff.1 hr
    have h'' := h.push (by omega) hr''
    rw [show n + (l.length + 1) = n + 1 + l.length by omega]
    exact ih h'' (by omega) hr

theorem Counted.ask (h : r.Counted m n) (q : Query) : (r.ask q).2.Counted m n := by
  obtain ⟨hmax, hnum⟩ := r.ask_number q
  refine ⟨hmax.trans h.maxSize, ?_, h.lt⟩
  have hcount := h.number
  rcases hnum with hnum | hnum
  · rwa [hnum]
  · rw [hnum]
    unfold truncate
    split_ifs with hlt
    · rw [UInt32.lt_iff_toNat_lt, h.maxSize] at hlt
      simp only [h.maxSize]
      omega
    · exact hcount

/-- The retained samples are the first `min n m` slots. -/
theorem Counted.retained (h : r.Counted m n) : r.retained = r.samples.take (Min.min n m.toNat) := by
  have hcount := h.number
  have hsize : r.size.toNat = Min.min n m.toNat := by
    unfold size
    rw [h.maxSize]
    split_ifs with hlt
    · rw [UInt32.lt_iff_toNat_lt] at hlt
      omega
    · rw [UInt32.lt_iff_toNat_lt] at hlt
      omega
  rw [Result.retained, hsize]

end Result

/-! ### Runs -/

/-- A reservoir, and how many samples it has been given since the last `Reset`. -/
structure Given where
  result : Result
  pushes : ℕ

/-- What is done with a reservoir; a query is an event with the value it returns. -/
inductive GivenStep : Given → Option (Query × UInt64) → Given → Prop
  | push {s : Given} {x : UInt64} {r : Result} : s.result.push x = some r → s.pushes + 1 < 2 ^ 32 →
      GivenStep s none ⟨r, s.pushes + 1⟩
  | append {s : Given} {other r : Result} : s.result.append other = some r →
      s.pushes + other.size.toNat < 2 ^ 32 → GivenStep s none ⟨r, s.pushes + other.size.toNat⟩
  | reset {s : Given} : GivenStep s none ⟨s.result.reset, 0⟩
  | ask {s : Given} (q : Query) : GivenStep s (some (q, (s.result.ask q).1)) ⟨(s.result.ask q).2, s.pushes⟩

/-- Every sequence of calls on a new reservoir. -/
def calls (threadId maxSize : UInt32) : Lts Given (Query × UInt64) where
  init s := s = ⟨Result.new threadId maxSize, 0⟩
  step := GivenStep

theorem counted_run {threadId maxSize : UInt32} {tr : List (Query × UInt64)} {s : Given}
    (hr : (calls threadId maxSize).Run tr s) : s.result.Counted maxSize s.pushes := by
  apply Lts.Run.invariant (I := fun _ s => s.result.Counted maxSize s.pushes) _ _ hr
  · rintro s rfl
    exact ⟨rfl, .inl rfl, by norm_num⟩
  · intro tr s e s' _ h hs
    cases hs with
    | push hpush hlt => exact h.push hlt hpush
    | append happend hlt =>
      have := h.foldlM _ (by rwa [List.length_range]) happend
      rwa [List.length_range] at this
    | reset => exact ⟨h.maxSize, .inl rfl, by norm_num⟩
    | ask q => exact h.ask q

/-- In every run the retained samples are the first slots, no query changes them, and a query is
right if the reservoir is fit for it. -/
theorem queries_right {threadId maxSize : UInt32} (hm : 1 ≤ maxSize.toNat)
    {tr : List (Query × UInt64)} {s : Given} (hr : (calls threadId maxSize).Run tr s) :
    s.result.retained = s.result.samples.take (min s.pushes maxSize.toNat) ∧
      ∀ q v s', (calls threadId maxSize).step s (some (q, v)) s' →
        s'.result.retained.Perm s.result.retained ∧
          (s.result.Fit q → Right s.result.retained v q) := by
  have hcounted := counted_run hr
  refine ⟨hcounted.retained, fun q v s' hs => ?_⟩
  cases hs
  refine ⟨s.result.perm_ask q, fun hq => Result.ask_right ?_ hq⟩
  rw [hcounted.maxSize]
  rintro rfl
  exact absurd hm (by decide)

/-- A reservoir for two samples that has been given `x` and `y`. -/
def givenTwo (x y : UInt64) : Given := ⟨Result.two x y, 2⟩

theorem givenTwo_run (x y : UInt64) : (calls 0 2).Run [] (givenTwo x y) := by
  have h0 : (calls 0 2).Run [] ⟨Result.new 0 2, 0⟩ := .start rfl
  have h1 := h0.next (.push (x := x) rfl (by norm_num))
  exact h1.next (.push (x := y) rfl (by norm_num))

/-- The greatest of two samples. -/
theorem queries_right_two : (calls 0 2).Run [] (givenTwo 5 3) ∧ (givenTwo 5 3).result.retained = [5, 3] ∧
    Right [5, 3] ((givenTwo 5 3).result.ask .max).1 .max := by
  refine ⟨givenTwo_run 5 3, rfl, ?_⟩
  apply ((queries_right (by decide) (givenTwo_run 5 3)).2 .max _ _ (.ask .max)).2
  intro _ hs
  cases hs

/-- A sample that comes after the samples have been sorted is taken for the greatest, and the median
of two samples is the first. -/
theorem flag_not_cleared :
    (∃ s, (calls 0 2).Run [(.max, 5)] s ∧ s.result.retained = [5, 3] ∧ (s.result.ask .max).1 = 3 ∧
      ¬ Right [5, 3] 3 .max) ∧
    ∃ s, (calls 0 2).Run [] s ∧ s.result.retained = [1, 2] ∧ (s.result.ask .median).1 = 1 ∧
      ¬ Right [1, 2] 1 .median := by
  constructor
  · have h0 : (calls 0 2).Run [] ⟨Result.new 0 2, 0⟩ := .start rfl
    have h1 : (calls 0 2).Run [] ⟨⟨⟨0⟩, 2, 1, [5, 0], false, 0, rfl⟩, 1⟩ :=
      h0.next (.push (x := 5) rfl (by norm_num))
    have hask : Result.ask ⟨⟨0⟩, 2, 1, [5, 0], false, 0, rfl⟩ .max =
        (5, ⟨⟨0⟩, 2, 1, [5, 0], true, 0, rfl⟩) := by
      simp [Result.ask, Result.max, Result.sort, Result.sortSamples, Result.get]
    have h2 := h1.next (.ask .max)
    rw [hask] at h2
    refine ⟨_, h2.next (.push (x := 3) rfl (by norm_num)), rfl, rfl, fun h => ?_⟩
    exact absurd ((h (by simp)).2 5 (by simp)) (by decide)
  · have hordered : ordered [1, 2] = [1, 2] := List.mergeSort_eq_self (· ≤ ·) (by decide)
    have hfloor : ⌊(2 * 0.5 / 100 : ℚ)⌋₊ = 0 := by norm_num
    have hmedian := Result.percentile_spec (r := (givenTwo 1 2).result) (p := 0.5) (by decide)
      (fun hs => absurd hs Bool.false_ne_true) (by decide) (by norm_num) (by norm_num)
    have hret : (givenTwo 1 2).result.retained = [1, 2] := rfl
    rw [hret, hordered] at hmedian
    refine ⟨givenTwo 1 2, givenTwo_run 1 2, rfl, ?_, fun h => ?_⟩
    · simp [hfloor] at hmedian
      exact hmedian.symm
    · have hmiddle := h (by simp)
      rw [middle, hordered] at hmiddle
      simp at hmiddle

end Benchmark

end Farlock
