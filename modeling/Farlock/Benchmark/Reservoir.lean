import Mathlib
import Farlock.Benchmark.Result

/-!
# Which samples a reservoir keeps (`operator<<` in `include/benchmark/result.h`)

`push` takes one draw of the generator.  `outcomes` has one reservoir for each value that the draw
may have, and `pushAll` one for each sequence of draws.

* `push_mem_outcomes`: `push` is one of the outcomes;
* `unbiased_iff`: every sample is kept equally often only if the reservoir is never full before.
-/

namespace Farlock

namespace Benchmark

/-- The values that `uniform_within` may return. -/
def within (lo hi : UInt32) : List UInt32 :=
  (List.range ((hi - lo).toNat + 1)).map fun i => lo + UInt32.ofNat i

/-- A draw is not above its bound. -/
theorem uniformWithin_le {random random' : UniformRandom} {hi v : UInt32}
    (h : random.uniformWithin 0 hi = some (v, random')) : v.toNat ≤ hi.toNat := by
  unfold UniformRandom.uniformWithin at h
  split_ifs at h with h0 h1
  · cases h
    exact Nat.zero_le _
  · simp only [Option.some.injEq, Prod.mk.injEq] at h
    rw [← h.1]
    rw [UInt32.zero_add, UInt32.sub_zero] at *
    have hpos : 0 < (hi + 1).toNat := by
      rw [Nat.pos_iff_ne_zero, ← UInt32.toNat_zero, Ne, UInt32.toNat_inj]
      exact h1
    have hlt := Nat.mod_lt random.nextUInt32.1.toNat hpos
    rw [UInt32.toNat_mod]
    have hle : (hi + 1).toNat ≤ hi.toNat + 1 := by
      rw [UInt32.toNat_add]
      exact Nat.mod_le _ _
    omega

/-- A draw divides by zero only if its bound is `2 ^ 32 - 1`. -/
theorem uniformWithin_isSome (random : UniformRandom) {hi : UInt32} (h : hi + 1 ≠ 0) :
    ∃ v random', random.uniformWithin 0 hi = some (v, random') := by
  unfold UniformRandom.uniformWithin
  rw [UInt32.sub_zero, if_neg h]
  split_ifs
  · exact ⟨_, _, rfl⟩
  · exact ⟨_, _, rfl⟩

namespace Result

/-- What `operator<<` does with the draw `k` when the reservoir is full. -/
def replace (r : Result) (k : UInt32) (random : UniformRandom) (sample : UInt64) : Result :=
  let r := { r with random := random, replacements := r.replacements + 1 }
  let r := if k < r.maxSize then r.set k sample else r
  { r with numberOfSamples := r.numberOfSamples + 1 }

/-- The reservoirs that `operator<<` may leave, one for each draw. -/
def outcomes (r : Result) (sample : UInt64) : List Result :=
  if r.maxSize ≤ r.numberOfSamples then
    (within 0 (r.numberOfSamples - 1)).map fun k => r.replace k r.random sample
  else
    let r := r.set r.numberOfSamples sample
    [{ r with numberOfSamples := r.numberOfSamples + 1 }]

/-- The reservoirs that `operator<<` may leave after the samples `xs`, one for each sequence of
draws. -/
def pushAll (r : Result) (xs : List UInt64) : List Result :=
  xs.foldl (fun rs x => rs.flatMap fun r => r.outcomes x) [r]

/-- Over all sequences of draws, each of the samples is among the `m` retained ones in a fraction
`m / n` of them. -/
def Unbiased (threadId m : UInt32) (xs : List UInt64) : Prop :=
  ∀ x ∈ xs, (pushAll (new threadId m) xs).countP (fun r => x ∈ r.retained) * xs.length =
    m.toNat * (pushAll (new threadId m) xs).length

variable {r r' : Result} {m : ℕ} {x : UInt64} {xs : List UInt64}

theorem pushAll_concat (r : Result) (xs : List UInt64) (x : UInt64) :
    pushAll r (xs ++ [x]) = (pushAll r xs).flatMap fun r => r.outcomes x := by
  simp [pushAll, List.foldl_append]

/-! ### One sample -/

theorem mem_within {random random' : UniformRandom} {hi v : UInt32}
    (h : random.uniformWithin 0 hi = some (v, random')) : v ∈ within 0 hi := by
  have hle := uniformWithin_le h
  refine List.mem_map.2 ⟨v.toNat, List.mem_range.2 ?_, ?_⟩
  · rw [UInt32.sub_zero]
    omega
  · rw [UInt32.ofNat_toNat, UInt32.zero_add]

theorem replace_spec (r : Result) (k : UInt32) (random : UniformRandom) (x : UInt64) :
    (r.replace k random x).maxSize = r.maxSize ∧
      (r.replace k random x).numberOfSamples = r.numberOfSamples + 1 ∧
      (r.replace k random x).samples = if k < r.maxSize then r.samples.set k.toNat x else r.samples := by
  unfold replace
  by_cases h : k < r.maxSize <;> simp [h, set]

theorem push_of_full (h : r.maxSize ≤ r.numberOfSamples) (x : UInt64) :
    r.push x = (r.random.uniformWithin 0 (r.numberOfSamples - 1)).map fun p => r.replace p.1 p.2 x := by
  rw [push, if_pos h]
  cases r.random.uniformWithin 0 (r.numberOfSamples - 1) <;> rfl

/-- `push` is one of the outcomes, but for the state of the generator. -/
theorem push_mem_outcomes (h : r.push x = some r') :
    ∃ r'' ∈ r.outcomes x, r' = { r'' with random := r'.random } := by
  by_cases hfull : r.maxSize ≤ r.numberOfSamples
  · rw [push_of_full hfull, Option.map_eq_some_iff] at h
    obtain ⟨⟨k, random⟩, hk, rfl⟩ := h
    rw [outcomes, if_pos hfull]
    refine ⟨_, List.mem_map_of_mem (mem_within hk), ?_⟩
    by_cases hlt : k < r.maxSize <;> simp [replace, hlt, set]
  · rw [push, if_neg hfull] at h
    rw [outcomes, if_neg hfull]
    cases h
    exact ⟨_, List.mem_singleton_self _, rfl⟩

/-- A reservoir that has room for something can always be given a sample. -/
theorem push_isSome (h0 : r.maxSize ≠ 0) (x : UInt64) :
    ∃ r', r.push x = some r' ∧ r'.maxSize = r.maxSize := by
  by_cases hfull : r.maxSize ≤ r.numberOfSamples
  · have hne : r.numberOfSamples - 1 + 1 ≠ 0 := by
      rw [UInt32.sub_add_cancel]
      intro hzero
      rw [hzero, UInt32.le_zero_iff] at hfull
      exact h0 hfull
    obtain ⟨k, random, hk⟩ := uniformWithin_isSome r.random hne
    rw [push_of_full hfull, hk]
    exact ⟨_, rfl, (r.replace_spec k random x).1⟩
  · rw [push, if_neg hfull]
    exact ⟨_, rfl, rfl⟩

/-- There is a draw for each sample that has come. -/
theorem length_outcomes (hfull : r.maxSize ≤ r.numberOfSamples) (h0 : r.numberOfSamples ≠ 0) (x : UInt64) :
    (r.outcomes x).length = r.numberOfSamples.toNat := by
  have h1 : (1 : UInt32) ≤ r.numberOfSamples := by
    rw [UInt32.le_iff_toNat_le]
    have : r.numberOfSamples.toNat ≠ 0 := fun h => h0 (UInt32.toNat_inj.1 h)
    exact Nat.pos_of_ne_zero this
  have hle := UInt32.le_iff_toNat_le.1 h1
  rw [outcomes, if_pos hfull, List.length_map, within, List.length_map, List.length_range,
    UInt32.sub_zero, UInt32.toNat_sub_of_le _ _ h1]
  exact Nat.sub_add_cancel hle

theorem outcomes_ne_nil (r : Result) (x : UInt64) : r.outcomes x ≠ [] := by
  unfold outcomes within
  split_ifs <;> simp

theorem outcomes_spec (h : r' ∈ r.outcomes x) :
    r'.maxSize = r.maxSize ∧ r'.numberOfSamples = r.numberOfSamples + 1 := by
  unfold outcomes at h
  split_ifs at h with hfull
  · obtain ⟨k, -, rfl⟩ := List.mem_map.1 h
    obtain ⟨hmax, hnum, -⟩ := r.replace_spec k r.random x
    exact ⟨hmax, hnum⟩
  · rw [List.mem_singleton.1 h]
    exact ⟨rfl, rfl⟩

/-! ### All samples -/

theorem pushAll_spec (h : r' ∈ pushAll r xs) :
    r'.maxSize = r.maxSize ∧ r'.numberOfSamples = r.numberOfSamples + UInt32.ofNat xs.length := by
  induction xs using List.reverseRecOn generalizing r' with
  | nil =>
    rw [List.mem_singleton.1 h]
    simp
  | append_singleton xs x ih =>
    rw [pushAll_concat] at h
    obtain ⟨r'', hr'', hr'⟩ := List.mem_flatMap.1 h
    obtain ⟨hmax, hnum⟩ := outcomes_spec hr'
    obtain ⟨hmax', hnum'⟩ := ih hr''
    refine ⟨hmax.trans hmax', ?_⟩
    rw [hnum, hnum', List.length_append, List.length_singleton, UInt32.ofNat_add]
    exact UInt32.add_assoc ..

theorem pushAll_ne_nil (r : Result) (xs : List UInt64) : pushAll r xs ≠ [] := by
  induction xs using List.reverseRecOn with
  | nil => simp [pushAll]
  | append_singleton xs x ih =>
    rw [pushAll_concat, Ne, List.flatMap_eq_nil_iff]
    obtain ⟨r', hr'⟩ := List.exists_mem_of_ne_nil _ ih
    exact fun h => outcomes_ne_nil r' x (h r' hr')

/-! ### The last sample -/

theorem toNat_add_one {n : UInt32} (h : n + 1 ≠ 0) : (n + 1).toNat = n.toNat + 1 := by
  have hlt := n.toNat_lt
  have hne : (n + 1).toNat ≠ 0 := fun h0 => h (UInt32.toNat_inj.1 h0)
  rw [UInt32.toNat_add, UInt32.toNat_one] at hne ⊢
  omega

/-- A sample for which there is room is kept. -/
theorem mem_retained_of_room (hroom : r.numberOfSamples < r.maxSize) (h : r' ∈ r.outcomes x) :
    x ∈ r'.retained := by
  have hlt := UInt32.lt_iff_toNat_lt.1 hroom
  have hnum : (r.numberOfSamples + 1).toNat = r.numberOfSamples.toNat + 1 := by
    have hmax := r.maxSize.toNat_lt
    rw [UInt32.toNat_add, UInt32.toNat_one]
    omega
  obtain ⟨hmax, hnum'⟩ := outcomes_spec h
  have hsize : r'.size.toNat = r.numberOfSamples.toNat + 1 := by
    rw [size_of_le, hnum', hnum]
    rw [hmax, hnum', UInt32.le_iff_toNat_le, hnum]
    exact hlt
  have hsamples : r'.samples = r.samples.set r.numberOfSamples.toNat x := by
    rw [outcomes, if_neg (UInt32.not_le.2 hroom), List.mem_singleton] at h
    rw [h]
    rfl
  rw [retained, hsize, hsamples]
  apply List.mem_take_iff_getElem.2
  refine ⟨r.numberOfSamples.toNat, ?_, ?_⟩
  · simp [r.length_samples, hlt]
  · simp

/-- A sample that replaces another one is kept. -/
theorem mem_retained_replace (hfull : r.maxSize ≤ r.numberOfSamples) (hn : r.numberOfSamples + 1 ≠ 0)
    {k : UInt32} (hk : k < r.maxSize) (random : UniformRandom) : x ∈ (r.replace k random x).retained := by
  obtain ⟨hmax, hnum, hsamples⟩ := r.replace_spec k random x
  have hle := UInt32.le_iff_toNat_le.1 hfull
  have hlt : (r.replace k random x).maxSize < (r.replace k random x).numberOfSamples := by
    rw [hmax, hnum, UInt32.lt_iff_toNat_lt, toNat_add_one hn]
    omega
  rw [retained, size, if_pos hlt, ← (r.replace k random x).length_samples, List.take_length, hsamples,
    if_pos hk]
  apply List.mem_set
  rw [r.length_samples]
  exact UInt32.lt_iff_toNat_lt.1 hk

/-- A sample that is kept has been kept before or is the new one. -/
theorem mem_retained_push {v : UInt64} (h : r.push x = some r')
    (hv : v ∈ r'.retained) : v ∈ r.retained ∨ v = x := by
  by_cases hfull : r.maxSize ≤ r.numberOfSamples
  · rw [push_of_full hfull, Option.map_eq_some_iff] at h
    obtain ⟨⟨k, random⟩, -, rfl⟩ := h
    obtain ⟨-, -, hsamples⟩ := r.replace_spec k random x
    -- a full reservoir has kept all that is in its places
    have hall : r.retained = r.samples := by
      refine List.take_of_length_le ?_
      rw [r.length_samples, size]
      split_ifs
      · exact le_rfl
      · exact UInt32.le_iff_toNat_le.1 hfull
    have hmem := List.mem_of_mem_take hv
    rw [hsamples] at hmem
    rw [hall]
    split_ifs at hmem
    · exact List.mem_or_eq_of_mem_set hmem
    · exact Or.inl hmem
  · have hlt := UInt32.not_le.1 hfull
    have hnat := UInt32.lt_iff_toNat_lt.1 hlt
    have hmax := r.maxSize.toNat_lt
    have hnum : (r.numberOfSamples + 1).toNat = r.numberOfSamples.toNat + 1 := by
      rw [UInt32.toNat_add, UInt32.toNat_one]
      omega
    rw [push, if_neg hfull] at h
    have hr' := (Option.some.inj h).symm
    have hsamples : r'.samples = r.samples.set r.numberOfSamples.toNat x := by
      rw [hr']
      rfl
    have hsize : r'.size.toNat = r.numberOfSamples.toNat + 1 := by
      have hnum' : r'.numberOfSamples = r.numberOfSamples + 1 := by
        rw [hr']
        rfl
      have hmax' : r'.maxSize = r.maxSize := by
        rw [hr']
        rfl
      rw [size_of_le, hnum', hnum]
      rw [hmax', hnum', UInt32.le_iff_toNat_le, hnum]
      exact hnat
    have hlen : r.numberOfSamples.toNat < r.samples.length := by rwa [r.length_samples]
    rw [retained, hsize, hsamples, List.take_add_one, List.take_set_of_le le_rfl] at hv
    rw [retained, size_of_le (UInt32.le_iff_toNat_le.2 hnat.le)]
    simpa [hlen] using hv

/-- The sample is kept for at least `max_size_` of the draws. -/
theorem le_countP_outcomes (hfull : r.maxSize ≤ r.numberOfSamples) (h0 : r.maxSize ≠ 0)
    (hn : r.numberOfSamples + 1 ≠ 0) :
    r.maxSize.toNat ≤ (r.outcomes x).countP fun r' => x ∈ r'.retained := by
  have hle := UInt32.le_iff_toNat_le.1 hfull
  have hpos : (1 : UInt32) ≤ r.numberOfSamples := by
    have : r.maxSize.toNat ≠ 0 := fun h => h0 (UInt32.toNat_inj.1 h)
    rw [UInt32.le_iff_toNat_le, UInt32.toNat_one]
    omega
  have hdraws : (r.numberOfSamples - 1 - 0).toNat + 1 = r.numberOfSamples.toNat := by
    rw [UInt32.sub_zero, UInt32.toNat_sub_of_le _ _ hpos]
    exact Nat.sub_add_cancel (UInt32.le_iff_toNat_le.1 hpos)
  have hmax := r.maxSize.toNat_lt
  rw [outcomes, if_pos hfull, List.countP_map, within, List.countP_map, hdraws]
  -- the draws below `max_size_`
  calc r.maxSize.toNat = (List.range r.maxSize.toNat).length := List.length_range.symm
    _ = (List.range r.maxSize.toNat).countP _ := (List.countP_eq_length.2 fun i hi => ?_).symm
    _ ≤ (List.range r.numberOfSamples.toNat).countP _ := (List.range_sublist.2 hle).countP_le
  have hk : 0 + UInt32.ofNat i < r.maxSize := by
    rw [List.mem_range] at hi
    rw [UInt32.zero_add, UInt32.lt_iff_toNat_lt, UInt32.toNat_ofNat', Nat.mod_eq_of_lt (by omega)]
    exact hi
  exact decide_eq_true (mem_retained_replace hfull hn hk r.random)

/-- The last sample that a full reservoir is given is kept too often. -/
theorem lt_countP_last {threadId m : UInt32} (h0 : m ≠ 0) (hfull : m ≤ UInt32.ofNat xs.length)
    (hn : UInt32.ofNat xs.length + 1 ≠ 0) (x : UInt64) :
    m.toNat * (pushAll (new threadId m) (xs ++ [x])).length <
      (pushAll (new threadId m) (xs ++ [x])).countP (fun r => x ∈ r.retained) * (xs ++ [x]).length := by
  have hspec : ∀ r ∈ pushAll (new threadId m) xs, r.maxSize = m ∧
      r.numberOfSamples = UInt32.ofNat xs.length := by
    intro r hr
    obtain ⟨hmax, hnum⟩ := pushAll_spec hr
    exact ⟨hmax, hnum.trans (UInt32.zero_add _)⟩
  have hm : 0 < m.toNat := Nat.pos_of_ne_zero fun h => h0 (UInt32.toNat_inj.1 h)
  have hP : 0 < (pushAll (new threadId m) xs).length := List.length_pos_iff.2 (pushAll_ne_nil _ _)
  rw [pushAll_concat]
  generalize pushAll (new threadId m) xs = P at hspec hP
  have hlen : (P.flatMap fun r => r.outcomes x).length = P.length * (UInt32.ofNat xs.length).toNat := by
    rw [List.length_flatMap, List.sum_eq_card_nsmul, List.length_map, smul_eq_mul]
    intro n hn'
    obtain ⟨r, hr, rfl⟩ := List.mem_map.1 hn'
    obtain ⟨hmax, hnum⟩ := hspec r hr
    rw [← hnum, length_outcomes (hmax ▸ hnum ▸ hfull)]
    intro hzero
    rw [hnum] at hzero
    rw [hzero, UInt32.le_zero_iff] at hfull
    exact h0 hfull
  have hcount : P.length * m.toNat ≤ (P.flatMap fun r => r.outcomes x).countP (fun r => x ∈ r.retained) := by
    have hsum := List.card_nsmul_le_sum
      (P.map (List.countP (fun r : Result => x ∈ r.retained) ∘ fun r => r.outcomes x)) m.toNat ?_
    · rwa [List.length_map, smul_eq_mul, ← List.countP_flatMap] at hsum
    · intro n hn'
      obtain ⟨r, hr, rfl⟩ := List.mem_map.1 hn'
      obtain ⟨hmax, hnum⟩ := hspec r hr
      rw [← hmax]
      exact le_countP_outcomes (hmax ▸ hnum ▸ hfull) (hmax ▸ h0) (hnum ▸ hn)
  have hmod : (UInt32.ofNat xs.length).toNat ≤ xs.length := by
    rw [UInt32.toNat_ofNat']
    exact Nat.mod_le _ _
  rw [hlen, List.length_append, List.length_singleton]
  calc m.toNat * (P.length * (UInt32.ofNat xs.length).toNat)
      = P.length * m.toNat * (UInt32.ofNat xs.length).toNat := by ring
    _ < P.length * m.toNat * (xs.length + 1) :=
        Nat.mul_lt_mul_of_pos_left (by omega) (Nat.mul_pos hP hm)
    _ ≤ _ := Nat.mul_le_mul_right _ hcount

/-- There is one sequence of draws as long as there is room. -/
theorem Holds.pushAll {r : Result} {m : ℕ} {ys : List UInt64} (h : r.Holds m ys)
    (hm : ys.length + xs.length ≤ m) : ∃ r', pushAll r xs = [r'] ∧ r'.Holds m (ys ++ xs) := by
  induction xs using List.reverseRecOn with
  | nil => exact ⟨r, rfl, by simpa using h⟩
  | append_singleton xs x ih =>
    rw [List.length_append, List.length_singleton] at hm
    obtain ⟨r', hr', h'⟩ := ih (by omega)
    have hlen : (ys ++ xs).length < m := by
      rw [List.length_append]
      omega
    obtain ⟨r'', hr'', h''⟩ := h'.push hlen x
    have hroom : ¬ r'.maxSize ≤ r'.numberOfSamples := by
      rw [UInt32.le_iff_toNat_le, h'.maxSize, h'.number]
      omega
    refine ⟨r'', ?_, by rwa [← List.append_assoc]⟩
    rw [Result.push, if_neg hroom] at hr''
    cases hr''
    rw [pushAll_concat, hr', List.flatMap_singleton, outcomes, if_neg hroom]

/-- A reservoir gives every sample the same chance if and only if none has come when it was full. -/
theorem unbiased_iff {threadId m : UInt32} {xs : List UInt64} (hm : 1 ≤ m.toNat)
    (hn : m.toNat ≤ xs.length) : Unbiased threadId m xs ↔ xs.length = m.toNat := by
  have h0 : m ≠ 0 := by
    rintro rfl
    exact absurd hm (by decide)
  constructor
  · intro h
    by_contra hne
    obtain ⟨ys, x, rfl⟩ : ∃ ys x, xs = ys ++ [x] := by
      refine ⟨xs.dropLast, xs.getLast ?_, (List.dropLast_append_getLast _).symm⟩
      rintro rfl
      simp at hn
      omega
    have hx := h x (by simp)
    have hP : 0 < (Result.pushAll (new threadId m) (ys ++ [x])).length :=
      List.length_pos_iff.2 (pushAll_ne_nil _ _)
    by_cases hwrap : UInt32.ofNat ys.length + 1 = 0
    · -- the counter wraps, and nothing is retained
      have hcount : (Result.pushAll (new threadId m) (ys ++ [x])).countP (fun r => x ∈ r.retained) = 0 := by
        refine List.countP_eq_zero.2 fun r hr => ?_
        obtain ⟨-, hnum⟩ := pushAll_spec hr
        have hnil : r.retained = [] := by
          apply retained_eq_nil
          rw [hnum, List.length_append, List.length_singleton, UInt32.ofNat_add]
          exact (UInt32.zero_add _).trans hwrap
        simp [hnil]
      rw [hcount, Nat.zero_mul] at hx
      exact absurd hx.symm (Nat.mul_pos hm hP).ne'
    · by_cases hroom : UInt32.ofNat ys.length < m
      · -- there is room for the last sample, so it is always kept
        have hcount : (Result.pushAll (new threadId m) (ys ++ [x])).countP (fun r => x ∈ r.retained) =
            (Result.pushAll (new threadId m) (ys ++ [x])).length := by
          refine List.countP_eq_length.2 fun r hr => ?_
          rw [pushAll_concat] at hr
          obtain ⟨r', hr', hr⟩ := List.mem_flatMap.1 hr
          obtain ⟨hmax, hnum⟩ := pushAll_spec hr'
          refine decide_eq_true (mem_retained_of_room ?_ hr)
          rw [hmax, hnum]
          exact (UInt32.zero_add _).symm ▸ hroom
        rw [hcount, Nat.mul_comm] at hx
        exact hne (Nat.eq_of_mul_eq_mul_right hP hx)
      · exact absurd hx (lt_countP_last h0 (UInt32.not_lt.1 hroom) hwrap x).ne'
  · intro hlen
    have hle : ([] : List UInt64).length + xs.length ≤ m.toNat := by simp [hlen]
    obtain ⟨r, hr, hholds⟩ := (holds_new threadId m).pushAll hle
    intro x hx
    have hkept : x ∈ r.retained := by
      have hmem : x ∈ (r.retained : Multiset UInt64) := by
        rw [hholds.shows.retained]
        exact Multiset.mem_coe.2 hx
      exact Multiset.mem_coe.1 hmem
    rw [hr, List.countP_singleton, if_pos (decide_eq_true hkept), hlen, List.length_singleton]
    exact Nat.mul_comm _ _

/-- A reservoir for two samples that has been given two. -/
theorem unbiased_iff_two : Unbiased 0 2 [7, 9] :=
  (unbiased_iff (by decide) (by decide)).2 rfl

/-- A reservoir for one sample that has been given two: the second one always replaces the first. -/
theorem last_always_kept :
    (pushAll (new 0 1) [7, 9]).length = 1 ∧ (∀ r ∈ pushAll (new 0 1) [7, 9], r.retained = [9]) ∧
      ¬ Unbiased 0 1 [7, 9] := by
  refine ⟨rfl, by decide, fun h => ?_⟩
  have h7 := h 7 List.mem_cons_self
  revert h7
  decide

/-- A reservoir that has been given two samples. -/
def two (x y : UInt64) : Result := ⟨⟨0⟩, 2, 2, [x, y], false, 0, rfl⟩

theorem retained_two (x y : UInt64) : (two x y).retained = [x, y] := rfl

end Result

end Benchmark

end Farlock
