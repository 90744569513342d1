import Mathlib.Algebra.Ring.GeomSum
import Mathlib.Tactic

/-!
# Linear congruential generators with an even increment

The generator replaces its state `x` by `x * (b + 1) + c`, modulo `2 ^ (w + 1)`.  The multiplier is
`1` and the increment `2` modulo 4.  So the states keep their parity, and there are at most `2 ^ w`
of them.

* `two_pow_dvd_geom_sum`: the sum of the first `k` powers of the multiplier is divisible by the same
  powers of two as `k`;
* `iterate_eq_iff`: two iterates are equal if and only if their numbers are, modulo `2 ^ w`;
* `exists_iterate_iff`: the generator comes to all states of the parity of its seed.
-/

namespace Congruential

open Finset

/-- One step of the generator. -/
def step (b c M x : ℕ) : ℕ := (x * (b + 1) + c) % M

variable {b c w x y k : ℕ}

/-- A number that is `2` modulo 4 has one factor two. -/
theorem two_pow_dvd_mul {g : ℕ} (hy : y % 4 = 2) : 2 ^ (w + 1) ∣ g * y ↔ 2 ^ w ∣ g := by
  obtain ⟨u, rfl⟩ : ∃ u, y = (2 * u + 1) * 2 := ⟨y / 4, by omega⟩
  have hodd : Nat.Coprime (2 ^ w) (2 * u + 1) :=
    Nat.Coprime.pow_left w (Nat.coprime_two_left.2 ⟨u, rfl⟩)
  rw [pow_succ, ← mul_assoc, Nat.mul_dvd_mul_iff_right two_pos, hodd.dvd_mul_right]

section Multiplier

variable (hb : b % 4 = 0)
include hb

theorem pow_mod_four (k : ℕ) : (b + 1) ^ k % 4 = 1 := by
  have h1 : (b + 1) % 4 = 1 := by omega
  rw [Nat.pow_mod, h1, one_pow]
  rfl

theorem geom_sum_mod_two (k : ℕ) : (∑ i ∈ range k, (b + 1) ^ i) % 2 = k % 2 := by
  induction k with
  | zero => rfl
  | succ k ih =>
    have hk := pow_mod_four hb k
    rw [sum_range_succ]
    omega

theorem two_pow_dvd_geom_sum (j k : ℕ) : 2 ^ j ∣ ∑ i ∈ range k, (b + 1) ^ i ↔ 2 ^ j ∣ k := by
  induction j generalizing k with
  | zero => simp
  | succ j ih =>
    have hpar := geom_sum_mod_two hb k
    obtain hk | hk := Nat.even_or_odd k
    · -- half of the sum, and its multiple
      obtain ⟨m, rfl⟩ := hk
      have hsum : ∑ i ∈ range (m + m), (b + 1) ^ i =
          (∑ i ∈ range m, (b + 1) ^ i) * (1 + (b + 1) ^ m) := by
        rw [sum_range_add, mul_add, mul_one, sum_mul]
        exact congrArg _ (sum_congr rfl fun i _ => by rw [pow_add, mul_comm])
      have hm := pow_mod_four hb m
      rw [hsum, two_pow_dvd_mul (by omega), ih, ← two_mul, pow_succ', Nat.mul_dvd_mul_iff_left two_pos]
    · have hno : ∀ {n}, n % 2 = 1 → ¬ 2 ^ (j + 1) ∣ n := by
        intro n hn hdvd
        have h2 := (Dvd.intro_left (2 ^ j) rfl).trans hdvd
        omega
      have hk := Nat.odd_iff.1 hk
      exact iff_of_false (hno (hpar.trans hk)) (hno hk)

end Multiplier

/-! ### Iterates -/

theorem iterate_lt {M : ℕ} (hx : x < M) (k : ℕ) : (step b c M)^[k] x < M := by
  cases k with
  | zero => exact hx
  | succ k =>
    rw [Function.iterate_succ_apply']
    exact Nat.mod_lt _ (by omega)

/-- The state after `k` steps, before it is reduced. -/
theorem iterate_modEq (M k : ℕ) :
    (step b c M)^[k] x ≡ x + (∑ i ∈ range k, (b + 1) ^ i) * (x * b + c) [MOD M] := by
  induction k with
  | zero => simp [Nat.ModEq.refl]
  | succ k ih =>
    have hpow := geom_sum_mul_add b k
    rw [Function.iterate_succ_apply', step]
    refine (Nat.mod_modEq _ _).trans (((ih.mul_right (b + 1)).add_right c).trans ?_)
    have heq : (x + (∑ i ∈ range k, (b + 1) ^ i) * (x * b + c)) * (b + 1) + c =
        x + (∑ i ∈ range (k + 1), (b + 1) ^ i) * (x * b + c) := by
      rw [sum_range_succ, ← hpow]
      ring
    rw [heq]

section Period

variable (hb : b % 4 = 0) (hc : c % 4 = 2)
include hb hc

/-- The generator comes back to a state after `2 ^ w` steps and not before. -/
theorem iterate_eq_self_iff (hx : x < 2 ^ (w + 1)) :
    (step b c (2 ^ (w + 1)))^[k] x = x ↔ 2 ^ w ∣ k := by
  have hy : (x * b + c) % 4 = 2 := by
    obtain ⟨u, rfl⟩ : ∃ u, b = 4 * u := ⟨b / 4, by omega⟩
    have : x * (4 * u) = 4 * (x * u) := by ring
    omega
  have hmod : (step b c (2 ^ (w + 1)))^[k] x = x ↔
      (step b c (2 ^ (w + 1)))^[k] x ≡ x [MOD 2 ^ (w + 1)] :=
    ⟨fun h => by rw [h], fun h => h.eq_of_lt_of_lt (iterate_lt hx k) hx⟩
  have hstep := iterate_modEq (b := b) (c := c) (x := x) (2 ^ (w + 1)) k
  rw [hmod, ← two_pow_dvd_geom_sum hb, ← two_pow_dvd_mul hy]
  constructor
  · intro h
    exact (Nat.modEq_zero_iff_dvd.1 (Nat.ModEq.add_left_cancel' x (hstep.symm.trans h)))
  · intro h
    exact hstep.trans ((Nat.modEq_zero_iff_dvd.2 h).add_left x)

/-- Two iterates are equal if and only if their numbers are, modulo `2 ^ w`. -/
theorem iterate_eq_iff (hx : x < 2 ^ (w + 1)) (i j : ℕ) :
    (step b c (2 ^ (w + 1)))^[i] x = (step b c (2 ^ (w + 1)))^[j] x ↔ i ≡ j [MOD 2 ^ w] := by
  have hle : ∀ i j, i ≤ j → ((step b c (2 ^ (w + 1)))^[i] x = (step b c (2 ^ (w + 1)))^[j] x ↔
      i ≡ j [MOD 2 ^ w]) := by
    intro i j hij
    obtain ⟨k, rfl⟩ := Nat.exists_eq_add_of_le' hij
    rw [Function.iterate_add_apply, eq_comm, iterate_eq_self_iff hb hc (iterate_lt hx i),
      Nat.modEq_iff_dvd' hij, Nat.add_sub_cancel]
  obtain h | h := le_total i j
  · exact hle i j h
  · rw [eq_comm, hle j i h]
    exact Nat.ModEq.comm

theorem iterate_mod_two (k : ℕ) : (step b c (2 ^ (w + 1)))^[k] x % 2 = x % 2 := by
  induction k with
  | zero => rfl
  | succ k ih =>
    obtain ⟨u, rfl⟩ : ∃ u, b = 4 * u := ⟨b / 4, by omega⟩
    rw [Function.iterate_succ_apply', step, Nat.mod_mod_of_dvd _ (dvd_pow_self 2 (Nat.succ_ne_zero w)),
      ← ih]
    generalize (step (4 * u) c (2 ^ (w + 1)))^[k] x = y
    have : y * (4 * u + 1) = 4 * (y * u) + y := by ring
    omega

/-- The generator comes to all states of the parity of its seed. -/
theorem exists_iterate_iff (hx : x < 2 ^ (w + 1)) (hy : y < 2 ^ (w + 1)) :
    (∃ k, (step b c (2 ^ (w + 1)))^[k] x = y) ↔ y % 2 = x % 2 := by
  constructor
  · rintro ⟨k, rfl⟩
    exact iterate_mod_two hb hc k
  intro hpar
  -- the first `2 ^ w` states are different, and there are no more of one parity
  let S := (range (2 ^ w)).image fun k => (step b c (2 ^ (w + 1)))^[k] x
  let T := (range (2 ^ (w + 1))).filter fun y => y % 2 = x % 2
  have hS : S.card = 2 ^ w := by
    rw [card_image_of_injOn, card_range]
    intro i hi j hj hij
    exact ((iterate_eq_iff hb hc hx i j).1 hij).eq_of_lt_of_lt (mem_range.1 hi) (mem_range.1 hj)
  have hT : T.card ≤ 2 ^ w := by
    have hhalf : T.card ≤ (range (2 ^ w)).card := by
      refine card_le_card_of_injOn (· / 2) (fun y hy => ?_) fun y hy z hz hyz => ?_
      · have hlt := mem_range.1 (mem_filter.1 hy).1
        have : 2 ^ (w + 1) = 2 ^ w * 2 := pow_succ 2 w
        have hdiv : y / 2 < 2 ^ w := by omega
        simpa using hdiv
      · have hpy := (mem_filter.1 hy).2
        have hpz := (mem_filter.1 hz).2
        dsimp only at hyz
        omega
    rwa [card_range] at hhalf
  have hsub : S ⊆ T := by
    intro z hz
    obtain ⟨k, -, rfl⟩ := mem_image.1 hz
    exact mem_filter.2 ⟨mem_range.2 (iterate_lt hx k), iterate_mod_two hb hc k⟩
  have hmem : y ∈ S := by
    rw [eq_of_subset_of_card_le hsub (hT.trans hS.ge)]
    exact mem_filter.2 ⟨mem_range.2 hy, hpar⟩
  obtain ⟨k, -, hk⟩ := mem_image.1 hmem
  exact ⟨k, hk⟩

end Period

end Congruential
