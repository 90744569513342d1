import Farlock.Lib.Congruential
import Farlock.Benchmark.Result

/-!
# The random numbers of the benchmark (`include/third_party/foedus/uniform_random.hpp`)

The workers draw their locks, and the reservoirs their places, with `UniformRandom`.  The increment
of its generator is even, so that a seed of 64 bits comes back after `2 ^ 63` draws.
-/

namespace Farlock

namespace Benchmark

namespace UniformRandom

/-- The generator after some draws. -/
def after (r : UniformRandom) (draws : ℕ) : UniformRandom := (fun r => r.nextUInt32.2)^[draws] r

theorem seed_after (r : UniformRandom) (k : ℕ) : (r.after k).seed.toNat =
    (Congruential.step 0xD04C3174 0x53DA9022 (2 ^ (63 + 1)))^[k] r.seed.toNat := by
  induction k with
  | zero => rfl
  | succ k ih =>
    rw [after, Function.iterate_succ_apply', Function.iterate_succ_apply', ← ih]
    change (_ * _ + _ : UInt64).toNat = _
    rw [UInt64.toNat_add, UInt64.toNat_mul, Nat.mod_add_mod]
    rfl

theorem eq_iff_toNat {r r' : UniformRandom} : r = r' ↔ r.seed.toNat = r'.seed.toNat := by
  cases r
  cases r'
  simp [UInt64.toNat_inj]

/-- From every seed the generator has a period of `2 ^ 63` draws, no seed comes twice within it, and
it comes to every seed with the same last bit, so that all generators run through two cycles. -/
theorem two_cycles (r : UniformRandom) :
    (∀ i j, r.after i = r.after j ↔ i ≡ j [MOD 2 ^ 63]) ∧
      ∀ r' : UniformRandom, (∃ k, r.after k = r') ↔ r'.seed.toNat % 2 = r.seed.toNat % 2 := by
  have hb : 0xD04C3174 % 4 = 0 := by decide
  have hc : 0x53DA9022 % 4 = 2 := by decide
  have hlt : ∀ r : UniformRandom, r.seed.toNat < 2 ^ (63 + 1) := fun r => r.seed.toNat_lt
  constructor
  · intro i j
    rw [eq_iff_toNat, seed_after, seed_after]
    exact Congruential.iterate_eq_iff hb hc (hlt r) i j
  · intro r'
    simp only [eq_iff_toNat, seed_after]
    exact Congruential.exists_iterate_iff hb hc (hlt r) (hlt r')

end UniformRandom

end Benchmark

end Farlock
