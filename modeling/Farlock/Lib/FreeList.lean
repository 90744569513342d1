import Mathlib.Data.List.Nodup
import Mathlib.Tactic

/-!
# Intrusive lists

Cells of memory are linked through a word that each of them holds: `next a` is the address of the
cell after the one at `a`, and the null address ends a list.

* `IsList next p l`: the list from `p` on has the cells `l`;
* `IsList.congr`: it depends on the links of its own cells only;
* `isList_range'`: cells that lie one after the other.
-/

/-- The cells of the list that starts at `p` are `l`. -/
def IsList (next : ℕ → ℕ) : ℕ → List ℕ → Prop
  | p, [] => p = 0
  | p, a :: l => p = a ∧ a ≠ 0 ∧ IsList next (next a) l

namespace IsList

variable {next next' : ℕ → ℕ} {p a : ℕ} {l : List ℕ}

theorem ne_zero (h : IsList next p l) (ha : a ∈ l) : a ≠ 0 := by
  induction l generalizing p with
  | nil => cases ha
  | cons b l ih =>
    obtain ⟨-, hb, hl⟩ := h
    rcases List.mem_cons.1 ha with rfl | ha
    · exact hb
    · exact ih hl ha

/-- A list stays the same if the links of its cells do. -/
theorem congr (h : IsList next p l) (heq : ∀ a ∈ l, next' a = next a) : IsList next' p l := by
  induction l generalizing p with
  | nil => exact h
  | cons b l ih =>
    obtain ⟨rfl, hb, hl⟩ := h
    refine ⟨rfl, hb, ?_⟩
    rw [heq p List.mem_cons_self]
    exact ih hl fun a ha => heq a (List.mem_cons_of_mem p ha)

theorem eq_nil_iff (h : IsList next p l) : l = [] ↔ p = 0 := by
  cases l with
  | nil => exact iff_of_true rfl h
  | cons a l =>
    obtain ⟨rfl, ha, -⟩ := h
    simp [ha]

/-- A list that is not empty has its first cell at its start. -/
theorem exists_cons (h : IsList next p l) (hp : p ≠ 0) :
    ∃ l', l = p :: l' ∧ IsList next (next p) l' := by
  cases l with
  | nil => exact absurd h hp
  | cons a l =>
    obtain ⟨rfl, -, hl⟩ := h
    exact ⟨l, rfl, hl⟩

/-- A cell outside the list is put in front of it. -/
theorem push (h : IsList next p l) (ha : a ≠ 0) (hmem : a ∉ l) :
    IsList (Function.update next a p) a (a :: l) := by
  refine ⟨rfl, ha, ?_⟩
  rw [Function.update_self]
  apply h.congr
  intro b hb
  apply Function.update_of_ne
  rintro rfl
  exact hmem hb

end IsList

/-- Cells that lie one after the other, with a null link in the last one. -/
theorem isList_range' {next : ℕ → ℕ} {p n step : ℕ} (hp : p ≠ 0)
    (hnext : ∀ i < n, next (p + i * step) = p + (i + 1) * step)
    (hlast : next (p + n * step) = 0) : IsList next p (List.range' p (n + 1) step) := by
  induction n generalizing p with
  | zero =>
    rw [zero_mul, add_zero] at hlast
    exact ⟨rfl, hp, hlast⟩
  | succ n ih =>
    rw [List.range'_succ]
    refine ⟨rfl, hp, ?_⟩
    have h0 := hnext 0 n.succ_pos
    simp only [zero_mul, add_zero, zero_add, one_mul] at h0
    rw [h0]
    apply ih (by omega)
    · intro i hi
      have := hnext (i + 1) (by omega)
      rw [show p + step + i * step = p + (i + 1) * step by ring, this]
      ring
    · rw [show p + step + n * step = p + (n + 1) * step by ring]
      exact hlast
