import Mathlib.Algebra.Order.Ring.Rat
import Mathlib.Data.Rat.Sqrt
import SymbolicAlgebra.Number.Rational

/-!
# Square roots of rationals

The exact root is taken of the numerator and of the denominator, each with the integer square root.
That finds the root of every square, because the numerator and the denominator of a square are squares:
a square is reduced as it stands. Whatever is found is a root, since both parts are squared again
and compared.

Results:
* `exactSqrt?_eq`: the exact root is the rational square root on the squares, and nothing elsewhere.
* `exactSqrt?_eq_some_iff`: it is the one nonnegative root.
* `exact_roots`: the root and the power `1/2` of a square are exact, and only squares have an exact root.
-/

namespace SymbolicAlgebra.Rational

/-! ## Reduced fractions that are squares -/

theorem sqrt_mul_sqrt_iff (n : Nat) : n.sqrt * n.sqrt = n ↔ IsSquare n := by
  rw [← Nat.exists_mul_self, isSquare_iff_exists_mul_self]
  exact exists_congr fun r => eq_comm

/-- A fraction that is not negative is a square iff its parts pass the test. -/
theorem parts_iff_isSquare {x : Rat} (h : 0 ≤ x.num) :
    (x.num.natAbs.sqrt * x.num.natAbs.sqrt = x.num.natAbs ∧ x.den.sqrt * x.den.sqrt = x.den) ↔
      IsSquare x := by
  have hnum : IsSquare x.num ↔ IsSquare x.num.natAbs := by
    rw [← Int.isSquare_natCast_iff, Int.natAbs_of_nonneg h]
  rw [sqrt_mul_sqrt_iff, sqrt_mul_sqrt_iff, Rat.isSquare_iff, hnum]

theorem mkRat_sqrt {x : Rat} (h : 0 ≤ x.num) :
    mkRat x.num.natAbs.sqrt x.den.sqrt = Rat.sqrt x := by
  rw [Rat.sqrt, Int.sqrt, ← Int.toNat_of_nonneg h, Int.toNat_natCast, Int.natAbs_natCast]

/-! ## The exact root -/

/-- **The exact root is the rational square root on the squares, and nothing elsewhere.** -/
theorem exactSqrt?_eq (x : Rat) : exactSqrt? x = if IsSquare x then some (Rat.sqrt x) else none := by
  unfold exactSqrt?
  split
  · rename_i hneg
    have hx : ¬ IsSquare x := fun h => absurd h.nonneg (not_le.mpr (Rat.num_neg.mp hneg))
    rw [if_neg hx]
  · rename_i hneg
    have hnum : 0 ≤ x.num := not_lt.mp hneg
    simp only [parts_iff_isSquare hnum, mkRat_sqrt hnum]

theorem exactSqrt?_mul_self (r : Rat) : exactSqrt? (r * r) = some |r| := by
  rw [exactSqrt?_eq, if_pos (IsSquare.mul_self r), Rat.sqrt_eq]

/-- **The exact root is the one nonnegative root.** -/
theorem exactSqrt?_eq_some_iff {x y : Rat} : exactSqrt? x = some y ↔ 0 ≤ y ∧ y * y = x := by
  constructor
  · intro h
    rw [exactSqrt?_eq] at h
    split at h
    · rename_i hx
      obtain rfl := Option.some.inj h
      obtain ⟨r, hr⟩ := hx
      exact ⟨Rat.sqrt_nonneg x, (Rat.exists_mul_self x).mp ⟨r, hr.symm⟩⟩
    · cases h
  · rintro ⟨hy, rfl⟩
    rw [exactSqrt?_mul_self, abs_of_nonneg hy]

theorem exactSqrt?_eq_none_iff {x : Rat} : exactSqrt? x = none ↔ ∀ r, r * r ≠ x := by
  rw [Option.eq_none_iff_forall_ne_some]
  constructor
  · rintro h r rfl
    exact h |r| (exactSqrt?_mul_self r)
  · intro h y hy
    exact h y (exactSqrt?_eq_some_iff.mp hy).2

/-! ## Roots and powers of squares -/

theorem sqrt?_mul_self (r : Rat) : sqrt? (r * r) = some |r| := by
  have hnum : ¬ (r * r).num < 0 := not_lt.mpr (Rat.num_nonneg.mpr (mul_self_nonneg r))
  rw [sqrt?, if_neg hnum, exactSqrt?_mul_self, Option.some_or]

theorem pow?_half_mul_self (r : Rat) : pow? (r * r) (1 / 2) = some |r| := by
  have hhalf : (1 / 2 : Rat) = mkRat 1 2 := by rw [Rat.mkRat_eq_div]; rfl
  have hexponent : exactExponent? (mkRat 1 2) = none := by decide
  rw [hhalf, pow?, hexponent]
  simp only [if_pos, exactSqrt?_mul_self, Option.some_or]

/-- **Square roots of squares are exact, and only those.** The root of a square and its power `1/2` are
the magnitude of what is squared. The exact root is always the nonnegative root, and where there is
none the number is no square; negative numbers are among these. -/
theorem exact_roots :
    (∀ r : Rat, sqrt? (r * r) = some |r| ∧ pow? (r * r) (1 / 2) = some |r|) ∧
    ∀ x : Rat, (∀ y, exactSqrt? x = some y ↔ 0 ≤ y ∧ y * y = x) ∧
      (exactSqrt? x = none ↔ x < 0 ∨ ∀ r, r * r ≠ x) := by
  refine ⟨fun r => ⟨sqrt?_mul_self r, pow?_half_mul_self r⟩, fun x =>
    ⟨fun y => exactSqrt?_eq_some_iff, ?_⟩⟩
  rw [exactSqrt?_eq_none_iff]
  refine ⟨Or.inr, fun h => h.elim (fun hneg r hr => ?_) id⟩
  exact absurd (hr ▸ mul_self_nonneg r) (not_le.mpr hneg)

end SymbolicAlgebra.Rational
