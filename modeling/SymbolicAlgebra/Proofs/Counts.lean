import Mathlib.Algebra.Order.BigOperators.Group.List
import SymbolicAlgebra.Proofs.Preservation

/-!
# Numbers that add up over operands

A number that is `0` for constants and adds up over the operands of sums and products (`Counts`) grows
neither when these are built nor when like terms and like bases are combined, since combining keeps each
expression once. A product is built from powers of its bases, so what a power counts is bounded by a
number for its base.

Results:
* `Counts.sumOf`, `Counts.productOf_le`, `Counts.collect_le`: what the constructors and collecting count.
* `totalOfKeys_ofList_le`, `totalOfKeys_replace_le`: the keys of tallies and bases.
* `Counts.productStep_le`: what one step for a product counts.
-/

namespace SymbolicAlgebra

namespace Expr

/-- A number that adds up over the operands of sums and products, to which constants add nothing. -/
structure Counts {N : Type} [Zero N] [Add N] (φ : Expr → N) : Prop where
  const : ∀ q, φ (const q) = 0
  sum : ∀ ts, φ (sum ts) = (ts.map φ).sum
  product : ∀ fs, φ (product fs) = (fs.map φ).sum

variable {N : Type} [AddCommMonoid N] {φ : Expr → N}

/-! ## Constructors -/

namespace Counts

variable (h : Counts φ)

include h

theorem terms (e : Expr) : (e.terms.map φ).sum = φ e := by
  cases hs : e.isSum
  · rw [terms_eq_self hs, List.map_singleton, List.sum_singleton]
  · obtain ⟨ts, rfl⟩ := exists_of_isSum hs
    rw [terms_sum, h.sum]

theorem factors (e : Expr) : (e.factors.map φ).sum = φ e := by
  cases hp : e.isProduct
  · rw [factors_eq_self hp, List.map_singleton, List.sum_singleton]
  · obtain ⟨fs, rfl⟩ := exists_of_isProduct hp
    rw [factors_product, h.product]

omit h in
theorem flatMap {view : Expr → List Expr} (hview : ∀ e, ((view e).map φ).sum = φ e)
    (xs : List Expr) : ((xs.flatMap view).map φ).sum = (xs.map φ).sum := by
  induction xs with
  | nil => rfl
  | cons x xs ih =>
    rw [List.flatMap_cons, List.map_append, List.sum_append, ih, hview, List.map_cons, List.sum_cons]

/-- Constants count nothing. -/
theorem others (xs : List Expr) : ((others xs).map φ).sum = (xs.map φ).sum := by
  have hconstants : (((constants xs).map Expr.const).map φ).sum = 0 := by
    rw [List.map_map, List.sum_eq_zero]
    intro n hn
    obtain ⟨q, -, rfl⟩ := List.mem_map.mp hn
    exact h.const q
  rw [← ((others_constants_perm xs).map φ).sum_eq, List.map_append, List.sum_append,
    hconstants, add_zero]

theorem arranged (neutral c : Rat) (xs : List Expr) :
    ((arranged neutral c xs).map φ).sum = (xs.map φ).sum := by
  rw [Expr.arranged, ((sort_perm _).map φ).sum_eq]
  split
  · exact h.others xs
  · rw [List.map_append, List.sum_append, h.others, List.map_singleton, List.sum_singleton, h.const,
      add_zero]

theorem sumOf (xs : List Expr) : φ (sumOf xs) = (xs.map φ).sum := by
  rw [sumOf_eq, ← flatMap h.terms xs, ← h.arranged 0 (constants (xs.flatMap Expr.terms)).sum]
  generalize Expr.arranged 0 _ (xs.flatMap Expr.terms) = ts
  unfold ofTerms
  split
  · exact h.const 0
  · rw [List.map_singleton, List.sum_singleton]
  · exact h.sum _

variable [PartialOrder N] [CanonicallyOrderedAdd N]

theorem productOf_le (xs : List Expr) : φ (productOf xs) ≤ (xs.map φ).sum := by
  rw [productOf_eq, ← flatMap h.factors xs, ← h.arranged 1 (constants (xs.flatMap Expr.factors)).prod]
  split
  · exact (h.const 0).trans_le zero_le
  generalize Expr.arranged 1 _ (xs.flatMap Expr.factors) = fs
  unfold ofFactors
  split
  · exact (h.const 1).trans_le zero_le
  · rw [List.map_singleton, List.sum_singleton]
  · exact (h.product _).le

theorem productOf_const_le (q : Rat) (t : Expr) : φ (productOf [.const q, t]) ≤ φ t := by
  have hle := h.productOf_le [.const q, t]
  rwa [List.map_cons, List.sum_cons, h.const, zero_add, List.map_singleton, List.sum_singleton] at hle

theorem scaled_le (q : Rat) (t : Expr) : φ (scaled q t) ≤ φ t := by
  rw [scaled]
  split
  · exact le_rfl
  · exact h.productOf_const_le q t

theorem splitCoefficient_le (t : Expr) : φ (splitCoefficient t).2 ≤ φ t := by
  unfold splitCoefficient
  split
  · next q rest htake =>
    have hperm := ((takeConst_some htake).map φ).sum_eq
    rw [h.factors, List.map_cons, List.sum_cons, h.const, zero_add] at hperm
    exact (h.productOf_le rest).trans hperm.ge
  · exact le_rfl

end Counts

/-! ## Tallies -/

/-- What the keys of a tally count. -/
def totalOfKeys {N : Type} [Zero N] [Add N] (φ : Expr → N) (xs : List (Expr × Rat)) : N :=
  (xs.map fun p => φ p.1).sum

theorem totalOfKeys_cons (p : Expr × Rat) (xs : List (Expr × Rat)) :
    totalOfKeys φ (p :: xs) = φ p.1 + totalOfKeys φ xs := rfl

theorem totalOfKeys_eq (xs : List (Expr × Rat)) :
    totalOfKeys φ xs = ((Tally.keys xs).map φ).sum := by
  rw [totalOfKeys, Tally.keys, List.map_map]
  rfl

variable [PartialOrder N] [IsOrderedAddMonoid N] [CanonicallyOrderedAdd N]

theorem totalOfKeys_addTo_le (key : Expr) (q : Rat) : ∀ xs : List (Expr × Rat),
    totalOfKeys φ (Tally.addTo key q xs) ≤ φ key + totalOfKeys φ xs
  | [] => le_rfl
  | (k, r) :: rest => by
    rw [Tally.addTo]
    split
    · exact le_rfl
    · exact le_add_self
    · rw [totalOfKeys_cons, totalOfKeys_cons, add_left_comm]
      exact add_le_add_right (totalOfKeys_addTo_le key q rest) _

theorem totalOfKeys_foldl_le (xs : List (Expr × Rat)) : ∀ t : Tally,
    totalOfKeys φ (xs.foldl (fun t p => t.add p.1 p.2) t).entries ≤
      totalOfKeys φ xs + totalOfKeys φ t.entries := by
  induction xs with
  | nil => exact fun t => le_add_self
  | cons p xs ih =>
    intro t
    rw [List.foldl_cons, totalOfKeys_cons, add_comm (φ p.1), add_assoc]
    exact (ih _).trans (add_le_add_right (totalOfKeys_addTo_le p.1 p.2 t.entries) _)

/-- **A tally keeps each key once.** -/
theorem totalOfKeys_ofList_le (xs : List (Expr × Rat)) :
    totalOfKeys φ (Tally.ofList xs).entries ≤ totalOfKeys φ xs :=
  (totalOfKeys_foldl_le xs .empty).trans_eq (add_zero _)

theorem totalOfKeys_filter_le (keep : Expr × Rat → Bool) (xs : List (Expr × Rat)) :
    totalOfKeys φ (xs.filter keep) ≤ totalOfKeys φ xs :=
  (List.filter_sublist.map _).sum_le_sum fun _ _ => zero_le

/-- Forgetting a key takes away what it counts. -/
theorem totalOfKeys_erase_le {base : Expr} {x : Rat} : ∀ {xs : List (Expr × Rat)},
    (base, x) ∈ xs → φ base +
      totalOfKeys φ (xs.filter fun p => compare base p.1 != .eq) ≤ totalOfKeys φ xs
  | p :: xs, hmem => by
    rcases List.mem_cons.mp hmem with rfl | hmem
    · rw [List.filter_cons_of_neg (by simp [compare_self])]
      exact add_le_add_right (totalOfKeys_filter_le _ xs) _
    · have ih := totalOfKeys_erase_le hmem
      rw [List.filter_cons]
      split
      · rw [totalOfKeys_cons, totalOfKeys_cons, add_left_comm]
        exact add_le_add_right ih _
      · exact ih.trans le_add_self

theorem Counts.totalOfKeys_splits_le (h : Counts φ) (ts : List Expr) :
    totalOfKeys φ (splits ts) ≤ (ts.map φ).sum := by
  rw [← h.others, totalOfKeys, splits, List.map_map]
  exact List.sum_le_sum fun t _ => h.splitCoefficient_le t

theorem Counts.collect_le_likeTerms (h : Counts φ) (ts : List Expr) :
    φ (collect ts) ≤ totalOfKeys φ (likeTerms ts) := by
  rw [collect_eq, h.sumOf, List.map_append, List.sum_append, List.map_map, List.map_singleton,
    List.sum_singleton, h.const, add_zero]
  exact List.sum_le_sum fun p _ => h.scaled_le p.2 p.1

/-- **Collecting like terms counts no more than the terms.** -/
theorem Counts.collect_le (h : Counts φ) (ts : List Expr) : φ (collect ts) ≤ (ts.map φ).sum :=
  (h.collect_le_likeTerms ts).trans <|
    ((totalOfKeys_filter_le _ _).trans (totalOfKeys_ofList_le _)).trans (h.totalOfKeys_splits_le ts)

end Expr

namespace Evaluator

open Expr

variable {N : Type} [AddCommMonoid N] [PartialOrder N] [IsOrderedAddMonoid N]
  [CanonicallyOrderedAdd N] {φ ψ : Expr → N} {v : Expr → Expr}

/-! ## Bases -/

/-- A base is replaced by one that counts no more. -/
theorem totalOfKeys_replace_le {b : Bases} {base d : Expr} {x : Rat}
    (hmem : (base, x) ∈ b.exponents.entries) (hd : ψ d ≤ ψ base) :
    totalOfKeys ψ (b.replace base x d).exponents.entries ≤ totalOfKeys ψ b.exponents.entries := by
  have herase := totalOfKeys_erase_le (φ := ψ) hmem
  have hadd (t : Tally) (ht : totalOfKeys ψ t.entries ≤
      totalOfKeys ψ (b.exponents.erase base).entries) :
      totalOfKeys ψ (t.add d x).entries ≤ totalOfKeys ψ b.exponents.entries :=
    (totalOfKeys_addTo_le d x t.entries).trans ((add_le_add hd ht).trans herase)
  unfold Bases.replace
  split
  · split
    · exact totalOfKeys_filter_le _ _
    · exact hadd _ (totalOfKeys_filter_le _ _)
  · exact hadd _ le_rfl

section Steps

variable (h : Expr.Counts φ)

include h

theorem Counts.product_le (hraised : ∀ k x, φ (raised k x) ≤ ψ k) (b : Bases) :
    φ b.product ≤ totalOfKeys ψ b.exponents.entries := by
  have hpowers : (b.powers.map φ).sum ≤ totalOfKeys ψ b.exponents.entries := by
    rw [Bases.powers, List.map_map]
    exact le_trans (List.sum_le_sum fun p _ => hraised p.1 p.2) (totalOfKeys_filter_le _ _)
  rw [Bases.product_eq]
  refine (h.productOf_le _).trans ?_
  rwa [List.map_cons, List.sum_cons, h.const, zero_add]

theorem Counts.sumStep_le {ts : List Expr} (hv : ∀ t ∈ ts, φ (v t) ≤ φ t) :
    φ (sumStep v ts) ≤ φ (Expr.sum ts) := by
  rw [h.sum]
  refine (h.collect_le _).trans ?_
  rw [Expr.Counts.flatMap h.terms, List.map_map]
  exact List.sum_le_sum hv

theorem Counts.scaledSum_le {q : Rat} {base : Expr}
    (hv : ∀ t ∈ base.terms, φ (v (productOf [.const q, t])) ≤ φ t) :
    φ (scaledSum v q base) ≤ φ base := by
  refine (h.collect_le _).trans ?_
  rw [← List.flatMap_map, Expr.Counts.flatMap h.terms, List.map_map, ← h.terms base]
  exact List.sum_le_sum hv

/-- **One step for a product counts no more than the bases of the visited factors.** -/
theorem Counts.productStep_le {fs : List Expr} (hraised : ∀ k x, φ (raised k x) ≤ ψ k)
    (hmono : ∀ d b, φ d ≤ φ b → ψ d ≤ ψ b)
    (hs : ∀ base x scale, (visitedBases v fs).absorber? = some (base, x, scale) →
      ∀ t ∈ base.terms, φ (v (productOf [.const scale, t])) ≤ φ t) :
    φ (productStep v fs) ≤ totalOfKeys ψ (visitedBases v fs).exponents.entries := by
  have habsorbed : totalOfKeys ψ ((visitedBases v fs).absorbed v).exponents.entries ≤
      totalOfKeys ψ (visitedBases v fs).exponents.entries := by
    unfold Bases.absorbed
    split
    · exact le_rfl
    · split
      · exact le_rfl
      · next base x scale habs =>
        exact totalOfKeys_replace_le (Bases.absorber?_eq_some habs).1
          (hmono _ _ (Counts.scaledSum_le h (hs base x scale habs)))
  rw [productStep]
  split
  · exact (h.const 0).trans_le zero_le
  · exact (Counts.product_le h hraised _).trans habsorbed

end Steps

end Evaluator

end SymbolicAlgebra
