import SymbolicAlgebra.Proofs.Differentiation
import SymbolicAlgebra.Proofs.Leaves

/-!
# How much differentiation adds

Differentiation repeats factors, so that a derivative is higher than the expression; how much higher
depends on the number of factors with the variable, and so on the leaves. The bound is linear in the
height for any bound of the leaves.

Results:
* `termHeight_derived_le`: the height of the derivative.
* `leaves_derived_ne_top`: the derivative is arithmetic.
* `leaves_le_size`: an arithmetic expression has at most as many leaves as its size.
-/

namespace SymbolicAlgebra

namespace Expr

/-! ## Leaves and variables -/

theorem sum_leaves_ne_top {xs : List Expr} (h : ∀ x ∈ xs, x.leaves ≠ ⊤) :
    (xs.map leaves).sum ≠ ⊤ := by
  induction xs with
  | nil => exact ENat.zero_ne_top
  | cons x xs ih =>
    obtain ⟨hx, hxs⟩ := List.forall_mem_cons.mp h
    rw [List.map_cons, List.sum_cons]
    exact WithTop.add_ne_top.mpr ⟨hx, ih hxs⟩

theorem leaves_ne_top_of_isRational {e : Expr} (h : IsRational e) : e.leaves ≠ ⊤ := by
  induction h with
  | const q => simp
  | var n => exact ENat.one_ne_top
  | sum _ ih =>
    rw [leaves_sum]
    exact sum_leaves_ne_top ih
  | product _ ih =>
    rw [leaves_product]
    exact sum_leaves_ne_top ih
  | power _ _ _ ih => rwa [leaves_power_const]

theorem leaves_le_size {e : Expr} (h : e.leaves ≠ ⊤) : e.leaves ≤ e.size := by
  have list {xs : List Expr} (ih : ∀ x ∈ xs, x.leaves ≠ ⊤ → x.leaves ≤ x.size)
      (hxs : (xs.map leaves).sum ≠ ⊤) : (xs.map leaves).sum ≤ sizeList xs := by
    induction xs with
    | nil => exact zero_le
    | cons x xs ihl =>
      obtain ⟨ihx, ihxs⟩ := List.forall_mem_cons.mp ih
      rw [List.map_cons, List.sum_cons] at hxs ⊢
      obtain ⟨hx, hxs⟩ := WithTop.add_ne_top.mp hxs
      rw [sizeList, Nat.cast_add]
      exact add_le_add (ihx hx) (ihl ihxs hxs)
  induction e using inductionOn with
  | const q => simp
  | var n c =>
    cases c with
    | none => simp [leaves, size]
    | some c => exact absurd rfl h
  | sum ts ih =>
    rw [leaves_sum] at h ⊢
    refine (list ih h).trans ?_
    rw [size]
    exact_mod_cast Nat.le_succ _
  | product fs ih =>
    rw [leaves_product] at h ⊢
    refine (list ih h).trans ?_
    rw [size]
    exact_mod_cast Nat.le_succ _
  | binary op l r ihl ihr =>
    by_cases hop : op = .power
    · subst hop
      cases hx : r.isConst
      · exact absurd (leaves_power hx) h
      · obtain ⟨n, rfl⟩ := exists_of_isConst hx
        change (Expr.power l (.const n)).leaves ≠ ⊤ at h
        change (Expr.power l (.const n)).leaves ≤ _
        rw [leaves_power_const] at h ⊢
        refine (ihl h).trans ?_
        rw [size]
        exact_mod_cast (by omega : l.size ≤ _)
    · exact absurd (leaves_binary hop l r) h
  | not a => exact absurd rfl h
  | call f args => exact absurd rfl h
  | set ms => exact absurd rfl h

/-- Without leaves there is no variable. -/
theorem dependsOn_eq_false_of_leaves {e : Expr} (x : String) (h : e.leaves = 0) :
    e.dependsOn (symbol x) = false := by
  have list {xs : List Expr} (ih : ∀ t ∈ xs, t.leaves = 0 → mentions [symbol x] t = false)
      (hxs : (xs.map leaves).sum = 0) : mentionsList [symbol x] xs = false := by
    induction xs with
    | nil => rfl
    | cons t xs ihl =>
      obtain ⟨iht, ihxs⟩ := List.forall_mem_cons.mp ih
      rw [List.map_cons, List.sum_cons, add_eq_zero] at hxs
      rw [mentionsList, iht hxs.1, ihl ihxs hxs.2]
      rfl
  change mentions [symbol x] e = false
  induction e using inductionOn with
  | const q => rfl
  | var n c => cases c <;> cases h
  | sum ts ih =>
    rw [leaves_sum] at h
    rw [mentions, list ih h]
    rfl
  | product fs ih =>
    rw [leaves_product] at h
    rw [mentions, list ih h]
    rfl
  | binary op l r ihl ihr =>
    by_cases hop : op = .power
    · subst hop
      cases hx : r.isConst
      · exact absurd ((leaves_power hx).symm.trans h) ENat.top_ne_zero
      · obtain ⟨n, rfl⟩ := exists_of_isConst hx
        change (Expr.power l (.const n)).leaves = 0 at h
        rw [leaves_power_const] at h
        rw [mentions, ihl h]
        rfl
    · exact absurd ((leaves_binary hop l r).symm.trans h) ENat.top_ne_zero
  | not a => cases h
  | call f args => cases h
  | set ms => cases h

theorem one_le_leaves {e : Expr} {x : String} (h : e.dependsOn (symbol x) = true) :
    1 ≤ e.leaves := by
  refine Order.one_le_iff_ne_zero.mpr fun h0 => ?_
  rw [dependsOn_eq_false_of_leaves x h0] at h
  cases h

/-! ## The height of a sum -/

theorem termHeight_sumOf_le {N : Nat} {xs : List Expr} (hxs : ∀ x ∈ xs, Canonical x)
    (h : ∀ x ∈ xs, x.termHeight ≤ N) : (sumOf xs).termHeight ≤ N + 4 := by
  have hterms : ∀ t ∈ (sumOf xs).terms, t.termHeight ≤ N := by
    intro t ht
    obtain hc | ⟨-, x, hx, htx⟩ := mem_terms_sumOf hxs ht
    · obtain ⟨q, rfl⟩ := exists_of_isConst hc
      exact Nat.zero_le N
    · exact (termHeight_of_mem_terms htx).trans (h x hx)
  obtain ⟨-, hle⟩ | ⟨-, hle⟩ := height_of_terms hterms
  · have := termHeight_le_height_add_two (sumOf xs)
    omega
  · omega

theorem termHeight_term {t : Expr} {ts : List Expr} (ht : t ∈ ts) :
    t.termHeight + 4 ≤ (sum ts).termHeight := by
  have hle := (@height_sum_le (termHeights ts) ts).mp (by rw [height]) t ht
  have hsum : (sum ts).termHeight = termHeights ts + 4 := by
    rw [termHeight_eq rfl rfl, factorHeight, height]
    rfl
  omega

theorem termHeight_factor {f : Expr} {fs : List Expr} (hc : Canonical (product fs)) (hf : f ∈ fs) :
    f.termHeight ≤ (product fs).termHeight := by
  cases hconst : f.isConst
  · have hle := (@height_product_le (factorHeights fs) fs).mp (by rw [height]) f hf
    rw [termHeight_eq hconst (hc.flat_factors f hf), termHeight_product, height]
    omega
  · obtain ⟨q, rfl⟩ := exists_of_isConst hconst
    exact Nat.zero_le _

end Expr

namespace Derivative

open Evaluator Expr

variable {x : String}

/-! ## The height of a derivative -/

theorem termHeight_guarded {y e r : Expr} {N : Nat} (h : r.termHeight ≤ N) :
    (if e == y then Expr.one else if !e.dependsOn y then .zero else r).termHeight ≤ N := by
  split
  · exact Nat.zero_le N
  · split
    · exact Nat.zero_le N
    · exact h

theorem termHeight_derivedTerms {y : Expr} {N : Nat} : ∀ {ts : List Expr},
    (∀ t ∈ ts, (derived y t).termHeight ≤ N) → ∀ u ∈ derivedTerms y ts, u.termHeight ≤ N
  | [], _ => by simp [derivedTerms]
  | t :: ts, h => by
    obtain ⟨ht, hts⟩ := List.forall_mem_cons.mp h
    rw [derivedTerms]
    split
    · exact termHeight_derivedTerms hts
    · exact List.forall_mem_cons.mpr ⟨ht, termHeight_derivedTerms hts⟩

/-- The product rule adds to the height once for every factor with the variable. -/
theorem termHeight_derivedProduct_le {N : Nat} : ∀ {fs : List Expr} {L : Nat},
    (∀ f ∈ fs, RationalForm f) → (∀ f ∈ fs, f.termHeight ≤ N) →
    (∀ f ∈ fs, (derived (symbol x) f).termHeight ≤ N) → (fs.map leaves).sum ≤ L →
      (derivedProduct (symbol x) fs).termHeight ≤ N + 4 * L
  | [], _, _, _, _, _ => Nat.zero_le _
  | [l], _, _, _, h, _ => (h l List.mem_cons_self).trans (Nat.le_add_right _ _)
  | l :: r :: rs, L, hf, hN, hd, hL => by
    have hcanon := canonical_productRule_derived (symbol x) hf
    obtain ⟨hl, hrest⟩ := List.forall_mem_cons.mp hf
    obtain ⟨hNl, hNrest⟩ := List.forall_mem_cons.mp hN
    obtain ⟨hdl, hdrest⟩ := List.forall_mem_cons.mp hd
    have hcl := canonical_derived (symbol x) hl
    have hcr := canonical_derivedProduct (symbol x) hrest
    rw [List.map_cons, List.sum_cons] at hL
    rw [derivedProduct]
    refine (shrinks_evaluated hcanon).termHeight_le.trans ?_
    have hright {M : Nat} (hM : (derivedProduct (symbol x) (r :: rs)).termHeight ≤ N + M) :
        (Expr.productOf [l, derivedProduct (symbol x) (r :: rs)]).termHeight ≤ N + M := by
      refine termHeight_productOf ?_ ?_
      · exact List.forall_mem_cons.mpr ⟨hl.canonical, List.forall_mem_singleton.mpr hcr⟩
      · exact List.forall_mem_cons.mpr ⟨hNl.trans (Nat.le_add_right _ _),
          List.forall_mem_singleton.mpr hM⟩
    unfold productRule
    split
    · next hdep =>
      -- The factor has a leaf, which pays for the sum.
      obtain ⟨L, rfl⟩ : ∃ k, L = k + 1 := by
        have h1 := (one_le_leaves hdep).trans (le_self_add.trans hL)
        exact ⟨L - 1, by have : 1 ≤ L := by exact_mod_cast h1
                         omega⟩
      have hrestL : ((r :: rs).map leaves).sum ≤ L := by
        have h1 := (add_le_add_left (one_le_leaves hdep) _).trans hL
        rw [add_comm, Nat.cast_add, Nat.cast_one] at h1
        exact (ENat.add_le_add_iff_right ENat.one_ne_top).mp h1
      have hleft : (Expr.productOf (derived (symbol x) l :: r :: rs)).termHeight ≤ N + 4 * L := by
        refine termHeight_productOf ?_ ?_
        · exact List.forall_mem_cons.mpr ⟨hcl, fun f hf => (hrest f hf).canonical⟩
        · exact List.forall_mem_cons.mpr ⟨hdl.trans (Nat.le_add_right _ _),
            fun f hf => (hNrest f hf).trans (Nat.le_add_right _ _)⟩
      have hprods := canonical_productOf (List.forall_mem_cons.mpr
        ⟨hcl, fun f hf => (hrest f hf).canonical⟩)
      have hpair := canonical_productOf (List.forall_mem_cons.mpr
        ⟨hl.canonical, List.forall_mem_singleton.mpr hcr⟩)
      refine (termHeight_sumOf_le (List.forall_mem_cons.mpr
        ⟨hprods, List.forall_mem_singleton.mpr hpair⟩) (List.forall_mem_cons.mpr
        ⟨hleft, List.forall_mem_singleton.mpr (hright ?_)⟩)).trans (by omega)
      exact termHeight_derivedProduct_le hrest hNrest hdrest hrestL
    · exact hright (termHeight_derivedProduct_le hrest hNrest hdrest (le_add_self.trans hL))

/-- **The height of a derivative.** A product adds to it, but a product is no factor of a product and
counts less as a term of a sum or as a base. -/
theorem termHeight_derived_le {e : Expr} {L : Nat} (he : RationalForm e) (hL : e.leaves ≤ L) :
    (derived (symbol x) e).termHeight ≤
      (L + 1) * e.termHeight + if e.isProduct then 4 * L else 0 := by
  obtain ⟨hr, hc⟩ := he
  have grows {L M a b : Nat} (hM : a + M ≤ b) : (L + 1) * a + (L + 1) * M ≤ (L + 1) * b := by
    rw [← Nat.mul_add]
    exact Nat.mul_le_mul_left _ hM
  induction hr generalizing L with
  | const q =>
    unfold derived
    exact termHeight_guarded (Nat.zero_le _)
  | var n =>
    unfold derived
    exact termHeight_guarded (Nat.zero_le _)
  | @sum ts hts ih =>
    unfold derived
    refine termHeight_guarded ?_
    have hterm : ∀ t ∈ ts, (derived (symbol x) t).termHeight ≤
        (L + 1) * (Expr.sum ts).termHeight - 4 := by
      intro t ht
      have hLt : t.leaves ≤ L := by
        rw [leaves_sum] at hL
        exact (leaves_le_sum ht).trans hL
      have h₁ := ih t ht hLt (hc.of_sum t ht)
      have h₂ := @grows L _ _ _ (termHeight_term ht)
      split at h₁ <;> omega
    have h₃ := termHeight_sumOf_le (canonical_derivedTerms fun t ht =>
      canonical_derived (symbol x) ⟨hts t ht, hc.of_sum t ht⟩) (termHeight_derivedTerms hterm)
    have h₄ : 4 ≤ (L + 1) * (Expr.sum ts).termHeight := by
      obtain ⟨t, ht⟩ : ∃ t, t ∈ ts := List.exists_mem_of_length_pos (by
        have := hc.two_le_terms
        omega)
      have := @grows L _ _ _ (termHeight_term ht)
      omega
    refine h₃.trans ?_
    rw [if_neg (by simp [Expr.isProduct])]
    omega
  | @product fs hfs ih =>
    unfold derived
    refine termHeight_guarded ?_
    have hform : RationalForm (.product fs) := ⟨.product hfs, hc⟩
    rw [leaves_product] at hL
    change (derivedProduct (symbol x) fs).termHeight ≤ _ + 4 * L
    refine termHeight_derivedProduct_le hform.of_product (fun f hf => ?_) (fun f hf => ?_) hL
    · exact (termHeight_factor hc hf).trans (Nat.le_mul_of_pos_left _ (Nat.succ_pos L))
    · have hLf : f.leaves ≤ L := (leaves_le_sum hf).trans hL
      have h₁ := ih f hf hLf (hc.of_product f hf)
      rw [hc.flat_factors f hf] at h₁
      exact h₁.trans (Nat.mul_le_mul_left _ (termHeight_factor hc hf))
  | @power b n hb hn h0 ih =>
    have hcb := hc.of_binary.1
    have hcd := canonical_derived (symbol x) ⟨hb, hcb⟩
    rw [leaves_power_const] at hL
    have h₁ := ih hL hcb
    have hpower := termHeight_power_const b n
    -- As a base, a product counts four more than as a term.
    have hbase : (derived (symbol x) b).termHeight ≤ (L + 1) * (Expr.power b (.const n)).termHeight := by
      refine h₁.trans ?_
      split
      · next hp =>
        obtain ⟨fs, rfl⟩ := exists_of_isProduct hp
        have hgrown : (Expr.product fs).termHeight + 4 ≤
            (Expr.power (.product fs) (.const n)).termHeight := by
          rw [hpower, baseHeight_product, termHeight_product]
        have := @grows L _ _ _ hgrown
        omega
      · next hp =>
        refine (Nat.add_zero _).le.trans (Nat.mul_le_mul_left _ ?_)
        rw [hpower]
        exact termHeight_le_baseHeight b
    unfold Expr.power derived
    refine termHeight_guarded ((shrinks_evaluated (canonical_constantPower hcb hcd)).termHeight_le.trans ?_)
    rw [if_neg (by simp [Expr.isProduct]), constantPower, const_sub_one]
    refine termHeight_productOf ?_ ?_
    · simp only [List.forall_mem_cons, List.not_mem_nil, false_imp_iff, implies_true, and_true]
      exact ⟨.const n, hcb.power (.const _), hcd⟩
    · simp only [List.forall_mem_cons, List.not_mem_nil, false_imp_iff, implies_true, and_true]
      refine ⟨Nat.zero_le _, ?_, hbase⟩
      rw [termHeight_power_const, ← hpower]
      exact Nat.le_mul_of_pos_left _ (Nat.succ_pos L)

/-! ## The leaves of a derivative -/

theorem leaves_guarded_ne_top {y e r : Expr} (h : r.leaves ≠ ⊤) :
    (if e == y then Expr.one else if !e.dependsOn y then .zero else r).leaves ≠ ⊤ := by
  split
  · simp [Expr.one]
  · split
    · simp [Expr.zero]
    · exact h

theorem leaves_productOf_ne_top {xs : List Expr} (h : ∀ x ∈ xs, x.leaves ≠ ⊤) :
    (Expr.productOf xs).leaves ≠ ⊤ :=
  ne_top_of_le_ne_top (sum_leaves_ne_top h) (leaves_productOf_le xs)

theorem leaves_evaluated_ne_top {e : Expr} (he : Expr.Canonical e) (h : e.leaves ≠ ⊤) :
    (evaluated e).leaves ≠ ⊤ :=
  ne_top_of_le_ne_top h (leaves_evaluated_le he)

theorem leaves_derivedTerms_ne_top {y : Expr} : ∀ {ts : List Expr},
    (∀ t ∈ ts, (derived y t).leaves ≠ ⊤) → ∀ u ∈ derivedTerms y ts, u.leaves ≠ ⊤
  | [], _ => by simp [derivedTerms]
  | t :: ts, h => by
    obtain ⟨ht, hts⟩ := List.forall_mem_cons.mp h
    rw [derivedTerms]
    split
    · exact leaves_derivedTerms_ne_top hts
    · exact List.forall_mem_cons.mpr ⟨ht, leaves_derivedTerms_ne_top hts⟩

theorem leaves_derivedProduct_ne_top {y : Expr} : ∀ {fs : List Expr}, (∀ f ∈ fs, RationalForm f) →
    (∀ f ∈ fs, (derived y f).leaves ≠ ⊤) → (derivedProduct y fs).leaves ≠ ⊤
  | [], _, _ => by simp [derivedProduct, Expr.zero]
  | [l], _, h => h l List.mem_cons_self
  | l :: r :: rs, hf, h => by
    have hcanon := canonical_productRule_derived y hf
    obtain ⟨hl, hrest⟩ := List.forall_mem_cons.mp hf
    obtain ⟨hdl, hdrest⟩ := List.forall_mem_cons.mp h
    have hright : (Expr.productOf [l, derivedProduct y (r :: rs)]).leaves ≠ ⊤ :=
      leaves_productOf_ne_top (List.forall_mem_cons.mpr
        ⟨leaves_ne_top_of_isRational hl.rational,
          List.forall_mem_singleton.mpr (leaves_derivedProduct_ne_top hrest hdrest)⟩)
    have hleft : (Expr.productOf (derived y l :: r :: rs)).leaves ≠ ⊤ :=
      leaves_productOf_ne_top (List.forall_mem_cons.mpr
        ⟨hdl, fun f hf => leaves_ne_top_of_isRational (hrest f hf).rational⟩)
    rw [derivedProduct]
    refine leaves_evaluated_ne_top hcanon ?_
    unfold productRule
    split
    · rw [leaves_sumOf]
      exact sum_leaves_ne_top (List.forall_mem_cons.mpr
        ⟨hleft, List.forall_mem_singleton.mpr hright⟩)
    · exact hright

/-- **The derivative of a rational expression is arithmetic.** -/
theorem leaves_derived_ne_top (y : Expr) {e : Expr} (he : RationalForm e) :
    (derived y e).leaves ≠ ⊤ := by
  obtain ⟨hr, hc⟩ := he
  induction hr with
  | const q =>
    unfold derived
    exact leaves_guarded_ne_top (by simp [Expr.zero])
  | var n =>
    unfold derived
    exact leaves_guarded_ne_top (by simp [Expr.zero])
  | sum _ ih =>
    unfold derived
    refine leaves_guarded_ne_top ?_
    rw [leaves_sumOf]
    exact sum_leaves_ne_top (leaves_derivedTerms_ne_top fun t ht => ih t ht (hc.of_sum t ht))
  | product hfs ih =>
    unfold derived
    exact leaves_guarded_ne_top (leaves_derivedProduct_ne_top
      (RationalForm.of_product ⟨.product hfs, hc⟩) fun f hf => ih f hf (hc.of_product f hf))
  | @power b n hb _ _ ih =>
    have hcb := hc.of_binary.1
    have hd := ih hcb
    unfold Expr.power derived
    refine leaves_guarded_ne_top (leaves_evaluated_ne_top
      (canonical_constantPower hcb (canonical_derived y ⟨hb, hcb⟩)) ?_)
    rw [constantPower, const_sub_one]
    refine leaves_productOf_ne_top ?_
    simp only [List.forall_mem_cons, List.not_mem_nil, false_imp_iff, implies_true, and_true]
    refine ⟨by simp, ?_, hd⟩
    rw [leaves_power_const]
    exact leaves_ne_top_of_isRational hb

end Derivative

end SymbolicAlgebra
