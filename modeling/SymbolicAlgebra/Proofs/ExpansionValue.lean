import SymbolicAlgebra.PartialFractions
import SymbolicAlgebra.Proofs.Expansion

/-!
# Expansion keeps the value

Plain expansion multiplies out products and powers of sums and leaves everything else to its operands.
Each step multiplies out or collects, so the value is kept wherever the powers of constants that the
evaluator computes on the way are exact (`ExactExpansion`). Expansion raises no degree, so they are for
every expression whose degree is within `Rational.maxExactExponent`.

Results:
* `expandPlain_product_eq`, `expandPlain_power_eq`: expansion as multiplying out.
* `denotes_expandPlain`: one induction over the expression.
* `exactExpansion_of_degree_le`: the bound on the degree.
* `denotes_expand`: plain expansion gives a result, and it has the value of the expression.
-/

namespace SymbolicAlgebra.Expr

open Evaluator

variable {ctx : Context} {σ : String → Rat} {f : Expr}

/-! ## Expansion as multiplying out -/

theorem canonical_one : Canonical one := .const 1

/-- The expanded factors of a product multiplied out, if one of them is a sum. -/
theorem expandPlain_product_eq {fs : List Expr}
    (h : ∀ f ∈ fs, Canonical (f.expandPlain ctx)) :
    (product fs).expandPlain ctx =
      if (fs.map (expandPlain ctx)).any isSum then multipliedOut (fs.map (expandPlain ctx)) one
      else product fs := by
  rw [expandPlain_product, multiplyOut,
    foldl_distribute_eq (List.forall_mem_map.mpr h) ctx canonical_one]

/-- The number of times that the base is multiplied with itself when a power is expanded; `0` for a
power that stays. -/
def multiplications (b x : Expr) : Nat :=
  if 1 < (power b x).integralExponent && b.isSum then (power b x).integralExponent.toNat - 1 else 0

/-- A power of a sum multiplied out as copies of the base. -/
theorem expandPlain_power_eq {b x : Expr} (hb : Canonical b) :
    (power b x).expandPlain ctx =
      if multiplications b x = 0 then power b x
      else multipliedOut (List.replicate (multiplications b x) b) b := by
  rw [power, expandPlain, expandPower, multiplications, power]
  split
  · next h =>
    have hn : 1 < (binary .power b x).integralExponent := by
      rw [Bool.and_eq_true, decide_eq_true_eq] at h
      exact h.1
    rw [if_neg (by omega), multiplyRepeatedly_eq hb ctx _ hb]
  · rw [if_pos rfl]

theorem expandPlain_binary {op : BinaryOp} (hop : op ≠ .power) (l r : Expr) :
    (binary op l r).expandPlain ctx = binary op (l.expandPlain ctx) (r.expandPlain ctx) := by
  rw [expandPlain]
  exact hop

theorem canonical_expandPlain (hf : Canonical f) : Canonical (f.expandPlain ctx) := by
  induction hf with
  | const q =>
    rw [expandPlain]
    exact .const q
  | var x =>
    rw [expandPlain]
    exact .var x
  | sum _ _ ih =>
    rw [expandPlain_sum]
    exact canonical_collectAll (List.forall_mem_map.mpr ih)
  | product hfs heq ih =>
    rw [expandPlain_product_eq ih]
    split
    · exact canonical_multipliedOut (List.forall_mem_map.mpr ih) canonical_one
    · exact .product hfs heq
  | @binary op l r hop hl hr ihl ihr =>
    by_cases hpower : op = .power
    · subst hpower
      rw [← power, expandPlain_power_eq hl]
      split
      · exact hl.power hr
      · exact canonical_multipliedOut (fun y hy => List.eq_of_mem_replicate hy ▸ hl) hl
    · rw [expandPlain_binary hpower]
      exact .binary hop ihl ihr
  | not _ ih =>
    rw [expandPlain]
    exact .not ih
  | set hms heq =>
    rw [expandPlain]
    exact .set hms heq

/-! ## The value -/

/-- `e` is a product that is visited when an expression is expanded. -/
inductive ExpansionVisit (ctx : Context) (e : Expr) : Expr → Prop
  | term {t : Expr} {ts : List Expr} : t ∈ ts → ExpansionVisit ctx e t →
    ExpansionVisit ctx e (sum ts)
  | factor {f : Expr} {fs : List Expr} : f ∈ fs → ExpansionVisit ctx e f →
    ExpansionVisit ctx e (product fs)
  | product {fs : List Expr} : (fs.map (expandPlain ctx)).any isSum = true →
    e ∈ multiplyingVisits (fs.map (expandPlain ctx)) one → ExpansionVisit ctx e (product fs)
  | power {b x : Expr} : e ∈ multiplyingVisits (List.replicate (multiplications b x) b) b →
    ExpansionVisit ctx e (power b x)
  | left {op : BinaryOp} {l r : Expr} : op ≠ .power → ExpansionVisit ctx e l →
    ExpansionVisit ctx e (binary op l r)
  | right {op : BinaryOp} {l r : Expr} : op ≠ .power → ExpansionVisit ctx e r →
    ExpansionVisit ctx e (binary op l r)
  | operand {a : Expr} : ExpansionVisit ctx e a → ExpansionVisit ctx e (not a)

/-- All powers of constants that are computed when `f` is expanded are exact. -/
def ExactExpansion (ctx : Context) (f : Expr) : Prop :=
  ∀ e, ExpansionVisit ctx e f → ExactPowers e

/-- The exponent of a power that is multiplied out is one more than the multiplications. -/
theorem exponent_of_multiplications {b : Expr} {n : Rat} (h : multiplications b (const n) ≠ 0) :
    b.isSum = true ∧ n = ((multiplications b (const n) + 1 : Nat) : Rat) := by
  unfold multiplications at h ⊢
  split
  · next hn =>
    rw [Bool.and_eq_true, decide_eq_true_eq] at hn
    obtain ⟨hn, hsum⟩ := hn
    have hexponent : (power b (const n)).integralExponent = (Rational.toInt64? n).getD 1 := rfl
    cases hint : Rational.toInt64? n with
    | none =>
      rw [hexponent, hint] at hn
      exact absurd hn (lt_irrefl _)
    | some m =>
      rw [hexponent, hint, Option.getD_some] at hn ⊢
      refine ⟨hsum, (eq_of_toInt64? hint).trans ?_⟩
      rw [Nat.sub_add_cancel (by omega), ← Int.cast_natCast, Int.toNat_of_nonneg (by omega)]
  · next hn => exact absurd (if_neg hn) h

/-- **Expansion keeps the value**, if the powers of constants on the way are exact. -/
theorem denotes_expandPlain (hf : Canonical f) (hexact : ExactExpansion ctx f) (hd : Defined σ f) :
    Denotes σ (f.expandPlain ctx) (value σ f) := by
  induction hd with
  | const q =>
    rw [expandPlain]
    exact ⟨.const q, rfl⟩
  | var n c =>
    rw [expandPlain]
    exact ⟨.var n c, rfl⟩
  | @sum ts _ ih =>
    have hterm : ∀ t ∈ ts, Denotes σ (t.expandPlain ctx) (value σ t) := fun t ht =>
      ih t ht (hf.of_sum t ht) fun e he => hexact e (.term ht he)
    rw [expandPlain_sum, value_sum]
    exact denotes_collectAll (fun t ht => canonical_expandPlain (hf.of_sum t ht)) hterm
  | @product fs hfs ih =>
    have hfactor : ∀ g ∈ fs, Denotes σ (g.expandPlain ctx) (value σ g) := fun g hg =>
      ih g hg (hf.of_product g hg) fun e he => hexact e (.factor hg he)
    have hcanon : ∀ g ∈ fs, Canonical (g.expandPlain ctx) := fun g hg =>
      canonical_expandPlain (hf.of_product g hg)
    rw [expandPlain_product_eq hcanon]
    split
    · next hsum =>
      have h := denotes_multipliedOut (List.forall_mem_map.mpr hcanon) (defined_map hfactor)
        canonical_one (.const 1) fun e he => hexact e (.product hsum he)
      rw [one, value_const, one_mul, map_value_map hfactor] at h
      rwa [value_product]
    · exact ⟨.product hfs, rfl⟩
  | @power b n hb hn h0 hneg _ =>
    have hbase := hf.of_binary.1
    rw [expandPlain_power_eq hbase]
    split
    · exact ⟨.power hb hn h0 hneg, rfl⟩
    · next hcount =>
      obtain ⟨-, hn⟩ := exponent_of_multiplications hcount
      have hcopies : ∀ y ∈ List.replicate (multiplications b (.const n)) b, y = b :=
        fun y => List.eq_of_mem_replicate
      have h := denotes_multipliedOut (fun y hy => hcopies y hy ▸ hbase)
        (fun y hy => hcopies y hy ▸ hb) hbase hb fun e he => hexact e (.power he)
      rw [List.map_replicate, List.prod_replicate, ← pow_succ'] at h
      rw [value_power]
      nth_rewrite 2 [hn]
      rwa [Rat.num_natCast, zpow_natCast]
  | @binary op l r hop hl hr ihl ihr =>
    have hpower : op ≠ .power := by
      rintro rfl
      cases hop
    obtain ⟨hdl, hvl⟩ := ihl hf.of_binary.1 fun e he => hexact e (.left hpower he)
    obtain ⟨hdr, hvr⟩ := ihr hf.of_binary.2 fun e he => hexact e (.right hpower he)
    rw [expandPlain_binary hpower]
    exact ⟨.binary hop hdl hdr, by rw [value_binary, value_binary, hvl, hvr]⟩
  | @not a ha ih =>
    have hcanon : Canonical a := by
      cases hf with
      | not ha => exact ha
    obtain ⟨hd, hv⟩ := ih hcanon fun e he => hexact e (.operand he)
    rw [expandPlain]
    exact ⟨.not hd, by rw [value_not, value_not, hv]⟩

/-! ## The bound -/

/-- An expression exceeds its terms by one at most. -/
theorem exponentBound_le_largestDegree (e : Expr) :
    e.exponentBound ≤ largestDegree e.terms + 1 := by
  cases hs : e.isSum
  · rw [terms_eq_self hs, largestDegree, largestDegree, Nat.max_zero]
    exact exponentBound_le_degree_succ e
  · obtain ⟨ts, rfl⟩ := exists_of_isSum hs
    rw [exponentBound_eq_degree rfl rfl, degree, terms_sum]

theorem largestDegree_terms_le (e : Expr) : largestDegree e.terms ≤ e.degree :=
  largestDegree_le.mpr fun _ ht => degree_of_mem_terms ht

theorem largestDegree_terms_lt {e : Expr} (h : e.isSum = true) :
    largestDegree e.terms + 1 = e.degree := by
  obtain ⟨ts, rfl⟩ := exists_of_isSum h
  rw [degree, terms_sum]

theorem largestDegree_terms_sumOf_le {N : Nat} {xs : List Expr} (hc : ∀ x ∈ xs, Canonical x)
    (h : ∀ x ∈ xs, largestDegree x.terms ≤ N) : largestDegree (sumOf xs).terms ≤ N := by
  refine largestDegree_le.mpr fun t ht => ?_
  obtain hconst | ⟨-, x, hx, htx⟩ := mem_terms_sumOf hc ht
  · obtain ⟨q, rfl⟩ := exists_of_isConst hconst
    exact (degree_const q).trans_le (Nat.zero_le N)
  · exact largestDegree_le.mp (h x hx) t htx

/-- Evaluation raises no degree of a term. -/
theorem largestDegree_terms_evaluated_le {N : Nat} {e : Expr} (he : Canonical e) (hd : Defined σ e)
    (hN : N < Rational.maxExactExponent) (hle : largestDegree e.terms ≤ N) :
    largestDegree (evaluated e).terms ≤ N := by
  have hterm : ∀ t ∈ e.terms, Canonical t ∧ Canonical (evaluated t) ∧
      largestDegree (evaluated t).terms ≤ N := by
    intro t ht
    have hdegree := largestDegree_le.mp hle t ht
    have hsound := sound_of_degree_le (he.of_terms t ht) (hd.of_terms t ht) (by omega)
    exact ⟨he.of_terms t ht, hsound.bounded.canonical,
      (largestDegree_terms_le _).trans (hsound.bounded.degree_le.trans hdegree)⟩
  cases hs : e.isSum
  · exact (hterm e (mem_terms_self hs)).2.2
  · obtain ⟨ts, rfl⟩ := exists_of_isSum hs
    rw [evaluated_sum he]
    exact largestDegree_terms_collectAll
      (List.forall_mem_map.mpr fun t ht => (hterm t ht).2)

/-- The degrees of factors, one of which is a sum: it counts more than its terms. -/
theorem sum_largestDegree_lt {fs : List Expr} (h : fs.any isSum = true) :
    (fs.map fun f => largestDegree f.terms).sum + 1 ≤ (fs.map degree).sum := by
  induction fs with
  | nil => cases h
  | cons f fs ih =>
    rw [List.map_cons, List.sum_cons, List.map_cons, List.sum_cons]
    rw [List.any_cons, Bool.or_eq_true] at h
    have hf := largestDegree_terms_le f
    rcases h with h | h
    · have hfs : (fs.map fun f => largestDegree f.terms).sum ≤ (fs.map degree).sum :=
        List.sum_le_sum fun g _ => largestDegree_terms_le g
      have := largestDegree_terms_lt h
      omega
    · have := ih h
      omega

/-- What the induction shows of an expression: the powers of constants that its expansion computes are
exact, and the expanded form has no larger bound. -/
structure BoundedExpansion (ctx : Context) (f : Expr) : Prop where
  exact : ExactExpansion ctx f
  exponentBound_le : (f.expandPlain ctx).exponentBound ≤ f.exponentBound
  degree_le : (f.expandPlain ctx).degree ≤ f.degree

/-- Multiplying out raises no bound where what is multiplied counts one more than its terms. -/
theorem boundedExpansion_of_multipliedOut {xs : List Expr} {a : Expr}
    (hxs : ∀ x ∈ xs, Canonical x) (hdxs : ∀ x ∈ xs, Defined σ x) (ha : Canonical a)
    (hda : Defined σ a) (heq : f.expandPlain ctx = multipliedOut xs a)
    (hlt : largestDegree a.terms + (xs.map fun x => largestDegree x.terms).sum + 1 ≤ f.degree)
    (hle : f.degree ≤ Rational.maxExactExponent)
    (hvisits : ∀ e, ExpansionVisit ctx e f → ExactPowers e ∨ e ∈ multiplyingVisits xs a) :
    BoundedExpansion ctx f := by
  obtain ⟨hexact, hdegree⟩ := exact_multiplyingVisits hxs hdxs ha hda (by omega)
  have hbound := exponentBound_le_largestDegree (multipliedOut xs a)
  have := degree_le_exponentBound (multipliedOut xs a)
  have := degree_le_exponentBound f
  refine ⟨fun e he => (hvisits e he).elim id (hexact e), ?_, ?_⟩ <;> rw [heq] <;> omega

/-- **Expansion raises no degree**, and within the bound all powers of constants are exact. -/
theorem boundedExpansion_of_degree_le (hf : Canonical f) (hd : Defined σ f)
    (hle : f.degree ≤ Rational.maxExactExponent) : BoundedExpansion ctx f := by
  induction hd with
  | const q =>
    refine ⟨fun e he => (by cases he), ?_, ?_⟩ <;> rw [expandPlain]
  | var n c =>
    refine ⟨fun e he => (by cases he), ?_, ?_⟩ <;> rw [expandPlain]
  | @sum ts hts ih =>
    have hdegrees : ∀ t ∈ ts, t.degree ≤ largestDegree ts := largestDegree_le.mp le_rfl
    have hterm : ∀ t ∈ ts, BoundedExpansion ctx t := fun t ht =>
      ih t ht (hf.of_sum t ht) (by have := hdegrees t ht; rw [degree] at hle; omega)
    have hbound : ((sum ts).expandPlain ctx).exponentBound ≤ (sum ts).degree := by
      rw [expandPlain_sum, degree]
      refine exponentBound_collect_le (fun u hu => ?_) fun u hu => ?_ <;>
        obtain ⟨r, hr, hur⟩ := List.mem_flatMap.mp hu <;>
        obtain ⟨t, ht, rfl⟩ := List.mem_map.mp hr
      · exact (canonical_expandPlain (hf.of_sum t ht)).of_terms u hur
      · exact (degree_of_mem_terms hur).trans ((hterm t ht).degree_le.trans (hdegrees t ht))
    refine ⟨fun e he => ?_, hbound.trans (degree_le_exponentBound _),
      (degree_le_exponentBound _).trans hbound⟩
    cases he with
    | term ht he => exact (hterm _ ht).exact e he
  | @product fs hfs ih =>
    have hfactor : ∀ g ∈ fs, BoundedExpansion ctx g := fun g hg =>
      ih g hg (hf.of_product g hg) ((degree_of_mem_factors hg).trans hle)
    have hcanon : ∀ g ∈ fs, Canonical (g.expandPlain ctx) := fun g hg =>
      canonical_expandPlain (hf.of_product g hg)
    by_cases hsum : (fs.map (expandPlain ctx)).any isSum = true
    · have hdegrees : ((fs.map (expandPlain ctx)).map degree).sum ≤ (fs.map degree).sum := by
        rw [List.map_map]
        exact List.sum_le_sum fun g hg => (hfactor g hg).degree_le
      have hlt := sum_largestDegree_lt hsum
      refine boundedExpansion_of_multipliedOut (List.forall_mem_map.mpr hcanon)
        (List.forall_mem_map.mpr fun g hg => (denotes_expandPlain (hf.of_product g hg)
          (hfactor g hg).exact (hfs g hg)).defined) canonical_one (.const 1)
        ((expandPlain_product_eq hcanon).trans (if_pos hsum)) ?_ hle
        fun e he => ?_
      · have hone : largestDegree one.terms = 0 := by simp [one, largestDegree]
        rw [degree_product, hone]
        omega
      · cases he with
        | factor hg he => exact .inl ((hfactor _ hg).exact e he)
        | product _ he => exact .inr he
    · have heq := (expandPlain_product_eq hcanon).trans (if_neg hsum)
      refine ⟨fun e he => ?_, by rw [heq], by rw [heq]⟩
      cases he with
      | factor hg he => exact (hfactor _ hg).exact e he
      | product hany _ => exact absurd hany hsum
  | @power b n hb hn h0 hneg _ =>
    have hbase := hf.of_binary.1
    by_cases hcount : multiplications b (.const n) = 0
    · have heq : (power b (.const n)).expandPlain ctx = power b (.const n) :=
        (expandPlain_power_eq hbase).trans (if_pos hcount)
      refine ⟨fun e he => ?_, by rw [heq], by rw [heq]⟩
      cases he with
      | power he =>
        rw [hcount] at he
        exact absurd he List.not_mem_nil
      | left hop _ => exact absurd rfl hop
      | right hop _ => exact absurd rfl hop
    · obtain ⟨hsum, hnum⟩ := exponent_of_multiplications hcount
      have hcopies : ∀ y ∈ List.replicate (multiplications b (.const n)) b, y = b :=
        fun y => List.eq_of_mem_replicate
      refine boundedExpansion_of_multipliedOut (fun y hy => hcopies y hy ▸ hbase)
        (fun y hy => hcopies y hy ▸ hb) hbase hb
        ((expandPlain_power_eq hbase).trans (if_neg hcount)) ?_ hle fun e he => ?_
      · have hmagnitude : magnitude n = multiplications b (.const n) + 1 := by
          nth_rewrite 1 [hnum]
          rw [← Int.cast_natCast, magnitude_intCast, Int.natAbs_natCast]
        have hdegree := largestDegree_terms_lt hsum
        have := degree_le_exponentBound b
        rw [List.map_replicate, List.sum_replicate_nat, degree_power, hmagnitude]
        calc largestDegree b.terms + multiplications b (.const n) * largestDegree b.terms + 1
            ≤ (multiplications b (.const n) + 1) * (largestDegree b.terms + 1) := by ring_nf; omega
          _ ≤ (multiplications b (.const n) + 1) * b.exponentBound :=
            Nat.mul_le_mul_left _ (by omega)
      · cases he with
        | power he => exact .inr he
        | left hop _ => exact absurd rfl hop
        | right hop _ => exact absurd rfl hop
  | @binary op l r hop hl hr ihl ihr =>
    have hpower : op ≠ .power := by
      rintro rfl
      cases hop
    rw [degree_binary hpower] at hle
    have hleft := ihl hf.of_binary.1 ((degree_le_exponentBound l).trans (by omega))
    have hright := ihr hf.of_binary.2 ((degree_le_exponentBound r).trans (by omega))
    have hbound : (binary op (l.expandPlain ctx) (r.expandPlain ctx)).degree ≤
        (binary op l r).degree := by
      rw [degree_binary hpower, degree_binary hpower]
      exact max_le_max hleft.exponentBound_le hright.exponentBound_le
    refine ⟨fun e he => ?_, ?_, ?_⟩
    · cases he with
      | power _ => cases hop
      | left _ he => exact hleft.exact e he
      | right _ he => exact hright.exact e he
    · rwa [expandPlain_binary hpower, exponentBound_eq_degree rfl rfl,
        exponentBound_eq_degree rfl rfl]
    · rwa [expandPlain_binary hpower]
  | @not a ha ih =>
    have hcanon : Canonical a := by
      cases hf with
      | not ha => exact ha
    rw [degree] at hle
    have hoperand := ih hcanon ((degree_le_exponentBound a).trans hle)
    have hbound : (not (a.expandPlain ctx)).degree ≤ (not a).degree := by
      rw [degree, degree]
      exact hoperand.exponentBound_le
    refine ⟨fun e he => ?_, ?_, ?_⟩
    · cases he with
      | operand he => exact hoperand.exact e he
    · rwa [expandPlain, exponentBound_eq_degree rfl rfl, exponentBound_eq_degree rfl rfl]
    · rwa [expandPlain]

/-- **Plain expansion keeps the value**: it gives a result, and where an expression has a value, the
expanded form has the same one, provided that the powers of constants computed on the way are exact;
and they are exact for an expression whose degree is at most `Rational.maxExactExponent`. -/
theorem denotes_expand {v : Rat} (hf : Canonical f) (h : Denotes σ f v) (ctx : Context) :
    (ExactExpansion ctx f → ∃ e, f.expand none ctx = .ok e ∧ Denotes σ e v) ∧
      (f.degree ≤ Rational.maxExactExponent → ExactExpansion ctx f) := by
  obtain ⟨hd, rfl⟩ := h
  exact ⟨fun hexact => ⟨_, rfl, denotes_expandPlain hf hexact hd⟩,
    fun hle => (boundedExpansion_of_degree_le hf hd hle).exact⟩

/-- `(1 + x)*y` at `x = y = 1`. -/
theorem denotes_expand_product :
    ∃ e, (productOf [sumOf [const 1, symbol "x"], symbol "y"]).expand none (.inert .standard) =
      .ok e ∧ Denotes (fun _ => 1) e 2 := by
  have hterms : ∀ t ∈ [const 1, symbol "x"],
      Canonical t ∧ Defined (fun _ => 1) t ∧ t.degree ≤ 0 :=
    forall_mem_pair ⟨.const 1, .const 1, by simp⟩ ⟨.var "x", .var "x" none, by simp [symbol, degree]⟩
  have hsum := denotes_sumOf fun t ht => (hterms t ht).2.1
  have hcanon := canonical_productOf (forall_mem_pair
    (canonical_sumOf fun t ht => (hterms t ht).1) (.var "y"))
  have hproduct := denotes_productOf_pair hsum ⟨.var "y" none, value_var "y" none⟩
  have hvalue : Denotes (fun _ => 1) (productOf [sumOf [const 1, symbol "x"], symbol "y"]) 2 :=
    ⟨hproduct.defined, hproduct.value_eq.trans (by norm_num [symbol])⟩
  have hdegree : (productOf [sumOf [const 1, symbol "x"], symbol "y"]).degree ≤
      Rational.maxExactExponent := by
    have hle := (degree_le_exponentBound _).trans
      (exponentBound_sumOf_le fun t ht => (hterms t ht).2.2)
    refine (degree_productOf_le _).trans ?_
    rw [List.map_cons, List.map_singleton, List.sum_cons, List.sum_singleton,
      show (symbol "y").degree = 0 by rw [symbol, degree]]
    exact (Nat.add_le_add_right hle 0).trans (by decide)
  obtain ⟨hexpand, hexact⟩ := denotes_expand hcanon hvalue (.inert .standard)
  exact hexpand (hexact hdegree)

end SymbolicAlgebra.Expr
