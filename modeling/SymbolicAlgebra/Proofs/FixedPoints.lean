import SymbolicAlgebra.Proofs.Cancellation
import SymbolicAlgebra.Proofs.Counts
import SymbolicAlgebra.Proofs.Idempotence

/-!
# Fixed points of evaluation

An expression is `Fixed` when it and all its parts are their own evaluated forms. Then no two terms of
a sum in it are multiples of the same expression, and no two factors of a product powers of the same
base: evaluation would have combined them. To see this one has to know that nothing else happens to
such a sum or product that makes up for it. The `bulk` of an expression counts the operands of its
sums and products that are no constants. Combining two of them lowers it, and no step that leaves the
operands alone raises it.

Operands that are all different in this sense can be taken away one after the other, and what is left
is fixed again.

Results:
* `Fixed.nodup_splits`, `Fixed.nodup_exponentsOf`: a fixed sum has no like terms, a fixed product no
  like bases.
* `Addends.fixed_sumOf`, `Multiplicands.fixed_productOf`: some of the operands give a fixed point.
* `Addends.evaluated_subtract`, `Multiplicands.evaluated_divide`: a variable that is cancelled from a
  fixed sum or product leaves the other operands.
-/

namespace SymbolicAlgebra

namespace Expr

/-! ## Bulk -/

mutual

/-- The number of operands of sums and products that are no constants; a power with a constant exponent
counts as much as its base, and at least one. -/
def bulk : Expr → Nat
  | const _ => 0
  | sum ts => bulkOfList ts
  | product fs => bulkOfList fs
  | binary .power b (const _) => max 1 (bulk b)
  | _ => 1

/-- The same for a list of operands. -/
def bulkOfList : List Expr → Nat
  | [] => 0
  | t :: ts => bulk t + bulkOfList ts

end

/-- What a power of a base counts at most. -/
def bulkAsBase (k : Expr) : Nat := max 1 k.bulk

theorem bulkOfList_eq (xs : List Expr) : bulkOfList xs = (xs.map bulk).sum := by
  induction xs with
  | nil => rw [bulkOfList, List.map_nil, List.sum_nil]
  | cons x xs ih => rw [bulkOfList, ih, List.map_cons, List.sum_cons]

theorem counts_bulk : Counts bulk where
  const _ := by rw [bulk]
  sum ts := by rw [bulk, bulkOfList_eq]
  product fs := by rw [bulk, bulkOfList_eq]

theorem bulk_power_const (b : Expr) (q : Rat) : (power b (.const q)).bulk = b.bulkAsBase := by
  rw [power, bulk, bulkAsBase]

theorem one_le_bulk_binary (op : BinaryOp) (l r : Expr) : 1 ≤ (binary op l r).bulk := by
  cases op with
  | power =>
    cases r with
    | const q => exact (le_max_left _ _).trans_eq (bulk_power_const l q).symm
    | _ => exact le_rfl
  | _ => exact le_rfl

theorem one_le_sum_bulk {xs : List Expr} (hne : others xs ≠ [])
    (h : ∀ x ∈ others xs, 1 ≤ x.bulk) : 1 ≤ (xs.map bulk).sum := by
  obtain ⟨x, hx⟩ := List.exists_mem_of_ne_nil _ hne
  rw [← counts_bulk.others]
  exact (h x hx).trans (List.single_le_sum (fun _ _ => Nat.zero_le _) _ (List.mem_map_of_mem hx))

/-- Only constants have no bulk. -/
theorem one_le_bulk {e : Expr} (he : Canonical e) (hc : e.isConst = false) : 1 ≤ e.bulk := by
  induction he with
  | const q => cases hc
  | @sum ts hts heq ih =>
    rw [counts_bulk.sum]
    refine one_le_sum_bulk (Evaluator.others_terms_ne_nil (.sum hts heq) hc) fun t ht => ?_
    exact ih t (mem_others.mp ht).1 (mem_others.mp ht).2
  | @product fs hfs heq ih =>
    rw [counts_bulk.product]
    refine one_le_sum_bulk ((Canonical.product hfs heq).constructed.others_factors_ne_nil hc)
      fun f hf => ?_
    exact ih f (mem_others.mp hf).1 (mem_others.mp hf).2
  | @binary op l r => exact one_le_bulk_binary op l r
  | var n => exact le_rfl
  | not _ _ => exact le_rfl
  | set _ _ _ => exact le_rfl

end Expr

namespace Evaluator

open Expr

theorem bulk_raised_le (k : Expr) (x : Rat) : (raised k x).bulk ≤ k.bulkAsBase := by
  rw [raised]
  split
  · exact le_max_right _ _
  · exact (bulk_power_const k x).le

/-- A factor counts as much as its base. -/
theorem bulkAsBase_splitExponent {f : Expr} (hf : Expr.Canonical f) (hc : f.isConst = false) :
    (splitExponent f).1.bulkAsBase = f.bulk := by
  unfold splitExponent
  split
  · exact (bulk_power_const _ _).symm
  · exact max_eq_right (one_le_bulk hf hc)

theorem bulkAsBase_exponentsOf {fs : List Expr} (h : ∀ f ∈ fs, Expr.Canonical f) :
    totalOfKeys bulkAsBase (exponentsOf fs) = (fs.map bulk).sum := by
  rw [← counts_bulk.others, totalOfKeys, exponentsOf, List.map_map]
  refine congrArg List.sum (List.map_congr_left fun f hf => ?_)
  exact bulkAsBase_splitExponent (h f (mem_others.mp hf).1) (mem_others.mp hf).2

/-! ## Fixed points -/

/-- The expression and all its parts are their own evaluated forms. -/
structure Fixed (e : Expr) : Prop where
  canonical : Expr.Canonical e
  parts : Throughout (fun c => evaluated c = c) e

theorem canonical_of_operand {c e : Expr} (h : Expr.Canonical e) (hc : Operand c e) :
    Expr.Canonical c := by
  cases hc with
  | term ht => exact h.of_sum c ht
  | factor hf => exact h.of_product c hf
  | left => exact h.of_binary.1
  | right => exact h.of_binary.2
  | negated =>
    cases h with
    | not ha => exact ha
  | member hm =>
    cases h with
    | set hms _ => exact hms c hm

theorem fixed_const (q : Rat) : Fixed (.const q) :=
  ⟨.const q, throughout_const rfl⟩

theorem fixed_symbol (n : String) : Fixed (symbol n) :=
  ⟨.var n, throughout_of rfl fun _ hc => by cases hc⟩

theorem Fixed.of_operand {c e : Expr} (h : Fixed e) (hc : Operand c e) : Fixed c :=
  ⟨canonical_of_operand h.canonical hc, h.parts.of_operand hc⟩

theorem fixed_of {e : Expr} (hc : Expr.Canonical e) (heval : evaluated e = e)
    (h : ∀ c, Operand c e → Fixed c) : Fixed e :=
  ⟨hc, throughout_of heval fun c hce => (h c hce).parts⟩

theorem Fixed.evaluated_eq {e : Expr} (h : Fixed e) : evaluated e = e :=
  h.parts.self

theorem canonical_of_part {c e : Expr} (h : Expr.Canonical e)
    (hc : Relation.ReflTransGen Operand c e) : Expr.Canonical c := by
  induction hc using Relation.ReflTransGen.head_induction_on with
  | refl => exact h
  | head hcd _ ih => exact canonical_of_operand ih hcd

/-- Fixed points are the canonical expressions that evaluation leaves as they are, part by part. -/
theorem fixed_iff {e : Expr} (ctx : Context) :
    Fixed e ↔ Expr.Canonical e ∧ Throughout (fun c => c.evaluate ctx = c) e := by
  have heval {c : Expr} (h : Expr.Canonical e) (hc : Relation.ReflTransGen Operand c e) :
      c.evaluate ctx = evaluated c := evaluate_eq (canonical_of_part h hc) ctx
  constructor
  · rintro ⟨h, hparts⟩
    exact ⟨h, fun c hc => (heval h hc).trans (hparts c hc)⟩
  · rintro ⟨h, hparts⟩
    exact ⟨h, fun c hc => (heval h hc).symm.trans (hparts c hc)⟩

theorem Fixed.of_terms {e : Expr} (h : Fixed e) : ∀ t ∈ e.terms, Fixed t :=
  fun t ht => ⟨h.canonical.of_terms t ht, h.parts.of_terms t ht⟩

theorem Fixed.of_factors {e : Expr} (h : Fixed e) : ∀ f ∈ e.factors, Fixed f :=
  fun f hf => ⟨h.canonical.of_factors f hf, h.parts.of_factors f hf⟩

/-- A fixed point is settled as every evaluated form is. -/
theorem Fixed.resolved {e : Expr} (h : Fixed e) : Resolved e := by
  have hself := (throughout_resolved_evaluated h.canonical).self
  rwa [h.evaluated_eq] at hself

theorem map_evaluated {xs : List Expr} (h : ∀ x ∈ xs, Fixed x) : xs.map evaluated = xs :=
  map_eq_self fun x hx => (h x hx).evaluated_eq

/-! ### Nothing is combined -/

/-- Members of a list that together count as much as the list are the whole list. -/
theorem nodup_of_sum_le {l d : List Expr} {ψ : Expr → Nat} (hd : d.Nodup) (hsub : d ⊆ l)
    (hpos : ∀ k ∈ l, 1 ≤ ψ k) (hle : (l.map ψ).sum ≤ (d.map ψ).sum) : l.Nodup := by
  obtain ⟨d', hd', hsub'⟩ := List.subperm_of_subset hd hsub
  obtain ⟨rest, hrest⟩ := hsub'.exists_perm_append
  have hperm := hrest.trans (hd'.append_right rest)
  have hsum := (hperm.map ψ).sum_eq
  rw [List.map_append, List.sum_append] at hsum
  have hnil : rest = [] := by
    refine List.eq_nil_iff_forall_not_mem.mpr fun k hk => ?_
    have h1 := hpos k (hperm.mem_iff.mpr (List.mem_append_right _ hk))
    have h2 := List.single_le_sum (fun _ _ => Nat.zero_le _) _ (List.mem_map_of_mem (f := ψ) hk)
    omega
  rw [hnil, List.append_nil] at hperm
  exact hperm.nodup_iff.mpr hd

/-- **A fixed sum has no like terms.** -/
theorem Fixed.nodup_splits {ts : List Expr} (h : Fixed (.sum ts)) :
    (Tally.keys (splits ts)).Nodup := by
  have hc := h.canonical.of_sum
  have hcollect : collect ts = .sum ts := by
    have heval := h.evaluated_eq
    have hflat : ∀ t ∈ ts, t.isSum = false := h.canonical.flat_terms
    rwa [evaluated_sum h.canonical, map_evaluated fun t ht => h.of_operand (.term ht),
      flatMap_terms_eq_self hflat] at heval
  refine nodup_of_sum_le (ψ := bulk) (nodup_keys_likeTerms ts) (fun k hk => ?_) (fun k hk => ?_) ?_
  · obtain ⟨p, hp, rfl⟩ := List.mem_map.mp hk
    exact (of_mem_likeTerms hp).1
  · obtain ⟨p, hp, rfl⟩ := List.mem_map.mp hk
    have hmonic := (monic_splits hc p hp).1
    exact one_le_bulk hmonic.canonical hmonic.notConst
  · rw [← totalOfKeys_eq, ← totalOfKeys_eq]
    calc totalOfKeys bulk (splits ts)
        ≤ (ts.map bulk).sum := counts_bulk.totalOfKeys_splits_le ts
      _ = (collect ts).bulk := by rw [hcollect, counts_bulk.sum]
      _ ≤ totalOfKeys bulk (likeTerms ts) := counts_bulk.collect_le_likeTerms ts

theorem Fixed.splitExponent {f : Expr} (h : Fixed f) : Fixed (splitExponent f).1 := by
  unfold Evaluator.splitExponent
  split
  · exact h.of_operand .left
  · exact h

theorem size_splitExponent_le (f : Expr) : (splitExponent f).1.size ≤ f.size := by
  unfold splitExponent
  split
  · next b x =>
    change b.size ≤ (Expr.power b (.const x)).size
    rw [Expr.power, size]
    omega
  · exact le_rfl

/-- The step for a product of fixed factors counts no more than the bases, provided that multiplying a
term of one of them by a constant does not count more than the term. -/
theorem bulk_productStep_le {fs : List Expr} (h : ∀ f ∈ fs, Fixed f)
    (hflat : ∀ f ∈ fs, f.isProduct = false)
    (hs : ∀ f ∈ fs, (splitExponent f).1.isSum = true → ∀ t ∈ (splitExponent f).1.terms, ∀ q,
      (evaluated (productOf [.const q, t])).bulk ≤ t.bulk) :
    (productStep evaluated fs).bulk ≤
      totalOfKeys bulkAsBase (Tally.ofList (exponentsOf fs)).entries := by
  have hbases : visitedBases evaluated fs = Bases.ofFactors fs := by
    rw [visitedBases, map_evaluated h, flatMap_factors_eq_self hflat]
  have hentries : (visitedBases evaluated fs).exponents = Tally.ofList (exponentsOf fs) := by
    rw [hbases, Bases.ofFactors_eq]
  rw [← hentries]
  refine Counts.productStep_le counts_bulk bulk_raised_le (fun _ _ => max_le_max_left 1)
    fun base x scale habs t ht => ?_
  obtain ⟨hmem, hsum, -⟩ := Bases.absorber?_eq_some habs
  rw [hentries] at hmem
  obtain ⟨p, hp, hbase⟩ := List.mem_map.mp (Tally.mem_keys_of_ofList (List.mem_map_of_mem hmem))
  obtain ⟨f, hf, rfl⟩ := List.mem_map.mp hp
  dsimp only at hbase
  subst hbase
  exact hs f (mem_others.mp hf).1 hsum t ht scale

/-- The same for a product with a constant in front, also if it has a single factor. -/
theorem bulk_evaluated_productOf_cons_le {c : Rat} {fs : List Expr} (h : ∀ f ∈ fs, Fixed f)
    (hflat : ∀ f ∈ fs, f.isProduct = false) (hconst : constants fs = [])
    (hs : ∀ f ∈ fs, (splitExponent f).1.isSum = true → ∀ t ∈ (splitExponent f).1.terms, ∀ q,
      (evaluated (productOf [.const q, t])).bulk ≤ t.bulk) :
    (evaluated (productOf (.const c :: fs))).bulk ≤ (fs.map bulk).sum := by
  have hcanon : ∀ f ∈ fs, Expr.Canonical f := fun f hf => (h f hf).canonical
  by_cases h0 : c = 0
  · rw [h0, productOf_zero_cons]
    exact (counts_bulk.const 0).trans_le (Nat.zero_le _)
  by_cases hlen : 2 ≤ (if c = 1 then fs else fs ++ [Expr.const c]).length
  · rw [evaluated_productOf hcanon hflat hconst h0 hlen]
    refine (bulk_productStep_le (List.forall_mem_cons.mpr ⟨fixed_const c, h⟩)
      (List.forall_mem_cons.mpr ⟨rfl, hflat⟩) (List.forall_mem_cons.mpr ⟨nofun, hs⟩)).trans ?_
    refine (totalOfKeys_ofList_le _).trans_eq ?_
    rw [bulkAsBase_exponentsOf (List.forall_mem_cons.mpr ⟨.const c, hcanon⟩), List.map_cons,
      List.sum_cons, counts_bulk.const, zero_add]
  · match fs, hlen with
    | [], _ =>
      rw [productOf_singleton_const]
      exact (counts_bulk.const c).le
    | [f], hlen =>
      have h1 : c = 1 := by
        by_contra h1
        rw [if_neg h1] at hlen
        exact hlen le_rfl
      rw [h1, productOf_one_cons, (hcanon f List.mem_cons_self).constructed.productOf_singleton,
        (h f List.mem_cons_self).evaluated_eq, List.map_singleton, List.sum_singleton]
    | f :: g :: fs, hlen =>
      refine absurd ?_ hlen
      split <;> simp

/-- **A constant that is multiplied into a fixed expression** does not make it count more. -/
theorem bulk_evaluated_productOf_le {t : Expr} (h : Fixed t) (q : Rat) :
    (evaluated (productOf [.const q, t])).bulk ≤ t.bulk := by
  induction hsize : t.size using Nat.strong_induction_on generalizing t q with
  | _ n ih =>
  have hcanon : ∀ f ∈ others t.factors, Expr.Canonical f :=
    canonical_others h.canonical.of_factors
  have hsum : ((others t.factors).map bulk).sum = t.bulk :=
    (counts_bulk.others _).trans (counts_bulk.factors t)
  have heq : productOf [.const q, t] =
      productOf (.const (q * (constants t.factors).prod) :: others t.factors) := by
    rw [productOf_mul_cons hcanon, h.canonical.productOf_constant_others]
  rw [heq, ← hsum]
  refine bulk_evaluated_productOf_cons_le (fun f hf => h.of_factors f (mem_others.mp hf).1)
    (fun f hf => h.canonical.flat_factors f (mem_others.mp hf).1) (constants_others _)
    fun f hf hsumf u hu p => ?_
  have hmem := (mem_others.mp hf).1
  have hfixed := (h.of_factors f hmem).splitExponent
  obtain ⟨us, hus⟩ := exists_of_isSum hsumf
  have hlt : u.size < (splitExponent f).1.size := by
    rw [hus] at hu ⊢
    rw [size]
    exact Nat.lt_succ_of_le (size_le_sizeList hu)
  have hle : f.size ≤ t.size := (size_le_sizeList hmem).trans (sizeList_factors_le t)
  exact ih u.size (by have := size_splitExponent_le f; omega) (hfixed.of_terms u hu) p rfl

/-- **A fixed product has no like bases.** -/
theorem Fixed.nodup_exponentsOf {fs : List Expr} (h : Fixed (.product fs)) :
    (Tally.keys (exponentsOf fs)).Nodup := by
  have hfixed : ∀ f ∈ fs, Fixed f := fun f hf => h.of_operand (.factor hf)
  refine nodup_of_sum_le (ψ := bulkAsBase) (Tally.nodup_keys_ofList (exponentsOf fs))
    (fun k hk => Tally.mem_keys_of_ofList hk) (fun k _ => le_max_left 1 _) ?_
  rw [← totalOfKeys_eq, ← totalOfKeys_eq, bulkAsBase_exponentsOf h.canonical.of_product,
    ← counts_bulk.product]
  refine le_trans ?_ (bulk_productStep_le hfixed h.canonical.flat_factors fun f hf _ t ht q =>
    bulk_evaluated_productOf_le ((hfixed f hf).splitExponent.of_terms t ht) q)
  rw [← evaluated_product h.canonical, h.evaluated_eq]

/-! ## Terms of a fixed sum -/

/-- Terms, in order and no constants, of which no two are multiples of the same expression. -/
structure Addends (ts : List Expr) : Prop where
  fixed : ∀ t ∈ ts, Fixed t
  flat : ∀ t ∈ ts, t.isSum = false
  constants : constants ts = []
  sorted : Sorted ts
  nodup : (Tally.keys (splits ts)).Nodup

theorem sorted_others_terms {e : Expr} (h : Expr.Canonical e) : Sorted (others e.terms) := by
  cases hs : e.isSum
  · rw [terms_eq_self hs]
    exact (List.pairwise_singleton _ e).sublist List.filter_sublist
  · obtain ⟨ts, rfl⟩ := exists_of_isSum hs
    obtain ⟨heq, -⟩ := arranged_of_sumOf (show sumOf ts = sum ts from h.sumOf_terms)
    rw [terms_sum, ← heq, others_arranged_eq]
    exact sort_sorted _

/-- The terms of a fixed sum that are no constants. -/
theorem Fixed.addends {ts : List Expr} (h : Fixed (.sum ts)) : Addends (others ts) where
  fixed t ht := h.of_operand (.term (mem_others.mp ht).1)
  flat t ht := h.canonical.flat_terms t (mem_others.mp ht).1
  constants := constants_others ts
  sorted := sorted_others_terms h.canonical
  nodup := by
    rw [splits, others_eq_self (constants_others ts)]
    exact h.nodup_splits

namespace Addends

variable {t : Expr} {ts : List Expr} {n : String}

theorem canonical (h : Addends ts) : ∀ t ∈ ts, Expr.Canonical t :=
  fun t ht => (h.fixed t ht).canonical

theorem isConst (h : Addends (t :: ts)) : t.isConst = false := by
  cases hc : t.isConst
  · rfl
  · obtain ⟨q, rfl⟩ := exists_of_isConst hc
    have hnil := h.constants
    rw [constants_const] at hnil
    cases hnil

theorem tail (h : Addends (t :: ts)) : Addends ts where
  fixed := (List.forall_mem_cons.mp h.fixed).2
  flat := (List.forall_mem_cons.mp h.flat).2
  constants := by
    have hnil := h.constants
    rwa [constants_cons h.isConst] at hnil
  sorted := (List.pairwise_cons.mp h.sorted).2
  nodup := by
    have hnodup := h.nodup
    rw [splits, others_cons h.isConst] at hnodup
    exact (List.nodup_cons.mp hnodup).2

theorem sumOf_eq (h : Addends ts) : sumOf ts = ofTerms ts := by
  rw [Expr.sumOf_eq, flatMap_terms_eq_self h.flat, h.constants, List.sum_nil, arranged, if_pos rfl,
    others_eq_self h.constants, sort_eq_of_sorted h.sorted]

theorem terms_sumOf (h : Addends (t :: ts)) : (sumOf (t :: ts)).terms = t :: ts := by
  rw [h.sumOf_eq]
  cases ts with
  | nil => exact terms_eq_self (h.flat t List.mem_cons_self)
  | cons u ts => rfl

/-- **Some of the terms of a fixed sum give a fixed sum.** -/
theorem fixed_sumOf (h : Addends ts) : Fixed (sumOf ts) := by
  have hcanon := canonical_sumOf h.canonical
  rw [h.sumOf_eq] at hcanon ⊢
  match ts, h with
  | [], _ => exact fixed_const 0
  | [t], h => exact h.fixed t List.mem_cons_self
  | t :: u :: ts, h =>
    have hnotPending : ¬ Pending (.sum (t :: u :: ts)) := fun hpend => by
      cases hpend with
      | likeTerms hdup => exact hdup h.nodup
    refine fixed_of hcanon ?_ fun c hc => ?_
    · exact (evaluated_sum hcanon).trans
        (sumStep_eq_self hcanon (fun t ht => (h.fixed t ht).evaluated_eq) hnotPending)
    · cases hc with
      | term hc => exact h.fixed c hc

/-- **Taking away a term that is a variable** leaves the other terms. -/
theorem evaluated_subtract (h : Addends (symbol n :: ts)) :
    evaluated (subtract (sumOf (symbol n :: ts)) (symbol n)) = sumOf ts := by
  have hmonic := monic_symbol n
  have h0 : (-1 : Rat) ≠ 0 := by decide
  set negated := scaled (-1) (symbol n) with hnegated
  have hfixed : evaluated negated = negated := evaluated_scaled_symbol n h0
  have hnegconst : negated.isConst = false := isConst_scaled hmonic.primitive h0
  have hnegsum : negated.isSum = false := isSum_scaled hmonic.primitive rfl h0
  have hcanonAll : ∀ t ∈ symbol n :: ts ++ [negated], Expr.Canonical t :=
    List.forall_mem_append.mpr
      ⟨h.canonical, List.forall_mem_singleton.mpr (canonical_scaled hmonic.canonical)⟩
  have hflatAll : ∀ t ∈ symbol n :: ts ++ [negated], t.isSum = false :=
    List.forall_mem_append.mpr ⟨h.flat, List.forall_mem_singleton.mpr hnegsum⟩
  have hfixedAll : ∀ t ∈ symbol n :: ts ++ [negated], evaluated t = t :=
    List.forall_mem_append.mpr
      ⟨fun t ht => (h.fixed t ht).evaluated_eq, List.forall_mem_singleton.mpr hfixed⟩
  have hconstants : Expr.constants (symbol n :: ts ++ [negated]) = [] := by
    rw [constants_append, h.constants, constants_cons hnegconst]
    rfl
  have hsubtract : subtract (sumOf (symbol n :: ts)) (symbol n) =
      sumOf (.const 0 :: (symbol n :: ts ++ [negated])) := by
    rw [subtract, negate, ← scaled_eq_productOf hmonic.canonical, ← hnegated,
      sumOf_sumOf h.canonical (List.forall_mem_singleton.mpr (canonical_scaled hmonic.canonical)),
      ← sumOf_append_zero]
    exact sumOf_perm (List.forall_mem_append.mpr ⟨hcanonAll, List.forall_mem_singleton.mpr (.const 0)⟩)
      List.perm_append_comm
  have hsplits : splits (symbol n :: ts ++ [negated]) =
      (symbol n, 1) :: (splits ts ++ [(symbol n, -1)]) := by
    rw [splits, others_eq_self hconstants, splits, others_eq_self h.tail.constants, List.cons_append,
      List.map_cons, List.map_append, List.map_singleton, hnegated, split_scaled hmonic h0]
    rfl
  rw [hsubtract, evaluated_sumOf hcanonAll hflatAll hconstants (by simp), if_pos rfl,
    map_eq_self hfixedAll, flatMap_terms_eq_self hflatAll, ← collect_of_nodup h.tail.canonical h.tail.nodup]
  refine collect_congr hcanonAll h.tail.canonical (fun k _ => ?_) ?_
  · rw [coefficient, hsplits, Tally.total_cons, Tally.total_append, Tally.total_cons, Tally.total_nil,
      coefficient]
    split <;> ring
  · rw [hconstants, h.tail.constants]

end Addends

/-- Taking away the constant of a fixed sum leaves the other terms. -/
theorem Fixed.evaluated_subtract_const {ts : List Expr} {c : Rat} (h : Fixed (.sum ts))
    (hc : Expr.constants ts = [c]) :
    evaluated (subtract (.sum ts) (sumOf [.const c])) = sumOf (others ts) := by
  have heq : subtract (.sum ts) (sumOf [.const c]) = sumOf (others ts) := by
    rw [subtract, (Constructed.const c).sumOf_singleton, negate, productOf_const_const]
    refine sumOf_congr (forall_mem_pair h.canonical (.const _)) ?_ ?_
    · rw [List.flatMap_cons, List.flatMap_singleton, terms_sum, terms_const, others_append,
        others_const, others_nil, List.append_nil, flatMap_terms_eq_self h.addends.flat,
        others_eq_self h.addends.constants]
    · rw [List.flatMap_cons, List.flatMap_singleton, terms_sum, terms_const, constants_append, hc,
        flatMap_terms_eq_self h.addends.flat, h.addends.constants]
      simp
  rw [heq, h.addends.fixed_sumOf.evaluated_eq]

/-! ## Factors of a fixed product -/

/-- Factors, in order and no constants, of which no two are powers of the same base. -/
structure Multiplicands (fs : List Expr) : Prop where
  fixed : ∀ f ∈ fs, Fixed f
  flat : ∀ f ∈ fs, f.isProduct = false
  constants : constants fs = []
  sorted : Sorted fs
  nodup : (Tally.keys (exponentsOf fs)).Nodup

/-- The factors of a fixed product that are no constants. -/
theorem Fixed.multiplicands {fs : List Expr} (h : Fixed (.product fs)) : Multiplicands (others fs) where
  fixed f hf := h.of_operand (.factor (mem_others.mp hf).1)
  flat f hf := h.canonical.flat_factors f (mem_others.mp hf).1
  constants := constants_others fs
  sorted := by
    have hsort := h.canonical.constructed.sort_others_factors
    rw [factors_product] at hsort
    exact hsort ▸ sort_sorted (others fs)
  nodup := by
    rw [exponentsOf, others_eq_self (constants_others fs)]
    exact h.nodup_exponentsOf

namespace Multiplicands

variable {f : Expr} {fs : List Expr} {n : String}

theorem canonical (h : Multiplicands fs) : ∀ f ∈ fs, Expr.Canonical f :=
  fun f hf => (h.fixed f hf).canonical

theorem isConst (h : Multiplicands (f :: fs)) : f.isConst = false := by
  cases hc : f.isConst
  · rfl
  · obtain ⟨q, rfl⟩ := exists_of_isConst hc
    have hnil := h.constants
    rw [constants_const] at hnil
    cases hnil

theorem tail (h : Multiplicands (f :: fs)) : Multiplicands fs where
  fixed := (List.forall_mem_cons.mp h.fixed).2
  flat := (List.forall_mem_cons.mp h.flat).2
  constants := by
    have hnil := h.constants
    rwa [constants_cons h.isConst] at hnil
  sorted := (List.pairwise_cons.mp h.sorted).2
  nodup := by
    have hnodup := h.nodup
    rw [exponentsOf, others_cons h.isConst] at hnodup
    exact (List.nodup_cons.mp hnodup).2

theorem productOf_eq (h : Multiplicands fs) : productOf fs = ofFactors fs := by
  rw [Expr.productOf_eq, flatMap_factors_eq_self h.flat, h.constants, List.prod_nil,
    if_neg one_ne_zero, arranged, if_pos rfl, others_eq_self h.constants, sort_eq_of_sorted h.sorted]

theorem factors_productOf (h : Multiplicands (f :: fs)) : (productOf (f :: fs)).factors = f :: fs := by
  rw [h.productOf_eq]
  cases fs with
  | nil => exact factors_eq_self (h.flat f List.mem_cons_self)
  | cons g fs => rfl

/-- **Some of the factors of a fixed product give a fixed product.** -/
theorem fixed_productOf (h : Multiplicands fs) : Fixed (productOf fs) := by
  have hcanon := canonical_productOf h.canonical
  rw [h.productOf_eq] at hcanon ⊢
  match fs, h with
  | [], _ => exact fixed_const 1
  | [f], h => exact h.fixed f List.mem_cons_self
  | f :: g :: fs, h =>
    have hnotPending : ¬ Pending (.product (f :: g :: fs)) := fun hpend => by
      cases hpend with
      | likeBases hdup => exact hdup h.nodup
      | constantBesideSum hq =>
        have hmem := mem_constants.mpr hq
        rw [h.constants] at hmem
        cases hmem
    refine fixed_of hcanon ?_ fun c hc => ?_
    · exact (evaluated_product hcanon).trans
        (productStep_eq_self hcanon (fun f hf => (h.fixed f hf).evaluated_eq)
          (fun f hf => (h.fixed f hf).resolved) hnotPending)
    · cases hc with
      | factor hc => exact h.fixed c hc

/-- The powers of the bases are the factors. -/
theorem powers_perm (h : Multiplicands fs) : (Bases.ofFactors fs).powers.Perm fs := by
  have hperm := powers_ofFactors_perm h.canonical (fun f hf =>
    raised_splitExponent (mem_others.mp hf).2 (h.fixed f (mem_others.mp hf).1).resolved) h.nodup
  rwa [others_eq_self h.constants] at hperm

/-- A step that leads to the same powers and no constant. -/
theorem productStep_eq (h : Multiplicands fs) {gs : List Expr}
    (hconst : (visitedBases evaluated gs).constant = 1)
    (hpowers : (visitedBases evaluated gs).powers = (Bases.ofFactors fs).powers) :
    productStep evaluated gs = productOf fs := by
  rw [productStep, if_neg (hconst ▸ one_ne_zero), Bases.absorbed, if_pos hconst, Bases.product_eq,
    hconst, productOf_one_cons, hpowers]
  exact productOf_perm (fun f hf => h.canonical f (h.powers_perm.mem_iff.mp hf)) h.powers_perm

/-- **Cancelling a factor that is a variable** leaves the other factors. -/
theorem evaluated_divide (h : Multiplicands (symbol n :: fs)) :
    evaluated (divide (productOf (symbol n :: fs)) (symbol n)) = productOf fs := by
  set reciprocal := inverse (symbol n) with hreciprocal
  have hcanon : Expr.Canonical reciprocal := canonical_inverse (.var n)
  have hcanonAll : ∀ f ∈ symbol n :: fs ++ [reciprocal], Expr.Canonical f :=
    List.forall_mem_append.mpr ⟨h.canonical, List.forall_mem_singleton.mpr hcanon⟩
  have hflatAll : ∀ f ∈ symbol n :: fs ++ [reciprocal], f.isProduct = false :=
    List.forall_mem_append.mpr ⟨h.flat, List.forall_mem_singleton.mpr rfl⟩
  have hfixedAll : ∀ f ∈ symbol n :: fs ++ [reciprocal], evaluated f = f :=
    List.forall_mem_append.mpr ⟨fun f hf => (h.fixed f hf).evaluated_eq,
      List.forall_mem_singleton.mpr (evaluated_inverse_symbol n)⟩
  have hconstants : Expr.constants (symbol n :: fs ++ [reciprocal]) = [] := by
    rw [constants_append, h.constants]
    rfl
  have hdivide : divide (productOf (symbol n :: fs)) (symbol n) =
      productOf (.const 1 :: (symbol n :: fs ++ [reciprocal])) := by
    rw [divide, productOf_productOf h.canonical (List.forall_mem_singleton.mpr hcanon),
      productOf_one_cons]
  have hbases : visitedBases evaluated (.const 1 :: (symbol n :: fs ++ [reciprocal])) =
      Bases.ofFactors (symbol n :: fs ++ [reciprocal]) := by
    rw [visitedBases_one (evaluated_const 1), visitedBases, map_eq_self hfixedAll,
      flatMap_factors_eq_self hflatAll]
  have hexponents : exponentsOf (symbol n :: fs ++ [reciprocal]) =
      (symbol n, 1) :: (exponentsOf fs ++ [(symbol n, -1)]) := by
    rw [exponentsOf, others_eq_self hconstants, exponentsOf, others_eq_self h.tail.constants,
      List.cons_append, List.map_cons, List.map_append]
    rfl
  rw [hdivide, evaluated_productOf hcanonAll hflatAll hconstants one_ne_zero (by simp)]
  refine h.tail.productStep_eq ?_ ?_
  · rw [hbases, Bases.ofFactors_eq, hconstants, List.prod_nil]
  · rw [hbases]
    refine Bases.powers_ofFactors_congr hcanonAll h.tail.canonical fun k => ?_
    rw [hexponents, Tally.total_cons, Tally.total_append, Tally.total_cons, Tally.total_nil]
    split <;> ring

end Multiplicands

/-- Cancelling the constant of a fixed product leaves the other factors. -/
theorem Fixed.evaluated_divide_const {fs : List Expr} {c : Rat} (h : Fixed (.product fs))
    (hc : Expr.constants fs = [c]) :
    evaluated (divide (.product fs) (productOf [.const c])) = productOf (others fs) := by
  have hfs := h.multiplicands
  obtain ⟨h0, h1⟩ : c ≠ 0 ∧ c ≠ 1 := by
    rcases h.canonical.constructed.constants_factors rfl with hnil | ⟨d, h0, h1, hd⟩
    · rw [factors_product, hc] at hnil
      cases hnil
    · rw [factors_product, hc] at hd
      cases hd
      exact ⟨h0, h1⟩
  set reciprocal := inverse (.const c) with hreciprocal
  have hcanon : Expr.Canonical reciprocal := canonical_inverse (.const c)
  have heval : evaluated reciprocal = .const c⁻¹ := ((Computes.const c).inverse h0).evaluated
  have hcanonAll : ∀ f ∈ others fs ++ [reciprocal], Expr.Canonical f :=
    List.forall_mem_append.mpr ⟨hfs.canonical, List.forall_mem_singleton.mpr hcanon⟩
  have hflatAll : ∀ f ∈ others fs ++ [reciprocal], f.isProduct = false :=
    List.forall_mem_append.mpr ⟨hfs.flat, List.forall_mem_singleton.mpr rfl⟩
  have hconstants : Expr.constants (others fs ++ [reciprocal]) = [] := by
    rw [constants_append, hfs.constants]
    rfl
  have hdivide : divide (.product fs) (productOf [.const c]) =
      productOf (.const c :: (others fs ++ [reciprocal])) := by
    have hleft : [Expr.product fs, reciprocal].flatMap factors = fs ++ [reciprocal] := rfl
    have hright : (Expr.const c :: (others fs ++ [reciprocal])).flatMap factors =
        .const c :: (others fs ++ [reciprocal]) :=
      flatMap_factors_eq_self (List.forall_mem_cons.mpr ⟨rfl, hflatAll⟩)
    rw [productOf_singleton_const, divide]
    refine productOf_congr (forall_mem_pair h.canonical hcanon) ?_ ?_
    · rw [hleft, hright, others_const, others_append, others_append, others_eq_self hfs.constants]
    · rw [hleft, hright, constants_const, constants_append, hc, hconstants]
      rfl
  have hvisited : visitedBases evaluated (.const c :: (others fs ++ [reciprocal])) =
      Bases.ofFactors (.const c :: (others fs ++ [.const c⁻¹])) := by
    rw [visitedBases, List.map_cons, List.map_append, map_evaluated hfs.fixed, List.map_singleton,
      heval, evaluated_const, flatMap_factors_eq_self]
    exact List.forall_mem_cons.mpr ⟨rfl, List.forall_mem_append.mpr
      ⟨hfs.flat, List.forall_mem_singleton.mpr rfl⟩⟩
  rw [hdivide, evaluated_productOf hcanonAll hflatAll hconstants h0 (by
    have hne := List.length_pos_of_ne_nil (h.canonical.constructed.others_factors_ne_nil rfl)
    rw [factors_product] at hne
    rw [if_neg h1, List.length_append, List.length_append, List.length_singleton]
    omega)]
  refine hfs.productStep_eq ?_ ?_
  · rw [hvisited, Bases.ofFactors_eq, constants_const, constants_append, hfs.constants]
    simpa using mul_inv_cancel₀ h0
  · rw [hvisited, Bases.powers, Bases.powers, Bases.ofFactors_eq, Bases.ofFactors_eq, exponentsOf,
      others_const, others_append, others_const, others_nil, List.append_nil, exponentsOf]

/-! ## Roots -/

/-- **The root of a fixed power** with a variable as exponent is the base. -/
theorem Fixed.evaluated_root {b : Expr} {n : String} (h : Fixed (Expr.power b (symbol n))) :
    evaluated (Expr.power (Expr.power b (symbol n)) (inverse (symbol n))) = b := by
  have hinverse : Expr.Canonical (inverse (symbol n)) := canonical_inverse (.var n)
  have hone : evaluated (productOf [inverse (symbol n), symbol n]) = .const 1 := by
    have hswap : productOf [inverse (symbol n), symbol n] = divide (symbol n) (symbol n) :=
      productOf_perm (forall_mem_pair hinverse (.var n)) (List.Perm.swap _ _ [])
    rw [hswap]
    exact evaluated_quotient n one_ne_zero
  rw [evaluated_power (h.canonical.power hinverse), powerStep, h.evaluated_eq]
  dsimp only [Expr.power]
  rw [evaluated_inverse_symbol, hone]
  unfold simplePower
  split
  · next h0 => exact (eq_const_of_isZero h0).symm
  · split
    · next h1 => exact (eq_const_of_isOne h1).symm
    · rfl

end Evaluator

end SymbolicAlgebra
