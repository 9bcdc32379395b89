import Mathlib.Algebra.Module.Submodule.Lattice
import Mathlib.Data.List.Permutation
import SymbolicAlgebra.Proofs.Collection
import SymbolicAlgebra.Proofs.Congruence
import SymbolicAlgebra.Proofs.Separation

/-!
# Like terms

A sum with its like terms combined is a normal form of the list of its terms: two lists are collected
to equal sums iff their constants have the same total and each part has the same total of
coefficients. The part of a term is what is left without its constant factor (`splitCoefficient`).

From the lists to the sums: the tallies have the same totals, so they are the same up to keys that
compare equal (`Tally.forall₂_of_total`), and where functions of one name and arity are of one kind
these are equal. Back from the sums: their terms are the like terms again
(`splits_terms_collect_perm`), unless a term is a multiple of a sum, whose terms would be mixed with
the others.

Results:
* `beq_collect_of_amounts`, `amountOf_terms_collect`: the totals determine the collected sum, and are
  read off it.
* `combined_collect`: no two collected terms have equal parts, and no coefficient is `0`.
* `collect_normalForm`: collecting is a normal form.
-/

namespace SymbolicAlgebra.Expr

/-! ## Parts of terms -/

theorem splits_append (ts us : List Expr) : splits (ts ++ us) = splits ts ++ splits us := by
  rw [splits, others_append, List.map_append]
  rfl

/-- The part of a term calls what the term calls. -/
theorem calls_splitCoefficient {t : Expr} (ht : Constructed t) :
    ∀ f ∈ (splitCoefficient t).2.calls, f ∈ t.calls := by
  intro f hf
  rw [splitCoefficient_eq ht] at hf
  obtain ⟨g, hg, hfg⟩ := mem_callsList.mp (calls_productOf f hf)
  exact calls_of_mem_factors (mem_others.mp hg).1 f hfg

theorem Coherent.parts {ts : List Expr} (h : Coherent ts) : Coherent (Tally.keys (splits ts)) := by
  refine h.of_calls fun k hk => ?_
  obtain ⟨p, hp, rfl⟩ := List.mem_map.mp hk
  refine ⟨(primitive_splits h.constructed p hp).1.constructed, fun f hf => ?_⟩
  obtain ⟨t, ht, rfl⟩ := List.mem_map.mp hp
  have hmem := (mem_others.mp ht).1
  exact calls_subset hmem f (calls_splitCoefficient (h.constructed t hmem) f hf)

theorem Coherent.subset {xs ys : List Expr} (h : Coherent xs) (hys : ys ⊆ xs) : Coherent ys :=
  h.of_calls fun y hy => ⟨h.constructed y (hys hy), calls_subset (hys hy)⟩

theorem Coherent.compare_eq_iff {xs : List Expr} (h : Coherent xs) {k l : Expr} (hk : k ∈ xs)
    (hl : l ∈ xs) : compare k l = .eq ↔ (k == l) = true :=
  compare_eq_iff_beq (h.constructed k hk) (h.constructed l hl)
    (h.kinds.mono (calls_subset hk) (calls_subset hl))

/-- Where the order tells apart what equality tells apart, the totals are those of equal parts. -/
theorem Coherent.total_eq_amountOf {xs : List Expr} (h : Coherent xs) {k : Expr} (hk : k ∈ xs)
    {ps : List (Expr × Rat)} (hps : ∀ p ∈ ps, p.1 ∈ xs) :
    Tally.total k ps = Tally.amountOf k ps :=
  Tally.total_eq_amountOf fun p hp => by rw [h.compare_eq_iff hk (hps p hp), BEq.comm]

/-- Equal terms have equal parts and the same coefficient. -/
theorem splitCoefficient_beq {t u : Expr} (ht : Constructed t) (hu : Constructed u)
    (h : (t == u) = true) :
    ((splitCoefficient t).2 == (splitCoefficient u).2) = true ∧
      (splitCoefficient t).1 = (splitCoefficient u).1 := by
  obtain ⟨hconstants, hothers⟩ := operands_of_beqList (factors_beq t u h)
  rw [splitCoefficient_eq ht, splitCoefficient_eq hu, hconstants]
  exact ⟨productOf_beq hothers, rfl⟩

theorem scaled_beq {q : Rat} {k l : Expr} (h : (k == l) = true) :
    (scaled q k == scaled q l) = true := by
  rw [scaled, scaled]
  split
  · exact h
  · exact productOf_beq (beqList_iff.mpr (.cons (beq_refl _) (.cons h .nil)))

/-! ## Terms that are no multiples of sums -/

/-- Neither a sum nor a constant multiple of one. -/
structure IsTerm (t : Expr) : Prop where
  notSum : t.isSum = false
  notMultiple : ∀ (q : Rat) (s : Expr), q ≠ 0 → Constructed s → s.isSum = true →
    t ≠ productOf [.const q, s]

/-- It shows in the part of the term. -/
theorem isTerm_iff {t : Expr} (ht : Constructed t) :
    IsTerm t ↔ (splitCoefficient t).2.isSum = false := by
  constructor
  · intro h
    cases hc : t.isConst
    · obtain ⟨hrest, h0, heq⟩ := ht.scaled_split hc
      by_contra hs
      rw [Bool.not_eq_false] at hs
      rw [scaled] at heq
      split at heq
      · rw [heq, h.notSum] at hs
        cases hs
      · exact h.notMultiple _ _ h0 hrest.constructed hs heq.symm
    · obtain ⟨q, rfl⟩ := exists_of_isConst hc
      rfl
  · intro h
    have primitive {s : Expr} (hs : Constructed s) (hsum : s.isSum = true) : Primitive s := by
      obtain ⟨ts, rfl⟩ := exists_of_isSum hsum
      exact ⟨hs, rfl, rfl⟩
    have split_of_eq {q : Rat} {s : Expr} (h0 : q ≠ 0) (hs : Constructed s) (hsum : s.isSum = true)
        (heq : t = scaled q s) : False := by
      rw [heq, (primitive hs hsum).split_scaled h0, hsum] at h
      cases h
    refine ⟨Bool.eq_false_iff.mpr fun hsum => split_of_eq one_ne_zero ht hsum rfl, ?_⟩
    intro q s h0 hs hsum heq
    refine split_of_eq h0 hs hsum (heq.trans ?_)
    rw [scaled]
    split
    · rename_i h1
      rw [h1, Evaluator.productOf_one_cons, hs.productOf_singleton]
    · rfl

theorem isSum_likeTerms {ts : List Expr} (h : ∀ t ∈ ts, Constructed t) (hterms : ∀ t ∈ ts, IsTerm t) :
    ∀ p ∈ likeTerms ts, p.1.isSum = false := by
  intro p hp
  obtain ⟨r, hr, heq⟩ := List.mem_map.mp (of_mem_likeTerms hp).1
  obtain ⟨t, ht, rfl⟩ := List.mem_map.mp hr
  have hmem := (mem_others.mp ht).1
  rw [← heq]
  exact (isTerm_iff (h t hmem)).mp (hterms t hmem)

/-! ## From the totals to the sum -/

/-- The like terms with equal totals are equal one by one. -/
theorem likeTerms_related {ts us : List Expr} (h : Coherent (ts ++ us))
    (hamounts : ∀ k, Tally.amountOf k (splits ts) = Tally.amountOf k (splits us)) :
    List.Forall₂ (fun p q => (p.1 == q.1) = true ∧ p.2 = q.2) (likeTerms ts) (likeTerms us) := by
  have hparts := h.parts
  rw [splits_append, Tally.keys, List.map_append] at hparts
  have hleft : ∀ p ∈ splits ts, p.1 ∈ Tally.keys (splits ts) ++ Tally.keys (splits us) :=
    fun p hp => List.mem_append_left _ (List.mem_map_of_mem hp)
  have hright : ∀ p ∈ splits us, p.1 ∈ Tally.keys (splits ts) ++ Tally.keys (splits us) :=
    fun p hp => List.mem_append_right _ (List.mem_map_of_mem hp)
  have hrelated := Tally.forall₂_of_total (ascending_likeTerms ts) (ascending_likeTerms us)
    (fun p hp => (of_mem_likeTerms hp).2) (fun p hp => (of_mem_likeTerms hp).2) fun k hk => by
      have hmem : k ∈ Tally.keys (splits ts) ++ Tally.keys (splits us) := by
        rcases List.mem_append.mp hk with hk | hk <;> obtain ⟨p, hp, rfl⟩ := List.mem_map.mp hk
        · exact List.mem_append_left _ (of_mem_likeTerms hp).1
        · exact List.mem_append_right _ (of_mem_likeTerms hp).1
      rw [total_likeTerms, total_likeTerms, coefficient, coefficient,
        hparts.total_eq_amountOf hmem hleft, hparts.total_eq_amountOf hmem hright, hamounts k]
  obtain ⟨hlength, hzip⟩ := List.forall₂_iff_zip.mp hrelated
  refine List.forall₂_iff_zip.mpr ⟨hlength, fun {p q} hpq => ?_⟩
  obtain ⟨hp, hq⟩ := List.of_mem_zip hpq
  exact ⟨(hparts.compare_eq_iff (List.mem_append_left _ (of_mem_likeTerms hp).1)
    (List.mem_append_right _ (of_mem_likeTerms hq).1)).mp (hzip hpq).1, (hzip hpq).2⟩

/-- **The totals determine the collected sum.** -/
theorem beq_collect_of_amounts {ts us : List Expr} (h : Coherent (ts ++ us))
    (hconstants : (constants ts).sum = (constants us).sum)
    (hamounts : ∀ k, Tally.amountOf k (splits ts) = Tally.amountOf k (splits us)) :
    (collect ts == collect us) = true := by
  rw [collect_eq, collect_eq, hconstants]
  refine sumOf_beq (beqList_append (beqList_iff.mpr ?_) (beqList_refl fun x _ => beq_refl x))
  rw [List.forall₂_map_left_iff, List.forall₂_map_right_iff]
  refine (likeTerms_related h hamounts).imp fun p q hpq => ?_
  rw [hpq.2]
  exact scaled_beq hpq.1

/-! ## From the sum to the totals -/

/-- The parts of equal sums have the same totals. -/
theorem totals_of_beq {e f : Expr} (he : Constructed e) (hf : Constructed f)
    (h : (e == f) = true) :
    (constants e.terms).sum = (constants f.terms).sum ∧
      ∀ k, Tally.amountOf k (splits e.terms) = Tally.amountOf k (splits f.terms) := by
  obtain ⟨hconstants, hothers⟩ := operands_of_beqList (terms_beq e f h)
  refine ⟨by rw [hconstants], fun k => Tally.amountOf_of_forall₂ ?_ k⟩
  obtain ⟨hlength, hzip⟩ := List.forall₂_iff_zip.mp (beqList_iff.mp hothers)
  rw [splits, splits, List.forall₂_map_left_iff, List.forall₂_map_right_iff]
  refine List.forall₂_iff_zip.mpr ⟨hlength, fun {t u} htu => ?_⟩
  obtain ⟨ht, hu⟩ := List.of_mem_zip htu
  exact splitCoefficient_beq (he.of_terms t (mem_others.mp ht).1)
    (hf.of_terms u (mem_others.mp hu).1) (hzip htu)

/-- Leaving out what cancels does not change the totals. -/
theorem amountOf_likeTerms {ts : List Expr} (h : Coherent ts) (k : Expr) :
    Tally.amountOf k (likeTerms ts) = Tally.amountOf k (splits ts) := by
  by_cases hk : ∃ l ∈ Tally.keys (splits ts), (k == l) = true
  · obtain ⟨l, hl, hkl⟩ := hk
    rw [Tally.amountOf_congr hkl, Tally.amountOf_congr hkl,
      ← h.parts.total_eq_amountOf hl fun p hp => (of_mem_likeTerms hp).1,
      ← h.parts.total_eq_amountOf hl fun p hp => List.mem_map_of_mem hp, total_likeTerms,
      coefficient]
  · have hne : ∀ p : Expr × Rat, p.1 ∈ Tally.keys (splits ts) → (p.1 == k) = false :=
      fun p hp => Bool.eq_false_iff.mpr fun heq => hk ⟨p.1, hp, BEq.symm heq⟩
    rw [Tally.amountOf_eq_zero fun p hp => hne p (of_mem_likeTerms hp).1,
      Tally.amountOf_eq_zero fun p hp => hne p (List.mem_map_of_mem hp)]

/-- **The totals are read off the collected sum.** -/
theorem amountOf_terms_collect {ts : List Expr} (h : Coherent ts) (hterms : ∀ t ∈ ts, IsTerm t)
    (k : Expr) :
    Tally.amountOf k (splits (collect ts).terms) = Tally.amountOf k (splits ts) := by
  rw [Tally.amountOf_perm (splits_terms_collect_perm h.constructed
    (isSum_likeTerms h.constructed hterms)), amountOf_likeTerms h]

/-! ## The collected sum -/

/-- Like terms are combined: no two terms have equal parts, no coefficient is `0`, and there is one
constant at most, which is `0` in the empty sum only. -/
structure Combined (e : Expr) : Prop where
  distinct : (splits e.terms).Pairwise fun p q => (p.1 == q.1) = false
  nonzero : ∀ p ∈ splits e.terms, p.2 ≠ 0
  constant : constants e.terms = [] ∨ ∃ c, constants e.terms = [c] ∧ (c = 0 → e = zero)

/-- **Collecting combines like terms.** -/
theorem combined_collect {ts : List Expr} (h : ∀ t ∈ ts, Constructed t)
    (hterms : ∀ t ∈ ts, IsTerm t) : Combined (collect ts) := by
  have hperm := splits_terms_collect_perm h (isSum_likeTerms h hterms)
  have hsymm {p q : Expr × Rat} (hpq : (p.1 == q.1) = false) : (q.1 == p.1) = false := by
    rwa [BEq.comm]
  refine ⟨(hperm.pairwise_iff hsymm).mpr ((ascending_likeTerms ts).imp fun {p q} hlt => ?_),
    fun p hp => (of_mem_likeTerms (hperm.mem_iff.mp hp)).2,
    (constructed_collect h).constants_terms⟩
  rw [Bool.eq_false_iff]
  intro heq
  rw [compare_of_beq heq] at hlt
  cases hlt

/-- **Collecting like terms is a normal form.** Let functions of one name and arity be of one kind and
let no term be a sum or a multiple of one. Then two lists are collected to equal sums iff their
constants have the same total and each part has the same total of coefficients. In the collected sum
like terms are combined, and the order of the list does not matter. -/
theorem collect_normalForm {ts us : List Expr} (h : Coherent (ts ++ us))
    (hterms : ∀ t ∈ ts ++ us, IsTerm t) :
    ((collect ts == collect us) = true ↔
      (constants ts).sum = (constants us).sum ∧
        ∀ k, Tally.amountOf k (splits ts) = Tally.amountOf k (splits us)) ∧
    Combined (collect ts) ∧ (ts.Perm us → (collect ts == collect us) = true) := by
  have hts : Coherent ts := h.subset (List.subset_append_left ts us)
  have hus : Coherent us := h.subset (List.subset_append_right ts us)
  have htsTerms : ∀ t ∈ ts, IsTerm t := fun t ht => hterms t (List.mem_append_left us ht)
  have husTerms : ∀ u ∈ us, IsTerm u := fun u hu => hterms u (List.mem_append_right ts hu)
  refine ⟨⟨fun heq => ?_, fun ⟨hconstants, hamounts⟩ =>
    beq_collect_of_amounts h hconstants hamounts⟩,
    combined_collect hts.constructed htsTerms, fun hperm => ?_⟩
  · obtain ⟨hconstants, hamounts⟩ := totals_of_beq (constructed_collect hts.constructed)
      (constructed_collect hus.constructed) heq
    rw [constants_terms_collect hts.constructed (isSum_likeTerms hts.constructed htsTerms),
      constants_terms_collect hus.constructed (isSum_likeTerms hus.constructed husTerms)]
      at hconstants
    refine ⟨hconstants, fun k => ?_⟩
    rw [← amountOf_terms_collect hts htsTerms, ← amountOf_terms_collect hus husTerms, hamounts k]
  · exact beq_collect_of_amounts h (constants_perm hperm).sum_eq
      fun k => Tally.amountOf_perm ((others_perm hperm).map _) k

/-- The sine of `x` and twice the sine, a variable and constants are collected like the variable,
three times the sine and one constant. -/
theorem collect_normalForm_sine :
    let twice : Expr := .product [.const 2, Tally.builtinSine]
    let thrice : Expr := .product [.const 3, Tally.builtinSine]
    let ts : List Expr := [Tally.builtinSine, .const 3, twice, .symbol "x", .const (-1)]
    let us : List Expr := [.symbol "x", thrice, .const 2]
    (collect ts == collect us) = true ∧
      (∀ k, Tally.amountOf k (splits ts) = Tally.amountOf k (splits us)) ∧
      Combined (collect ts) := by
  intro twice thrice ts us
  have hx : Proper (.symbol "x") := .symbol "x"
  have hsine : Proper Tally.builtinSine := .call rfl (List.forall_mem_singleton.mpr hx)
  have hproduct (q : Rat) : Proper (productOf [.const q, Tally.builtinSine]) :=
    proper_productOf (forall_mem_pair (.const q) hsine)
  have htwice : Proper twice := by
    rw [show twice = productOf [.const 2, Tally.builtinSine] by cbv]
    exact hproduct 2
  have hthrice : Proper thrice := by
    rw [show thrice = productOf [.const 3, Tally.builtinSine] by cbv]
    exact hproduct 3
  have hproper : ∀ t ∈ ts ++ us, Proper t := by
    simp [ts, us, hx, hsine, htwice, hthrice, Proper.const]
  have hbuiltIn : ∀ f ∈ callsList (ts ++ us), f.isBuiltIn = true := by
    intro f hf
    obtain ⟨t, ht, hft⟩ := mem_callsList.mp hf
    exact isBuiltIn_of_mem_calls (hproper t ht).builtIn f hft
  have hparts : ∀ t ∈ ts ++ us, (splitCoefficient t).2.isSum = false := by
    simp only [List.cons_append, List.nil_append, List.forall_mem_cons, ts, us]
    exact ⟨by cbv, by cbv, by cbv, by cbv, by cbv, by cbv, by cbv, by cbv, List.forall_mem_nil _⟩
  obtain ⟨hiff, hcombined, -⟩ := @collect_normalForm ts us
    ⟨fun t ht => (hproper t ht).constructed, sameKinds_of_isBuiltIn hbuiltIn hbuiltIn⟩
    fun t ht => (isTerm_iff (hproper t ht).constructed).mpr (hparts t ht)
  have hequal : (collect ts == collect us) = true := by cbv
  exact ⟨hequal, (hiff.mp hequal).2, hcombined⟩

end SymbolicAlgebra.Expr
