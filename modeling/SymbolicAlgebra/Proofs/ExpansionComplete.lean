import SymbolicAlgebra.Proofs.ExpansionValue
import SymbolicAlgebra.Proofs.Idempotence

/-!
# What is left after expansion

An expression is fully expanded when no sum occurs in its terms and like terms are collected. Products
of terms without sums are evaluated without sums, so multiplying out expressions with such terms gives
a fully expanded expression, and expanding it again changes nothing.

Not every polynomial is expanded fully. The base of a power is not expanded before it is multiplied
out, a power with an exponent that is not above one or does not fit into 64 bits stays, and so does a
product when its sums cancel down to single terms. `Expandable` says that none of this happens.

Results:
* `sumFree_evaluated`: evaluation brings in no sums.
* `fullyExpanded_distributed`: multiplying out terms without sums expands fully.
* `fullyExpanded_expandPlain`: an expandable expression is expanded fully.
* `expand_expand`: expanding it again changes nothing.
-/

namespace SymbolicAlgebra.Evaluator

open Expr

/-! ## Expressions without sums -/

/-- No sum occurs in the expression. -/
abbrev SumFree (e : Expr) : Prop := Throughout (fun c => c.isSum = false) e

theorem sumFree_const (q : Rat) : SumFree (.const q) :=
  throughout_const rfl

theorem SumFree.terms {e : Expr} (h : SumFree e) : e.terms = [e] :=
  terms_eq_self h.self

theorem sumFree_productOf {xs : List Expr} (hc : ∀ x ∈ xs, Expr.Canonical x)
    (h : ∀ x ∈ xs, SumFree x) : SumFree (productOf xs) :=
  throughout_productOf (fun _ => rfl) (fun _ => rfl) hc h

theorem sumFree_simplePower {b x : Expr} (hb : SumFree b) (hx : SumFree x) :
    SumFree (simplePower b x) := by
  obtain ⟨q, hq⟩ | ⟨-, hb'⟩ | ⟨hpow, -⟩ := simplePower_cases b x
  · exact hq ▸ sumFree_const q
  · exact hb'.symm ▸ hb
  · exact hpow ▸ throughout_power rfl hb hx

theorem sumFree_splitExponent {f : Expr} (h : SumFree f) : SumFree (splitExponent f).1 := by
  unfold splitExponent
  split
  · exact h.of_operand .left
  · exact h

theorem sumFree_raised {k : Expr} (x : Rat) (hk : SumFree k) : SumFree (raised k x) := by
  unfold raised
  split
  · exact hk
  · exact throughout_power rfl hk (sumFree_const x)

/-- Where no base contains a sum, none takes over the constant. -/
theorem sumFree_productStep {v : Expr → Expr} {fs : List Expr}
    (hc : ∀ f ∈ fs, Expr.Canonical (v f)) (h : ∀ f ∈ fs, SumFree (v f)) :
    SumFree (productStep v fs) := by
  have hflat : ∀ g ∈ (fs.map v).flatMap factors, Expr.Canonical g ∧ SumFree g := by
    intro g hg
    obtain ⟨r, hr, hgr⟩ := List.mem_flatMap.mp hg
    obtain ⟨f, hf, rfl⟩ := List.mem_map.mp hr
    exact ⟨(hc f hf).of_factors g hgr, (h f hf).of_factors g hgr⟩
  have hcanon : (visitedBases v fs).Canonical := Bases.canonical_ofFactors fun g hg => (hflat g hg).1
  have hbases : ∀ k ∈ Tally.keys (visitedBases v fs).exponents.entries, SumFree k := by
    intro k hk
    rw [visitedBases, Bases.ofFactors_eq,
      Tally.mem_keys_ofList (canonical_keys_exponentsOf fun g hg => (hflat g hg).1)] at hk
    obtain ⟨p, hp, rfl⟩ := List.mem_map.mp hk
    obtain ⟨f, hf, rfl⟩ := List.mem_map.mp hp
    exact sumFree_splitExponent (hflat f (mem_others.mp hf).1).2
  have habsorbed : (visitedBases v fs).absorbed v = visitedBases v fs := by
    unfold Bases.absorbed
    split
    · rfl
    · split
      · rfl
      · next base x scale habs =>
        obtain ⟨hmem, hsum, -⟩ := Bases.absorber?_eq_some habs
        rw [(hbases base (List.mem_map_of_mem hmem)).self] at hsum
        cases hsum
  unfold productStep
  split
  · exact sumFree_const 0
  · rw [habsorbed, Bases.product_eq]
    refine sumFree_productOf (List.forall_mem_cons.mpr ⟨.const _, hcanon.powers⟩)
      (List.forall_mem_cons.mpr ⟨sumFree_const _, fun f hf => ?_⟩)
    obtain ⟨p, hp, rfl⟩ := List.mem_map.mp hf
    exact sumFree_raised p.2 (hbases p.1 (List.mem_map_of_mem (List.mem_filter.mp hp).1))

theorem sumFree_boolean (t : Bool) : SumFree (.boolean t) := by
  cases t
  · exact sumFree_const 0
  · exact sumFree_const 1

/-- The visits of a power are of expressions without sums. -/
theorem sumFree_powerStep {b x : Expr} (he : Expr.Canonical (Expr.power b x))
    (hx : SumFree x) (h : ∀ e, SubVisit evaluated e (Expr.power b x) → SumFree e →
      SumFree (evaluated e)) (hb : SumFree b) : SumFree (powerStep evaluated b x) := by
  have hcanon := fun e (h : SubVisit evaluated e (Expr.power b x)) =>
    canonical_evaluated (h.lower_evaluated he).1
  have hbase := h b .left hb
  have hexponent := h x .right hx
  unfold powerStep
  split
  · next fs heq =>
    have hproduct : Expr.Canonical (.product fs) := heq ▸ hcanon b .left
    rw [heq] at hbase
    refine h _ (.distributed heq) (sumFree_productOf (canonical_powers hproduct he.of_binary.2)
      (List.forall_mem_map.mpr fun f hf => ?_))
    exact throughout_power rfl (hbase.of_factors f hf) hx
  · next b' x' heq =>
    have hpower := hcanon b .left
    rw [heq] at hbase hpower
    refine sumFree_simplePower (hbase.of_operand .left) (h _ (.exponents heq)
      (sumFree_productOf (forall_mem_pair (hcanon x .right) hpower.of_binary.2)
        (forall_mem_pair hexponent (hbase.of_operand .right))))
  · exact sumFree_simplePower hbase hexponent

/-- **Evaluation brings in no sums.** -/
theorem sumFree_evaluated {f : Expr} (hf : Expr.Canonical f) (h : SumFree f) :
    SumFree (evaluated f) := by
  refine evaluated_induction (motive := fun f => SumFree f → SumFree (evaluated f))
    (fun f hf ih h => ?_) hf h
  have hcanon := fun e (h : SubVisit evaluated e f) =>
    canonical_evaluated (h.lower_evaluated hf).1
  cases hf with
  | const q => exact h
  | var n => exact h
  | sum _ _ => exact absurd h.self Bool.noConfusion
  | @product fs hfs heq =>
    rw [evaluated_product (.product hfs heq)]
    exact sumFree_productStep (fun g hg => hcanon g (.factor hg)) fun g hg =>
      ih g (.factor hg) (h.of_operand (.factor hg))
  | @binary op l r hsub hl hr =>
    have hleft := h.of_operand .left
    have hright := h.of_operand .right
    by_cases hop : op = .power
    · subst hop
      rw [← Expr.power, evaluated_power (.binary hsub hl hr)]
      exact sumFree_powerStep (.binary hsub hl hr) hright ih hleft
    · rw [evaluated_binary hop (.binary hsub hl hr), binaryStep]
      split
      · exact sumFree_boolean _
      · refine throughout_of rfl fun c hc => ?_
        cases hc with
        | left => exact ih l .left hleft
        | right => exact ih r .right hright
  | @not a ha =>
    rw [evaluated_not (.not ha), notStep]
    split
    · exact sumFree_boolean _
    · split
      · exact sumFree_boolean _
      · refine throughout_of rfl fun c hc => ?_
        cases hc with
        | negated => exact ih a .operand (h.of_operand .negated)
  | @set ms hms heq =>
    rw [evaluated_set (.set hms heq)]
    refine throughout_of rfl fun c hc => ?_
    cases hc with
    | member hm =>
      obtain ⟨a, ha, rfl⟩ := List.mem_map.mp (mem_sort.mp ((dropRepeats_sublist _).subset hm))
      exact ih a (.member ha) (h.of_operand (.member ha))

/-! ## Expanded forms -/

/-- No sum occurs in the terms. -/
def SumFreeTerms (e : Expr) : Prop :=
  ∀ t ∈ e.terms, SumFree t

/-- No sum occurs in the terms, and like terms are collected. -/
structure FullyExpanded (e : Expr) : Prop where
  canonical : Expr.Canonical e
  sumFree : SumFreeTerms e
  nodup : (Tally.keys (splits e.terms)).Nodup

theorem fullyExpanded_of_sumFree {e : Expr} (hc : Expr.Canonical e) (h : SumFree e) :
    FullyExpanded e := by
  refine ⟨hc, h.of_terms, ?_⟩
  rw [h.terms, Tally.keys, splits, List.map_map]
  exact (List.nodup_singleton e).sublist List.filter_sublist |>.map_on fun x hx y hy _ => by
    rw [List.mem_singleton.mp (mem_others.mp hx).1, List.mem_singleton.mp (mem_others.mp hy).1]

/-- Collecting the terms again changes nothing. -/
theorem FullyExpanded.collectAll_eq {e : Expr} (h : FullyExpanded e) : collect e.terms = e :=
  (collect_of_nodup h.canonical.of_terms h.nodup).trans h.canonical.sumOf_terms

theorem fullyExpanded_collectAll {xs : List Expr} (h : ∀ y ∈ xs, FullyExpanded y) :
    FullyExpanded (collectAll xs) := by
  have hcanon := fun t ht => (canonical_flatMap_terms (fun y hy => (h y hy).canonical) t ht).1
  have hfree : ∀ t ∈ xs.flatMap terms, SumFree t := by
    intro t ht
    obtain ⟨y, hy, hty⟩ := List.mem_flatMap.mp ht
    exact (h y hy).sumFree t hty
  refine ⟨canonical_collect hcanon,
    throughout_terms_collect (fun _ => rfl) (fun _ => rfl) hcanon hfree, ?_⟩
  have hperm := splits_terms_collect_perm (constructed_of_canonical hcanon) fun p hp =>
    (throughout_likeTerms (fun _ => rfl) (fun _ => rfl) hcanon hfree hp).self
  exact (hperm.map Prod.fst).nodup_iff.mpr (nodup_keys_likeTerms _)

/-- **Multiplying out expressions without sums in their terms expands their product fully.** -/
theorem fullyExpanded_distributed {x a : Expr} (hx : Expr.Canonical x) (ha : Expr.Canonical a)
    (hxs : SumFreeTerms x) (has : SumFreeTerms a) : FullyExpanded (distributed evaluated x a) := by
  refine (distributed_induction hx ha
    (fun xs h => fullyExpanded_collectAll fun y hy => (h y hy).2) fun e he => ?_).2
  have hcanon := canonical_of_mem_distributeVisits hx ha he
  obtain ⟨t, ht, u, hu, rfl⟩ := (mem_distributeVisits hx ha).mp he
  have hproduct := sumFree_productOf (forall_mem_pair (ha.of_terms t ht) (hx.of_terms u hu))
    (forall_mem_pair (has t ht) (hxs u hu))
  exact fullyExpanded_of_sumFree (canonical_evaluated hcanon) (sumFree_evaluated hcanon hproduct)

theorem fullyExpanded_multipliedOut {xs : List Expr}
    (hxs : ∀ x ∈ xs, Expr.Canonical x ∧ SumFreeTerms x) {a : Expr} (ha : FullyExpanded a) :
    FullyExpanded (multipliedOut xs a) := by
  induction xs generalizing a with
  | nil => exact ha
  | cons x xs ih =>
    obtain ⟨⟨hx, hxt⟩, hxs⟩ := List.forall_mem_cons.mp hxs
    exact ih hxs (fullyExpanded_distributed hx ha.canonical hxt ha.sumFree)

end SymbolicAlgebra.Evaluator

namespace SymbolicAlgebra.Expr

open Evaluator

variable {ctx : Context}

/-- There is nothing to expand in an expression without sums. -/
theorem expandPlain_of_sumFree {e : Expr} (hc : Canonical e) (h : SumFree e) :
    e.expandPlain ctx = e := by
  induction hc with
  | const q => rw [expandPlain]
  | var x => rw [expandPlain]
  | sum _ _ _ => exact absurd h.self Bool.noConfusion
  | @product fs hfs heq ih =>
    have hfactors : fs.map (expandPlain ctx) = fs :=
      map_eq_self fun f hf => ih f hf (h.of_operand (.factor hf))
    have hany : fs.any isSum = false :=
      List.any_eq_false.mpr fun f hf => Bool.eq_false_iff.mp (h.of_operand (.factor hf)).self
    rw [expandPlain_product_eq fun f hf => canonical_expandPlain (hfs f hf), hfactors, hany]
    exact if_neg Bool.false_ne_true
  | @binary op l r hop hl hr ihl ihr =>
    have hleft : SumFree l := h.of_operand .left
    by_cases hpower : op = .power
    · subst hpower
      have hcount : multiplications l r = 0 := by
        rw [multiplications, hleft.self, Bool.and_false]
        exact if_neg Bool.false_ne_true
      rw [← power, expandPlain_power_eq hl, if_pos hcount]
    · rw [expandPlain_binary hpower, ihl hleft, ihr (h.of_operand .right)]
  | not _ ih => rw [expandPlain, ih (h.of_operand .negated)]
  | set _ _ _ => rw [expandPlain]

/-- Nothing is left to expand in a fully expanded expression. -/
theorem expandPlain_of_fullyExpanded {e : Expr} (h : FullyExpanded e) : e.expandPlain ctx = e := by
  cases hs : e.isSum
  · have hself := mem_terms_self hs
    exact expandPlain_of_sumFree h.canonical (h.sumFree e hself)
  · obtain ⟨ts, rfl⟩ := exists_of_isSum hs
    have hterms : ts.map (expandPlain ctx) = ts := map_eq_self fun t ht =>
      expandPlain_of_sumFree (h.canonical.of_sum t ht) (h.sumFree t ht)
    have hflat : ∀ t ∈ ts, t.isSum = false := h.canonical.flat_terms
    rw [expandPlain_sum, hterms, flatMap_terms_eq_self hflat]
    exact h.collectAll_eq

/-! ## What is expanded fully -/

/-- The expressions that are expanded fully: the products whose sums do not all cancel down to single
terms, and the powers, with an exponent above one that fits into 64 bits, of a sum in whose terms
there is nothing left to expand. -/
inductive Expandable (ctx : Context) : Expr → Prop
  | sumFree {e : Expr} : SumFree e → Expandable ctx e
  | sum {ts : List Expr} : (∀ t ∈ ts, Expandable ctx t) → Expandable ctx (sum ts)
  | product {fs : List Expr} : (∀ f ∈ fs, Expandable ctx f) →
    (fs.map (expandPlain ctx)).any isSum = true → Expandable ctx (product fs)
  | power {b x : Expr} : SumFreeTerms b → multiplications b x ≠ 0 → Expandable ctx (power b x)

/-- **An expandable expression is expanded fully.** -/
theorem fullyExpanded_expandPlain {f : Expr} (hf : Canonical f) (h : Expandable ctx f) :
    FullyExpanded (f.expandPlain ctx) := by
  induction h with
  | sumFree h => exact (expandPlain_of_sumFree hf h).symm ▸ fullyExpanded_of_sumFree hf h
  | @sum ts _ ih =>
    rw [expandPlain_sum]
    exact fullyExpanded_collectAll (List.forall_mem_map.mpr fun t ht => ih t ht (hf.of_sum t ht))
  | @product fs _ hany ih =>
    have hfactors : ∀ x ∈ fs.map (expandPlain ctx), FullyExpanded x :=
      List.forall_mem_map.mpr fun f hmem => ih f hmem (hf.of_product f hmem)
    rw [expandPlain_product_eq fun f hmem => canonical_expandPlain (hf.of_product f hmem),
      if_pos hany]
    exact fullyExpanded_multipliedOut (fun x hx => ⟨(hfactors x hx).canonical, (hfactors x hx).sumFree⟩)
      (fullyExpanded_of_sumFree canonical_one (sumFree_const 1))
  | @power b x hb hcount =>
    have hbase : Canonical b := hf.of_binary.1
    obtain ⟨count, hcount'⟩ := Nat.exists_eq_succ_of_ne_zero hcount
    have hcopies : ∀ y ∈ List.replicate count b, Canonical y ∧ SumFreeTerms y :=
      fun y hy => List.eq_of_mem_replicate hy ▸ ⟨hbase, hb⟩
    rw [expandPlain_power_eq hbase, if_neg hcount, hcount', List.replicate_succ, multipliedOut_cons]
    exact fullyExpanded_multipliedOut hcopies (fullyExpanded_distributed hbase hbase hb hb)

/-- **Plain expansion is complete on expandable expressions**: no sum is left in the terms of the
expanded form, and expanding it again changes nothing. -/
theorem expand_expand {f : Expr} (hf : Canonical f) (h : Expandable ctx f) (ctx' : Context) :
    ∃ e, f.expand none ctx = .ok e ∧ SumFreeTerms e ∧ e.expand none ctx' = .ok e := by
  have hexpanded := fullyExpanded_expandPlain hf h
  exact ⟨_, rfl, hexpanded.sumFree, congrArg Except.ok (expandPlain_of_fullyExpanded hexpanded)⟩

/-- `(1 + y)*(1 + x)^2`. -/
theorem expand_expand_product :
    ∃ e, (product [sum [const 1, symbol "y"], power (sum [const 1, symbol "x"]) (const 2)]).expand
      none (.inert .standard) = .ok e ∧ SumFreeTerms e ∧ e.expand none (.inert .standard) = .ok e := by
  have hterms (n : String) : ∀ t ∈ [const 1, symbol n], Canonical t ∧ SumFree t :=
    forall_mem_pair ⟨.const 1, sumFree_const 1⟩ ⟨.var n, throughout_of rfl fun _ hc => by cases hc⟩
  have hy : Canonical (sum [const 1, symbol "y"]) := .sum (fun t ht => (hterms "y" t ht).1) (by cbv)
  have hx : Canonical (sum [const 1, symbol "x"]) := .sum (fun t ht => (hterms "x" t ht).1) (by cbv)
  refine expand_expand (.product (forall_mem_pair hy (hx.power (.const 2))) (by cbv))
    (.product (forall_mem_pair (.sum fun t ht => .sumFree (hterms "y" t ht).2)
      (.power (fun t ht => (hterms "x" t ht).2) (by cbv))) ?_) (.inert .standard)
  have hsum : ((sum [const 1, symbol "y"]).expandPlain (.inert .standard)).isSum = true := by cbv
  rw [List.map_cons, List.any_cons, hsum, Bool.true_or]

end SymbolicAlgebra.Expr
