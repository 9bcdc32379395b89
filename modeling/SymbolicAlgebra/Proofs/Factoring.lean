import SymbolicAlgebra.Factorization
import SymbolicAlgebra.Proofs.Reading

/-!
# Factoring keeps the value

Pulling out a common factor, distributing a power over the factors of its base and reading a sum as a
polynomial keep the value. Only the last evaluates anything: the sums of the coefficients that are read
with the same degree. So the value is kept wherever the powers of constants that this computes are exact
(`ExactFactoring`), and they are for every expression whose degree is within
`Rational.maxExactExponent`.

Results:
* `denotes_pulledOut`: pulling out a factor keeps the value of a sum.
* `denotes_ofExpr`: a polynomial that is read has the value of the expression.
* `denotes_factored`: so have its factors.
* `denotes_factor`: factoring keeps the value, for every variable but `_c`.
-/

namespace SymbolicAlgebra

open Expr Evaluator

variable {ctx : Context} {σ : String → Rat} {ts : List Expr}

namespace Factorization

/-! ## Common factors -/

theorem subset_candidates : candidates ts ⊆ ts.flatMap factors := by
  refine List.foldlRecOn (motive := fun found => found ⊆ ts.flatMap factors) _ _
    (List.nil_subset _) fun found hfound f hf => ?_
  split
  · exact hfound
  · exact List.append_subset.mpr ⟨hfound, List.cons_subset.mpr ⟨hf, List.nil_subset _⟩⟩

theorem mem_of_mostShared? {f : Expr} {n : Nat} (h : mostShared? ts = some (f, n)) :
    f ∈ ts.flatMap factors := by
  have hshared : ∀ p, mostShared? ts = some p → p.1 ∈ candidates ts := by
    refine List.foldlRecOn (motive := fun best => ∀ p : Expr × Nat, best = some p →
      p.1 ∈ candidates ts) _ _ nofun fun best hbest g hg => ?_
    dsimp only
    split
    · split
      · exact hbest
      · exact fun p hp => Option.some.inj hp ▸ hg
    · exact fun p hp => Option.some.inj hp ▸ hg
  exact subset_candidates (hshared _ h)

/-- A term is a factor that it has times what is left of it. -/
theorem denotes_cofactor {x t : Expr} (ht : Defined σ t) (hx : t.factors.contains x = true) :
    Defined σ (cofactor x t) ∧ value σ x * value σ (cofactor x t) = value σ t := by
  obtain ⟨f, hf, hxf⟩ := List.contains_iff_exists_mem_beq.mp hx
  obtain ⟨g, before, after, -, hg, hfactors, herase⟩ :=
    List.exists_of_eraseP (p := fun f => f == x) hf (BEq.symm hxf)
  have hperm : t.factors.Perm (g :: (before ++ after)) := hfactors ▸ List.perm_middle
  have hmem : ∀ y ∈ before ++ after, Defined σ y := fun y hy =>
    ht.of_factors y (hperm.mem_iff.mpr (List.mem_cons_of_mem _ hy))
  have hrest := denotes_productOf hmem
  rw [cofactor, herase]
  refine ⟨hrest.defined, ?_⟩
  rw [hrest.value_eq, ← value_factors t, (hperm.map (value σ)).prod_eq, List.map_cons, List.prod_cons,
    value_of_beq hg]

/-- The sum of some terms with a factor pulled out of those that have it. -/
def pulledOut (x : Expr) (ts : List Expr) : Expr :=
  .sumOf (.productOf [x, .sumOf ((ts.filter fun t => t.factors.contains x).map (cofactor x))] ::
    ts.filter fun t => !t.factors.contains x)

theorem exists_of_pullOut? {e : Expr} (h : pullOut? ts = some e) :
    ∃ x ∈ ts.flatMap factors, e = pulledOut x ts := by
  unfold pullOut? at h
  split at h
  · cases h
  · next x _ hshared =>
    split at h
    · cases h
    · rw [List.partition_eq_filter_filter] at h
      exact ⟨x, mem_of_mostShared? hshared, (Option.some.inj h).symm⟩

/-- **Pulling out a factor keeps the value of a sum.** -/
theorem denotes_pulledOut {x : Expr} (hx : Defined σ x) (hts : ∀ t ∈ ts, Defined σ t) :
    Denotes σ (pulledOut x ts) (ts.map (value σ)).sum := by
  have hcofactor : ∀ t ∈ ts.filter fun t => t.factors.contains x, Defined σ (cofactor x t) ∧
      value σ x * value σ (cofactor x t) = value σ t := fun t ht =>
    denotes_cofactor (hts t (List.mem_filter.mp ht).1) (List.mem_filter.mp ht).2
  have hproduct := denotes_productOf_pair ⟨hx, rfl⟩
    (denotes_sumOf_map fun t ht => ⟨(hcofactor t ht).1, rfl⟩)
  rw [← List.sum_map_mul_left, List.map_congr_left fun t ht => (hcofactor t ht).2] at hproduct
  have hall := denotes_sumOf (List.forall_mem_cons.mpr ⟨hproduct.defined, fun t ht =>
    hts t (List.mem_filter (p := fun t => !t.factors.contains x).mp ht).1⟩)
  refine ⟨hall.defined, hall.value_eq.trans ?_⟩
  rw [List.map_cons, List.sum_cons, hproduct.value_eq, ← List.sum_append, ← List.map_append]
  exact ((List.filter_append_perm _ ts).map (value σ)).sum_eq

/-! ## Factoring without a variable -/

/-- A sum with common factors of its factored terms pulled out again and again. -/
def factorTerms (ctx : Context) (depth : Nat) (ts : List Expr) : Expr :=
  match pullOut? (ts.map (factorTo ctx depth none)) with
  | none => .sum ts
  | some e => if e.isSum then factorTo ctx depth none e else e

theorem factorTo_sum (x : Option Expr) (depth : Nat) (ts : List Expr) :
    factorTo ctx (depth + 1) x (.sum ts) =
      match x with
      | none => factorTerms ctx depth ts
      | some x =>
        match Polynomial.ofExpr (.sum ts) x ctx with
        | .ok p => p.factored
        | .error _ => factorTerms ctx depth ts := rfl

theorem factorTo_product (x : Option Expr) (depth : Nat) (fs : List Expr) :
    factorTo ctx (depth + 1) x (.product fs) = .productOf (fs.map (factorTo ctx depth x)) := rfl

theorem factorTo_power (x : Option Expr) (depth : Nat) (b y : Expr) :
    factorTo ctx (depth + 1) x (.power b y) = distributePower (factorTo ctx depth x b) y := rfl

theorem denotes_distributePower {b y e : Expr} (he : Denotes σ e (value σ b))
    (hd : Defined σ (Expr.power b y)) :
    Denotes σ (distributePower e y) (value σ (Expr.power b y)) := by
  cases hd with
  | binary hop _ _ => cases hop
  | power _ hn h0 hneg =>
    have hvalue : value σ (Expr.product e.factors) = value σ b := by
      rw [value_product, value_factors, he.value_eq]
    obtain ⟨hdefined, hproduct⟩ := denotes_powers (.power (.product he.defined.of_factors) hn h0
      fun hlt => hvalue.symm ▸ hneg hlt)
    have hdenotes := denotes_productOf hdefined
    rw [hproduct, hvalue, ← value_power] at hdenotes
    exact hdenotes

/-- One step of factoring keeps the value, if those that it takes do. -/
theorem denotes_factorTo_succ {x : Option Expr} {depth : Nat} {f : Expr} (hd : Defined σ f)
    (hproduct : ∀ fs, f = .product fs → ∀ g ∈ fs, Denotes σ (factorTo ctx depth x g) (value σ g))
    (hpower : ∀ b y, f = .power b y → Denotes σ (factorTo ctx depth x b) (value σ b))
    (hsum : ∀ ts, f = .sum ts → Denotes σ (factorTo ctx (depth + 1) x (.sum ts)) (value σ f)) :
    Denotes σ (factorTo ctx (depth + 1) x f) (value σ f) := by
  cases hd with
  | const q => exact ⟨.const q, rfl⟩
  | var n c => exact ⟨.var n c, rfl⟩
  | sum _ => exact hsum _ rfl
  | @product fs _ =>
    rw [factorTo_product, value_product]
    exact denotes_productOf_map (hproduct fs rfl)
  | power hb hn h0 hneg =>
    rw [factorTo_power]
    exact denotes_distributePower (hpower _ _ rfl) (.power hb hn h0 hneg)
  | @binary op l r hop hl hr =>
    have hself : factorTo ctx (depth + 1) x (.binary op l r) = .binary op l r := by
      cases op <;> first | rfl | cases hop
    rw [hself]
    exact ⟨.binary hop hl hr, rfl⟩
  | not ha => exact ⟨.not ha, rfl⟩

theorem denotes_factorTerms {depth : Nat} (hts : ∀ t ∈ ts, Defined σ t)
    (h : ∀ {f}, Defined σ f → Denotes σ (factorTo ctx depth none f) (value σ f)) :
    Denotes σ (factorTerms ctx depth ts) (value σ (.sum ts)) := by
  unfold factorTerms
  split
  · exact ⟨.sum hts, rfl⟩
  · next e hpull =>
    obtain ⟨x, hx, rfl⟩ := exists_of_pullOut? hpull
    have hfactored : ∀ t ∈ ts, Denotes σ (factorTo ctx depth none t) (value σ t) := fun t ht =>
      h (hts t ht)
    have hdefined := defined_map hfactored
    have hpulled := denotes_pulledOut (defined_flatMap hdefined (fun t ht => ht.of_factors) x hx)
      hdefined
    rw [map_value_map hfactored, ← value_sum] at hpulled
    split
    · exact hpulled.value_eq ▸ h hpulled.defined
    · exact hpulled

/-- **Factoring without a variable keeps the value.** -/
theorem denotes_factorTo_none {depth : Nat} {f : Expr} (hd : Defined σ f) :
    Denotes σ (factorTo ctx depth none f) (value σ f) := by
  induction depth generalizing f with
  | zero => exact ⟨hd, rfl⟩
  | succ depth ih =>
    refine denotes_factorTo_succ hd ?_ ?_ ?_
    · rintro fs rfl g hg
      exact ih (hd.of_factors g hg)
    · rintro b y rfl
      obtain ⟨n, rfl, hb, -⟩ := Defined.of_power hd
      exact ih hb
    · rintro ts rfl
      exact denotes_factorTerms hd.of_terms ih

end Factorization

namespace Polynomial

variable {name : String} {l : ByDegree Expr} {t c e f : Expr} {n : Int} {terms : List (Int × Expr)}

/-! ## The value of a polynomial -/

/-- The value of a polynomial. -/
def sumAt (σ : String → Rat) (name : String) (l : ByDegree Expr) : Rat :=
  (l.map fun e => value σ e.2 * σ name ^ e.1).sum

/-- The value is meant: that of the coefficients is, and that of negative powers. -/
structure DefinedAt (σ : String → Rat) (name : String) (l : ByDegree Expr) : Prop where
  coefficients : ∀ e ∈ l, Defined σ e.2
  powers : ∀ e ∈ l, e.1 < 0 → σ name ≠ 0

theorem denotes_power_symbol (h0 : n ≠ 0) (h : n < 0 → σ name ≠ 0) :
    Denotes σ (Expr.power (symbol name) (int n)) (σ name ^ n) := by
  refine ⟨.power (.var name none) (isInteger_intCast n) (by exact_mod_cast h0) fun hlt => ?_, ?_⟩
  · exact (value_var name none).symm ▸ h (by exact_mod_cast hlt)
  · rw [int, value_power, Rat.num_intCast, symbol, value_var]

theorem denotes_term (hc : Defined σ c) (h : n < 0 → σ name ≠ 0) :
    Denotes σ (term (symbol name) n c) (value σ c * σ name ^ n) := by
  unfold term
  split
  · next h0 =>
    rw [h0, zpow_zero, mul_one]
    exact ⟨hc, rfl⟩
  next h0 =>
  split
  · next h1 =>
    rw [h1, zpow_one]
    exact denotes_productOf_pair ⟨hc, rfl⟩ ⟨.var name none, value_var name none⟩
  · exact denotes_productOf_pair ⟨hc, rfl⟩ (denotes_power_symbol h0 h)

/-- A polynomial as an expression has the value of the polynomial. -/
theorem denotes_toExpr (h : DefinedAt σ name l) :
    Denotes σ (toExpr ⟨l, symbol name⟩) (sumAt σ name l) :=
  denotes_sumOf_map fun e he => denotes_term (h.coefficients e he) (h.powers e he)

/-- The quotient by a power of the variable. -/
def lowered (k : Int) (l : ByDegree Expr) : ByDegree Expr :=
  l.map fun e => (e.1 - k, e.2)

theorem factored_cons (lowest : Int) (c : Expr) (rest : ByDegree Expr) (x : Expr) :
    factored ⟨(lowest, c) :: rest, x⟩ =
      if lowest ≤ 0 then toExpr ⟨(lowest, c) :: rest, x⟩
      else .productOf [if lowest = 1 then x else .power x (int lowest),
        toExpr ⟨lowered lowest ((lowest, c) :: rest), x⟩] := rfl

theorem definedAt_lowered {k : Int} (h : DefinedAt σ name l) (hk : ∀ e ∈ l, k ≤ e.1) :
    DefinedAt σ name (lowered k l) where
  coefficients := List.forall_mem_map.mpr h.coefficients
  powers := List.forall_mem_map.mpr fun e he hlt => absurd hlt (by have := hk e he; omega)

theorem sumAt_lowered {k : Int} (hpos : 0 < k) (hk : ∀ e ∈ l, k ≤ e.1) :
    σ name ^ k * sumAt σ name (lowered k l) = sumAt σ name l := by
  rw [sumAt, sumAt, lowered, List.map_map, ← List.sum_map_mul_left]
  refine congrArg List.sum (List.map_congr_left fun e he => ?_)
  -- the variable may be `0`, so the exponents only add up as the degree is not `0`
  have hne : k + (e.1 - k) ≠ 0 := by have := hk e he; omega
  rw [Function.comp_apply, mul_left_comm, ← zpow_add' (.inr (.inl hne)), add_sub_cancel]

/-- **The powers of the variable times the rest** have the value of the polynomial. -/
theorem denotes_factored (hl : Ascending l) (h : DefinedAt σ name l) :
    Denotes σ (factored ⟨l, symbol name⟩) (sumAt σ name l) := by
  cases l with
  | nil => exact ⟨.const 0, value_const 0⟩
  | cons e rest =>
    obtain ⟨lowest, c⟩ := e
    by_cases hpos : 0 < lowest
    · have hlowest : ∀ e ∈ (lowest, c) :: rest, lowest ≤ e.1 :=
        List.forall_mem_cons.mpr ⟨le_rfl, fun e he => ((List.pairwise_cons.mp hl).1 e he).le⟩
      have hpower : Denotes σ (if lowest = 1 then symbol name else
          .power (symbol name) (int lowest)) (σ name ^ lowest) := by
        split
        · next h1 =>
          rw [h1, zpow_one]
          exact ⟨.var name none, value_var name none⟩
        · exact denotes_power_symbol (by omega) (by omega)
      have hdenotes := denotes_productOf_pair hpower (denotes_toExpr (definedAt_lowered h hlowest))
      rw [sumAt_lowered hpos hlowest] at hdenotes
      rwa [factored_cons, if_neg (not_le.mpr hpos)]
    · rw [factored_cons, if_pos (not_lt.mp hpos)]
      exact denotes_toExpr h

/-! ## Reading -/

theorem value_of_isPower (h : IsPower name n e) (hd : Defined σ e) :
    value σ e = σ name ^ n ∧ (n < 0 → σ name ≠ 0) := by
  have hsymbol : ∀ {e : Expr}, (symbol name == e) = true → value σ e = σ name := fun he =>
    (value_of_beq he).symm.trans (value_var name none)
  cases h with
  | one => exact ⟨(value_const 1).trans (zpow_zero _).symm, nofun⟩
  | self he => exact ⟨(hsymbol he).trans (zpow_one _).symm, nofun⟩
  | power n hb =>
    rw [int, value_power, Rat.num_intCast, hsymbol hb]
    refine ⟨rfl, fun hlt => ?_⟩
    cases hd with
    | binary hop _ _ => cases hop
    | power _ _ _ hneg => exact hsymbol hb ▸ hneg (by exact_mod_cast hlt)

theorem Reads.canonical (h : Reads name t n c) (ht : Canonical t) : Canonical c := by
  obtain ⟨chosen, others, hperm, rfl, -⟩ := h
  exact canonical_productOf fun g hg =>
    ht.of_factors g (hperm.mem_iff.mp (List.mem_append_left _ hg))

theorem Reads.degree_le (h : Reads name t n c) : c.degree ≤ t.degree := by
  obtain ⟨chosen, others, hperm, rfl, -⟩ := h
  calc (productOf chosen).degree ≤ (chosen.map Expr.degree).sum := degree_productOf_le chosen
    _ ≤ ((chosen ++ others).map Expr.degree).sum := by
      rw [List.map_append, List.sum_append]
      exact Nat.le_add_right _ _
    _ = t.degree := by rw [(hperm.map Expr.degree).sum_eq, degree_factors]

/-- A term that is read has the value of the coefficient times that of the power. -/
theorem Reads.denotes (h : Reads name t n c) (hd : Defined σ t) :
    Defined σ c ∧ value σ c * σ name ^ n = value σ t ∧ (n < 0 → σ name ≠ 0) := by
  obtain ⟨chosen, others, hperm, rfl, hpower⟩ := h
  have hfactors : ∀ f ∈ chosen ++ others, Defined σ f := fun f hf =>
    hd.of_factors f (hperm.mem_iff.mp hf)
  obtain ⟨hchosen, hothers⟩ := List.forall_mem_append.mp hfactors
  have hcoefficient := denotes_productOf hchosen
  have hrest := denotes_productOf hothers
  obtain ⟨hvalue, hneg⟩ := value_of_isPower hpower hrest.defined
  refine ⟨hcoefficient.defined, ?_, hneg⟩
  rw [← hvalue, hcoefficient.value_eq, hrest.value_eq, ← value_factors t, ← List.prod_append,
    ← List.map_append]
  exact (hperm.map (value σ)).prod_eq

/-- Coefficients that are zero count nothing. -/
theorem sumAt_filter (l : ByDegree Expr) :
    sumAt σ name (l.filter fun e => !e.2.isZero) = sumAt σ name l :=
  sum_map_filter fun e _ h => by
    have hzero : value σ e.2 = 0 := value_of_isZero (by simpa using h)
    rw [hzero, zero_mul]

/-- The terms of `f` are read as degrees and coefficients. -/
def ReadAs (ctx : Context) (name : String) (f : Expr) (terms : List (Int × Expr)) : Prop :=
  List.Forall₂ (fun t r => readTerm f (symbol name) t ctx = .ok r) f.terms terms

theorem exists_of_ofExpr {p : Polynomial} (h : ofExpr f (symbol name) ctx = .ok p) :
    ∃ terms, ReadAs ctx name f terms ∧ p = ofCoefficients
      ((gather terms).map fun r => (r.1, (sumOf r.2).evaluate ctx)) (symbol name) := by
  rw [ofExpr_eq] at h
  cases hterms : f.terms.mapM fun t => readTerm f (symbol name) t ctx <;> rw [hterms] at h
  · cases h
  · exact ⟨_, mapM_eq_ok.mp hterms, (Except.ok.inj h).symm⟩

section ReadAs

variable {r : Int × List Expr} (hread : ReadAs ctx name f terms) (hc : name ≠ "_c")
  (hf : Canonical f)
include hread hc hf

theorem ReadAs.reads : List.Forall₂ (fun t r => t ∈ f.terms ∧ Reads name t r.1 r.2) f.terms terms :=
  ((List.forall₂_and_left _ _).mpr ⟨fun _ ht => ht, hread⟩).imp fun t _ hr =>
    ⟨hr.1, reads_of_readTerm hc (hf.of_terms t hr.1) hr.2⟩

/-- The coefficients of a degree are read from terms. -/
theorem ReadAs.gathered (hr : r ∈ gather terms) :
    r.2 ≠ [] ∧ ∀ c ∈ r.2, ∃ t, t ∈ f.terms ∧ Reads name t r.1 c :=
  ⟨(mem_gather hr).1, fun _ hmem => exists_of_forall₂ (hread.reads hc hf) ((mem_gather hr).2 _ hmem)⟩

theorem ReadAs.canonical_sumOf (hr : r ∈ gather terms) : Canonical (sumOf r.2) :=
  Expr.canonical_sumOf fun c hmem =>
    let ⟨t, ht, hreads⟩ := (hread.gathered hc hf hr).2 c hmem
    hreads.canonical (hf.of_terms t ht)

theorem ReadAs.degree_sumOf_le (hr : r ∈ gather terms) :
    (sumOf r.2).degree ≤ largestDegree f.terms + 1 := by
  refine (degree_le_exponentBound _).trans (exponentBound_sumOf_le fun c hmem => ?_)
  obtain ⟨t, ht, hreads⟩ := (hread.gathered hc hf hr).2 c hmem
  exact hreads.degree_le.trans (largestDegree_le.mp le_rfl t ht)

variable (hd : Defined σ f)
include hd

theorem ReadAs.denotes_sumOf (hr : r ∈ gather terms) :
    Denotes σ (sumOf r.2) (r.2.map (value σ)).sum :=
  Expr.denotes_sumOf fun c hmem =>
    let ⟨t, ht, hreads⟩ := (hread.gathered hc hf hr).2 c hmem
    (hreads.denotes (hd.of_terms t ht)).1

theorem ReadAs.powers (hr : r ∈ gather terms) (hlt : r.1 < 0) : σ name ≠ 0 := by
  obtain ⟨hne, hgathered⟩ := hread.gathered hc hf hr
  obtain ⟨t, ht, hreads⟩ := hgathered _ (List.head_mem hne)
  exact (hreads.denotes (hd.of_terms t ht)).2.2 hlt

/-- The terms that are read have the value of the expression. -/
theorem ReadAs.value_eq : (terms.map fun r => value σ r.2 * σ name ^ r.1).sum = value σ f := by
  rw [← value_terms f]
  refine congrArg List.sum (Eq.symm ?_)
  rw [← List.forall₂_eq_eq_eq, List.forall₂_map_left_iff, List.forall₂_map_right_iff]
  exact (hread.reads hc hf).imp fun t r hr => (hr.2.denotes (hd.of_terms t hr.1)).2.1.symm

end ReadAs

/-- `e` is a sum of coefficients that is evaluated when `f` is read. -/
def CoefficientSum (ctx : Context) (name : String) (f e : Expr) : Prop :=
  ∃ terms, ReadAs ctx name f terms ∧ ∃ r ∈ gather terms, e = sumOf r.2

/-- **A polynomial that is read has the value of the expression**, if the powers of constants that the
sums of its coefficients compute are exact. -/
theorem denotes_ofExpr {p : Polynomial} (hc : name ≠ "_c") (hf : Canonical f) (hd : Defined σ f)
    (hexact : ∀ e, CoefficientSum ctx name f e → ExactPowers e)
    (h : ofExpr f (symbol name) ctx = .ok p) :
    ∃ l, p = ⟨l, symbol name⟩ ∧ Ascending l ∧ DefinedAt σ name l ∧ sumAt σ name l = value σ f := by
  obtain ⟨terms, hread, rfl⟩ := exists_of_ofExpr h
  have hcoefficient : ∀ r ∈ gather terms,
      Denotes σ ((sumOf r.2).evaluate ctx) (r.2.map (value σ)).sum := by
    intro r hr
    have hcanon := hread.canonical_sumOf hc hf hr
    have hsum := hread.denotes_sumOf hc hf hd hr
    rw [evaluate_eq hcanon, ← hsum.value_eq]
    exact denotes_evaluated hcanon (hexact _ ⟨terms, hread, r, hr, rfl⟩) hsum.defined
  have hascending : Ascending ((gather terms).map fun r => (r.1, (sumOf r.2).evaluate ctx)) :=
    List.pairwise_map.mpr (ascending_gather terms)
  refine ⟨_, rfl, hascending.sublist List.filter_sublist, ⟨fun e he => ?_, fun e he => ?_⟩, ?_⟩
  · obtain ⟨r, hr, rfl⟩ := List.mem_map.mp (List.mem_of_mem_filter he)
    exact (hcoefficient r hr).defined
  · obtain ⟨r, hr, rfl⟩ := List.mem_map.mp (List.mem_of_mem_filter he)
    exact hread.powers hc hf hd hr
  · have hvalues : sumAt σ name ((gather terms).map fun r => (r.1, (sumOf r.2).evaluate ctx)) =
        ((gather terms).map fun r => (r.2.map fun c => value σ c * σ name ^ r.1).sum).sum := by
      rw [sumAt, List.map_map]
      refine congrArg List.sum (List.map_congr_left fun r hr => ?_)
      rw [List.sum_map_mul_right, Function.comp_apply, (hcoefficient r hr).value_eq]
    rw [sumAt_filter, hvalues, sum_gather fun n c => value σ c * σ name ^ n,
      hread.value_eq hc hf hd]

end Polynomial

namespace Factorization

/-! ## Factoring with a variable -/

/-- `e` is evaluated when an expression is factored with the variable `name`. -/
inductive FactoringVisit (ctx : Context) (name : String) (e : Expr) : Expr → Prop
  | read {ts : List Expr} : Polynomial.CoefficientSum ctx name (.sum ts) e →
    FactoringVisit ctx name e (.sum ts)
  | factor {f : Expr} {fs : List Expr} : f ∈ fs → FactoringVisit ctx name e f →
    FactoringVisit ctx name e (.product fs)
  | base {b y : Expr} : FactoringVisit ctx name e b → FactoringVisit ctx name e (.power b y)

/-- **Factoring with a variable keeps the value**, if the powers of constants on the way are exact. -/
theorem denotes_factorTo_symbol {name : String} (hc : name ≠ "_c") {depth : Nat} {f : Expr}
    (hf : Canonical f) (hexact : ∀ e, FactoringVisit ctx name e f → ExactPowers e)
    (hd : Defined σ f) : Denotes σ (factorTo ctx depth (some (symbol name)) f) (value σ f) := by
  induction depth generalizing f with
  | zero => exact ⟨hd, rfl⟩
  | succ depth ih =>
    refine denotes_factorTo_succ hd ?_ ?_ ?_
    · rintro fs rfl g hg
      exact ih (hf.of_product g hg) (fun e he => hexact e (.factor hg he)) (hd.of_factors g hg)
    · rintro b y rfl
      obtain ⟨n, rfl, hb, -⟩ := Defined.of_power hd
      exact ih hf.of_binary.1 (fun e he => hexact e (.base he)) hb
    · rintro ts rfl
      rw [factorTo_sum]
      split
      · next heq => cases heq
      · next x heq =>
        obtain rfl := Option.some.inj heq
        split
        · next p hread =>
          obtain ⟨l, rfl, hascending, hdefined, hvalue⟩ :=
            Polynomial.denotes_ofExpr hc hf hd (fun e he => hexact e (.read he)) hread
          exact hvalue ▸ Polynomial.denotes_factored hascending hdefined
        · exact denotes_factorTerms hd.of_terms denotes_factorTo_none

/-- **Within the bound all powers of constants are exact.** -/
theorem FactoringVisit.exactPowers {name : String} (hc : name ≠ "_c") {e f : Expr}
    (h : FactoringVisit ctx name e f) (hf : Canonical f) (hd : Defined σ f)
    (hle : f.degree ≤ Rational.maxExactExponent) : ExactPowers e := by
  induction h with
  | read h =>
    obtain ⟨terms, hread, r, hr, rfl⟩ := h
    have hdegree := hread.degree_sumOf_le hc hf hr
    rw [terms_sum] at hdegree
    rw [degree] at hle
    exact exactPowers_of_degree_le (hread.canonical_sumOf hc hf hr)
      (hread.denotes_sumOf hc hf hd hr).defined (hdegree.trans hle)
  | @factor g fs hg _ ih =>
    exact ih (hf.of_product g hg) (hd.of_factors g hg) ((degree_of_mem_factors hg).trans hle)
  | base _ ih =>
    obtain ⟨n, rfl, hb, hdegree⟩ := Defined.of_power hd
    exact ih hf.of_binary.1 hb (hdegree.trans hle)

end Factorization

namespace Expr

open Factorization

/-- All powers of constants that are computed when `f` is factored are exact; without a variable there
are none. -/
def ExactFactoring (ctx : Context) (x : Option String) (f : Expr) : Prop :=
  ∀ name ∈ x, ∀ e, FactoringVisit ctx name e f → ExactPowers e

/-- **Factoring keeps the value**: where an expression has a value, its factors have the same one,
without a variable or with any but `_c`, provided that the powers of constants computed on the way are
exact; and they are exact for an expression whose degree is at most `Rational.maxExactExponent`. -/
theorem denotes_factor {f : Expr} {v : Rat} {x : Option String} (hf : Canonical f)
    (h : Denotes σ f v) (hx : x ≠ some "_c") (ctx : Context) :
    (ExactFactoring ctx x f → Denotes σ (f.factor (x.map symbol) ctx) v) ∧
      (f.degree ≤ Rational.maxExactExponent → ExactFactoring ctx x f) := by
  obtain ⟨hd, rfl⟩ := h
  refine ⟨fun hexact => ?_, fun hle name hname e he => ?_⟩
  · cases x with
    | none => exact denotes_factorTo_none hd
    | some name =>
      exact denotes_factorTo_symbol (fun h => hx (congrArg some h)) hf (hexact name rfl) hd
  · exact he.exactPowers (fun h => hx (h ▸ hname)) hf hd hle

/-- `3*x^2 + x*y` at `x = y = 1`, as a polynomial in `x`. -/
theorem denotes_factor_square :
    Denotes (fun _ => 1) ((sumOf [productOf [const 3, power (symbol "x") (int 2)],
      productOf [symbol "x", symbol "y"]]).factor (some (symbol "x")) (.inert .standard)) 4 := by
  have hfactors : ∀ g ∈ [const 3, power (symbol "x") (int 2)],
      Canonical g ∧ Defined (fun _ => 1) g ∧ g.degree ≤ 0 :=
    forall_mem_pair ⟨.const 3, .const 3, by simp⟩ ⟨Canonical.power (.var "x") (.const 2),
      .power (.var "x" none) rfl (by norm_num) (by norm_num), by
        rw [int, degree_power, exponentBound_eq_degree rfl rfl, symbol, degree, Nat.mul_zero]⟩
  have hvariables : ∀ g ∈ [symbol "x", symbol "y"],
      Canonical g ∧ Defined (fun _ => 1) g ∧ g.degree ≤ 0 :=
    forall_mem_pair ⟨.var "x", .var "x" none, by simp [symbol, degree]⟩
      ⟨.var "y", .var "y" none, by simp [symbol, degree]⟩
  have hsquare := denotes_productOf fun g hg => (hfactors g hg).2.1
  have hproduct := denotes_productOf fun g hg => (hvariables g hg).2.1
  have hsum := denotes_sumOf (forall_mem_pair hsquare.defined hproduct.defined)
  have hcanon := canonical_sumOf (forall_mem_pair (canonical_productOf fun g hg => (hfactors g hg).1)
    (canonical_productOf fun g hg => (hvariables g hg).1))
  obtain ⟨hvalue, hexact⟩ := denotes_factor (x := some "x") hcanon
    ⟨hsum.defined, hsum.value_eq.trans (show _ = (4 : Rat) by
      norm_num [value_productOf, symbol, int])⟩ (by decide) (.inert .standard)
  have hzero : ∀ {fs : List Expr}, (∀ g ∈ fs, g.degree ≤ 0) → (productOf fs).degree ≤ 0 :=
    fun h => (degree_productOf_le _).trans (List.sum_le_card_nsmul _ 0 (List.forall_mem_map.mpr h))
  have hdegree := exponentBound_sumOf_le (forall_mem_pair (hzero fun g hg => (hfactors g hg).2.2)
    (hzero fun g hg => (hvariables g hg).2.2))
  exact hvalue (hexact ((degree_le_exponentBound _).trans (hdegree.trans (by decide))))

end Expr

end SymbolicAlgebra
