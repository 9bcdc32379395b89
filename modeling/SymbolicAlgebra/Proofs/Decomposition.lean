import SymbolicAlgebra.LinearCombination
import SymbolicAlgebra.Proofs.Affine
import SymbolicAlgebra.Proofs.ExpansionValue
import SymbolicAlgebra.Proofs.Occurrence

/-!
# Linear decomposition

`LinearCombination.ofExpr` adds the terms of an expanded expression one by one: to the coefficient of
the first variable of the basis by which the term can be divided so that no variable of the basis
remains, or to the constant part. Each step changes one coefficient (`exists_addTo`), and two
invariants carry over from it: the coefficients of variables are free of the basis (`OverBasis`), and
the elements times their coefficients add up to what has been added so far (`Totals`).

Quotients and coefficients are evaluated, so the second one needs the powers of constants computed on
the way to be exact. They are for every expression whose degree is below
`Rational.maxExactExponent`: neither division nor adding up raises the degree of a term.

Results:
* `OverBasis.addTerm`: the coefficients of variables stay free of the basis.
* `Totals.foldl_addTerm`: a run adds up the values of the terms.
* `exact_combinationVisits`: the bound on the degrees of the terms.
* `denotes_decomposition`: the linear combination of an expression has its value.
-/

namespace SymbolicAlgebra

open Expr Evaluator

namespace LinearCombination

variable {ctx : Context} {basis ts : List Expr} {c : LinearCombination} {amount b t e : Expr}
  {σ : String → Rat}

/-! ## One coefficient -/

theorem setIn_append {i a v : Expr} {after : List (Expr × Expr)} (hi : (i == b) = true) :
    ∀ {before : List (Expr × Expr)}, (∀ p ∈ before, (p.1 == b) = false) →
      setIn b v (before ++ (i, a) :: after) = before ++ (i, v) :: after
  | [], _ => by rw [List.nil_append, List.nil_append, setIn, if_pos hi]
  | p :: before, h => by
    obtain ⟨hp, hbefore⟩ := List.forall_mem_cons.mp h
    rw [List.cons_append, List.cons_append, setIn, if_neg (by rw [hp]; exact Bool.false_ne_true),
      setIn_append hi hbefore]

/-- **Adding to a coefficient changes one entry**, the first one of that element. -/
theorem exists_addTo (amount : Expr) (ctx : Context) (h : ∃ p ∈ c.terms, (p.1 == b) = true) :
    ∃ before i after, c.terms = before ++ (i, c.coefficient b) :: after ∧ (i == b) = true ∧
      (c.addTo b amount ctx).terms =
        before ++ (i, (sumOf [c.coefficient b, amount]).evaluate ctx) :: after := by
  cases hfind : c.terms.find? fun p => p.1 == b with
  | none =>
    obtain ⟨p, hp, hpb⟩ := h
    exact absurd hpb (List.find?_eq_none.mp hfind p hp)
  | some p =>
    obtain ⟨i, a⟩ := p
    obtain ⟨hi, before, after, hterms, hbefore⟩ := List.find?_eq_some_iff_append.mp hfind
    have hcoefficient : c.coefficient b = a := by
      rw [coefficient, hfind]
      rfl
    rw [hcoefficient]
    refine ⟨before, i, after, hterms, hi, ?_⟩
    rw [addTo, set, hcoefficient, hterms]
    exact setIn_append hi fun p hp => by simpa using hbefore p hp

/-- What holds of all entries holds after adding, if it does of the changed one. -/
theorem forall_mem_addTo {P : Expr × Expr → Prop} (h : ∃ p ∈ c.terms, (p.1 == b) = true)
    (hP : ∀ p ∈ c.terms, P p) (hnew : ∀ i, (i == b) = true → P (i, c.coefficient b) →
      P (i, (sumOf [c.coefficient b, amount]).evaluate ctx)) :
    ∀ p ∈ (c.addTo b amount ctx).terms, P p := by
  obtain ⟨before, i, after, hterms, hi, hadded⟩ := exists_addTo amount ctx h
  rw [hterms] at hP
  obtain ⟨hbefore, hrest⟩ := List.forall_mem_append.mp hP
  obtain ⟨hentry, hafter⟩ := List.forall_mem_cons.mp hrest
  rw [hadded]
  exact List.forall_mem_append.mpr ⟨hbefore, List.forall_mem_cons.mpr ⟨hnew i hi hentry, hafter⟩⟩

theorem coefficient_mem (h : ∃ p ∈ c.terms, (p.1 == b) = true) :
    ∃ i, (i == b) = true ∧ (i, c.coefficient b) ∈ c.terms := by
  obtain ⟨before, i, after, hterms, hi, -⟩ := exists_addTo .zero (.inert .standard) h
  exact ⟨i, hi, hterms ▸ List.mem_append_right _ List.mem_cons_self⟩

/-! ## One term -/

theorem addTerm_of_some {q : Expr} (h : divideTerm? basis t ctx = some (b, q)) :
    addTerm basis ctx c t = c.addTo b q ctx := by
  rw [addTerm, h]

theorem addTerm_of_none (h : divideTerm? basis t ctx = none) :
    addTerm basis ctx c t = c.addTo .one t ctx := by
  rw [addTerm, h]

/-- What is evaluated when a term is added. -/
def termVisits (ctx : Context) (basis : List Expr) (c : LinearCombination) (t : Expr) : List Expr :=
  match divideTerm? basis t ctx with
  | some (b, quotient) => [divide t b, sumOf [c.coefficient b, quotient]]
  | none => [sumOf [c.coefficient .one, t]]

theorem termVisits_of_some {q : Expr} (h : divideTerm? basis t ctx = some (b, q)) :
    termVisits ctx basis c t = [divide t b, sumOf [c.coefficient b, q]] := by
  rw [termVisits, h]

theorem termVisits_of_none (h : divideTerm? basis t ctx = none) :
    termVisits ctx basis c t = [sumOf [c.coefficient .one, t]] := by
  rw [termVisits, h]

/-- What is evaluated when terms are added one after the other. -/
def combinationVisits (ctx : Context) (basis : List Expr) :
    LinearCombination → List Expr → List Expr
  | _, [] => []
  | c, t :: ts => termVisits ctx basis c t ++ combinationVisits ctx basis (addTerm basis ctx c t) ts

/-! ## Coefficients free of the basis -/

/-- The entries are those of the basis and of `1`, with canonical coefficients, which depend on the
basis for `1` at most. -/
structure OverBasis (basis : List Expr) (c : LinearCombination) : Prop where
  elements : c.terms.map Prod.fst = basis ++ [.one]
  canonical : ∀ p ∈ c.terms, Canonical p.2
  free : ∀ p ∈ c.terms, p.1 ∈ basis → p.2.dependsOnAny basis = false

theorem OverBasis.exists_entry (h : OverBasis basis c) (hb : b ∈ basis ++ [.one]) :
    ∃ p ∈ c.terms, (p.1 == b) = true := by
  rw [← h.elements] at hb
  obtain ⟨p, hp, rfl⟩ := List.mem_map.mp hb
  exact ⟨p, hp, BEq.rfl⟩

theorem OverBasis.mem_elements (h : OverBasis basis c) {p : Expr × Expr} (hp : p ∈ c.terms) :
    p.1 ∈ basis ++ [.one] :=
  h.elements ▸ List.mem_map_of_mem hp

theorem OverBasis.canonical_coefficient (h : OverBasis basis c) (hb : b ∈ basis ++ [.one]) :
    Canonical (c.coefficient b) := by
  obtain ⟨i, -, hmem⟩ := coefficient_mem (h.exists_entry hb)
  exact h.canonical _ hmem

section Basis

variable (hbasis : ∀ b ∈ basis, ∃ n, b = symbol n)
include hbasis

/-- An entry of a variable of the basis is that of the variable itself. -/
theorem mem_basis_of_beq {i : Expr} (hi : i ∈ basis ++ [.one]) (hb : b ∈ basis)
    (hib : (i == b) = true) : i ∈ basis := by
  rcases List.mem_append.mp hi with hi | hi
  · exact hi
  · obtain ⟨n, rfl⟩ := hbasis b hb
    rw [List.mem_singleton.mp hi] at hib
    cases hib

theorem canonical_divide_basis (hb : b ∈ basis) (ht : Canonical t) : Canonical (divide t b) := by
  obtain ⟨n, rfl⟩ := hbasis b hb
  exact canonical_divide ht (.var n)

/-- Where a term goes: to a variable of the basis, with a quotient that is free of the basis. -/
theorem exists_of_divideTerm? (ht : Canonical t) {q : Expr}
    (h : divideTerm? basis t ctx = some (b, q)) : b ∈ basis ∧ q = evaluated (divide t b) ∧
      Canonical q ∧ q.dependsOnAny basis = false := by
  rw [divideTerm?] at h
  split at h
  · obtain ⟨b', hb', h⟩ := List.exists_of_findSome?_eq_some h
    have hcanon := canonical_divide_basis hbasis hb' ht
    rw [evaluate_eq hcanon] at h
    dsimp only at h
    split at h
    · cases h
    · next hfree =>
      obtain ⟨rfl, rfl⟩ := Prod.mk.inj (Option.some.inj h)
      exact ⟨hb', rfl, canonical_evaluated hcanon, Bool.eq_false_iff.mpr hfree⟩
  · cases h

theorem isVar_of_mem_basis (hb : b ∈ basis) : b.isVar = true := by
  obtain ⟨n, rfl⟩ := hbasis b hb
  rfl

theorem overBasis_zero : OverBasis basis (zero basis) where
  elements := by
    rw [zero, List.map_append, List.map_map]
    exact congrArg (· ++ [.one]) (List.map_id basis)
  canonical := by
    rw [zero, List.forall_mem_append, List.forall_mem_singleton, List.forall_mem_map]
    exact ⟨fun _ _ => .const 0, .const 0⟩
  free := by
    have hzero : Expr.zero.dependsOnAny basis = false :=
      contains_eq_false (fun x hx => isVar_of_mem_basis hbasis hx) .zero rfl
    rw [zero, List.forall_mem_append, List.forall_mem_singleton, List.forall_mem_map]
    exact ⟨fun _ _ _ => hzero, fun _ => hzero⟩

/-- **A step keeps the coefficients of variables free of the basis.** -/
theorem OverBasis.addTerm (h : OverBasis basis c) (ht : Canonical t) :
    OverBasis basis (addTerm basis ctx c t) := by
  have hadd : ∀ {b amount}, b ∈ basis ++ [.one] → Canonical amount →
      (b ∈ basis → amount.dependsOnAny basis = false) →
      OverBasis basis (c.addTo b amount ctx) := by
    intro b amount hb hamount hfree
    have hentry := h.exists_entry hb
    have hpair := forall_mem_pair (h.canonical_coefficient hb) hamount
    have hcanon := canonical_sumOf hpair
    have heval := evaluate_eq hcanon ctx
    refine ⟨?_, ?_, ?_⟩
    · obtain ⟨before, i, after, hterms, -, hadded⟩ := exists_addTo amount ctx hentry
      rw [← h.elements, hadded, hterms]
      simp only [List.map_append, List.map_cons]
    · refine forall_mem_addTo hentry h.canonical fun i _ _ => ?_
      dsimp only
      exact heval ▸ canonical_evaluated hcanon
    · refine forall_mem_addTo hentry h.free fun i hi hold himem => ?_
      dsimp only
      rw [heval]
      refine dependsOnAny_evaluated (fun x hx => isVar_of_mem_basis hbasis hx) hcanon
        (dependsOnAny_sumOf (fun x hx => isVar_of_mem_basis hbasis hx) hpair ?_)
      exact forall_mem_pair (hold himem)
        (hfree (mem_basis_of_beq hbasis hb himem (BEq.symm hi)))
  cases hdivide : divideTerm? basis t ctx with
  | none =>
    rw [addTerm_of_none hdivide]
    refine hadd (List.mem_append_right _ (List.mem_singleton_self _)) ht fun hone => ?_
    obtain ⟨n, hn⟩ := hbasis _ hone
    cases hn
  | some p =>
    obtain ⟨b, q⟩ := p
    obtain ⟨hb, -, hq, hfree⟩ := exists_of_divideTerm? hbasis ht hdivide
    rw [addTerm_of_some hdivide]
    exact hadd (List.mem_append_left _ hb) hq fun _ => hfree

theorem overBasis_foldl (h : OverBasis basis c) (hts : ∀ t ∈ ts, Canonical t) :
    OverBasis basis (ts.foldl (LinearCombination.addTerm basis ctx) c) := by
  induction ts generalizing c with
  | nil => exact h
  | cons t ts ih =>
    obtain ⟨ht, hts⟩ := List.forall_mem_cons.mp hts
    exact ih (h.addTerm hbasis ht) hts

/-- **The coefficient of a variable of the basis depends on no variable of the basis.** -/
theorem OverBasis.free_coefficient (h : OverBasis basis c) (hb : b ∈ basis) :
    (c.coefficient b).dependsOnAny basis = false := by
  obtain ⟨i, hi, hmem⟩ := coefficient_mem (h.exists_entry (List.mem_append_left _ hb))
  exact h.free _ hmem (mem_basis_of_beq hbasis (h.mem_elements hmem) hb hi)

end Basis

/-! ## Values -/

/-- The elements times their coefficients, added up. -/
def total (σ : String → Rat) (c : LinearCombination) : Rat :=
  (c.terms.map fun p => value σ p.2 * value σ p.1).sum

theorem total_addTo {w : Rat} (h : ∃ p ∈ c.terms, (p.1 == b) = true)
    (hnew : value σ ((sumOf [c.coefficient b, amount]).evaluate ctx) =
      value σ (c.coefficient b) + w) :
    total σ (c.addTo b amount ctx) = total σ c + w * value σ b := by
  obtain ⟨before, i, after, hterms, hi, hadded⟩ := exists_addTo amount ctx h
  rw [total, hadded, List.map_append, List.map_cons, List.sum_append, List.sum_cons, hnew,
    value_of_beq hi, total, hterms, List.map_append, List.map_cons, List.sum_append, List.sum_cons,
    value_of_beq hi]
  ring

/-- **The combination as a sum** has the total as its value: zero coefficients are left out. -/
theorem denotes_toExpr (h : ∀ p ∈ c.terms, Defined σ p.1 ∧ Defined σ p.2) :
    Denotes σ c.toExpr (total σ c) := by
  have hproduct : ∀ p ∈ c.terms.filter fun p => !p.2.isZero,
      Denotes σ (productOf [p.2, p.1]) (value σ p.2 * value σ p.1) := fun p hp =>
    have ⟨hb, ha⟩ := h p (List.mem_of_mem_filter hp)
    denotes_productOf_pair ⟨ha, rfl⟩ ⟨hb, rfl⟩
  have hsum := denotes_sumOf_map hproduct
  refine ⟨hsum.defined, hsum.value_eq.trans (sum_map_filter fun p _ hp => ?_)⟩
  have hzero : value σ p.2 = 0 := value_of_isZero (by simpa using hp)
  rw [hzero, zero_mul]

/-- The coefficients are meant, and with the elements they add up to `v`. -/
structure Totals (σ : String → Rat) (c : LinearCombination) (v : Rat) : Prop where
  defined : ∀ p ∈ c.terms, Defined σ p.2
  total_eq : total σ c = v

theorem totals_zero (σ : String → Rat) (basis : List Expr) : Totals σ (zero basis) 0 where
  defined := by
    rw [zero, List.forall_mem_append, List.forall_mem_singleton, List.forall_mem_map]
    exact ⟨fun _ _ => .const 0, .const 0⟩
  total_eq := by
    refine List.sum_eq_zero (List.forall_mem_map.mpr ?_)
    rw [zero, List.forall_mem_append, List.forall_mem_singleton, List.forall_mem_map]
    have hzero : value σ .zero = 0 := value_const 0
    exact ⟨fun b _ => by rw [hzero, zero_mul], by rw [hzero, zero_mul]⟩

section Totals

variable {v : Rat} (hover : OverBasis basis c)
include hover

theorem Totals.defined_coefficient (h : Totals σ c v) (hb : b ∈ basis ++ [.one]) :
    Defined σ (c.coefficient b) := by
  obtain ⟨i, -, hmem⟩ := coefficient_mem (hover.exists_entry hb)
  exact h.defined _ hmem

/-- An amount that is added to a coefficient. -/
theorem Totals.addTo (ctx : Context) (h : Totals σ c v) (hb : b ∈ basis ++ [.one])
    (hcanon : Canonical amount) (hd : Defined σ amount)
    (hexact : ExactPowers (sumOf [c.coefficient b, amount])) :
    Totals σ (c.addTo b amount ctx) (v + value σ amount * value σ b) := by
  have hentry := hover.exists_entry hb
  have hsum := denotes_sumOf (forall_mem_pair (h.defined_coefficient hover hb) hd)
  have hcanonical := canonical_sumOf (forall_mem_pair (hover.canonical_coefficient hb) hcanon)
  have heval := evaluate_eq hcanonical ctx
  have hdenotes := denotes_evaluated hcanonical hexact hsum.defined
  refine ⟨forall_mem_addTo hentry h.defined fun i _ _ => ?_, ?_⟩
  · dsimp only
    exact heval ▸ hdenotes.defined
  · rw [total_addTo hentry, h.total_eq]
    rw [heval, hdenotes.value_eq, hsum.value_eq, List.map_cons, List.map_singleton, List.sum_cons,
      List.sum_singleton]

end Totals

section Values

variable {v : Rat} (hbasis : ∀ b ∈ basis, ∃ n, b = symbol n) (hne : ∀ b ∈ basis, value σ b ≠ 0)
include hbasis hne

theorem denotes_divide_basis (hb : b ∈ basis) (hd : Defined σ t) :
    Denotes σ (divide t b) (value σ t * (value σ b)⁻¹) := by
  obtain ⟨n, rfl⟩ := hbasis b hb
  exact denotes_divide ⟨hd, rfl⟩ ⟨.var n none, rfl⟩ (hne _ hb)

/-- **A step adds the value of the term**, if the powers of constants on the way are exact. -/
theorem Totals.addTerm (hover : OverBasis basis c) (h : Totals σ c v) (ht : Canonical t)
    (hd : Defined σ t) (hexact : ∀ e ∈ termVisits ctx basis c t, ExactPowers e) :
    Totals σ (addTerm basis ctx c t) (v + value σ t) := by
  cases hdivide : divideTerm? basis t ctx with
  | none =>
    rw [termVisits_of_none hdivide] at hexact
    have hadded := Totals.addTo hover ctx h (List.mem_append_right _ (List.mem_singleton_self _))
      ht hd (List.forall_mem_singleton.mp hexact)
    rw [addTerm_of_none hdivide]
    rwa [Expr.one, value_const, mul_one] at hadded
  | some p =>
    obtain ⟨b, q⟩ := p
    obtain ⟨hb, rfl, hq, -⟩ := exists_of_divideTerm? hbasis ht hdivide
    rw [termVisits_of_some hdivide] at hexact
    obtain ⟨hquotient, hsum⟩ := List.forall_mem_cons.mp hexact
    have hdivided := denotes_divide_basis hbasis hne hb hd
    have hdenotes := denotes_evaluated (canonical_divide_basis hbasis hb ht) hquotient hdivided.defined
    have hadded := Totals.addTo hover ctx h (List.mem_append_left _ hb) hq hdenotes.defined
      (List.forall_mem_singleton.mp hsum)
    rw [addTerm_of_some hdivide]
    rwa [hdenotes.value_eq, hdivided.value_eq, inv_mul_cancel_right₀ (hne b hb)] at hadded

/-- **A run adds up the values of the terms.** -/
theorem Totals.foldl_addTerm (ctx : Context) (hover : OverBasis basis c) (h : Totals σ c v)
    (hts : ∀ t ∈ ts, Canonical t ∧ Defined σ t)
    (hexact : ∀ e ∈ combinationVisits ctx basis c ts, ExactPowers e) :
    Totals σ (ts.foldl (LinearCombination.addTerm basis ctx) c) (v + (ts.map (value σ)).sum) := by
  induction ts generalizing c v with
  | nil => simpa using h
  | cons t ts ih =>
    obtain ⟨ht, hts⟩ := List.forall_mem_cons.mp hts
    obtain ⟨hterm, hrest⟩ := List.forall_mem_append.mp hexact
    have hrun := ih (hover.addTerm hbasis ht.1)
      (h.addTerm hbasis hne hover ht.1 ht.2 hterm) hts hrest
    rwa [add_assoc, ← List.sum_cons, ← List.map_cons] at hrun

end Values

/-! ## Degrees -/

/-- The terms of the coefficients have degrees up to `N`. -/
def Within (N : Nat) (c : LinearCombination) : Prop :=
  ∀ p ∈ c.terms, largestDegree p.2.terms ≤ N

theorem within_zero (N : Nat) (basis : List Expr) : Within N (zero basis) := by
  have hzero : largestDegree Expr.zero.terms ≤ N := by simp [Expr.zero, largestDegree]
  rw [Within, zero, List.forall_mem_append, List.forall_mem_singleton, List.forall_mem_map]
  exact ⟨fun _ _ => hzero, hzero⟩

section Degrees

variable {v : Rat} {N : Nat} (hN : N < Rational.maxExactExponent) (hover : OverBasis basis c)
  (h : Totals σ c v) (hwithin : Within N c)
include hN hover h hwithin

/-- An amount of terms within the bound. -/
theorem within_addTo (ctx : Context) (hb : b ∈ basis ++ [.one]) (hcanon : Canonical amount)
    (hd : Defined σ amount) (hle : largestDegree amount.terms ≤ N) :
    ExactPowers (sumOf [c.coefficient b, amount]) ∧ Within N (c.addTo b amount ctx) := by
  have hentry := hover.exists_entry hb
  have hpair := forall_mem_pair (hover.canonical_coefficient hb) hcanon
  have hcanonical := canonical_sumOf hpair
  have hdefined := (denotes_sumOf (forall_mem_pair (h.defined_coefficient hover hb) hd)).defined
  have hcoefficient : largestDegree (c.coefficient b).terms ≤ N := by
    obtain ⟨i, -, hmem⟩ := coefficient_mem hentry
    exact hwithin _ hmem
  have hterms := largestDegree_terms_sumOf_le hpair (forall_mem_pair hcoefficient hle)
  refine ⟨exactPowers_of_degree_le hcanonical hdefined ?_, ?_⟩
  · have := exponentBound_le_largestDegree (sumOf [c.coefficient b, amount])
    have := degree_le_exponentBound (sumOf [c.coefficient b, amount])
    omega
  · refine forall_mem_addTo hentry hwithin fun i _ _ => ?_
    dsimp only
    rw [evaluate_eq hcanonical]
    exact largestDegree_terms_evaluated_le hcanonical hdefined hN hterms

variable (hbasis : ∀ b ∈ basis, ∃ n, b = symbol n) (hne : ∀ b ∈ basis, value σ b ≠ 0)
include hbasis hne

/-- A step computes exact powers of constants only, and keeps the bound. -/
theorem exact_termVisits (ctx : Context) (ht : Canonical t) (hd : Defined σ t) (hle : t.degree ≤ N) :
    (∀ e ∈ termVisits ctx basis c t, ExactPowers e) ∧ Within N (addTerm basis ctx c t) := by
  cases hdivide : divideTerm? basis t ctx with
  | none =>
    have hadded := within_addTo hN hover h hwithin ctx
      (List.mem_append_right _ (List.mem_singleton_self _)) ht hd
      ((largestDegree_terms_le t).trans hle)
    rw [termVisits_of_none hdivide, addTerm_of_none hdivide]
    exact ⟨List.forall_mem_singleton.mpr hadded.1, hadded.2⟩
  | some p =>
    obtain ⟨b, q⟩ := p
    obtain ⟨hb, rfl, hq, -⟩ := exists_of_divideTerm? hbasis ht hdivide
    have hcanon := canonical_divide_basis hbasis hb ht
    have hdivided := (denotes_divide_basis hbasis hne hb hd).defined
    have hdegree : (divide t b).degree ≤ N := by
      obtain ⟨n, rfl⟩ := hbasis b hb
      refine (degree_divide_le t _).trans ?_
      rwa [exponentBound_symbol]
    have hsound := sound_of_degree_le hcanon hdivided (hdegree.trans hN.le)
    have hadded := within_addTo hN hover h hwithin ctx (List.mem_append_left _ hb) hq
      hsound.denotes.defined
      ((largestDegree_terms_le _).trans (hsound.bounded.degree_le.trans hdegree))
    rw [termVisits_of_some hdivide, addTerm_of_some hdivide]
    exact ⟨forall_mem_pair (exactPowers_of_degree_le hcanon hdivided (hdegree.trans hN.le)) hadded.1,
      hadded.2⟩

/-- **Within the bound all powers of constants are exact.** -/
theorem exact_combinationVisits (hts : ∀ t ∈ ts, Canonical t ∧ Defined σ t ∧ t.degree ≤ N) :
    ∀ e ∈ combinationVisits ctx basis c ts, ExactPowers e := by
  induction ts generalizing c v with
  | nil => exact fun _ he => absurd he List.not_mem_nil
  | cons t ts ih =>
    obtain ⟨⟨hcanon, hd, hle⟩, hts⟩ := List.forall_mem_cons.mp hts
    obtain ⟨hexact, hnext⟩ := exact_termVisits hN hover h hwithin hbasis hne ctx hcanon hd hle
    exact List.forall_mem_append.mpr ⟨hexact, ih (hover.addTerm hbasis hcanon)
      (h.addTerm hbasis hne hover hcanon hd hexact) hnext hts⟩

end Degrees

/-! ## The combination of an expression -/

/-- All powers of constants that are computed when the linear combination of an expression is read off
are exact. -/
def ExactDecomposition (ctx : Context) (basis : List Expr) (e : Expr) : Prop :=
  ExactExpansion ctx e ∧
    ∀ f ∈ combinationVisits ctx basis (zero basis) (e.expandPlain ctx).terms, ExactPowers f

/-- **Linear decomposition is exact.** For any variables, every expression is read as a linear
combination in which the coefficient of each of them depends on none of them. Where the expression has
a value and none of the variables is `0`, the combination as a sum has the same value, provided that
the powers of constants computed on the way are exact; and they are exact for an expression whose
degree is below `Rational.maxExactExponent`. -/
theorem denotes_decomposition (names : List String) {e : Expr} (he : Canonical e) (ctx : Context) :
    (∀ n ∈ names, ((ofExpr (names.map symbol) e ctx).coefficient (symbol n)).dependsOnAny
      (names.map symbol) = false) ∧
    ∀ (σ : String → Rat) (v : Rat), Denotes σ e v → (∀ n ∈ names, σ n ≠ 0) →
      (ExactDecomposition ctx (names.map symbol) e →
        Denotes σ (ofExpr (names.map symbol) e ctx).toExpr v) ∧
      (e.degree < Rational.maxExactExponent → ExactDecomposition ctx (names.map symbol) e) := by
  have hbasis : ∀ b ∈ names.map symbol, ∃ n, b = symbol n :=
    List.forall_mem_map.mpr fun n _ => ⟨n, rfl⟩
  have hcanon : ∀ t ∈ (e.expandPlain ctx).terms, Canonical t :=
    (canonical_expandPlain he).of_terms
  have hzero := overBasis_zero hbasis
  have hover : OverBasis (names.map symbol) (ofExpr (names.map symbol) e ctx) :=
    overBasis_foldl hbasis hzero hcanon
  refine ⟨fun n hn => hover.free_coefficient hbasis (List.mem_map_of_mem hn), fun σ v h hn0 => ?_⟩
  obtain ⟨hd, rfl⟩ := h
  have hne : ∀ b ∈ names.map symbol, value σ b ≠ 0 :=
    List.forall_mem_map.mpr fun n hn => by rw [symbol, value_var]; exact hn0 n hn
  have hdefined : ExactExpansion ctx e → ∀ t ∈ (e.expandPlain ctx).terms, Defined σ t :=
    fun hexact => (denotes_expandPlain he hexact hd).defined.of_terms
  refine ⟨fun hexact => ?_, fun hlt => ?_⟩
  · have hrun := Totals.foldl_addTerm hbasis hne ctx hzero (totals_zero σ _)
      (fun t ht => ⟨hcanon t ht, hdefined hexact.1 t ht⟩) hexact.2
    rw [value_terms, zero_add, (denotes_expandPlain he hexact.1 hd).value_eq] at hrun
    have hentries : ∀ p ∈ (ofExpr (names.map symbol) e ctx).terms, Defined σ p.1 ∧ Defined σ p.2 := by
      refine fun p hp => ⟨?_, hrun.defined p hp⟩
      rcases List.mem_append.mp (hover.mem_elements hp) with hmem | hmem
      · obtain ⟨n, hn⟩ := hbasis _ hmem
        exact hn ▸ .var n none
      · exact List.mem_singleton.mp hmem ▸ .const 1
    exact hrun.total_eq ▸ denotes_toExpr hentries
  · have hbounded : BoundedExpansion ctx e := boundedExpansion_of_degree_le he hd hlt.le
    refine ⟨hbounded.exact, exact_combinationVisits hlt hzero (totals_zero σ _) (within_zero _ _)
      hbasis hne fun t ht => ⟨hcanon t ht, hdefined hbounded.exact t ht, ?_⟩⟩
    exact (degree_of_mem_terms ht).trans hbounded.degree_le

/-- `(1 + a)*x` in `x` at `a = x = 1`: the coefficient is `1 + a`. -/
theorem denotes_decomposition_product :
    let e := productOf [sumOf [.const 1, symbol "a"], symbol "x"]
    let basis := ["x"].map symbol
    let c := ofExpr basis e (.inert .standard)
    (c.coefficient (symbol "x")).dependsOnAny basis = false ∧ Denotes (fun _ => 1) c.toExpr 2 := by
  intro e basis c
  have hterms : ∀ t ∈ [.const 1, symbol "a"], Canonical t ∧ Defined (fun _ => 1) t ∧ t.degree ≤ 0 :=
    forall_mem_pair ⟨.const 1, .const 1, by simp⟩ ⟨.var "a", .var "a" none, by simp [symbol, degree]⟩
  have hsum := denotes_sumOf fun t ht => (hterms t ht).2.1
  have hcanon : Canonical e := canonical_productOf (forall_mem_pair
    (canonical_sumOf fun t ht => (hterms t ht).1) (.var "x"))
  have hproduct := denotes_productOf_pair hsum ⟨.var "x" none, value_var "x" none⟩
  have hvalue : Denotes (fun _ => 1) e 2 :=
    ⟨hproduct.defined, hproduct.value_eq.trans (by norm_num [symbol])⟩
  have hdegree : e.degree < Rational.maxExactExponent := by
    have hbound := (degree_le_exponentBound _).trans
      (exponentBound_sumOf_le fun t ht => (hterms t ht).2.2)
    refine ((degree_productOf_le _).trans ?_).trans_lt (by decide : 1 < Rational.maxExactExponent)
    rwa [List.map_cons, List.map_singleton, List.sum_cons, List.sum_singleton,
      show (symbol "x").degree = 0 by rw [symbol, degree]]
  obtain ⟨hfree, hdenotes⟩ := denotes_decomposition ["x"] hcanon (.inert .standard)
  obtain ⟨htoExpr, hexact⟩ := hdenotes (fun _ => 1) 2 hvalue fun _ _ => one_ne_zero
  exact ⟨hfree "x" (List.mem_singleton_self _), htoExpr (hexact hdegree)⟩

end LinearCombination

end SymbolicAlgebra
