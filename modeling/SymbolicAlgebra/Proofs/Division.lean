import Mathlib.Algebra.MonoidAlgebra.Defs
import Mathlib.Tactic.Abel
import SymbolicAlgebra.Polynomial
import SymbolicAlgebra.Proofs.Closed

/-!
# Long division of polynomials

Long division of polynomials with rational coefficients and no negative degrees. Coefficients by
degree stand for an element of `AddMonoidAlgebra Rat Int` (`laurent`), in which a change of one
coefficient is the difference of a monomial. A step of the division keeps
`quotient * d + remainder`, and the remainder has a lower degree afterwards, although its leading
coefficient is taken out and not left to cancel.

Results:
* `coefficient_eq`: the coefficients of a polynomial are those of what it stands for.
* `invariant_cancelLeading`: one step of the division.
* `invariant_run`: as many steps as set aside leave a remainder of lower degree than the divisor.
* `divide_quotient_remainder`: quotient and remainder.
-/

namespace SymbolicAlgebra.Polynomial

open Expr

/-! ## Coefficients by degree -/

section ByDegree

variable {α : Type} {k : Int} {a : α} {f : α → α} {l : ByDegree α}

/-- The degrees ascend. -/
def Ascending (l : ByDegree α) : Prop := l.Pairwise fun a b => a.1 < b.1

theorem mem_update {e : Int × α} (h : e ∈ update k a f l) :
    e ∈ l ∨ e.1 = k ∧ (e.2 = f a ∨ ∃ c, (k, c) ∈ l ∧ e.2 = f c) := by
  induction l with
  | nil => exact .inr (List.mem_singleton.mp h ▸ ⟨rfl, .inl rfl⟩)
  | cons e' l ih =>
    obtain ⟨d, c⟩ := e'
    rw [update] at h
    split at h
    · rcases List.mem_cons.mp h with rfl | h
      · exact .inr ⟨rfl, .inl rfl⟩
      · exact .inl h
    split at h
    · next hk =>
      subst hk
      rcases List.mem_cons.mp h with rfl | h
      · exact .inr ⟨rfl, .inr ⟨c, List.mem_cons_self, rfl⟩⟩
      · exact .inl (List.mem_cons_of_mem _ h)
    · rcases List.mem_cons.mp h with rfl | h
      · exact .inl List.mem_cons_self
      · rcases ih h with h | ⟨hk, h | ⟨c', hc', h⟩⟩
        · exact .inl (List.mem_cons_of_mem _ h)
        · exact .inr ⟨hk, .inl h⟩
        · exact .inr ⟨hk, .inr ⟨c', List.mem_cons_of_mem _ hc', h⟩⟩

theorem ascending_update (h : Ascending l) : Ascending (update k a f l) := by
  induction l with
  | nil => exact List.pairwise_singleton _ _
  | cons e l ih =>
    obtain ⟨d, c⟩ := e
    obtain ⟨hd, hl⟩ := List.pairwise_cons.mp h
    rw [update]
    split
    · next hk =>
      refine List.pairwise_cons.mpr ⟨fun e he => ?_, h⟩
      rcases List.mem_cons.mp he with rfl | he
      · exact hk
      · exact hk.trans (hd e he)
    split
    · exact List.pairwise_cons.mpr ⟨hd, hl⟩
    · next hlt hne =>
      refine List.pairwise_cons.mpr ⟨fun e he => ?_, ih hl⟩
      rcases mem_update he with he | ⟨hk, -⟩
      · exact hd e he
      · exact hk ▸ lt_of_le_of_ne (not_lt.mp hlt) (Ne.symm hne)

/-- A degree below all others is put in front. -/
theorem update_of_lt (h : ∀ e ∈ l, k < e.1) : update k a f l = (k, f a) :: l := by
  cases l with
  | nil => rfl
  | cons e l => exact if_pos (h e List.mem_cons_self)

theorem le_of_getLast? {top : Int} (h : Ascending l) (hlast : l.getLast? = some (top, a)) :
    ∀ e ∈ l, e.1 ≤ top := by
  obtain ⟨l, rfl⟩ := List.getLast?_eq_some_iff.mp hlast
  intro e he
  rcases List.mem_append.mp he with he | he
  · exact ((List.pairwise_append.mp h).2.2 e he _ List.mem_cons_self).le
  · exact (List.mem_singleton.mp he ▸ le_rfl)

end ByDegree

/-! ## Rational coefficients -/

section Laurent

variable {k : Int} {m : Rat} {c : Expr} {l : ByDegree Expr}

/-- The value of a constant coefficient. -/
def rational (c : Expr) : Rat := c.asConst?.getD 0

/-- The Laurent polynomial with these coefficients. -/
noncomputable def laurent (l : ByDegree Expr) : AddMonoidAlgebra Rat Int :=
  (l.map fun e => .single e.1 (rational e.2)).sum

@[simp] theorem laurent_nil : laurent [] = 0 := rfl

@[simp] theorem laurent_cons (e : Int × Expr) (l : ByDegree Expr) :
    laurent (e :: l) = .single e.1 (rational e.2) + laurent l := by
  simp [laurent]

/-- All coefficients are constants. -/
def Constant (l : ByDegree Expr) : Prop := ∀ e ∈ l, ∃ q, e.2 = .const q

theorem coeff_laurent_eq_zero (h : ∀ e ∈ l, e.1 ≠ k) : (laurent l).coeff k = 0 := by
  induction l with
  | nil => rfl
  | cons e l ih =>
    obtain ⟨he, hl⟩ := List.forall_mem_cons.mp h
    rw [laurent_cons, AddMonoidAlgebra.coeff_add, Finsupp.add_apply, ih hl,
      AddMonoidAlgebra.coeff_single, Finsupp.single_eq_of_ne (Ne.symm he), add_zero]

theorem coeff_laurent (h : Ascending l) (hmem : (k, c) ∈ l) :
    (laurent l).coeff k = rational c := by
  induction l with
  | nil => cases hmem
  | cons e l ih =>
    obtain ⟨he, hl⟩ := List.pairwise_cons.mp h
    rw [laurent_cons, AddMonoidAlgebra.coeff_add, Finsupp.add_apply, AddMonoidAlgebra.coeff_single]
    rcases List.mem_cons.mp hmem with rfl | hmem
    · rw [coeff_laurent_eq_zero fun e hmem => (he e hmem).ne', Finsupp.single_eq_same, add_zero]
    · rw [ih hl hmem, Finsupp.single_eq_of_ne (he _ hmem).ne', zero_add]

/-- Lowering one coefficient subtracts a monomial. -/
theorem laurent_update {f : Expr → Expr} (hl : Constant l) (hf : ∀ q, f (.const q) = .const (q - m)) :
    laurent (update k .zero f l) = laurent l - .single k m := by
  have hvalue (q : Rat) (d : Int) : (.single d (rational (f (.const q))) : AddMonoidAlgebra Rat Int) =
      .single d q - .single d m := by
    rw [hf, ← AddMonoidAlgebra.single_sub]
    rfl
  have hzero : (.single k (rational (f .zero)) : AddMonoidAlgebra Rat Int) = -.single k m :=
    (hvalue 0 k).trans (by rw [AddMonoidAlgebra.single_zero, zero_sub])
  induction l with
  | nil => rw [update, laurent_cons, hzero, laurent_nil, add_zero, zero_sub]
  | cons e l ih =>
    obtain ⟨d, c⟩ := e
    obtain ⟨⟨q, rfl⟩, hrest⟩ := List.forall_mem_cons.mp hl
    rw [update]
    split
    · rw [laurent_cons, hzero]
      abel
    split
    · next hk =>
      rw [laurent_cons, laurent_cons, hvalue, hk]
      change _ = AddMonoidAlgebra.single d q + _ - _
      abel
    · rw [laurent_cons, laurent_cons, ih hrest]
      abel

/-- Taking out a degree at which the coefficients add up to zero. -/
theorem laurent_filter_degree (h : (laurent l).coeff k = 0) :
    laurent (l.filter fun e => e.1 != k) = laurent l := by
  have hsplit (l : ByDegree Expr) : laurent l =
      laurent (l.filter fun e => e.1 != k) + .single k ((laurent l).coeff k) := by
    induction l with
    | nil => simp
    | cons e l ih =>
      rw [laurent_cons, AddMonoidAlgebra.coeff_add, Finsupp.add_apply,
        AddMonoidAlgebra.coeff_single, List.filter_cons, AddMonoidAlgebra.single_add]
      by_cases he : e.1 = k
      · rw [if_neg (by simp [he]), he, Finsupp.single_eq_same]
        nth_rewrite 1 [ih]
        abel
      · rw [if_pos (by simp [he]), laurent_cons, Finsupp.single_eq_of_ne (Ne.symm he),
          AddMonoidAlgebra.single_zero]
        nth_rewrite 1 [ih]
        abel
  conv_rhs => rw [hsplit l, h, AddMonoidAlgebra.single_zero, add_zero]

/-- Zero coefficients do not count. -/
theorem laurent_filter_isZero (l : ByDegree Expr) :
    laurent (l.filter fun e => !e.2.isZero) = laurent l := by
  induction l with
  | nil => rfl
  | cons e l ih =>
    rw [List.filter_cons, laurent_cons, ← ih]
    cases hzero : e.2.isZero
    · exact laurent_cons _ _
    · have hrational : rational e.2 = 0 := by
        obtain ⟨d, c⟩ := e
        cases c with
        | const q => exact eq_of_beq hzero
        | _ => rfl
      rw [hrational, AddMonoidAlgebra.single_zero, zero_add]
      rfl

end Laurent

/-! ## Polynomials with rational coefficients -/

/-- Ascending degrees of at least zero with constant coefficients. -/
structure RationalTerms (l : ByDegree Expr) : Prop where
  ascending : Ascending l
  degree_nonneg : ∀ e ∈ l, 0 ≤ e.1
  constant : Constant l

theorem RationalTerms.filter {l : ByDegree Expr} (h : RationalTerms l) (q : Int × Expr → Bool) :
    RationalTerms (l.filter q) where
  ascending := h.ascending.sublist List.filter_sublist
  degree_nonneg e he := h.degree_nonneg e (List.mem_of_mem_filter he)
  constant e he := h.constant e (List.mem_of_mem_filter he)

/-- A polynomial with rational coefficients and without negative degrees. -/
structure IsRational (p : Polynomial) : Prop extends RationalTerms p.coefficients where
  coefficient_ne_zero : ∀ e ∈ p.coefficients, e.2.isZero = false

/-- What a polynomial with rational coefficients stands for. -/
noncomputable def toLaurent (p : Polynomial) : AddMonoidAlgebra Rat Int := laurent p.coefficients

section Polynomials

variable {p : Polynomial} {x : Expr} {l : ByDegree Expr}

/-- **The coefficients of a polynomial** are those of what it stands for. -/
theorem coefficient_eq (h : p.IsRational) (k : Int) :
    p.coefficient k = .const (p.toLaurent.coeff k) := by
  rw [coefficient, toLaurent]
  cases hfind : p.coefficients.find? fun e => e.1 == k with
  | none =>
    rw [coeff_laurent_eq_zero fun e he hk => by simpa [hk] using List.find?_eq_none.mp hfind e he]
    rfl
  | some e =>
    obtain rfl : e.1 = k := by simpa using List.find?_some hfind
    have hmem := List.mem_of_find?_eq_some hfind
    obtain ⟨q, hq⟩ := h.constant e hmem
    rw [coeff_laurent h.ascending hmem, hq, Option.map_some, Option.getD_some, hq]
    rfl

theorem toLaurent_ofCoefficients (l : ByDegree Expr) (x : Expr) :
    (ofCoefficients l x).toLaurent = laurent l :=
  laurent_filter_isZero l

theorem RationalTerms.ofCoefficients (h : RationalTerms l) (x : Expr) :
    (ofCoefficients l x).IsRational where
  toRationalTerms := h.filter _
  coefficient_ne_zero e he := by simpa using List.of_mem_filter he

/-- The leading coefficient. -/
theorem IsRational.exists_lead (h : p.IsRational) (h0 : p.isZero = false) :
    ∃ lead, lead ≠ 0 ∧ (p.degree, .const lead) ∈ p.coefficients ∧
      p.coefficient p.degree = .const lead ∧ ∀ e ∈ p.coefficients, e.1 ≤ p.degree := by
  have hne : p.coefficients ≠ [] := by
    intro hnil
    rw [isZero, hnil] at h0
    cases h0
  obtain ⟨⟨top, c⟩, hlast⟩ : ∃ e, p.coefficients.getLast? = some e :=
    ⟨_, List.getLast?_eq_some_getLast hne⟩
  have hmem : (top, c) ∈ p.coefficients := List.mem_of_getLast? hlast
  have hdegree : p.degree = top := by
    rw [degree, hlast]
    exact max_eq_right (h.degree_nonneg _ hmem)
  obtain ⟨lead, rfl⟩ := h.constant _ hmem
  refine ⟨lead, ?_, hdegree ▸ hmem, ?_, hdegree ▸ le_of_getLast? h.ascending hlast⟩
  · rintro rfl
    cases h.coefficient_ne_zero _ hmem
  · rw [coefficient_eq h, hdegree, toLaurent, coeff_laurent h.ascending hmem]
    rfl

end Polynomials

/-! ## Division -/

section Division

variable {d : Polynomial} {lead : Rat} {r : ByDegree Expr} {n : AddMonoidAlgebra Rat Int}
  {state : Division} {ctx : Context}

/-- Subtracts the multiple of a polynomial by `t` times the power `shift`. -/
def subtractMultiple (ctx : Context) (t : Expr) (shift : Int) (d r : ByDegree Expr) :
    ByDegree Expr :=
  d.foldl (fun r e => update (e.1 + shift) .zero
    (fun old => (Expr.subtract old (.productOf [e.2, t])).evaluate ctx) r) r

theorem evaluate_subtract_product (a b t : Rat) (ctx : Context) :
    (Expr.subtract (.const a) (.productOf [.const b, .const t])).evaluate ctx =
      .const (a - b * t) := by
  have h := (Computes.const a).sumOf ((Computes.const b).productOf (.const t)).negate
  rw [← sub_eq_add_neg] at h
  exact h.evaluate ctx

/-- **Subtracting a multiple** subtracts the product with the monomial, and adds no degrees but those
of the product. -/
theorem subtractMultiple_spec (ctx : Context) (t : Rat) {shift : Int} (hshift : 0 ≤ shift) :
    ∀ d r : ByDegree Expr, RationalTerms d → RationalTerms r →
      let s := subtractMultiple ctx (.const t) shift d r
      laurent s = laurent r - .single shift t * laurent d ∧ RationalTerms s ∧
        ∀ e ∈ s, (∃ e' ∈ r, e.1 = e'.1) ∨ ∃ e' ∈ d, e.1 = e'.1 + shift := by
  intro d
  induction d with
  | nil => exact fun r _ hr => ⟨by simp [subtractMultiple], hr, fun e he => .inl ⟨e, he, rfl⟩⟩
  | cons e d ih =>
    intro r hd hr
    obtain ⟨q, hq⟩ := hd.constant e List.mem_cons_self
    have hrest : RationalTerms d := ⟨hd.ascending.of_cons,
      (List.forall_mem_cons.mp hd.degree_nonneg).2, (List.forall_mem_cons.mp hd.constant).2⟩
    -- The remainder after the first coefficient of the divisor.
    set step : Expr → Expr := fun old =>
      (Expr.subtract old (.productOf [e.2, .const t])).evaluate ctx with hstep
    have hvalue (a : Rat) : step (.const a) = .const (a - q * t) := by
      rw [hstep, hq]
      exact evaluate_subtract_product a q t ctx
    have hfirst : RationalTerms (update (e.1 + shift) .zero step r) := by
      refine ⟨ascending_update hr.ascending, fun e' he' => ?_, fun e' he' => ?_⟩ <;>
        rcases mem_update he' with hmem | ⟨hk, h⟩
      · exact hr.degree_nonneg e' hmem
      · exact hk ▸ add_nonneg (hd.degree_nonneg e List.mem_cons_self) hshift
      · exact hr.constant e' hmem
      · rcases h with h | ⟨c, hc, h⟩
        · exact ⟨_, h.trans (hvalue 0)⟩
        · obtain ⟨a, rfl⟩ := hr.constant _ hc
          exact ⟨_, h.trans (hvalue a)⟩
    obtain ⟨hlaurent, hs, hdegrees⟩ := ih _ hrest hfirst
    refine ⟨?_, hs, fun e' he' => ?_⟩
    · have hmonomial : (AddMonoidAlgebra.single shift t * .single e.1 (rational e.2) :
          AddMonoidAlgebra Rat Int) = .single (e.1 + shift) (q * t) := by
        rw [AddMonoidAlgebra.single_mul_single, hq, add_comm, mul_comm]
        rfl
      change laurent (subtractMultiple ctx (.const t) shift d (update (e.1 + shift) .zero step r)) = _
      rw [hlaurent, laurent_update hr.constant hvalue, laurent_cons, mul_add, hmonomial]
      abel
    · rcases hdegrees e' he' with ⟨e₁, he₁, h⟩ | ⟨e₁, he₁, h⟩
      · rcases mem_update he₁ with he₁ | ⟨hk, -⟩
        · exact .inl ⟨e₁, he₁, h⟩
        · exact .inr ⟨e, List.mem_cons_self, h.trans hk⟩
      · exact .inr ⟨e₁, List.mem_cons_of_mem _ he₁, h⟩

/-- The course of the division of `n` by `d`: the remainder has come below the degree of `d` plus
`bound`, and the quotient has all its terms from the degree `bound` on. -/
structure Invariant (n : AddMonoidAlgebra Rat Int) (d : Polynomial) (bound : Int)
    (state : Division) : Prop where
  laurent_eq : n = laurent state.quotient * d.toLaurent + laurent state.remainder
  quotient : RationalTerms state.quotient
  remainder : RationalTerms state.remainder
  le_quotient : ∀ e ∈ state.quotient, bound ≤ e.1
  remainder_lt : ∀ e ∈ state.remainder, e.1 < d.degree + bound

/-- **One step of the division** keeps the invariant, with the remainder below its former top. -/
theorem invariant_cancelLeading {bound top : Int} {c : Expr} (hd : d.IsRational)
    (h0 : d.isZero = false) (h : Invariant n d bound state)
    (hlast : state.remainder.getLast? = some (top, c)) (htop : d.degree ≤ top) :
    Invariant n d (top - d.degree) (state.cancelLeading d ctx top c) := by
  obtain ⟨lead, hlead, hmem, hcoefficient, hle⟩ := hd.exists_lead h0
  obtain ⟨a, rfl⟩ := h.remainder.constant _ (List.mem_of_getLast? hlast)
  set shift := top - d.degree with hshift
  have hshift0 : 0 ≤ shift := sub_nonneg.mpr htop
  have hlt : shift < bound := by
    have hbelow := h.remainder_lt _ (List.mem_of_getLast? hlast)
    change top < _ at hbelow
    omega
  -- The coefficient of the quotient.
  have ht : (Expr.divide (.const a) (d.coefficient d.degree)).evaluate ctx = .const (a / lead) := by
    rw [hcoefficient]
    exact ((Computes.const a).divide (.const lead) hlead).evaluate ctx
  have hstate : state.cancelLeading d ctx top (.const a) =
      ⟨(shift, .const (a / lead)) :: state.quotient,
        ((subtractMultiple ctx (.const (a / lead)) shift d.coefficients state.remainder).filter
          fun e => e.1 != top).filter fun e => !e.2.isZero⟩ := by
    rw [Division.cancelLeading, ht,
      update_of_lt fun e he => lt_of_lt_of_le hlt (h.le_quotient e he)]
    rfl
  obtain ⟨hlaurent, hs, hdegrees⟩ :=
    subtractMultiple_spec ctx (a / lead) hshift0 _ _ hd.toRationalTerms h.remainder
  set s := subtractMultiple ctx (.const (a / lead)) shift d.coefficients state.remainder
  -- The leading terms cancel, so that taking the top out changes nothing.
  have htopCoefficient : (laurent s).coeff top = 0 := by
    have hleadTerm : (laurent d.coefficients).coeff d.degree = lead :=
      coeff_laurent hd.ascending hmem
    have hproduct : (AddMonoidAlgebra.single shift (a / lead) * laurent d.coefficients).coeff top =
        a / lead * lead := by
      rw [AddMonoidAlgebra.coeff_single_mul_eq_mul_coeff d.degree fun m _ => by omega, hleadTerm]
    rw [hlaurent, AddMonoidAlgebra.coeff_sub, Finsupp.sub_apply, hproduct,
      coeff_laurent h.remainder.ascending (List.mem_of_getLast? hlast), div_mul_cancel₀ a hlead]
    exact sub_self a
  have hbelow : ∀ e ∈ s, e.1 ≤ top := by
    intro e he
    rcases hdegrees e he with ⟨e', he', heq⟩ | ⟨e', he', heq⟩
    · exact heq ▸ le_of_getLast? h.remainder.ascending hlast e' he'
    · have := hle e' he'
      omega
  rw [hstate]
  refine ⟨?_, ?_, (hs.filter _).filter _, ?_, fun e he => ?_⟩
  · rw [laurent_filter_isZero, laurent_filter_degree htopCoefficient, hlaurent, laurent_cons,
      add_mul, h.laurent_eq]
    change _ = AddMonoidAlgebra.single shift (a / lead) * laurent d.coefficients + _ + _
    abel
  · refine ⟨List.pairwise_cons.mpr ⟨fun e he => lt_of_lt_of_le hlt (h.le_quotient e he),
      h.quotient.ascending⟩, List.forall_mem_cons.mpr ⟨hshift0, h.quotient.degree_nonneg⟩,
      List.forall_mem_cons.mpr ⟨⟨_, rfl⟩, h.quotient.constant⟩⟩
  · exact List.forall_mem_cons.mpr ⟨le_rfl, fun e he => hlt.le.trans (h.le_quotient e he)⟩
  · have hmem := List.mem_filter.mp (List.mem_of_mem_filter he)
    have hne : e.1 ≠ top := by simpa using hmem.2
    have := hbelow e hmem.1
    omega

/-- **A run of as many steps as the degrees are apart** leaves a remainder of lower degree than the
divisor. -/
theorem invariant_run (hd : d.IsRational) (h0 : d.isZero = false) (ctx : Context) :
    ∀ (steps : Nat) {bound : Int} {state : Division}, bound ≤ steps → Invariant n d bound state →
      ∃ bound', Invariant n d bound' (Division.run d ctx steps state) ∧
        ∀ e ∈ (Division.run d ctx steps state).remainder, e.1 < d.degree := by
  intro steps
  induction steps with
  | zero =>
    intro bound state hbound h
    exact ⟨bound, h, fun e he => by have := h.remainder_lt e he; omega⟩
  | succ steps ih =>
    intro bound state hbound h
    rw [Division.run]
    cases hlast : state.remainder.getLast? with
    | none =>
      refine ⟨bound, h, fun e he => ?_⟩
      rw [List.getLast?_eq_none_iff.mp hlast] at he
      cases he
    | some e =>
      obtain ⟨top, c⟩ := e
      dsimp only
      split
      · next htop =>
        exact ⟨bound, h, fun e he =>
          lt_of_le_of_lt (le_of_getLast? h.remainder.ascending hlast e he) htop⟩
      · next htop =>
        have hbelow := h.remainder_lt _ (List.mem_of_getLast? hlast)
        change top < _ at hbelow
        exact ih (by omega) (invariant_cancelLeading hd h0 h hlast (not_lt.mp htop))

theorem degree_lt {r p : Polynomial} (hr : r.IsRational)
    (h : ∀ e ∈ r.coefficients, e.1 < p.degree) : r.isZero = true ∨ r.degree < p.degree := by
  cases hlast : r.coefficients.getLast? with
  | none => exact .inl (List.isEmpty_iff.mpr (List.getLast?_eq_none_iff.mp hlast))
  | some e =>
    have hmem := List.mem_of_getLast? hlast
    have hdegree : r.degree = e.1 := by
      rw [degree, hlast]
      exact max_eq_right (hr.degree_nonneg e hmem)
    exact .inr (hdegree ▸ h e hmem)

/-- **Long division** of polynomials with rational coefficients: `n = q * d + r` coefficient by
coefficient, and `r` vanishes or is of lower degree than `d`. -/
theorem divide_quotient_remainder {n d : Polynomial} (hn : n.IsRational) (hd : d.IsRational)
    (hsame : (n.indeterminate == d.indeterminate) = true) (h0 : d.isZero = false) (ctx : Context) :
    ∃ q r : Polynomial, n.divide d ctx = .ok (q, r) ∧ q.IsRational ∧ r.IsRational ∧
      q.indeterminate = n.indeterminate ∧ r.indeterminate = n.indeterminate ∧
      (∀ k, n.coefficient k = .const ((q.toLaurent * d.toLaurent + r.toLaurent).coeff k)) ∧
      (r.isZero = true ∨ r.degree < d.degree) := by
  set steps := (n.degree - d.degree + 1).toNat with hsteps
  have hle : ∀ e ∈ n.coefficients, e.1 ≤ n.degree := by
    cases hzero : n.isZero with
    | true => simp [List.isEmpty_iff.mp hzero]
    | false => exact (hn.exists_lead hzero).choose_spec.2.2.2
  have hstart : Invariant n.toLaurent d steps ⟨[], n.coefficients⟩ := by
    refine ⟨?_, ⟨.nil, nofun, nofun⟩, hn.toRationalTerms, nofun, fun e he => ?_⟩
    · rw [laurent_nil, zero_mul, zero_add, toLaurent]
    · have := hle e he
      omega
  obtain ⟨bound, h, hlt⟩ := invariant_run hd h0 ctx steps le_rfl hstart
  have hr := h.remainder.ofCoefficients n.indeterminate
  refine ⟨_, _, ?_, h.quotient.ofCoefficients n.indeterminate, hr, rfl, rfl, fun k => ?_,
    degree_lt hr fun e he => hlt e (List.mem_of_mem_filter he)⟩
  · rw [divide, bne, hsame, h0]
    rfl
  · rw [coefficient_eq hn, toLaurent_ofCoefficients, toLaurent_ofCoefficients, h.laurent_eq]

/-- `x^2 + 1` divided by `x + 1`. -/
theorem divide_quotient_remainder_quadratic :
    let n : Polynomial := ⟨[(0, .const 1), (2, .const 1)], .symbol "x"⟩
    let d : Polynomial := ⟨[(0, .const 1), (1, .const 1)], .symbol "x"⟩
    n.IsRational ∧ d.IsRational ∧ (n.indeterminate == d.indeterminate) = true ∧ d.isZero = false ∧
      ∃ q r : Polynomial, n.divide d (.inert .standard) = .ok (q, r) ∧ q.IsRational ∧ r.IsRational ∧
        q.indeterminate = n.indeterminate ∧ r.indeterminate = n.indeterminate ∧
        (∀ k, n.coefficient k = .const ((q.toLaurent * d.toLaurent + r.toLaurent).coeff k)) ∧
        (r.isZero = true ∨ r.degree < d.degree) := by
  have hrational (k : Int) (hk : 0 < k) :
      IsRational ⟨[(0, .const 1), (k, .const 1)], .symbol "x"⟩ := by
    refine ⟨⟨by simpa [Ascending] using hk, ?_, ?_⟩, ?_⟩ <;>
      refine List.forall_mem_cons.mpr ⟨?_, List.forall_mem_singleton.mpr ?_⟩
    · exact le_rfl
    · exact hk.le
    · exact ⟨1, rfl⟩
    · exact ⟨1, rfl⟩
    · rfl
    · rfl
  have hn := hrational 2 (by decide)
  have hd := hrational 1 (by decide)
  exact ⟨hn, hd, rfl, rfl, divide_quotient_remainder hn hd rfl rfl (.inert .standard)⟩

end Division

end SymbolicAlgebra.Polynomial
