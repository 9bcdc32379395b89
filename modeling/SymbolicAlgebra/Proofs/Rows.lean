import Mathlib.Algebra.BigOperators.Fin
import Mathlib.Data.List.FinRange
import Mathlib.Logic.Function.Basic
import Mathlib.Tactic.Linarith
import SymbolicAlgebra.LinearSystem
import SymbolicAlgebra.Proofs.Expansion

/-!
# From equations to rows

A linear combination of `n` unknowns with constant coefficients is a `Row`, a vector of rationals with
a constant part; `encode` writes it as the solver keeps it. The terms of an expanded equation are
added to the right coefficients, since a term divided by an unknown is free of the unknowns only if
the unknown is the one that it is a multiple of (`not_free`).

Results:
* `addTerm_encode`: an expanded term adds its row.
* `ofExpr_subtract`: the linear combination of an equation is the row of the difference of its sides.
-/

namespace SymbolicAlgebra

open Expr Evaluator

/-! ## Rows -/

/-- The coefficients of `n` unknowns and the constant part. -/
abbrev Row (n : Nat) := (Fin n → Rat) × Rat

namespace Row

variable {n : Nat}

/-- The value of the linear combination. -/
def eval (r : Row n) (x : Fin n → Rat) : Rat :=
  ∑ j, r.1 j * x j + r.2

theorem eval_add (r s : Row n) (x : Fin n → Rat) : (r + s).eval x = r.eval x + s.eval x := by
  simp only [eval, Prod.fst_add, Prod.snd_add, Pi.add_apply, add_mul, Finset.sum_add_distrib]
  ring

theorem eval_smul (c : Rat) (r : Row n) (x : Fin n → Rat) : (c • r).eval x = c * r.eval x := by
  simp only [eval, Prod.smul_fst, Prod.smul_snd, Pi.smul_apply, smul_eq_mul, mul_assoc,
    mul_add, Finset.mul_sum]

theorem eval_sub (r s : Row n) (x : Fin n → Rat) : (r - s).eval x = r.eval x - s.eval x := by
  simp only [eval, Prod.fst_sub, Prod.snd_sub, Pi.sub_apply, sub_mul, Finset.sum_sub_distrib]
  ring

@[simp] theorem eval_zero (x : Fin n → Rat) : (0 : Row n).eval x = 0 := by
  simp [eval]

@[simp] theorem eval_single (j : Fin n) (q : Rat) (x : Fin n → Rat) :
    eval (Pi.single j q, 0) x = q * x j := by
  simp [eval, Pi.single_apply]

@[simp] theorem eval_constant (q : Rat) (x : Fin n → Rat) : eval (0, q) x = q := by
  simp [eval]

/-- A row is determined by its values. -/
theorem ext_of_eval {r s : Row n} (h : ∀ x, r.eval x = s.eval x) : r = s := by
  have hconst : r.2 = s.2 := by simpa [eval] using h 0
  refine Prod.ext (funext fun j => ?_) hconst
  have := h (Pi.single j 1)
  simpa [eval, hconst, Pi.single_apply] using this

end Row

/-! ## Rows as linear combinations -/

section Encode

variable {n : Nat} (names : Fin n → String)

/-- The unknowns in order. -/
def unknowns : List Expr :=
  (List.finRange n).map fun j => symbol (names j)

/-- The linear combination with the coefficients of a row. -/
def encode (r : Row n) : LinearCombination :=
  ⟨(List.finRange n).map (fun j => (symbol (names j), Expr.const (r.1 j))) ++
    [(.one, .const r.2)]⟩

theorem zero_unknowns : LinearCombination.zero (unknowns names) = encode names 0 := by
  rw [LinearCombination.zero, unknowns, List.map_map]
  rfl

theorem find?_finRange {p : Fin n → Bool} {j : Fin n} (h : ∀ i, p i = true ↔ i = j) :
    (List.finRange n).find? p = some j := by
  cases hfind : (List.finRange n).find? p with
  | none => exact absurd ((h j).mpr rfl) (by simpa using List.find?_eq_none.mp hfind j (by simp))
  | some i => rw [(h i).mp (List.find?_some hfind)]

variable {names} (hnames : Function.Injective names)

include hnames

theorem symbol_beq (i j : Fin n) : (symbol (names i) == symbol (names j)) = true ↔ i = j := by
  change (names i == names j) = true ↔ i = j
  rw [beq_iff_eq]
  exact ⟨fun h => hnames h, fun h => by rw [h]⟩

theorem coefficient_encode (r : Row n) (j : Fin n) :
    (encode names r).coefficient (symbol (names j)) = .const (r.1 j) := by
  have hfind : (List.finRange n).find? (fun i => symbol (names i) == symbol (names j)) = some j :=
    find?_finRange fun i => symbol_beq hnames i j
  rw [LinearCombination.coefficient, encode, List.find?_append, List.find?_map]
  simp only [Function.comp_def, hfind, Option.map_some, Option.some_or, Option.getD_some]

theorem set_encode (r : Row n) (j : Fin n) (q : Rat) :
    (encode names r).set (symbol (names j)) (.const q) =
      encode names (Function.update r.1 j q, r.2) := by
  have hset : ∀ {l : List (Fin n)}, l.Nodup → j ∈ l →
      LinearCombination.setIn (symbol (names j)) (.const q)
        (l.map (fun i => (symbol (names i), Expr.const (r.1 i))) ++ [(.one, .const r.2)]) =
      l.map (fun i => (symbol (names i), Expr.const (Function.update r.1 j q i))) ++
        [(.one, .const r.2)] := by
    intro l
    induction l with
    | nil => exact fun _ h => absurd h List.not_mem_nil
    | cons i l ih =>
      intro hnodup hmem
      obtain ⟨hnot, hnodup⟩ := List.nodup_cons.mp hnodup
      rw [List.map_cons, List.cons_append, LinearCombination.setIn]
      by_cases hij : i = j
      · subst hij
        have hrest : l.map (fun k => (symbol (names k), Expr.const (r.1 k))) =
            l.map fun k => (symbol (names k), Expr.const (Function.update r.1 i q k)) :=
          List.map_congr_left fun k hk => by
            have hne : k ≠ i := fun h => hnot (h ▸ hk)
            rw [Function.update_of_ne hne]
        rw [if_pos ((symbol_beq hnames i i).mpr rfl), hrest, List.map_cons, List.cons_append,
          Function.update_self]
      · have hmem' := (List.mem_cons.mp hmem).resolve_left fun h => hij h.symm
        rw [if_neg fun h => hij ((symbol_beq hnames i j).mp h), ih hnodup hmem', List.map_cons,
          List.cons_append, Function.update_of_ne hij]
  exact congrArg LinearCombination.mk (hset (List.nodup_finRange n) (List.mem_finRange j))

omit hnames in
theorem coefficient_encode_one (r : Row n) : (encode names r).coefficient .one = .const r.2 := by
  have hfind : (List.finRange n).find? (fun i => symbol (names i) == Expr.one) = none :=
    List.find?_eq_none.mpr fun i _ h => by cases h
  rw [LinearCombination.coefficient, encode, List.find?_append, List.find?_map]
  simp only [Function.comp_def, hfind, Option.map_none, Option.none_or]
  rfl

omit hnames in
theorem set_encode_one (r : Row n) (q : Rat) :
    (encode names r).set .one (.const q) = encode names (r.1, q) := by
  have hset : ∀ l : List (Fin n), LinearCombination.setIn .one (.const q)
      (l.map (fun i => (symbol (names i), Expr.const (r.1 i))) ++ [(.one, .const r.2)]) =
        l.map (fun i => (symbol (names i), Expr.const (r.1 i))) ++ [(.one, .const q)] := by
    intro l
    induction l with
    | nil => rfl
    | cons i l ih =>
      rw [List.map_cons, List.cons_append, LinearCombination.setIn, if_neg (fun h => by cases h),
        ih]
      rfl
  exact congrArg LinearCombination.mk (hset (List.finRange n))

/-- Adding to the coefficient of an unknown. -/
theorem addTo_encode (r : Row n) (j : Fin n) (q : Rat) (ctx : Context) :
    (encode names r).addTo (symbol (names j)) (.const q) ctx =
      encode names (r + (Pi.single j q, 0)) := by
  have hcomputes := (Computes.const (r.1 j)).sumOf (.const q)
  rw [LinearCombination.addTo, coefficient_encode hnames, hcomputes.evaluate, set_encode hnames]
  refine congrArg (encode names) (Prod.ext (funext fun i => ?_) (add_zero r.2).symm)
  by_cases hij : i = j
  · subst hij
    simp
  · simp [Function.update_of_ne hij, Pi.single_eq_of_ne hij]

omit hnames in
/-- Adding to the constant part. -/
theorem addTo_encode_one (r : Row n) {t : Expr} {d : Rat} (ht : Canonical t)
    (h : evaluated (sumOf [.const r.2, t]) = .const (r.2 + d)) (ctx : Context) :
    (encode names r).addTo .one t ctx = encode names (r + (0, d)) := by
  have hcanon : Canonical (sumOf [.const r.2, t]) := canonical_sumOf
    (List.forall_mem_cons.mpr ⟨.const _, List.forall_mem_singleton.mpr ht⟩)
  rw [LinearCombination.addTo, coefficient_encode_one, evaluate_eq hcanon, h, set_encode_one]
  exact congrArg (encode names) (Prod.ext (add_zero r.1).symm rfl)

end Encode

/-! ## Terms -/

section Terms

variable {n : Nat} {names : Fin n → String} (hnames : Function.Injective names)

/-- An assignment that gives the unknowns the values `x`. -/
noncomputable def assignment (names : Fin n → String) (x : Fin n → Rat) : String → Rat :=
  Function.extend names x 0

include hnames

theorem assignment_apply (x : Fin n → Rat) (j : Fin n) : assignment names x (names j) = x j :=
  hnames.extend_apply x 0 j

omit hnames in
/-- Assignments agree on what is no unknown. -/
theorem assignment_congr (x y : Fin n → Rat) (s : String) (h : symbol s ∉ unknowns names) :
    assignment names x s = assignment names y s := by
  have hs : ¬∃ j, names j = s := by
    rintro ⟨j, rfl⟩
    exact h (List.mem_map.mpr ⟨j, List.mem_finRange j, rfl⟩)
  rw [assignment, assignment, Function.extend_apply' _ _ _ hs, Function.extend_apply' _ _ _ hs]

/-- If the quotient by an unknown is free of the unknowns, then so is its value. -/
theorem value_of_free {t : Expr} (ht : Canonical t) (hd : ∀ σ, Defined σ t) (hdeg : t.degree ≤ 1)
    {k : Fin n} (hfree : (evaluated (divide t (symbol (names k)))).dependsOnAny (unknowns names) =
      false) {x y : Fin n → Rat} (hx : x k ≠ 0) (hy : y k ≠ 0) :
    value (assignment names x) t * (x k)⁻¹ = value (assignment names y) t * (y k)⁻¹ := by
  have hcanon : Canonical (divide t (symbol (names k))) := canonical_divide ht (.var _)
  have hdegree : (divide t (symbol (names k))).degree ≤ Rational.maxExactExponent := by
    refine (degree_divide_le t _).trans ?_
    rw [exponentBound_symbol]
    exact hdeg.trans (by decide)
  have hvalue : ∀ z : Fin n → Rat, z k ≠ 0 →
      value (assignment names z) (evaluated (divide t (symbol (names k)))) =
        value (assignment names z) t * (z k)⁻¹ := by
    intro z hz
    have hsymbol : Denotes (assignment names z) (symbol (names k)) (z k) :=
      ⟨.var _ _, (value_var _ _).trans (assignment_apply hnames z k)⟩
    have hdenotes := denotes_divide ⟨hd (assignment names z), rfl⟩ hsymbol hz
    rw [(sound_of_degree_le hcanon hdenotes.defined hdegree).denotes.value_eq, hdenotes.value_eq]
  rw [← hvalue x hx, ← hvalue y hy]
  exact value_congr (assignment_congr x y) hfree

omit hnames in
/-- A term is added to the constant part if no unknown divides it. -/
theorem addTerm_of_none {t : Expr} {ctx : Context} {r : Row n} {d : Rat} (ht : Canonical t)
    (heval : evaluated (sumOf [.const r.2, t]) = .const (r.2 + d))
    (h : LinearCombination.divideTerm? (unknowns names) t ctx = none) :
    LinearCombination.addTerm (unknowns names) ctx (encode names r) t =
      encode names (r + (0, d)) := by
  rw [LinearCombination.addTerm, h]
  exact addTo_encode_one r ht heval ctx

/-- What it means that a term adds the row `m` to any row. -/
def Adds (names : Fin n → String) (t : Expr) (m : Row n) : Prop :=
  (∀ x, value (assignment names x) t = m.eval x) ∧ ∀ (r : Row n) (ctx : Context),
    LinearCombination.addTerm (unknowns names) ctx (encode names r) t = encode names (r + m)

omit hnames in
theorem evaluate_divide {t : Expr} (ht : Canonical t) (k : Fin n) (ctx : Context) :
    (divide t (symbol (names k))).evaluate ctx = evaluated (divide t (symbol (names k))) :=
  evaluate_eq (canonical_divide ht (.var _)) ctx

/-- The quotient by an unknown, if it is free of the unknowns. -/
def freeQuotient (names : Fin n → String) (t : Expr) (k : Fin n) : Option (Expr × Expr) :=
  if (evaluated (divide t (symbol (names k)))).dependsOnAny (unknowns names) then none
  else some (symbol (names k), evaluated (divide t (symbol (names k))))

omit hnames in
theorem divideTerm?_eq {t : Expr} (ht : Canonical t) (ctx : Context) :
    LinearCombination.divideTerm? (unknowns names) t ctx =
      if t.dependsOnAny (unknowns names) then (List.finRange n).findSome? (freeQuotient names t)
      else none := by
  have hmap : ∀ f : Expr → Option (Expr × Expr), (unknowns names).findSome? f =
      (List.finRange n).findSome? fun k => f (symbol (names k)) := fun f => by
    rw [unknowns, List.findSome?_map]
    rfl
  have hquotient : ∀ k, (if ((divide t (symbol (names k))).evaluate ctx).dependsOnAny
      (unknowns names) then none else some (symbol (names k),
        (divide t (symbol (names k))).evaluate ctx)) = freeQuotient names t k := fun k => by
    rw [evaluate_divide ht, freeQuotient]
  rw [LinearCombination.divideTerm?, hmap]
  simp only [hquotient]

omit hnames in
theorem findSome?_finRange {α : Type} {f : Fin n → Option α} {j : Fin n}
    (h : ∀ i, i ≠ j → f i = none) : (List.finRange n).findSome? f = f j := by
  cases hj : f j with
  | none =>
    refine List.findSome?_eq_none_iff.mpr fun i _ => ?_
    by_cases hij : i = j
    · rw [hij, hj]
    · exact h i hij
  | some a =>
    cases hfind : (List.finRange n).findSome? f with
    | none =>
      have := List.findSome?_eq_none_iff.mp hfind j (List.mem_finRange j)
      rw [hj] at this
      cases this
    | some b =>
      obtain ⟨i, -, hi⟩ := List.exists_of_findSome?_eq_some hfind
      by_cases hij : i = j
      · rw [← hi, hij, hj]
      · rw [h i hij] at hi
        cases hi

/-- A nonzero multiple of an unknown is added to its coefficient. -/
theorem adds_multiple {t : Expr} {d : Rat} {j : Fin n} (ht : Canonical t)
    (hd : ∀ σ, Defined σ t) (hdeg : t.degree ≤ 1)
    (hvalue : ∀ x, value (assignment names x) t = d * x j) (h0 : d ≠ 0)
    (hquotient : evaluated (divide t (symbol (names j))) = .const d) :
    Adds names t (Pi.single j d, 0) := by
  refine ⟨fun x => by rw [hvalue, Row.eval_single], fun r ctx => ?_⟩
  have hdepends : t.dependsOnAny (unknowns names) = true := by
    by_contra hfree
    have hcongr := value_congr (assignment_congr (Pi.single j 1) 0) (Bool.not_eq_true _ ▸ hfree)
    rw [hvalue, hvalue] at hcongr
    simp [h0] at hcongr
  -- the quotient by another unknown depends on both
  have hother : ∀ k, k ≠ j →
      (evaluated (divide t (symbol (names k)))).dependsOnAny (unknowns names) = true := by
    intro k hk
    by_contra hfree
    have := @value_of_free n names hnames t ht hd hdeg k (Bool.not_eq_true _ ▸ hfree) 1
      (Function.update 1 j 2) one_ne_zero (by simp [Function.update_of_ne hk])
    rw [hvalue, hvalue] at this
    simp [Function.update_of_ne hk, h0] at this
  have hself : freeQuotient names t j = some (symbol (names j), .const d) := by
    have hfree : (Expr.const d).dependsOnAny (unknowns names) = false := by
      rw [dependsOnAny, mentions, List.contains_eq_any_beq, List.any_eq_false]
      intro x hx h
      obtain ⟨i, -, rfl⟩ := List.mem_map.mp hx
      cases h
    rw [freeQuotient, hquotient, hfree]
    rfl
  have hdivide : LinearCombination.divideTerm? (unknowns names) t ctx =
      some (symbol (names j), .const d) := by
    rw [divideTerm?_eq ht, if_pos hdepends, ← hself]
    exact findSome?_finRange fun k hk => by rw [freeQuotient, hother k hk]; rfl
  rw [LinearCombination.addTerm, hdivide]
  exact addTo_encode hnames r j d ctx

/-- A term of constant value is added to the constant part, or nowhere if it is `0`. -/
theorem adds_constant {t : Expr} {d : Rat} (ht : Canonical t) (hd : ∀ σ, Defined σ t)
    (hdeg : t.degree ≤ 1) (hvalue : ∀ x, value (assignment names x) t = d)
    (heval : ∀ c, evaluated (sumOf [.const c, t]) = .const (c + d))
    (hzero : d = 0 → ∀ k, evaluated (divide t (symbol (names k))) = .const 0) :
    Adds names t (0, d) := by
  refine ⟨fun x => by rw [hvalue, Row.eval_constant], fun r ctx => ?_⟩
  cases hdivide : LinearCombination.divideTerm? (unknowns names) t ctx with
  | none => exact addTerm_of_none ht (heval _) hdivide
  | some found =>
    obtain ⟨b, quotient⟩ := found
    have hfind := hdivide
    rw [divideTerm?_eq ht] at hfind
    split at hfind
    · obtain ⟨k, -, hsome⟩ := List.exists_of_findSome?_eq_some hfind
      rw [freeQuotient] at hsome
      split at hsome
      · cases hsome
      · rename_i hfree
        cases hsome
        have hvalues := @value_of_free n names hnames t ht hd hdeg k (Bool.not_eq_true _ ▸ hfree) 1
          (fun _ => 2) one_ne_zero (by norm_num)
        rw [hvalue, hvalue] at hvalues
        obtain rfl : d = 0 := by
          simp at hvalues
          linarith
        rw [LinearCombination.addTerm, hdivide, hzero rfl k]
        dsimp only
        rw [addTo_encode hnames, Pi.single_zero]
    · cases hfind

theorem value_scaled_symbol (q : Rat) (j : Fin n) (x : Fin n → Rat) :
    value (assignment names x) (scaled q (symbol (names j))) = q * x j := by
  have hsymbol : Defined (assignment names x) (symbol (names j)) := .var _ _
  rw [(denotes_scaled hsymbol).value_eq, symbol, value_var, assignment_apply hnames]

omit hnames in
theorem degree_affine_le {s : Expr} (hs : Affine names s) (hsum : s.isSum = true) :
    s.degree ≤ 1 := by
  obtain ⟨ts, rfl⟩ := exists_of_isSum hsum
  exact degree_sum_le.mpr fun t ht => Nat.le_of_eq (hs.terms t ht).degree

omit hnames in
theorem evaluated_divide_zero (x : String) : evaluated (divide (.const 0) (symbol x)) = .const 0 := by
  have hzero : divide (.const 0) (symbol x) = .const 0 :=
    (productOf_eq _).trans (if_pos (by simp))
  rw [hzero, evaluated_const]

/-- **An expanded term adds its row.** -/
theorem addTerm_encode {t : Expr} (h : ExpandedTerm names t) : ∃ m, Adds names t m := by
  cases h with
  | affine h =>
    have hdeg := h.degree.trans_le (Nat.zero_le 1)
    have hcanon := h.canonical
    have hdefined : ∀ σ, Defined σ t := fun _ => h.defined
    cases h with
    | const q =>
      refine ⟨_, adds_constant hnames hcanon hdefined hdeg
        (fun _ => value_const q) (fun c => ((Computes.const c).sumOf (.const q)).evaluated) ?_⟩
      rintro rfl k
      exact evaluated_divide_zero _
    | @multiple q j h0 =>
      exact ⟨_, adds_multiple hnames hcanon hdefined hdeg
        (fun x => value_scaled_symbol hnames q j x) h0 (evaluated_quotient _ h0)⟩
  | @multiple q s h0 h1 hs hsum hcollapse =>
    have hcanon : Canonical (scaled q s) := canonical_scaled hs.canonical
    have hdefined : ∀ σ, Defined σ (scaled q s) := fun σ => (denotes_scaled hs.defined).defined
    have hdeg : (scaled q s).degree ≤ 1 :=
      (degree_scaled_le q s).trans (degree_affine_le hs hsum)
    obtain ⟨haffine, hvalue⟩ := affine_collect hs.terms
    have heval := evaluated_affine hs hsum
    have hscaled : ∀ σ, value σ (scaled q s) = q * value σ (collect s.terms) := fun σ => by
      rw [(denotes_scaled hs.defined).value_eq, hvalue σ, value_terms]
    obtain ⟨gs, hgs, -⟩ := exists_scaled_sum hsum h0 h1
    have hflat : (scaled q s).isSum = false := by
      rw [hgs]
      rfl
    have hterm := haffine.of_isSum hcollapse
    generalize collect s.terms = u at hterm heval hscaled
    cases hterm with
    | const c =>
      refine ⟨_, adds_constant hnames hcanon hdefined hdeg
        (fun x => by rw [hscaled, value_const])
        (fun d => evaluated_sumOf_const hcanon hflat
          (evaluated_scaled_of_const hs.canonical hsum h0 h1 heval)) fun hqc k => ?_⟩
      obtain rfl : c = 0 := (mul_eq_zero.mp hqc).resolve_left h0
      exact evaluated_quotient_of_zero _ hs.canonical hsum h0 heval
    | @multiple p j hp =>
      refine ⟨_, adds_multiple hnames hcanon hdefined hdeg (fun x => ?_) (mul_ne_zero h0 hp)
        (evaluated_quotient_of_scaled _ hs.canonical hsum h0 hp heval)⟩
      rw [hscaled, value_scaled_symbol hnames, mul_assoc]

/-- Expanded terms add up. -/
theorem foldl_addTerm {ts : List Expr} (h : ∀ t ∈ ts, ExpandedTerm names t) (ctx : Context) :
    ∃ m : Row n, (∀ x, (ts.map (value (assignment names x))).sum = m.eval x) ∧ ∀ r,
      ts.foldl (LinearCombination.addTerm (unknowns names) ctx) (encode names r) =
        encode names (r + m) := by
  induction ts with
  | nil => exact ⟨0, fun x => (Row.eval_zero x).symm, fun r => by rw [add_zero]; rfl⟩
  | cons t ts ih =>
    obtain ⟨ht, hts⟩ := List.forall_mem_cons.mp h
    obtain ⟨m, hvalue, hadd⟩ := addTerm_encode hnames ht
    obtain ⟨m', hvalues, hfold⟩ := ih hts
    refine ⟨m + m', fun x => ?_, fun r => ?_⟩
    · rw [List.map_cons, List.sum_cons, hvalue, hvalues, Row.eval_add]
    · rw [List.foldl_cons, hadd, hfold, add_assoc]

/-- **The linear combination of an equation** is the row of the difference of its sides. -/
theorem ofExpr_subtract {l r : Expr} (hl : Affine names l) (hr : Affine names r) {a b : Row n}
    (ha : ∀ x, value (assignment names x) l = a.eval x)
    (hb : ∀ x, value (assignment names x) r = b.eval x) (ctx : Context) :
    LinearCombination.ofExpr (unknowns names) (subtract l r) ctx = encode names (a - b) := by
  obtain ⟨hterms, hvalue⟩ := expandPlain_subtract hl hr ctx
  obtain ⟨m, hsum, hfold⟩ := foldl_addTerm hnames hterms ctx
  have hrow : m = a - b := by
    refine Row.ext_of_eval fun x => ?_
    rw [← hsum, value_terms, hvalue, ha, hb, Row.eval_sub]
  rw [LinearCombination.ofExpr, zero_unknowns, hfold, zero_add, hrow]

end Terms

end SymbolicAlgebra
