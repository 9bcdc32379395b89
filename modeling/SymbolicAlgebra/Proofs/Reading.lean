import Mathlib.Data.List.Perm.Basic
import SymbolicAlgebra.Proofs.TermReading

/-!
# Reading polynomials

A polynomial is read term by term, and the coefficients that are read with the same degree are
added. Written as an expression and read again, a polynomial with constant coefficients is the same
polynomial, unless it is zero: then its only term is `0`, which has no degree.

Results:
* `ofExpr_eq`: reading as gathering the terms by degree.
* `ofExpr_toExpr`: a polynomial with constant coefficients is read back, unless it is zero.
-/

namespace SymbolicAlgebra

open Expr Evaluator

/-- A sum of different terms, at most one of which is a constant, has just these terms. -/
theorem Expr.terms_sumOf_perm {ts : List Expr} (hflat : ∀ t ∈ ts, t.isSum = false) (hne : ts ≠ [])
    (hconst : constants ts = [] ∨ ∃ c, c ≠ 0 ∧ constants ts = [c]) : (sumOf ts).terms.Perm ts := by
  have harranged : (arranged 0 (constants ts).sum ts).Perm ts := by
    refine (sort_perm _).trans (List.Perm.trans ?_ (others_constants_perm ts))
    rcases hconst with h | ⟨c, h0, h⟩
    · rw [h, List.sum_nil, if_pos rfl, List.map_nil, List.append_nil]
    · rw [h, List.sum_singleton, if_neg h0, List.map_singleton]
  rw [sumOf_eq, flatMap_terms_eq_self hflat]
  generalize arranged 0 (constants ts).sum ts = us at harranged
  match us, harranged with
  | [], h => exact absurd h.nil_eq.symm hne
  | [u], h =>
    rw [ofTerms, terms_eq_self (hflat u (h.mem_iff.mp List.mem_cons_self))]
    exact h
  | _ :: _ :: _, h => exact h

namespace Polynomial

/-! ## Gathering terms -/

section Gather

variable {α : Type} {k : Int} {a : α} {f : α → α} {l : ByDegree α} {terms : List (Int × Expr)}

/-- The coefficients of each degree, in the order of the terms. -/
def gather (terms : List (Int × Expr)) : ByDegree (List Expr) :=
  terms.foldl (fun m e => update e.1 [] (fun cs => cs ++ [e.2]) m) []

/-- **Reading gathers the terms by degree** and evaluates the sums of their coefficients. -/
theorem ofExpr_eq (f x : Expr) (ctx : Context) :
    ofExpr f x ctx = (f.terms.mapM fun t => readTerm f x t ctx).map fun terms =>
      ofCoefficients ((gather terms).map fun e => (e.1, (sumOf e.2).evaluate ctx)) x := by
  rw [ofExpr]
  cases f.terms.mapM fun t => readTerm f x t ctx <;> rfl

theorem update_perm_of_forall_ne (h : ∀ e ∈ l, e.1 ≠ k) :
    (update k a f l).Perm ((k, f a) :: l) := by
  induction l with
  | nil => exact List.Perm.refl _
  | cons e l ih =>
    obtain ⟨d, b⟩ := e
    obtain ⟨hd, hl⟩ := List.forall_mem_cons.mp h
    rw [update, if_neg (Ne.symm hd)]
    split
    · exact List.Perm.refl _
    · exact ((ih hl).cons _).trans (List.Perm.swap _ _ _)

theorem ascending_foldl_update (terms : List (Int × Expr)) : ∀ {m : ByDegree (List Expr)},
    Ascending m →
      Ascending (terms.foldl (fun m e => update e.1 [] (fun cs => cs ++ [e.2]) m) m) := by
  induction terms with
  | nil => exact fun h => h
  | cons e terms ih => exact fun h => ih (ascending_update h)

theorem ascending_gather (terms : List (Int × Expr)) : Ascending (gather terms) :=
  ascending_foldl_update terms List.Pairwise.nil

theorem foldl_update_perm (hnodup : (terms.map Prod.fst).Nodup) : ∀ {m : ByDegree (List Expr)},
    (∀ e ∈ terms, ∀ e' ∈ m, e'.1 ≠ e.1) →
      (terms.foldl (fun m e => update e.1 [] (fun cs => cs ++ [e.2]) m) m).Perm
        (m ++ terms.map fun e => (e.1, [e.2])) := by
  induction terms with
  | nil => exact fun _ => by simp
  | cons e terms ih =>
    intro m hm
    rw [List.map_cons, List.nodup_cons] at hnodup
    obtain ⟨he, hterms⟩ := List.forall_mem_cons.mp hm
    have hfirst : (update e.1 [] (fun cs => cs ++ [e.2]) m).Perm ((e.1, [e.2]) :: m) :=
      update_perm_of_forall_ne he
    refine (ih hnodup.2 fun e' he' d hd => ?_).trans ?_
    · rcases List.mem_cons.mp (hfirst.mem_iff.mp hd) with rfl | hd
      · exact fun heq => hnodup.1 (heq ▸ List.mem_map_of_mem he')
      · exact hterms e' he' d hd
    · exact (hfirst.append_right _).trans List.perm_middle.symm

/-- Terms of different degrees stay apart. -/
theorem gather_eq {l : ByDegree Expr} (hl : Ascending l) (h : terms.Perm l) :
    gather terms = l.map fun e => (e.1, [e.2]) := by
  have hnodup : (terms.map Prod.fst).Nodup := by
    rw [(h.map Prod.fst).nodup_iff]
    exact List.pairwise_map.mpr (hl.imp fun hlt => hlt.ne)
  have hperm := (foldl_update_perm hnodup (m := []) fun _ _ _ hd => by cases hd).trans (h.map _)
  refine List.Perm.eq_of_pairwise (fun a b _ _ hab hba => absurd (hab.trans hba) (lt_irrefl _))
    (ascending_gather terms) (List.pairwise_map.mpr hl) hperm

/-- What is gathered comes from the terms, and no degree is without a term. -/
theorem mem_gather {r : Int × List Expr} (hr : r ∈ gather terms) :
    r.2 ≠ [] ∧ ∀ c ∈ r.2, (r.1, c) ∈ terms := by
  refine List.foldlRecOn (motive := fun m : ByDegree (List Expr) => ∀ r ∈ m, r.2 ≠ [] ∧
    ∀ c ∈ r.2, (r.1, c) ∈ terms) terms _ (List.forall_mem_nil _) (fun m hm e he r hr => ?_) r hr
  rcases mem_update hr with hr | ⟨hdegree, hnew | ⟨cs, hcs, hnew⟩⟩
  · exact hm r hr
  · rw [hdegree, hnew, List.nil_append]
    exact ⟨List.cons_ne_nil _ _, List.forall_mem_singleton.mpr he⟩
  · rw [hdegree, hnew]
    exact ⟨List.append_ne_nil_of_right_ne_nil _ (List.cons_ne_nil _ _), List.forall_mem_append.mpr
      ⟨(hm _ hcs).2, List.forall_mem_singleton.mpr he⟩⟩

/-- A term adds its weight. -/
theorem sum_update (w : Int → Expr → Rat) (n : Int) (c : Expr) (m : ByDegree (List Expr)) :
    ((update n [] (fun cs => cs ++ [c]) m).map fun e => (e.2.map (w e.1)).sum).sum =
      (m.map fun e => (e.2.map (w e.1)).sum).sum + w n c := by
  induction m with
  | nil => simp [update]
  | cons e m ih =>
    rw [update]
    split
    · simp [add_comm]
    split
    · next hn => simp [hn]; ring
    · rw [List.map_cons, List.sum_cons, ih, List.map_cons, List.sum_cons, add_assoc]

/-- **Gathering keeps the sum of the weights.** -/
theorem sum_gather (w : Int → Expr → Rat) (terms : List (Int × Expr)) :
    ((gather terms).map fun e => (e.2.map (w e.1)).sum).sum = (terms.map fun e => w e.1 e.2).sum := by
  have hfold : ∀ (terms : List (Int × Expr)) (m : ByDegree (List Expr)),
      ((terms.foldl (fun m e => update e.1 [] (fun cs => cs ++ [e.2]) m) m).map
        fun e => (e.2.map (w e.1)).sum).sum =
      (m.map fun e => (e.2.map (w e.1)).sum).sum + (terms.map fun e => w e.1 e.2).sum := by
    intro terms
    induction terms with
    | nil => simp
    | cons e terms ih =>
      intro m
      rw [List.foldl_cons, ih, sum_update, List.map_cons, List.sum_cons, add_assoc]
  rw [gather, hfold, List.map_nil, List.sum_nil, zero_add]

end Gather

/-! ## Reading a polynomial back -/

section ConstantCoefficients

variable {name : String} {ctx : Context} {l : ByDegree Rat}

/-- A term with a constant coefficient. -/
def constantTerm (name : String) (e : Int × Rat) : Expr :=
  term (symbol name) e.1 (.const e.2)

theorem constantTerm_eq (name : String) (e : Int × Rat) :
    constantTerm name e = SymbolicAlgebra.term name (e.2, .power e.1) :=
  term_const name e.1 e.2

/-- A list is read if all its members are. -/
theorem mapM_eq_ok {α β : Type} {read : α → Result β} {ts : List α} {es : List β} :
    ts.mapM read = .ok es ↔ List.Forall₂ (fun t e => read t = .ok e) ts es := by
  induction ts generalizing es with
  | nil => simp [pure, Except.pure, eq_comm]
  | cons t ts ih =>
    rw [List.mapM_cons, List.forall₂_cons_left_iff]
    simp_rw [← ih]
    cases read t <;> cases ts.mapM read <;> simp [pure, Except.pure, bind, Except.bind, eq_comm]

theorem exists_of_forall₂ {α β : Type} {R : α → β → Prop} {as : List α} {bs : List β} {b : β}
    (h : List.Forall₂ R as bs) (hb : b ∈ bs) : ∃ a, R a b := by
  induction h with
  | nil => cases hb
  | cons hab _ ih =>
    rcases List.mem_cons.mp hb with rfl | hb
    · exact ⟨_, hab⟩
    · exact ih hb

/-- The only constant term is that of degree `0`. -/
theorem constants_constantTerms (h0 : ∀ e ∈ l, e.2 ≠ 0) :
    constants (l.map (constantTerm name)) = (l.filter fun e => e.1 = 0).map Prod.snd := by
  induction l with
  | nil => rfl
  | cons e l ih =>
    obtain ⟨d, q⟩ := e
    obtain ⟨hq, hl⟩ := List.forall_mem_cons.mp h0
    rw [List.map_cons, List.filter_cons]
    by_cases hd : d = 0
    · subst hd
      rw [constantTerm_eq, term_power_zero, constants_const, ih hl]
      rfl
    · have hconst : (constantTerm name (d, q)).isConst = false := by
        refine Bool.eq_false_iff.mpr fun h => ?_
        rcases isConst_term_iff.mp (constantTerm_eq name (d, q) ▸ h) with h | h
        · exact hq h
        · exact hd (Generator.power.inj h)
      rw [constants_cons hconst, ih hl, if_neg (by simpa using hd)]

theorem terms_sumOf_constantTerms (hl : Ascending l) (h0 : ∀ e ∈ l, e.2 ≠ 0) (hne : l ≠ []) :
    (sumOf (l.map (constantTerm name))).terms.Perm (l.map (constantTerm name)) := by
  refine terms_sumOf_perm (List.forall_mem_map.mpr fun e _ => ?_) (by simpa using hne) ?_
  · rw [constantTerm_eq, isSum_term]
  rw [constants_constantTerms h0]
  have hmem : ∀ e ∈ l.filter fun e => e.1 = 0, e.2 ≠ 0 ∧ e.1 = 0 := fun e he =>
    ⟨h0 e (List.mem_of_mem_filter he), by simpa using List.of_mem_filter he⟩
  have hlt := hl.sublist (List.filter_sublist (p := fun e : Int × Rat => e.1 = 0))
  generalize l.filter (fun e => e.1 = 0) = constantTerms at hmem hlt
  match constantTerms with
  | [] => exact .inl rfl
  | [e] => exact .inr ⟨e.2, (hmem e List.mem_cons_self).1, rfl⟩
  | e :: e' :: _ =>
    have h := (List.pairwise_cons.mp hlt).1 e' List.mem_cons_self
    rw [(hmem e List.mem_cons_self).2, (hmem e' (by simp)).2] at h
    exact absurd h (lt_irrefl 0)

/-- Constant coefficients as the coefficients of a polynomial. -/
abbrev constantCoefficients (l : ByDegree Rat) : ByDegree Expr :=
  l.map fun e => (e.1, .const e.2)

/-- Coefficients that are zero are left out. -/
theorem ofCoefficients_constantCoefficients (l : ByDegree Rat) (x : Expr) :
    ofCoefficients (constantCoefficients l) x =
      ⟨constantCoefficients (l.filter fun e => e.2 ≠ 0), x⟩ := by
  refine congrArg (Polynomial.mk · x) ?_
  rw [constantCoefficients, List.filter_map]
  exact congrArg _ (List.filter_congr fun e _ => (decide_not ..).symm)

/-- Terms of different degrees are read as their coefficients. -/
theorem ofExpr_of_terms (hc : name ≠ "_c") (hn : name ≠ "_n") (hl : Ascending l)
    (h0 : ∀ e ∈ l, e.2 ≠ 0) (h64 : ∀ e ∈ l, -2 ^ 63 ≤ e.1 ∧ e.1 < 2 ^ 63) {f : Expr}
    (hterms : f.terms.Perm (l.map (constantTerm name))) (ctx : Context) :
    ofExpr f (symbol name) ctx = .ok ⟨constantCoefficients l, symbol name⟩ := by
  have hread : List.Forall₂ (fun t e => readTerm f (symbol name) t ctx = .ok e)
      (l.map (constantTerm name)) (constantCoefficients l) := by
    rw [List.forall₂_map_left_iff, List.forall₂_map_right_iff, List.forall₂_same]
    exact fun e he => readTerm_term hc hn f (h0 e he) (toInt64?_intCast (h64 e he))
  obtain ⟨terms, hterms', hperm⟩ := List.perm_comp_forall₂ hterms hread
  have hascending : Ascending (constantCoefficients l) := List.pairwise_map.mpr hl
  have hcoefficient (q : Rat) : (sumOf [.const q]).evaluate ctx = .const q := by
    rw [(Constructed.const q).sumOf_singleton, evaluate_eq (.const q)]
    rfl
  have hsums : ((constantCoefficients l).map fun e => (e.1, [e.2])).map
      (fun e => (e.1, (sumOf e.2).evaluate ctx)) = constantCoefficients l := by
    rw [List.map_map, List.map_map]
    exact List.map_congr_left fun e _ => congrArg (Prod.mk e.1) (hcoefficient e.2)
  rw [ofExpr_eq, mapM_eq_ok.mpr hterms', Except.map, gather_eq hascending hperm, hsums,
    ofCoefficients_constantCoefficients, List.filter_eq_self.mpr fun e he => by simpa using h0 e he]

/-- **A polynomial with constant coefficients is read back** from its expression, in every variable
but `_c` and `_n`, if its degrees fit into 64 bits. The exception is the zero polynomial: `0` has no
degree. -/
theorem ofExpr_toExpr (hc : name ≠ "_c") (hn : name ≠ "_n") {m : ByDegree Rat} (hm : Ascending m)
    (h64 : ∀ e ∈ m, -2 ^ 63 ≤ e.1 ∧ e.1 < 2 ^ 63) (ctx : Context) :
    let p := ofCoefficients (m.map fun e => (e.1, .const e.2)) (symbol name)
    ofExpr p.toExpr (symbol name) ctx =
      if p.isZero then refuse (.degreeTooLarge .zero) else .ok p := by
  intro p
  have hp : p = ⟨constantCoefficients (m.filter fun e => e.2 ≠ 0), symbol name⟩ :=
    ofCoefficients_constantCoefficients m (symbol name)
  have hascending : Ascending (m.filter fun e => e.2 ≠ 0) := hm.sublist List.filter_sublist
  have h0 : ∀ e ∈ m.filter fun e => e.2 ≠ 0, e.2 ≠ 0 := fun e he => by
    simpa using List.of_mem_filter he
  have h64' : ∀ e ∈ m.filter fun e => e.2 ≠ 0, -2 ^ 63 ≤ e.1 ∧ e.1 < 2 ^ 63 := fun e he =>
    h64 e (List.mem_of_mem_filter he)
  rw [hp]
  generalize m.filter (fun e => e.2 ≠ 0) = l at hascending h0 h64'
  have hexpr : (Polynomial.mk (constantCoefficients l) (symbol name)).toExpr =
      sumOf (l.map (constantTerm name)) := by
    rw [toExpr, List.map_map]
    rfl
  rw [hexpr]
  cases l with
  | nil =>
    have hterms : (sumOf (([] : ByDegree Rat).map (constantTerm name))).terms = [.zero] := rfl
    rw [ofExpr_eq, hterms, List.mapM_cons, readTerm_zero hc hn]
    rfl
  | cons e rest =>
    exact ofExpr_of_terms hc hn hascending h0 h64'
      (terms_sumOf_constantTerms hascending h0 (List.cons_ne_nil _ _)) ctx

/-- `2*x^3 + 5 - x^(-1)`. -/
theorem ofExpr_toExpr_laurent :
    let p := ofCoefficients ([(-1, -1), (0, 5), (1, 0), (3, 2)].map fun e : Int × Rat =>
      (e.1, .const e.2)) (symbol "x")
    ofExpr p.toExpr (symbol "x") (.inert .standard) = .ok p :=
  (ofExpr_toExpr (by decide) (by decide) (by unfold Ascending; decide) (by decide)
    (.inert .standard)).trans (if_neg (by decide))

end ConstantCoefficients

end Polynomial

end SymbolicAlgebra
