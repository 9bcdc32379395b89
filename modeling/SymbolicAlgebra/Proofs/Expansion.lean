import SymbolicAlgebra.Proofs.Affine
import SymbolicAlgebra.Proofs.Distribution

/-!
# Expansion of affine expressions

The two sides of a linear equation are sums of multiples of the unknowns and constants (`Affine`).
Their difference is expanded term by term. A multiple of a sum is multiplied out unless its terms
cancel down to a single one; then it stays a product (`Multiple`).

Results:
* `affine_collect`, `affine_distribute`: collecting and multiplying out keep the form.
* `expandPlain_subtract`: the terms of the expanded difference are multiples of one unknown or of `1`,
  and they have the value of the difference.
-/

namespace SymbolicAlgebra.Expr

open Evaluator

variable {n : Nat} {names : Fin n → String} {σ : String → Rat} {ctx : Context}

/-- A constant, or a nonzero multiple of one of the variables. -/
inductive AffineTerm (names : Fin n → String) : Expr → Prop
  | const (q : Rat) : AffineTerm names (const q)
  | multiple {q : Rat} (j : Fin n) : q ≠ 0 → AffineTerm names (scaled q (symbol (names j)))

/-- A sum of such terms, not necessarily collected. -/
structure Affine (names : Fin n → String) (e : Expr) : Prop where
  canonical : Canonical e
  terms : ∀ t ∈ e.terms, AffineTerm names t

/-! ## Terms -/

theorem scaled_symbol_cases {q : Rat} (x : String) (h0 : q ≠ 0) :
    scaled q (symbol x) = symbol x ∨ (∃ fs, scaled q (symbol x) = product fs ∧
      fs.Perm [symbol x, const q]) := by
  by_cases h1 : q = 1
  · exact Or.inl (if_pos h1)
  · obtain ⟨gs, heq, hperm⟩ := @productOf_proper q [symbol x] (List.forall_mem_singleton.mpr rfl) rfl
      h0 (by rw [if_neg h1]; rfl)
    rw [if_neg h1] at hperm
    exact Or.inr ⟨gs, by rw [scaled, if_neg h1, heq], hperm⟩

theorem AffineTerm.canonical {t : Expr} (h : AffineTerm names t) : Canonical t := by
  cases h with
  | const q => exact .const q
  | multiple j _ => exact canonical_scaled (.var _)

theorem AffineTerm.isSum {t : Expr} (h : AffineTerm names t) : t.isSum = false := by
  cases h with
  | const q => rfl
  | multiple j h0 =>
    obtain h | ⟨fs, h, -⟩ := scaled_symbol_cases (names j) h0 <;> rw [h] <;> rfl

theorem AffineTerm.defined {t : Expr} (h : AffineTerm names t) : Defined σ t := by
  cases h with
  | const q => exact .const q
  | multiple j _ => exact (denotes_scaled (.var _ _)).defined

theorem AffineTerm.evaluated {t : Expr} (h : AffineTerm names t) : evaluated t = t := by
  cases h with
  | const q => exact evaluated_const q
  | multiple j h0 => exact evaluated_scaled_symbol _ h0

theorem AffineTerm.degree {t : Expr} (h : AffineTerm names t) : t.degree = 0 := by
  cases h with
  | const q => exact degree_const q
  | @multiple q j _ =>
    have hle := degree_scaled_le q (symbol (names j))
    have hvar : (symbol (names j)).degree = 0 := by
      rw [symbol, Expr.degree]
    omega

theorem AffineTerm.termHeight_le {t : Expr} (h : AffineTerm names t) : t.termHeight ≤ 2 := by
  have hvar : ∀ x, (symbol x).termHeight ≤ 2 := fun x => by
    simp [symbol, termHeight, termHeightOf, factorHeightOf, height, weight]
  cases h with
  | const q => exact Nat.zero_le 2
  | @multiple q j _ =>
    rw [scaled]
    split
    · exact hvar _
    · exact termHeight_productOf
        (List.forall_mem_cons.mpr ⟨.const q, List.forall_mem_singleton.mpr (.var _)⟩)
        (List.forall_mem_cons.mpr ⟨Nat.zero_le 2, List.forall_mem_singleton.mpr (hvar _)⟩)

theorem AffineTerm.affine {t : Expr} (h : AffineTerm names t) : Affine names t :=
  ⟨h.canonical, by
    rw [terms_eq_self h.isSum]
    exact List.forall_mem_singleton.mpr h⟩

/-- Multiplied by a constant, such a term is one again. -/
theorem AffineTerm.productOf_const {t : Expr} (h : AffineTerm names t) (p : Rat) :
    AffineTerm names (productOf [Expr.const p, t]) := by
  cases h with
  | const q =>
    rw [productOf_const_const]
    exact .const _
  | @multiple q j h0 =>
    rw [productOf_const_scaled (monic_symbol _).canonical]
    by_cases hp : p * q = 0
    · have hzero : Expr.productOf [Expr.const 0, symbol (names j)] = Expr.const 0 :=
        (productOf_eq _).trans (if_pos (by simp))
      rw [hp, hzero]
      exact .const 0
    · have hscaled : Expr.productOf [Expr.const (p * q), symbol (names j)] =
          scaled (p * q) (symbol (names j)) := by
        rw [scaled]
        split
        · rename_i h1
          rw [h1, productOf_one_cons]
          exact (Canonical.var (names j)).productOf_factors
        · rfl
      rw [hscaled]
      exact .multiple j hp

/-! ## Sums -/

theorem Affine.defined {e : Expr} (h : Affine names e) : Defined σ e := by
  cases hs : e.isSum
  · exact (h.terms e (by rw [terms_eq_self hs]; exact List.mem_singleton_self e)).defined
  · obtain ⟨ts, rfl⟩ := exists_of_isSum hs
    exact .sum fun t ht => (h.terms t ht).defined

theorem Affine.of_isSum {e : Expr} (h : Affine names e) (hs : e.isSum = false) :
    AffineTerm names e :=
  h.terms e (by rw [terms_eq_self hs]; exact List.mem_singleton_self e)

/-- **Collected terms keep the form.** -/
theorem affine_collect {ts : List Expr} (h : ∀ t ∈ ts, AffineTerm names t) :
    Affine names (collect ts) ∧ ∀ σ, value σ (collect ts) = (ts.map (value σ)).sum := by
  have hcanon : ∀ t ∈ ts, Canonical t := fun t ht => (h t ht).canonical
  refine ⟨⟨canonical_collect hcanon, fun t ht => ?_⟩, fun σ =>
    (denotes_collect hcanon fun t ht => (h t ht).defined).value_eq⟩
  obtain hc | ⟨-, ⟨k, q⟩, hp, hmem⟩ := mem_terms_collect hcanon ht
  · obtain ⟨q, rfl⟩ := exists_of_isConst hc
    exact .const q
  · obtain ⟨hkey, -, h0⟩ := (mem_likeTerms hcanon).mp hp
    obtain ⟨p, hsplit, rfl⟩ := List.mem_map.mp hkey
    obtain ⟨u, hu, rfl⟩ := List.mem_map.mp hsplit
    obtain ⟨hmem', hconst⟩ := mem_others.mp hu
    obtain ⟨j, hj⟩ : ∃ j, (splitCoefficient u).2 = symbol (names j) := by
      cases h u hmem' with
      | const q => cases hconst
      | multiple j h0 => exact ⟨j, by rw [split_scaled (monic_symbol _) h0]⟩
    dsimp only at hmem
    rw [hj] at hmem
    have hterm : AffineTerm names (scaled q (symbol (names j))) := .multiple j h0
    rw [terms_eq_self hterm.isSum, List.mem_singleton] at hmem
    rw [hmem]
    exact hterm

theorem evaluated_affine {e : Expr} (h : Affine names e) (hs : e.isSum = true) :
    evaluated e = collect e.terms := by
  obtain ⟨ts, rfl⟩ := exists_of_isSum hs
  have hmap : ts.map evaluated = ts := by
    conv_rhs => rw [← List.map_id ts]
    exact List.map_congr_left fun t ht => (h.terms t ht).evaluated
  have hflat : ts.flatMap terms = ts := flatMap_terms_eq_self fun t ht => (h.terms t ht).isSum
  rw [evaluated_sum h.canonical, hmap, terms_sum, hflat]

/-! ## Multiplying out -/

theorem AffineTerm.productOf {t u : Expr} (ht : AffineTerm names t) (hu : AffineTerm names u)
    (hc : t.isConst = true ∨ u.isConst = true) : AffineTerm names (productOf [t, u]) := by
  rcases hc with hc | hc
  · obtain ⟨q, rfl⟩ := exists_of_isConst hc
    exact hu.productOf_const q
  · obtain ⟨q, rfl⟩ := exists_of_isConst hc
    have hcanon : ∀ y ∈ [t, Expr.const q], Canonical y :=
      List.forall_mem_cons.mpr ⟨ht.canonical, List.forall_mem_singleton.mpr (.const q)⟩
    rw [productOf_perm hcanon (List.Perm.swap _ _ _)]
    exact ht.productOf_const q

theorem isConst_of_mem_terms {e t : Expr} (hc : e.isConst = true) (ht : t ∈ e.terms) :
    t.isConst = true := by
  obtain ⟨q, rfl⟩ := exists_of_isConst hc
  rw [List.mem_singleton.mp ht]
  rfl

/-- **Multiplying out by a constant keeps the form.** -/
theorem affine_distribute {x a : Expr} (hx : Affine names x) (ha : Affine names a)
    (hc : x.isConst = true ∨ a.isConst = true) (ctx : Context) :
    Affine names (x.distribute a ctx) ∧
      ∀ σ, value σ (x.distribute a ctx) = value σ x * value σ a := by
  have hvisit : ∀ e ∈ distributeVisits x a, AffineTerm names e := by
    intro e he
    obtain ⟨t, ht, u, hu, rfl⟩ := (mem_distributeVisits hx.canonical ha.canonical).mp he
    exact (ha.terms t ht).productOf (hx.terms u hu)
      (hc.symm.imp (isConst_of_mem_terms · ht) (isConst_of_mem_terms · hu))
  rw [distribute_eq_distributed hx.canonical ha.canonical]
  refine ⟨(distributed_induction hx.canonical ha.canonical (fun xs hxs => ?_) fun e he => ?_).2,
    fun σ => ?_⟩
  · refine (affine_collect fun t ht => ?_).1
    obtain ⟨y, hy, hty⟩ := List.mem_flatMap.mp ht
    exact (hxs y hy).2.terms t hty
  · rw [(hvisit e he).evaluated]
    exact (hvisit e he).affine
  · have hexact : ∀ e ∈ distributeVisits x a, ExactPowers e := fun e he =>
      exactPowers_of_degree_le (hvisit e he).canonical ((hvisit e he).defined (σ := σ))
        ((hvisit e he).degree.trans_le (Nat.zero_le _))
    rw [(denotes_distributed hx.canonical ha.canonical hx.defined ha.defined hexact).value_eq, mul_comm]

theorem distribute_const_const (p q : Rat) (ctx : Context) :
    (const p).distribute (const q) ctx = const (q * p) := by
  rw [distribute_eq_distributed (.const p) (.const q)]
  change Evaluator.evaluated (productOf [const q, const p]) = _
  rw [productOf_const_const, evaluated_const]

/-! ## Expansion -/

/-- A term of an expanded difference: an affine term, or a proper multiple of an affine sum whose terms
cancel down to a single one. -/
inductive ExpandedTerm (names : Fin n → String) : Expr → Prop
  | affine {t : Expr} : AffineTerm names t → ExpandedTerm names t
  | multiple {q : Rat} {s : Expr} : q ≠ 0 → q ≠ 1 → Affine names s → s.isSum = true →
    (collect s.terms).isSum = false → ExpandedTerm names (scaled q s)

/-- A sum of such terms. -/
structure Expanded (names : Fin n → String) (e : Expr) : Prop where
  canonical : Canonical e
  terms : ∀ t ∈ e.terms, ExpandedTerm names t

theorem Affine.expanded {e : Expr} (h : Affine names e) : Expanded names e :=
  ⟨h.canonical, fun t ht => .affine (h.terms t ht)⟩

/-- A proper multiple of a sum is a product of the two. -/
theorem exists_scaled_sum {q : Rat} {s : Expr} (hs : s.isSum = true) (h0 : q ≠ 0) (h1 : q ≠ 1) :
    ∃ gs, scaled q s = product gs ∧ gs.Perm [s, const q] := by
  obtain ⟨ts, rfl⟩ := exists_of_isSum hs
  obtain ⟨gs, heq, hperm⟩ := @productOf_proper q [sum ts] (List.forall_mem_singleton.mpr rfl) rfl h0
    (by rw [if_neg h1]; rfl)
  rw [if_neg h1] at hperm
  exact ⟨gs, by rw [scaled, if_neg h1, heq], hperm⟩

theorem ExpandedTerm.canonical {t : Expr} (h : ExpandedTerm names t) : Canonical t := by
  cases h with
  | affine ht => exact ht.canonical
  | multiple _ _ hs _ _ => exact canonical_scaled hs.canonical

theorem ExpandedTerm.isSum {t : Expr} (h : ExpandedTerm names t) : t.isSum = false := by
  cases h with
  | affine ht => exact ht.isSum
  | multiple h0 h1 _ hsum _ =>
    obtain ⟨gs, heq, -⟩ := exists_scaled_sum hsum h0 h1
    rw [heq]
    rfl

theorem ExpandedTerm.defined {t : Expr} (h : ExpandedTerm names t) : Defined σ t := by
  cases h with
  | affine ht => exact ht.defined
  | multiple _ _ hs _ _ => exact (denotes_scaled hs.defined).defined

theorem ExpandedTerm.expanded {t : Expr} (h : ExpandedTerm names t) : Expanded names t :=
  ⟨h.canonical, by
    rw [terms_eq_self h.isSum]
    exact List.forall_mem_singleton.mpr h⟩

/-- Collected terms keep the form. -/
theorem expanded_collect {ts : List Expr} (h : ∀ t ∈ ts, ExpandedTerm names t) :
    Expanded names (collect ts) ∧ ∀ σ, value σ (collect ts) = (ts.map (value σ)).sum := by
  have hcanon : ∀ t ∈ ts, Canonical t := fun t ht => (h t ht).canonical
  refine ⟨⟨canonical_collect hcanon, fun t ht => ?_⟩, fun σ =>
    (denotes_collect hcanon fun t ht => (h t ht).defined).value_eq⟩
  obtain hc | ⟨-, ⟨k, q⟩, hp, hmem⟩ := mem_terms_collect hcanon ht
  · obtain ⟨q, rfl⟩ := exists_of_isConst hc
    exact .affine (.const q)
  · obtain ⟨hkey, -, h0⟩ := (mem_likeTerms hcanon).mp hp
    obtain ⟨p, hsplit, rfl⟩ := List.mem_map.mp hkey
    obtain ⟨u, hu, rfl⟩ := List.mem_map.mp hsplit
    obtain ⟨hmem', hconst⟩ := mem_others.mp hu
    dsimp only at hmem h0
    cases h u hmem' with
    | affine hterm =>
      cases hterm with
      | const q => cases hconst
      | multiple j hj =>
        rw [split_scaled (monic_symbol _) hj] at hmem
        have hscaled : AffineTerm names (scaled q (symbol (names j))) := .multiple j h0
        rw [terms_eq_self hscaled.isSum, List.mem_singleton] at hmem
        rw [hmem]
        exact .affine hscaled
    | @multiple p s hp0 _ hs hsum hcollapse =>
      rw [split_scaled (monic_of_isSum hs.canonical hsum) hp0] at hmem
      by_cases h1 : q = 1
      · rw [scaled, if_pos h1] at hmem
        exact .affine (hs.terms t hmem)
      · have hscaled : ExpandedTerm names (scaled q s) := .multiple h0 h1 hs hsum hcollapse
        rw [terms_eq_self hscaled.isSum, List.mem_singleton] at hmem
        rw [hmem]
        exact hscaled

theorem expandPlainList_eq_map (ctx : Context) (ts : List Expr) :
    expandPlainList ctx ts = ts.map (expandPlain ctx) := by
  induction ts with
  | nil => rfl
  | cons t ts ih => rw [expandPlainList, List.map_cons, ih]

theorem expandPlain_sum (ts : List Expr) :
    (sum ts).expandPlain ctx = collect ((ts.map (expandPlain ctx)).flatMap terms) := by
  rw [expandPlain, expandPlainList_eq_map]

theorem expandPlain_product (fs : List Expr) :
    (product fs).expandPlain ctx = multiplyOut (product fs) (fs.map (expandPlain ctx)) ctx := by
  rw [expandPlain, expandPlainList_eq_map]

@[simp] theorem expandPlain_const (q : Rat) : (const q).expandPlain ctx = const q := by
  rw [expandPlain]

@[simp] theorem expandPlain_symbol (x : String) : (symbol x).expandPlain ctx = symbol x := by
  rw [symbol, expandPlain]

/-- An affine term is already expanded. -/
theorem AffineTerm.expandPlain {t : Expr} (h : AffineTerm names t) : t.expandPlain ctx = t := by
  cases h with
  | const q => exact expandPlain_const q
  | @multiple q j h0 =>
    obtain heq | ⟨fs, heq, hperm⟩ := scaled_symbol_cases (names j) h0
    · rw [heq, expandPlain_symbol]
    · have hfs : ∀ f ∈ fs.map (Expr.expandPlain ctx), f.isSum = false := by
        intro f hf
        obtain ⟨g, hg, rfl⟩ := List.mem_map.mp hf
        rcases List.mem_cons.mp (hperm.mem_iff.mp hg) with rfl | hg
        · rw [expandPlain_symbol]
          rfl
        · rw [List.mem_singleton.mp hg, expandPlain_const]
          rfl
      rw [heq, expandPlain_product, multiplyOut, if_neg]
      rw [List.any_eq_true]
      rintro ⟨f, hf, hs⟩
      rw [hfs f hf] at hs
      cases hs

/-- An affine sum expands to its collected terms. -/
theorem Affine.expandPlain_sum {e : Expr} (h : Affine names e) (hs : e.isSum = true) :
    e.expandPlain ctx = collect e.terms := by
  obtain ⟨ts, rfl⟩ := exists_of_isSum hs
  have hmap : ts.map (Expr.expandPlain ctx) = ts := by
    conv_rhs => rw [← List.map_id ts]
    exact List.map_congr_left fun t ht => (h.terms t ht).expandPlain
  have hflat : ts.flatMap Expr.terms = ts :=
    flatMap_terms_eq_self fun t ht => (h.terms t ht).isSum
  rw [Expr.expandPlain_sum, hmap, hflat, terms_sum]

theorem perm_pair {α : Type} {gs : List α} {a b : α} (h : gs.Perm [a, b]) :
    gs = [a, b] ∨ gs = [b, a] := by
  match gs, h.length_eq with
  | [x, y], _ =>
    have hx : x = a ∨ x = b := by simpa using h.mem_iff.mp (List.mem_cons_self)
    rcases hx with rfl | rfl
    · have := List.perm_singleton.mp ((List.perm_cons x).mp h)
      exact Or.inl (by rw [this])
    · have := List.perm_singleton.mp ((List.perm_cons x).mp (h.trans (List.Perm.swap _ _ _)))
      exact Or.inr (by rw [this])

/-- **A multiple of an affine sum is multiplied out**, unless the sum collapses. -/
theorem expanded_expandPlain_scaled {q : Rat} {s : Expr} (hs : Affine names s)
    (hsum : s.isSum = true) (h0 : q ≠ 0) (h1 : q ≠ 1) :
    Expanded names ((scaled q s).expandPlain ctx) ∧
      ∀ σ, value σ ((scaled q s).expandPlain ctx) = q * value σ s := by
  obtain ⟨gs, heq, hperm⟩ := exists_scaled_sum hsum h0 h1
  obtain ⟨hcollect, hvalue⟩ := affine_collect hs.terms
  have hvalue' : ∀ σ, value σ (collect s.terms) = value σ s := fun σ => by
    rw [hvalue σ, value_terms]
  have hmapped : (gs.map (expandPlain ctx)).Perm [collect s.terms, const q] := by
    have := hperm.map (expandPlain ctx)
    rwa [List.map_cons, List.map_singleton, hs.expandPlain_sum hsum, expandPlain_const] at this
  have hscaled : ∀ σ, value σ (scaled q s) = q * value σ s := fun σ =>
    (denotes_scaled hs.defined).value_eq
  rw [heq] at hscaled
  rw [heq, expandPlain_product, multiplyOut]
  split
  · have hone : Affine names one := (AffineTerm.const 1).affine
    have hconst : Affine names (const q) := (AffineTerm.const q).affine
    have hfold : ∀ x y, Affine names x → Affine names y → (x.isConst = true ∨ y.isConst = true) →
        (∀ σ, value σ x * value σ y = q * value σ s) →
          Expanded names (distribute y (distribute x one ctx) ctx) ∧
            ∀ σ, value σ (distribute y (distribute x one ctx) ctx) = q * value σ s := by
      intro x y hx hy hc hxy
      obtain ⟨hfirst, hvfirst⟩ := affine_distribute hx hone (Or.inr rfl) ctx
      have hc' : y.isConst = true ∨ (distribute x one ctx).isConst = true := by
        refine hc.symm.imp_right fun h => ?_
        obtain ⟨p, rfl⟩ := exists_of_isConst h
        rw [one, distribute_const_const]
        rfl
      obtain ⟨hsecond, hvsecond⟩ := affine_distribute hy hfirst hc' ctx
      refine ⟨hsecond.expanded, fun σ => ?_⟩
      rw [hvsecond σ, hvfirst σ, ← hxy σ, one, value_const, mul_one, mul_comm]
    obtain h | h := perm_pair hmapped <;> rw [h, List.foldl_cons, List.foldl_cons, List.foldl_nil]
    · exact hfold _ _ hcollect hconst (Or.inr rfl) fun σ => by rw [hvalue' σ, value_const, mul_comm]
    · exact hfold _ _ hconst hcollect (Or.inl rfl) fun σ => by rw [hvalue' σ, value_const]
  · rename_i hany
    have hnot : (collect s.terms).isSum = false := by
      cases hcs : (collect s.terms).isSum
      · rfl
      · exact absurd (List.any_eq_true.mpr ⟨_, hmapped.mem_iff.mpr (by simp), hcs⟩) hany
    refine ⟨?_, hscaled⟩
    rw [← heq]
    exact (ExpandedTerm.multiple h0 h1 hs hsum hnot).expanded

/-! ## The difference of the sides -/

/-- A term of the difference before it is expanded. -/
theorem terms_subtract {l r t : Expr} (hl : Affine names l) (hr : Affine names r)
    (ht : t ∈ (subtract l r).terms) :
    AffineTerm names t ∨ (r.isSum = true ∧ t = scaled (-1) r) := by
  have hcanon : ∀ x ∈ [l, negate r], Canonical x :=
    List.forall_mem_cons.mpr ⟨hl.canonical, List.forall_mem_singleton.mpr
      (canonical_productOf (List.forall_mem_cons.mpr
        ⟨.const (-1), List.forall_mem_singleton.mpr hr.canonical⟩))⟩
  obtain hc | ⟨-, x, hx, hmem⟩ := mem_terms_sumOf hcanon ht
  · obtain ⟨q, rfl⟩ := exists_of_isConst hc
    exact Or.inl (.const q)
  · rcases List.mem_cons.mp hx with rfl | hx
    · exact Or.inl (hl.terms t hmem)
    · rw [List.mem_singleton.mp hx] at hmem
      cases hs : r.isSum
      · have hterm := (hr.of_isSum hs).productOf_const (-1)
        rw [negate, terms_eq_self hterm.isSum, List.mem_singleton] at hmem
        rw [hmem]
        exact Or.inl hterm
      · obtain ⟨gs, heq, -⟩ := exists_scaled_sum hs (by norm_num : (-1 : Rat) ≠ 0) (by norm_num)
        have hneg : negate r = scaled (-1) r := by
          rw [scaled, if_neg (by norm_num), negate]
        rw [hneg, heq, terms_eq_self rfl, List.mem_singleton] at hmem
        exact Or.inr ⟨rfl, by rw [hmem, heq]⟩

/-- **The expanded difference** consists of multiples of the unknowns and constants, and has the value
of the difference. -/
theorem expandPlain_subtract {l r : Expr} (hl : Affine names l) (hr : Affine names r)
    (ctx : Context) :
    (∀ t ∈ ((subtract l r).expandPlain ctx).terms, ExpandedTerm names t) ∧
      ∀ σ, value σ ((subtract l r).expandPlain ctx) = value σ l - value σ r := by
  have hterm : ∀ t ∈ (subtract l r).terms, Expanded names (t.expandPlain ctx) ∧
      ∀ σ, value σ (t.expandPlain ctx) = value σ t := by
    intro t ht
    obtain h | ⟨hs, rfl⟩ := terms_subtract hl hr ht
    · rw [h.expandPlain]
      exact ⟨h.affine.expanded, fun σ => rfl⟩
    · obtain ⟨hexp, hval⟩ := @expanded_expandPlain_scaled n names ctx (-1) r hr hs (by norm_num)
        (by norm_num)
      exact ⟨hexp, fun σ => by rw [hval σ, (denotes_scaled hr.defined).value_eq]⟩
  have hdiff : ∀ σ, value σ (subtract l r) = value σ l - value σ r := by
    intro σ
    rw [subtract, negate, value_sumOf, List.map_cons, List.map_singleton, List.sum_cons,
      List.sum_singleton, value_productOf]
    simp [sub_eq_add_neg]
  have hexpanded : Expanded names ((subtract l r).expandPlain ctx) ∧
      ∀ σ, value σ ((subtract l r).expandPlain ctx) = value σ (subtract l r) := by
    cases hs : (subtract l r).isSum
    · exact hterm _ (by rw [terms_eq_self hs]; exact List.mem_singleton_self _)
    · obtain ⟨ts, heq⟩ := exists_of_isSum hs
      rw [heq, terms_sum] at hterm
      obtain ⟨hexp, hval⟩ := @expanded_collect n names ((ts.map (expandPlain ctx)).flatMap terms)
        fun u hu => by
          obtain ⟨e, he, hue⟩ := List.mem_flatMap.mp hu
          obtain ⟨t, ht, rfl⟩ := List.mem_map.mp he
          exact (hterm t ht).1.terms u hue
      rw [heq, expandPlain_sum]
      refine ⟨hexp, fun σ => ?_⟩
      rw [hval σ, value_flatMap_terms, List.map_map, value_sum]
      exact congrArg List.sum (List.map_congr_left fun t ht => (hterm t ht).2 σ)
  exact ⟨hexpanded.1.terms, fun σ => by rw [hexpanded.2 σ, hdiff σ]⟩

end SymbolicAlgebra.Expr
