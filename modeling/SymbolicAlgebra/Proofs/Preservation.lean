import Mathlib.Algebra.BigOperators.Ring.List
import Mathlib.Logic.Relation
import SymbolicAlgebra.Proofs.Transparency
import SymbolicAlgebra.Proofs.Value

/-!
# Evaluation preserves the value

Where an expression has a value, so has its evaluated form, and it is the same. One step keeps the
value if its visits do (`Preserves`); the visits of an evaluation are well founded, so the whole
evaluation does.

The one thing that is not exact is a power of constants whose exponent has become larger than
`Rational.maxExactExponent`: it is computed in doubles. Literal exponents within that bound do not
prevent it, since exponents of equal bases add up and nested ones multiply before the base turns out
to be a constant. `ExactPowers` says that this does not happen.

Results:
* `denotes_simplePower`, `denotes_powerStep`: powers, with exactness as a hypothesis.
* `denotes_absorbed`: a sum takes over the constant of a product.
* `value_decide?`: what is decided about evaluated operands is their truth.
* `denotes_evaluated`: the evaluated form has the value of the expression.
-/

namespace SymbolicAlgebra.Evaluator

open Expr

/-- `e` is visited in the course of the evaluation of `f`. -/
abbrev Visited (e f : Expr) : Prop :=
  Relation.ReflTransGen (SubVisit evaluated) e f

/-- The step for an expression raises the constant `p` to the constant `n`. -/
inductive Raises : Expr → Rat → Rat → Prop
  | direct {b x : Expr} {p n : Rat} : evaluated b = .const p → evaluated x = .const n →
    Raises (Expr.power b x) p n
  | nested {b x x' : Expr} {p n : Rat} : evaluated b = Expr.power (.const p) x' →
    evaluated (productOf [evaluated x, x']) = .const n → Raises (Expr.power b x) p n

/-- Where the step for `e` computes a power of a constant other than `0` and `1`, it is exact. -/
def ExactStep (e : Expr) : Prop :=
  ∀ p n v, Raises e p n → p ≠ 0 → p ≠ 1 → Rational.pow? p n = some v → v = p ^ n.num

/-- All powers of constants that the evaluation of `f` computes are exact. -/
def ExactPowers (f : Expr) : Prop :=
  ∀ e, Visited e f → ExactStep e

theorem ExactPowers.of_subVisit {e f : Expr} (h : ExactPowers f) (he : SubVisit evaluated e f) :
    ExactPowers e :=
  fun e' hvisit => h e' (hvisit.tail he)

/-- Powers with moderate integer exponents are exact. -/
theorem pow?_exact {p n v : Rat} (hn : Rational.isInteger n = true)
    (hle : n.num.natAbs ≤ Rational.maxExactExponent) (h : Rational.pow? p n = some v) :
    v = p ^ n.num := by
  have hexact : Rational.exactExponent? n = some n.num := by
    rw [Rational.exactExponent?, hn, Bool.true_and, decide_eq_true hle, if_pos rfl]
  rw [Rational.pow?, hexact] at h
  simp only at h
  split at h
  · cases h
  · obtain rfl := Option.some.inj h
    rw [Rational.integerPower]
    split
    · rename_i hnonneg
      conv_rhs => rw [← Int.toNat_of_nonneg hnonneg, zpow_natCast]
    · rename_i hneg
      have hnonneg : 0 ≤ -n.num := by omega
      rw [inv_pow, ← zpow_natCast, Int.toNat_of_nonneg hnonneg, zpow_neg, inv_inv]

section Steps

variable {σ : String → Rat} {v : Expr → Expr}

/-- The visit of `e` keeps its value. -/
def Preserves (σ : String → Rat) (v : Expr → Expr) (e : Expr) : Prop :=
  Canonical (v e) ∧ (Defined σ e → Denotes σ (v e) (value σ e))

theorem flatMap_visited {ts : List Expr} (h : ∀ t ∈ ts, Preserves σ v t)
    (hd : ∀ t ∈ ts, Defined σ t) : (∀ r ∈ ts.map v, Canonical r) ∧ (∀ r ∈ ts.map v, Defined σ r) ∧
      (ts.map v).map (value σ) = ts.map (value σ) := by
  have hdenotes : ∀ t ∈ ts, Denotes σ (v t) (value σ t) := fun t ht => (h t ht).2 (hd t ht)
  exact ⟨List.forall_mem_map.mpr fun t ht => (h t ht).1, defined_map hdenotes,
    map_value_map hdenotes⟩

theorem denotes_sumStep {ts : List Expr} (h : ∀ t ∈ ts, Preserves σ v t)
    (hd : ∀ t ∈ ts, Defined σ t) : Denotes σ (sumStep v ts) (value σ (.sum ts)) := by
  obtain ⟨hcanon, hdefined, hvalue⟩ := flatMap_visited h hd
  rw [value_sum, ← hvalue, ← value_flatMap_terms]
  exact denotes_collect (fun t ht => (canonical_flatMap_terms hcanon t ht).1)
    (defined_flatMap hdefined fun x hx => hx.of_terms)

/-! ## Products -/

/-- The scaled terms of a sum add up to the multiple of the sum. -/
theorem denotes_scaledSum {q : Rat} {base : Expr} (hb : Defined σ base)
    (h : ∀ t ∈ base.terms, Preserves σ v (productOf [.const q, t])) :
    Denotes σ (scaledSum v q base) (q * value σ base) := by
  have hscaled : ∀ t ∈ base.terms, Denotes σ (productOf [.const q, t]) (q * value σ t) := fun t ht =>
    denotes_productOf_pair ⟨.const q, value_const q⟩ ⟨hb.of_terms t ht, rfl⟩
  have hvisit := fun t ht => (h t ht).2 (hscaled t ht).defined
  have hflat : ∀ ts : List Expr, (∀ t ∈ ts, t ∈ base.terms) →
      ((ts.flatMap fun t => (v (productOf [.const q, t])).terms).map (value σ)).sum =
        q * (ts.map (value σ)).sum := by
    intro ts
    induction ts with
    | nil => exact fun _ => (mul_zero q).symm
    | cons t ts ih =>
      intro hts
      obtain ⟨ht, hts⟩ := List.forall_mem_cons.mp hts
      rw [List.flatMap_cons, List.map_append, List.sum_append, value_terms, (hvisit t ht).value_eq,
        (hscaled t ht).value_eq, ih hts, List.map_cons, List.sum_cons, mul_add]
  rw [← value_terms base, ← hflat base.terms fun _ ht => ht]
  refine denotes_collect (fun u hu => ?_) (fun u hu => ?_) <;>
    obtain ⟨t, ht, hut⟩ := List.mem_flatMap.mp hu
  · exact (h t ht).1.of_terms u hut
  · exact (hvisit t ht).defined.of_terms u hut

/-- The bases of visited factors have the value of the product. -/
theorem denotes_visitedBases {fs : List Expr} (h : ∀ f ∈ fs, Preserves σ v f)
    (hd : ∀ f ∈ fs, Defined σ f) : (visitedBases v fs).Denotes σ (value σ (.product fs)) := by
  obtain ⟨hcanon, hdefined, hvalue⟩ := flatMap_visited h hd
  rw [value_product, ← hvalue, ← value_flatMap_factors]
  exact Bases.denotes_ofFactors (fun f hf => (canonical_flatMap_factors hcanon f hf).1)
    (defined_flatMap hdefined fun x hx => hx.of_factors)

/-- **A sum takes over the constant** without a change of value. -/
theorem denotes_absorbed {fs : List Expr} (h : ∀ f ∈ fs, Preserves σ v f)
    (hd : ∀ f ∈ fs, Defined σ f)
    (hs : ∀ base x scale, (visitedBases v fs).absorber? = some (base, x, scale) →
      ∀ t ∈ base.terms, Preserves σ v (productOf [.const scale, t])) :
    ((visitedBases v fs).absorbed v).Denotes σ (value σ (.product fs)) := by
  have hbases := denotes_visitedBases h hd
  unfold Bases.absorbed
  split
  · exact hbases
  · split
    · exact hbases
    · rename_i base x scale habs
      have hfactors : ∀ g ∈ (fs.map v).flatMap factors, Canonical g :=
        canonical_visited fun f hf => (h f hf).1
      have hcanon : (visitedBases v fs).Canonical := Bases.canonical_ofFactors hfactors
      have hnodup : (Tally.keys (visitedBases v fs).exponents.entries).Nodup := by
        rw [visitedBases, Bases.ofFactors_eq]
        exact Tally.nodup_keys_ofList _
      obtain ⟨hmem, -, hx⟩ := Bases.absorber?_eq_some habs
      have hbase : Defined σ base := by
        obtain ⟨w, hw, -⟩ := hbases
        exact (hw.sound _ hmem).defined
      exact hbases.replace hcanon hnodup hmem hx
        (canonical_scaledSum fun t ht => (hs base x scale habs t ht).1)
        (denotes_scaledSum hbase (hs base x scale habs))

theorem denotes_productStep {fs : List Expr} (h : ∀ f ∈ fs, Preserves σ v f)
    (hd : ∀ f ∈ fs, Defined σ f)
    (hs : ∀ base x scale, (visitedBases v fs).absorber? = some (base, x, scale) →
      ∀ t ∈ base.terms, Preserves σ v (productOf [.const scale, t])) :
    Denotes σ (productStep v fs) (value σ (.product fs)) := by
  rw [productStep]
  split
  · rename_i h0
    obtain ⟨w, -, hw⟩ := denotes_visitedBases h hd
    rw [← hw, h0, zero_mul]
    exact ⟨.const 0, value_const 0⟩
  · exact (denotes_absorbed h hd hs).product

/-! ## Powers -/

theorem num_ne_zero_of_ne {n : Rat} (h : n ≠ 0) : n.num ≠ 0 :=
  Rat.num_ne_zero.mpr h

/-- **A power of evaluated operands has the value of the power**, provided that it is exact where it
is computed. -/
theorem denotes_simplePower {b : Expr} {n : Rat} (h : Defined σ (Expr.power b (.const n)))
    (hexact : ∀ p u, b = .const p → p ≠ 0 → p ≠ 1 → Rational.pow? p n = some u → u = p ^ n.num) :
    Denotes σ (simplePower b (.const n)) (value σ b ^ n.num) := by
  obtain ⟨hb, h0⟩ : Defined σ b ∧ n ≠ 0 := by
    cases h with
    | power hb _ h0 _ => exact ⟨hb, h0⟩
    | binary hop _ _ => cases hop
  unfold simplePower
  split
  · rename_i hz
    rw [eq_const_of_isZero hz, value_const, zero_zpow _ (num_ne_zero_of_ne h0)]
    exact ⟨.const 0, value_const 0⟩
  split
  · rename_i h1
    rw [eq_const_of_isOne h1, value_const, one_zpow]
    exact ⟨.const 1, value_const 1⟩
  split
  · rename_i hz
    exact absurd (beq_iff_eq.mp hz) h0
  split
  · rename_i h1
    obtain rfl : n = 1 := beq_iff_eq.mp h1
    exact ⟨hb, (zpow_one _).symm⟩
  rename_i hz hone _ _
  split
  · rename_i p n' heq
    cases heq
    split
    · rename_i u hu
      have hp0 : p ≠ 0 := fun hp => hz (beq_iff_eq.mpr hp)
      have hp1 : p ≠ 1 := fun hp => hone (beq_iff_eq.mpr hp)
      rw [value_const, ← hexact p u rfl hp0 hp1 hu]
      exact ⟨.const u, value_const u⟩
    · exact ⟨h, value_power _ _⟩
  · exact ⟨h, value_power _ _⟩

/-- The powers of the factors of a product. -/
theorem denotes_powers {n : Rat} : ∀ {fs : List Expr},
    Defined σ (Expr.power (.product fs) (.const n)) →
      (∀ g ∈ fs.map (fun f => Expr.power f (.const n)), Defined σ g) ∧
        ((fs.map fun f => Expr.power f (.const n)).map (value σ)).prod =
          value σ (.product fs) ^ n.num
  | fs, h => by
    cases h with
    | binary hop _ _ => cases hop
    | power hb hn h0 hneg =>
      refine ⟨fun g hg => ?_, ?_⟩
      · obtain ⟨f, hf, rfl⟩ := List.mem_map.mp hg
        refine .power (hb.of_factors f hf) hn h0 fun hlt hzero => hneg hlt ?_
        rw [value_product]
        exact List.prod_eq_zero (List.mem_map.mpr ⟨f, hf, hzero⟩)
      · rw [value_product, List.map_map]
        clear hb hneg
        induction fs with
        | nil => exact (one_zpow _).symm
        | cons f fs ih =>
          rw [List.map_cons, List.prod_cons, List.map_cons, List.prod_cons, mul_zpow, ih]
          exact congrArg (· * _) (value_power f n)

/-- Nested exponents multiply. -/
theorem denotes_nested {b : Expr} {m n : Rat}
    (h : Defined σ (Expr.power (Expr.power b (.const m)) (.const n))) :
    Defined σ (Expr.power b (.const (n * m))) ∧
      (value σ b ^ m.num) ^ n.num = value σ b ^ (n * m).num := by
  cases h with
  | binary hop _ _ => cases hop
  | power hb hn hn0 hneg =>
    cases hb with
    | binary hop _ _ => cases hop
    | power hb hm hm0 hneg' =>
      obtain ⟨i, rfl⟩ := exists_int_of_isInteger hn
      obtain ⟨j, rfl⟩ := exists_int_of_isInteger hm
      have hmul : ((i : Rat) * j) = ((i * j : Int) : Rat) := (Int.cast_mul i j).symm
      refine ⟨.power hb ?_ (mul_ne_zero hn0 hm0) fun hlt => ?_, ?_⟩
      · rw [hmul]
        exact isInteger_intCast _
      · -- one of the two exponents is negative
        rcases mul_neg_iff.mp hlt with ⟨-, hj⟩ | ⟨hi, -⟩
        · exact hneg' hj
        · intro hzero
          refine hneg hi ?_
          rw [value_power, hzero, zero_zpow _ (num_ne_zero_of_ne hm0)]
      · rw [hmul]
        simp only [Rat.num_intCast]
        rw [← zpow_mul, mul_comm]

/-! ## Relations and logic -/

theorem value_holds? {op : BinaryOp} {a b : Rat} {t : Bool} (hop : op.isLogical = true)
    (h : holds? op a b = some t) : op.value a b = truth t := by
  cases op <;> cases hop <;> cases h <;> rfl

theorem exists_of_isTrue {e : Expr} (h : e.isTrue = true) : ∃ q, q ≠ 0 ∧ e = .const q := by
  cases e with
  | const q => exact ⟨q, bne_iff_ne.mp h, rfl⟩
  | _ => cases h

theorem value_of_isZero {e : Expr} (h : e.isZero = true) : value σ e = 0 := by
  rw [eq_const_of_isZero h, value_const]

theorem value_of_isTrue {e : Expr} (h : e.isTrue = true) : (value σ e != 0) = true := by
  obtain ⟨q, hq, rfl⟩ := exists_of_isTrue h
  rwa [value_const, bne_iff_ne]

theorem value_connect? {op : BinaryOp} {l r : Expr} {t : Bool} (hl : Canonical l)
    (hr : Canonical r) (h : connect? op l r = some t) (hop : op.isLogical = true) :
    op.value (value σ l) (value σ r) = truth t := by
  cases op <;> cases hop <;> simp only [connect?] at h
  case conj =>
    split at h
    · rename_i hz
      cases h
      rcases Bool.or_eq_true_iff.mp hz with hz | hz <;>
        simp [BinaryOp.value, value_of_isZero hz]
    · split at h
      · rename_i ht
        cases h
        obtain ⟨htl, htr⟩ := Bool.and_eq_true_iff.mp ht
        simp [BinaryOp.value, value_of_isTrue htl, value_of_isTrue htr]
      · cases h
  case disj =>
    split at h
    · rename_i ht
      cases h
      rcases Bool.or_eq_true_iff.mp ht with ht | ht <;>
        simp [BinaryOp.value, value_of_isTrue ht]
    · split at h
      · rename_i hz
        cases h
        obtain ⟨hzl, hzr⟩ := Bool.and_eq_true_iff.mp hz
        simp [BinaryOp.value, value_of_isZero hzl, value_of_isZero hzr]
      · cases h
  case equal =>
    split at h
    · rename_i heq
      cases h
      simp [BinaryOp.value, eq_of_beq hl.plain hr.plain heq]
    · cases h
  case notEqual =>
    split at h
    · rename_i heq
      cases h
      simp [BinaryOp.value, eq_of_beq hl.plain hr.plain heq]
    · cases h
  all_goals cases h

/-- **What is decided about operands is the truth about their values.** -/
theorem value_decide? {op : BinaryOp} {l r : Expr} {t : Bool} (hl : Canonical l)
    (hr : Canonical r) (hop : op.isLogical = true) (h : decide? op l r = some t) :
    op.value (value σ l) (value σ r) = truth t := by
  unfold decide? at h
  split at h
  · rename_i a b
    cases hholds : holds? op a b with
    | some t' =>
      rw [hholds, Option.some_or] at h
      rw [value_const, value_const, value_holds? hop hholds, Option.some.inj h]
    | none =>
      rw [hholds, Option.none_or] at h
      exact value_connect? hl hr h hop
  · exact value_connect? hl hr h hop

theorem denotes_boolean (t : Bool) : Denotes σ (.boolean t) (truth t) := by
  cases t
  · exact ⟨.const 0, value_const 0⟩
  · exact ⟨.const 1, value_const 1⟩

theorem denotes_binaryStep {op : BinaryOp} {l r : Expr} (hop : op.isLogical = true)
    (hl : Preserves σ v l) (hr : Preserves σ v r) (hdl : Defined σ l) (hdr : Defined σ r) :
    Denotes σ (binaryStep v op l r) (value σ (.binary op l r)) := by
  rw [value_binary, ← (hl.2 hdl).value_eq, ← (hr.2 hdr).value_eq, binaryStep]
  split
  · rename_i t ht
    rw [value_decide? hl.1 hr.1 hop ht]
    exact denotes_boolean t
  · exact ⟨.binary hop (hl.2 hdl).defined (hr.2 hdr).defined, value_binary _ _ _⟩

theorem denotes_notStep {a : Expr} (h : Preserves σ v a) (hd : Defined σ a) :
    Denotes σ (notStep v a) (value σ (.not a)) := by
  rw [value_not, ← (h.2 hd).value_eq, notStep]
  split
  · rename_i ht
    rw [beq_eq_false_iff_ne.mpr (bne_iff_ne.mp (value_of_isTrue ht))]
    exact denotes_boolean false
  · split
    · rename_i hz
      rw [value_of_isZero hz]
      exact denotes_boolean true
    · exact ⟨.not (h.2 hd).defined, value_not _⟩

end Steps

/-! ## The whole evaluation -/

section Evaluated

variable {σ : String → Rat}

/-- The power of an evaluated base is as much as that of the base. -/
theorem defined_power_evaluated {b : Expr} {n : Rat} (h : Preserves σ evaluated b)
    (hd : Defined σ (Expr.power b (.const n))) :
    Defined σ (Expr.power (evaluated b) (.const n)) ∧ value σ (evaluated b) = value σ b := by
  cases hd with
  | binary hop _ _ => cases hop
  | power hb hn h0 hneg =>
    obtain ⟨hdef, hvalue⟩ := h.2 hb
    exact ⟨.power hdef hn h0 fun hlt => hvalue ▸ hneg hlt, hvalue⟩

/-- The inner exponent of a nested power is a constant. -/
theorem exists_const_of_defined_nested {b x y : Expr}
    (h : Defined σ (Expr.power (Expr.power b x) y)) : ∃ m, x = .const m := by
  cases h with
  | binary hop _ _ => cases hop
  | power hb _ _ _ =>
    cases hb with
    | binary hop _ _ => cases hop
    | power _ _ _ _ => exact ⟨_, rfl⟩

theorem evaluated_productOf_const (n m : Rat) :
    evaluated (productOf [evaluated (.const n), .const m]) = .const (n * m) := by
  rw [evaluated_const, productOf_const_const, evaluated_const]

theorem denotes_powerStep {b : Expr} {n : Rat} (hexact : ExactStep (Expr.power b (.const n)))
    (h : ∀ e', SubVisit evaluated e' (Expr.power b (.const n)) → Preserves σ evaluated e')
    (hd : Defined σ (Expr.power b (.const n))) :
    Denotes σ (powerStep evaluated b (.const n)) (value σ b ^ n.num) := by
  obtain ⟨hpow, hvalue⟩ := defined_power_evaluated (h b .left) hd
  have hn : evaluated (.const n) = .const n := evaluated_const n
  rw [← hvalue]
  unfold powerStep
  split
  · rename_i fs hb
    rw [hb] at hpow ⊢
    obtain ⟨hdefined, hprod⟩ := denotes_powers hpow
    have hproduct := denotes_productOf hdefined
    rw [hprod] at hproduct
    have := (h _ (.distributed hb)).2 hproduct.defined
    rwa [hproduct.value_eq] at this
  · rename_i b' x' hb
    rw [hb] at hpow ⊢
    obtain ⟨m, rfl⟩ := exists_const_of_defined_nested hpow
    obtain ⟨hdefined, hmul⟩ := denotes_nested hpow
    have hmulEval := evaluated_productOf_const n m
    rw [hmulEval]
    change Denotes σ _ (value σ (Expr.power b' (.const m)) ^ n.num)
    rw [value_power, hmul]
    refine denotes_simplePower hdefined fun p u hp hp0 hp1 hu => ?_
    exact hexact p (n * m) u (.nested (hp ▸ hb) hmulEval) hp0 hp1 hu
  · rw [hn]
    exact denotes_simplePower hpow fun p u hp hp0 hp1 hu =>
      hexact p n u (.direct hp hn) hp0 hp1 hu

/-- One step of the evaluation keeps the value if its visits do. -/
theorem preserves_step {e : Expr} (he : Canonical e) (hexact : ExactStep e)
    (h : ∀ e', SubVisit evaluated e' e → Preserves σ evaluated e') (hd : Defined σ e) :
    Denotes σ (evaluated e) (value σ e) := by
  cases hd with
  | const q => exact ⟨.const q, rfl⟩
  | var n c => exact ⟨.var n c, rfl⟩
  | sum hts =>
    rw [evaluated_sum he]
    exact denotes_sumStep (fun t ht => h t (.term ht)) hts
  | product hfs =>
    rw [evaluated_product he]
    exact denotes_productStep (fun f hf => h f (.factor hf)) hfs
      fun base x scale habs t ht => h _ (.scaledTerm habs ht)
  | power hb hn h0 hneg =>
    rw [evaluated_power he, value_power]
    exact denotes_powerStep hexact h (.power hb hn h0 hneg)
  | binary hop hl hr =>
    rw [evaluated_binary (by rintro rfl; cases hop) he]
    exact denotes_binaryStep hop (h _ .left) (h _ .right) hl hr
  | not ha =>
    rw [evaluated_not he]
    exact denotes_notStep (h _ .operand) ha

/-- **The evaluated form has the value of the expression.** -/
theorem denotes_evaluated {e : Expr} (he : Canonical e) (hexact : ExactPowers e)
    (hd : Defined σ e) : Denotes σ (evaluated e) (value σ e) := by
  refine evaluated_induction (motive := fun e => ExactPowers e → Defined σ e →
    Denotes σ (evaluated e) (value σ e)) (fun e he ih hexact hd => ?_) he hexact hd
  exact preserves_step he (hexact e .refl) (fun e' hsub =>
    ⟨canonical_evaluated (hsub.lower_evaluated he).1, ih e' hsub (hexact.of_subVisit hsub)⟩) hd

end Evaluated

end SymbolicAlgebra.Evaluator
