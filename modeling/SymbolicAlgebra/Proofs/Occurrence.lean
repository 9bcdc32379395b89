import SymbolicAlgebra.Proofs.Idempotence

/-!
# The variables of an evaluated form

Evaluation combines, drops and computes, but it makes up no variable: a condition that only concerns
variables, and that holds throughout an expression, holds throughout its evaluated form.

Results:
* `mentions_eq_false_iff`: what does not occur in an expression is none of its parts.
* `throughout_evaluated`: evaluation keeps conditions that only concern variables.
* `dependsOnAny_evaluated`: only variables of the expression occur in its evaluated form.
-/

namespace SymbolicAlgebra

namespace Expr

open Evaluator

/-! ## Parts that do not occur -/

theorem mentionsList_eq_false_iff {xs : List Expr} : ∀ {ts : List Expr},
    mentionsList xs ts = false ↔ ∀ t ∈ ts, mentions xs t = false
  | [] => by simp [mentionsList]
  | t :: ts => by
    rw [mentionsList, Bool.or_eq_false_iff, mentionsList_eq_false_iff, List.forall_mem_cons]

/-- The part itself and its operands. -/
theorem throughout_iff_operands {P : Expr → Prop} {e : Expr} :
    Throughout P e ↔ P e ∧ ∀ c, Operand c e → Throughout P c :=
  ⟨fun h => ⟨h.self, fun _ hc => h.of_operand hc⟩, fun h => throughout_of h.1 h.2⟩

/-- **What does not occur in an expression is none of its parts.** -/
theorem mentions_eq_false_iff {xs : List Expr} {e : Expr} (he : e.plain = true) :
    mentions xs e = false ↔ Throughout (fun c => xs.contains c = false) e := by
  induction e using inductionOn with
  | const q =>
    rw [throughout_iff_operands]
    exact ⟨fun h => ⟨h, fun _ hc => by cases hc⟩, And.left⟩
  | var n c =>
    rw [throughout_iff_operands]
    exact ⟨fun h => ⟨h, fun _ hc => by cases hc⟩, And.left⟩
  | sum ts ih =>
    rw [throughout_iff_operands, mentions, Bool.or_eq_false_iff, mentionsList_eq_false_iff]
    have hts := (plain_sum ts).mp he
    refine and_congr_right fun _ => ⟨fun h c hc => ?_, fun h t ht => ?_⟩
    · cases hc with
      | term ht => exact (ih c ht (hts c ht)).mp (h c ht)
    · exact (ih t ht (hts t ht)).mpr (h t (.term ht))
  | product fs ih =>
    rw [throughout_iff_operands, mentions, Bool.or_eq_false_iff, mentionsList_eq_false_iff]
    have hfs := (plain_product fs).mp he
    refine and_congr_right fun _ => ⟨fun h c hc => ?_, fun h f hf => ?_⟩
    · cases hc with
      | factor hf => exact (ih c hf (hfs c hf)).mp (h c hf)
    · exact (ih f hf (hfs f hf)).mpr (h f (.factor hf))
  | binary op l r ihl ihr =>
    obtain ⟨-, hl, hr⟩ := (plain_binary op l r).mp he
    rw [throughout_iff_operands, mentions, Bool.or_eq_false_iff, Bool.or_eq_false_iff, and_assoc]
    refine and_congr_right fun _ => ⟨fun h c hc => ?_, fun h => ?_⟩
    · cases hc with
      | left => exact (ihl hl).mp h.1
      | right => exact (ihr hr).mp h.2
    · exact ⟨(ihl hl).mpr (h l .left), (ihr hr).mpr (h r .right)⟩
  | not a ih =>
    rw [throughout_iff_operands, mentions, Bool.or_eq_false_iff]
    refine and_congr_right fun _ => ⟨fun h c hc => ?_, fun h => (ih he).mpr (h a .negated)⟩
    cases hc with
    | negated => exact (ih he).mp h
  | call f args => cases he
  | set ms ih =>
    rw [throughout_iff_operands, mentions, Bool.or_eq_false_iff, mentionsList_eq_false_iff]
    have hms := (plain_set ms).mp he
    refine and_congr_right fun _ => ⟨fun h c hc => ?_, fun h m hm => ?_⟩
    · cases hc with
      | member hm => exact (ih c hm (hms c hm)).mp (h c hm)
    · exact (ih m hm (hms m hm)).mpr (h m (.member hm))

end Expr

namespace Evaluator

open Expr

/-! ## Conditions on variables -/

section Conditions

variable {P : Expr → Prop} (hP : ∀ e, e.isVar = false → P e)

include hP

theorem throughout_of_not_var {e : Expr} (he : e.isVar = false)
    (h : ∀ c, Operand c e → Throughout P c) : Throughout P e :=
  throughout_of (hP e he) h

theorem throughout_of_const (q : Rat) : Throughout P (.const q) :=
  throughout_const (hP _ rfl)

theorem throughout_of_terms {e : Expr} (h : ∀ t ∈ e.terms, Throughout P t) : Throughout P e := by
  cases hs : e.isSum
  · exact h e (by rw [terms_eq_self hs]; exact List.mem_cons_self)
  · obtain ⟨ts, rfl⟩ := exists_of_isSum hs
    exact throughout_of_not_var hP rfl fun c hc => by
      cases hc with
      | term ht => exact h c ht

theorem throughout_product {xs : List Expr} (hc : ∀ x ∈ xs, Expr.Canonical x)
    (h : ∀ x ∈ xs, Throughout P x) : Throughout P (productOf xs) :=
  throughout_productOf (fun _ => hP _ rfl) (fun _ => hP _ rfl) hc h

theorem throughout_sumOf {xs : List Expr} (hc : ∀ x ∈ xs, Expr.Canonical x)
    (h : ∀ x ∈ xs, Throughout P x) : Throughout P (sumOf xs) := by
  refine throughout_of_terms hP fun t ht => ?_
  obtain hq | ⟨-, x, hx, htx⟩ := mem_terms_sumOf hc ht
  · obtain ⟨q, rfl⟩ := exists_of_isConst hq
    exact throughout_of_const hP q
  · exact (h x hx).of_terms t htx

theorem throughout_collect_terms {xs : List Expr} (hc : ∀ x ∈ xs, Expr.Canonical x)
    (h : ∀ x ∈ xs, Throughout P x) : Throughout P (collect (xs.flatMap terms)) := by
  refine throughout_of_terms hP (throughout_terms_collect (fun _ => hP _ rfl) (fun _ => hP _ rfl)
    (fun t ht => ?_) fun t ht => ?_) <;>
    obtain ⟨x, hx, ht⟩ := List.mem_flatMap.mp ht
  · exact (hc x hx).of_terms t ht
  · exact (h x hx).of_terms t ht

theorem throughout_simplePower {b x : Expr} (hb : Throughout P b) (hx : Throughout P x) :
    Throughout P (simplePower b x) := by
  obtain ⟨q, hq⟩ | ⟨-, hb'⟩ | ⟨hpow, -⟩ := simplePower_cases b x
  · exact hq ▸ throughout_of_const hP q
  · exact hb'.symm ▸ hb
  · exact hpow ▸ throughout_power (hP _ rfl) hb hx

/-! ### The steps of an evaluation -/

theorem throughout_product_bases {b : Bases} (hc : b.Canonical)
    (h : ∀ k ∈ Tally.keys b.exponents.entries, Throughout P k) : Throughout P b.product := by
  rw [Bases.product_eq]
  refine throughout_product hP (List.forall_mem_cons.mpr ⟨.const _, hc.powers⟩)
    (List.forall_mem_cons.mpr ⟨throughout_of_const hP _, fun f hf => ?_⟩)
  obtain ⟨p, hp, rfl⟩ := List.mem_map.mp hf
  have hk := h p.1 (List.mem_map_of_mem (List.mem_filter.mp hp).1)
  unfold raised
  split
  · exact hk
  · exact throughout_power (hP _ rfl) hk (throughout_of_const hP p.2)

omit hP in
theorem throughout_keys_ofFactors {fs : List Expr} (hc : ∀ f ∈ fs, Expr.Canonical f)
    (h : ∀ f ∈ fs, Throughout P f) :
    ∀ k ∈ Tally.keys (Bases.ofFactors fs).exponents.entries, Throughout P k := by
  intro k hk
  rw [Bases.ofFactors_eq, Tally.mem_keys_ofList (canonical_keys_exponentsOf hc)] at hk
  obtain ⟨p, hp, rfl⟩ := List.mem_map.mp hk
  obtain ⟨f, hf, rfl⟩ := List.mem_map.mp hp
  have hthrough := h f (mem_others.mp hf).1
  unfold splitExponent
  split
  · exact hthrough.of_operand .left
  · exact hthrough

theorem throughout_productStep {v : Expr → Expr} {fs : List Expr}
    (hc : ∀ f ∈ fs, Expr.Canonical (v f)) (h : ∀ f ∈ fs, Throughout P (v f))
    (hs : ∀ base x scale, (visitedBases v fs).absorber? = some (base, x, scale) →
      ∀ t ∈ base.terms, Expr.Canonical (v (productOf [.const scale, t])) ∧
        (Throughout P (productOf [.const scale, t]) →
          Throughout P (v (productOf [.const scale, t])))) :
    Throughout P (productStep v fs) := by
  have hflat : ∀ g ∈ (fs.map v).flatMap factors, Expr.Canonical g ∧ Throughout P g := by
    intro g hg
    obtain ⟨r, hr, hgr⟩ := List.mem_flatMap.mp hg
    obtain ⟨f, hf, rfl⟩ := List.mem_map.mp hr
    exact ⟨(hc f hf).of_factors g hgr, (h f hf).of_factors g hgr⟩
  have hcanon : (visitedBases v fs).Canonical := Bases.canonical_ofFactors fun g hg => (hflat g hg).1
  have hkeys : ∀ k ∈ Tally.keys (visitedBases v fs).exponents.entries, Throughout P k :=
    throughout_keys_ofFactors (fun g hg => (hflat g hg).1) fun g hg => (hflat g hg).2
  unfold productStep
  split
  · exact throughout_of_const hP 0
  · unfold Bases.absorbed
    split
    · exact throughout_product_bases hP hcanon hkeys
    · split
      · exact throughout_product_bases hP hcanon hkeys
      · next base x scale habs =>
        have hterm := hs base x scale habs
        have hmem := List.mem_map_of_mem (f := Prod.fst) (Bases.absorber?_eq_some habs).1
        have hscale : ∀ t ∈ base.terms, Throughout P (productOf [.const scale, t]) := fun t ht =>
          throughout_product hP (forall_mem_pair (.const scale) ((hcanon base hmem).of_terms t ht))
            (forall_mem_pair (throughout_of_const hP scale) ((hkeys base hmem).of_terms t ht))
        have hd : Expr.Canonical (scaledSum v scale base) :=
          canonical_scaledSum fun t ht => (hterm t ht).1
        have hscaled : Throughout P (scaledSum v scale base) := by
          rw [scaledSum, ← List.flatMap_map]
          exact throughout_collect_terms hP (List.forall_mem_map.mpr fun t ht => (hterm t ht).1)
            (List.forall_mem_map.mpr fun t ht => (hterm t ht).2 (hscale t ht))
        refine throughout_product_bases hP (hcanon.replace hd) fun k hk => ?_
        rcases Bases.mem_keys_replace hcanon hd hk with rfl | hk
        · exact hscaled
        · exact hkeys k hk

theorem throughout_powerStep {b x : Expr} (he : Expr.Canonical (Expr.power b x))
    (hb : Throughout P b) (hx : Throughout P x)
    (h : ∀ e, SubVisit evaluated e (Expr.power b x) → Throughout P e →
      Throughout P (evaluated e)) : Throughout P (powerStep evaluated b x) := by
  have hcanon := fun e (h : SubVisit evaluated e (Expr.power b x)) =>
    canonical_evaluated (h.lower_evaluated he).1
  have hbase := h b .left hb
  have hexponent := h x .right hx
  unfold powerStep
  split
  · next fs heq =>
    have hproduct : Expr.Canonical (.product fs) := heq ▸ hcanon b .left
    rw [heq] at hbase
    refine h _ (.distributed heq) (throughout_product hP
      (canonical_powers hproduct he.of_binary.2) (List.forall_mem_map.mpr fun f hf => ?_))
    exact throughout_power (hP _ rfl) (hbase.of_factors f hf) hx
  · next b' x' heq =>
    have hpower := hcanon b .left
    rw [heq] at hbase hpower
    exact throughout_simplePower hP (hbase.of_operand .left) (h _ (.exponents heq)
      (throughout_product hP (forall_mem_pair (hcanon x .right) hpower.of_binary.2)
        (forall_mem_pair hexponent (hbase.of_operand .right))))
  · exact throughout_simplePower hP hbase hexponent

theorem throughout_boolean (t : Bool) : Throughout P (.boolean t) := by
  cases t
  · exact throughout_of_const hP 0
  · exact throughout_of_const hP 1

/-- **Evaluation keeps conditions that only concern variables.** -/
theorem throughout_evaluated {f : Expr} (hf : Expr.Canonical f) (h : Throughout P f) :
    Throughout P (evaluated f) := by
  refine evaluated_induction (motive := fun f => Throughout P f → Throughout P (evaluated f))
    (fun f hf ih h => ?_) hf h
  have hcanon := fun e (h : SubVisit evaluated e f) =>
    canonical_evaluated (h.lower_evaluated hf).1
  cases hf with
  | const q => exact throughout_of_const hP q
  | var n => exact h
  | @sum ts hts heq =>
    rw [evaluated_sum (.sum hts heq)]
    exact throughout_collect_terms hP (List.forall_mem_map.mpr fun t ht => hcanon t (.term ht))
      (List.forall_mem_map.mpr fun t ht => ih t (.term ht) (h.of_operand (.term ht)))
  | @product fs hfs heq =>
    rw [evaluated_product (.product hfs heq)]
    exact throughout_productStep hP (fun f hf => hcanon f (.factor hf))
      (fun f hf => ih f (.factor hf) (h.of_operand (.factor hf))) fun base x scale habs t ht =>
        ⟨hcanon _ (.scaledTerm habs ht), ih _ (.scaledTerm habs ht)⟩
  | @binary op l r hsub hl hr =>
    have hleft := h.of_operand .left
    have hright := h.of_operand .right
    by_cases hop : op = .power
    · subst hop
      rw [← Expr.power, evaluated_power (.binary hsub hl hr)]
      exact throughout_powerStep hP (.binary hsub hl hr) hleft hright ih
    · rw [evaluated_binary hop (.binary hsub hl hr), binaryStep]
      split
      · exact throughout_boolean hP _
      · refine throughout_of_not_var hP rfl fun c hc => ?_
        cases hc with
        | left => exact ih l .left hleft
        | right => exact ih r .right hright
  | @not a ha =>
    rw [evaluated_not (.not ha), notStep]
    split
    · exact throughout_boolean hP _
    · split
      · exact throughout_boolean hP _
      · refine throughout_of_not_var hP rfl fun c hc => ?_
        cases hc with
        | negated => exact ih a .operand (h.of_operand .negated)
  | @set ms hms heq =>
    rw [evaluated_set (.set hms heq)]
    refine throughout_of_not_var hP rfl fun c hc => ?_
    cases hc with
    | member hm =>
      have hmem := mem_sort.mp ((dropRepeats_sublist _).subset hm)
      obtain ⟨a, ha, rfl⟩ := List.mem_map.mp hmem
      exact ih a (.member ha) (h.of_operand (.member ha))

end Conditions

end Evaluator

namespace Expr

open Evaluator

/-! ## Occurrence -/

variable {xs : List Expr}

/-- Only variables are among the expressions. -/
theorem contains_eq_false (hxs : ∀ x ∈ xs, x.isVar = true) (e : Expr) (he : e.isVar = false) :
    xs.contains e = false := by
  rw [List.contains_eq_any_beq, List.any_eq_false]
  intro x hx heq
  cases x <;> cases hxs _ hx
  cases e <;> first | exact Bool.noConfusion (show false = true from heq) | cases he

/-- Only variables of the operands occur in a sum. -/
theorem dependsOnAny_sumOf (hxs : ∀ x ∈ xs, x.isVar = true) {ts : List Expr}
    (hc : ∀ t ∈ ts, Canonical t) (h : ∀ t ∈ ts, t.dependsOnAny xs = false) :
    (sumOf ts).dependsOnAny xs = false := by
  rw [dependsOnAny, mentions_eq_false_iff (canonical_sumOf hc).plain]
  exact throughout_sumOf (contains_eq_false hxs) hc fun t ht =>
    (mentions_eq_false_iff (hc t ht).plain).mp (h t ht)

/-- **Only variables of the expression occur in its evaluated form.** -/
theorem dependsOnAny_evaluated (hxs : ∀ x ∈ xs, x.isVar = true) {e : Expr} (he : Canonical e)
    (h : e.dependsOnAny xs = false) : (evaluated e).dependsOnAny xs = false := by
  rw [dependsOnAny, mentions_eq_false_iff (canonical_evaluated he).plain]
  exact throughout_evaluated (contains_eq_false hxs) he ((mentions_eq_false_iff he.plain).mp h)

end Expr

end SymbolicAlgebra
