import SymbolicAlgebra.Proofs.Exponents
import SymbolicAlgebra.Proofs.Instances

/-!
# Matching is sound

A successful match binds the variables of the pattern so that the pattern, with the bindings put in,
has the value of the subject. The search takes bound variables and constants away from the subject by
subtraction or division and evaluates the rest, which keeps the value where nothing of value `0` is
divided by and where all powers of constants are exact. So the theorem is about patterns without
powers, whose variables that are factors stand for something other than `0`, and about subjects whose
degree is small in comparison with the size of the pattern: every subtraction or division may double
what the degrees of the subject and of the bindings come to (`cost`).

An attempt is `Sound` if a success proves its goal under all bindings that extend the ones it leaves.

Results:
* `value_instantiate_of_match?`: the instance under the bindings of a match has the value of the
  subject.
-/

namespace SymbolicAlgebra

open Expr

/-! ## Subjects -/

namespace Expr

/-- A canonical expression that has a value, and whose degree is at most `D`. -/
structure Moderate (σ : String → Rat) (D : Nat) (e : Expr) : Prop where
  canonical : Canonical e
  defined : Defined σ e
  degree_le : e.degree ≤ D

section Moderate

variable {σ : String → Rat} {D V : Nat} {e v : Expr}

theorem Moderate.mono (h : Moderate σ D e) (hle : D ≤ V) : Moderate σ V e :=
  ⟨h.canonical, h.defined, h.degree_le.trans hle⟩

theorem moderate_const (q : Rat) : Moderate σ 0 (const q) :=
  ⟨.const q, .const q, by rw [degree_const]⟩

/-- Within the bound evaluation keeps the value and does not raise the degree. -/
theorem Moderate.evaluate (h : Moderate σ D e) (hD : D ≤ Rational.maxExactExponent)
    (ctx : Context) : Moderate σ D (e.evaluate ctx) ∧ value σ (e.evaluate ctx) = value σ e := by
  have hsound := Evaluator.sound_of_degree_le h.canonical h.defined (h.degree_le.trans hD)
  rw [evaluate_eq h.canonical]
  exact ⟨⟨hsound.bounded.canonical, hsound.denotes.defined,
    hsound.bounded.degree_le.trans h.degree_le⟩, hsound.denotes.value_eq⟩

theorem Moderate.sumOf {xs : List Expr} (h : ∀ x ∈ xs, Moderate σ D x) :
    Moderate σ (D + 1) (sumOf xs) where
  canonical := canonical_sumOf fun x hx => (h x hx).canonical
  defined := (denotes_sumOf fun x hx => (h x hx).defined).defined
  degree_le := (degree_le_exponentBound _).trans (exponentBound_sumOf_le fun x hx => (h x hx).degree_le)

theorem Moderate.negate (h : Moderate σ D e) : Moderate σ D (negate e) where
  canonical := canonical_productOf (List.forall_mem_cons.mpr
    ⟨.const _, List.forall_mem_singleton.mpr h.canonical⟩)
  defined := (denotes_productOf_pair ⟨.const _, rfl⟩ ⟨h.defined, rfl⟩).defined
  degree_le := (degree_productOf_le _).trans (by simpa using h.degree_le)

theorem Moderate.subtract (h : Moderate σ D e) (hv : Moderate σ V v) :
    Moderate σ (D + V + 1) (subtract e v) ∧ value σ (subtract e v) = value σ e - value σ v := by
  refine ⟨.sumOf (List.forall_mem_cons.mpr ⟨h.mono (by omega), List.forall_mem_singleton.mpr
    (hv.negate.mono (by omega))⟩), ?_⟩
  rw [Expr.subtract, value_sumOf, Expr.negate]
  simp [value_productOf]
  ring

theorem Moderate.divide (h : Moderate σ D e) (hv : Moderate σ V v) (h0 : value σ v ≠ 0) :
    Moderate σ (D + V + 1) (divide e v) ∧ value σ v * value σ (divide e v) = value σ e := by
  have hcanon : Canonical (inverse v) := hv.canonical.power (.const _)
  have hdefined : Defined σ (inverse v) := .power hv.defined rfl (by norm_num) fun _ => h0
  have hdegree : (inverse v).degree ≤ V + 1 := by
    rw [inverse, degree_power, show magnitude (-1) = 1 from magnitude_intCast (-1), one_mul]
    exact (exponentBound_le_degree_succ v).trans (Nat.succ_le_succ hv.degree_le)
  refine ⟨⟨canonical_productOf (List.forall_mem_cons.mpr
      ⟨h.canonical, List.forall_mem_singleton.mpr hcanon⟩),
    (denotes_productOf_pair ⟨h.defined, rfl⟩ ⟨hdefined, rfl⟩).defined,
    (degree_productOf_le _).trans ?_⟩, ?_⟩
  · have := h.degree_le
    simp only [List.map_cons, List.map_nil, List.sum_cons, List.sum_nil]
    omega
  · rw [Expr.divide, value_productOf, inverse]
    simp
    field_simp

/-- The sum of some terms of a moderate expression. -/
theorem moderate_sumOf_part {es es' : List Expr} (h : Moderate σ D e)
    (hperm : (es ++ es').Perm e.terms) : Moderate σ D (Expr.sumOf es) := by
  have hmem : ∀ t ∈ es, t ∈ e.terms := fun t ht => hperm.subset (List.mem_append_left es' ht)
  refine ⟨canonical_sumOf fun t ht => h.canonical.of_terms t (hmem t ht),
    (denotes_sumOf fun t ht => h.defined.of_terms t (hmem t ht)).defined, ?_⟩
  cases hs : e.isSum
  · rw [terms_eq_self hs] at hperm
    rcases es with _ | ⟨t, es⟩
    · exact (degree_const 0).trans_le (Nat.zero_le D)
    · obtain ⟨rfl, -⟩ : t = e ∧ es ++ es' = [] := by
        have := List.perm_singleton.mp hperm
        simpa using this
      have hes : es = [] := by
        have := hperm.length_eq
        simp only [List.cons_append, List.length_cons, List.length_nil, List.length_append] at this
        exact List.length_eq_zero_iff.mp (by omega)
      have hself := h.canonical.sumOf_terms
      rw [terms_eq_self hs] at hself
      rw [hes, hself]
      exact h.degree_le
  · obtain ⟨ts, rfl⟩ := exists_of_isSum hs
    have hpos : largestDegree ts + 1 ≤ D := by simpa [degree] using h.degree_le
    obtain ⟨N, rfl⟩ := Nat.exists_eq_add_of_lt (Nat.lt_of_succ_le hpos)
    refine (degree_le_exponentBound _).trans (exponentBound_sumOf_le fun t ht => ?_)
    exact degree_sum_le.mp h.degree_le t (hmem t ht)

/-- The product of some factors of a moderate expression. -/
theorem moderate_productOf_part {es es' : List Expr} (h : Moderate σ D e)
    (hperm : (es ++ es').Perm e.factors) : Moderate σ D (Expr.productOf es) := by
  have hmem : ∀ f ∈ es, f ∈ e.factors := fun f hf => hperm.subset (List.mem_append_left es' hf)
  refine ⟨canonical_productOf fun f hf => h.canonical.of_factors f (hmem f hf),
    (denotes_productOf fun f hf => h.defined.of_factors f (hmem f hf)).defined, ?_⟩
  have hdegree := (hperm.map degree).sum_eq
  rw [List.map_append, List.sum_append, degree_factors] at hdegree
  have := degree_productOf_le es
  have := h.degree_le
  omega

end Moderate

end Expr

namespace Matching

/-! ## Sums and products alike -/

/-- What matching relies on in an operation: it adds up or multiplies (`total`), and what is removed
from a subject, if `removable`, makes the subject up with the rest. -/
structure Operation.Exact (op : Operation) (σ : String → Rat) (total : List Rat → Rat)
    (removable : Rat → Prop) : Prop where
  total_append : ∀ xs ys, total (xs ++ ys) = total [total xs, total ys]
  total_perm : ∀ {xs ys}, xs.Perm ys → total xs = total ys
  total_singleton : ∀ x, total [x] = x
  value_combine : ∀ (τ : String → Rat) es, value τ (op.combine es) = total (es.map (value τ))
  size_combine : op.Bounded
  value_parts : ∀ e, total ((op.parts e).map (value σ)) = value σ e
  moderate_combine : ∀ {D e es es'}, Moderate σ D e → (es ++ es').Perm (op.parts e) →
    Moderate σ D (op.combine es)
  moderate_part : ∀ {D e x}, Moderate σ D e → x ∈ op.parts e → Moderate σ D x
  moderate_constants : ∀ es : List Expr, (∀ e ∈ es, e.isConst = true) → Moderate σ 1 (op.combine es)
  identity : ∃ q, op.identity = .const q ∧ q = total []
  residue : ∀ {D V e v}, Moderate σ D e → Moderate σ V v → removable (value σ v) →
    Moderate σ (D + V + 1) (op.residue e v) ∧
      total [value σ v, value σ (op.residue e v)] = value σ e
  canonical_combine : ∀ {es : List Expr}, (∀ e ∈ es, Canonical e) → Canonical (op.combine es)
  cancellable_combine : ∀ {τ : String → Rat} {es : List Expr}, (∀ e ∈ es, Cancellable τ e ∧
    (e.isVar = true → removable (value τ e))) → Cancellable τ (op.combine es)

theorem exact_sum (σ : String → Rat) : Operation.sum.Exact σ List.sum fun _ => True where
  total_append xs ys := by simp
  total_perm h := h.sum_eq
  total_singleton x := List.sum_singleton
  value_combine τ es := value_sumOf es
  size_combine := bounded_sum
  value_parts e := value_terms e
  moderate_combine := moderate_sumOf_part
  moderate_part he hx := ⟨he.canonical.of_terms _ hx, he.defined.of_terms _ hx,
    (degree_of_mem_terms hx).trans he.degree_le⟩
  moderate_constants es hes := by
    refine .sumOf fun e he => ?_
    obtain ⟨q, rfl⟩ := exists_of_isConst (hes e he)
    exact moderate_const q
  identity := ⟨0, rfl, rfl⟩
  residue he hv _ := by
    obtain ⟨hmoderate, hvalue⟩ := he.subtract hv
    refine ⟨hmoderate, ?_⟩
    rw [show Operation.sum.residue = Expr.subtract from rfl, hvalue]
    simp
  canonical_combine h := canonical_sumOf h
  cancellable_combine h := cancellable_sumOf fun e he => (h e he).1

theorem exact_product (σ : String → Rat) :
    Operation.product.Exact σ List.prod fun q => q ≠ 0 where
  total_append xs ys := by simp
  total_perm h := h.prod_eq
  total_singleton x := List.prod_singleton
  value_combine τ es := value_productOf es
  size_combine := bounded_product
  value_parts e := value_factors e
  moderate_combine := moderate_productOf_part
  moderate_part he hx := ⟨he.canonical.of_factors _ hx, he.defined.of_factors _ hx,
    (degree_of_mem_factors hx).trans he.degree_le⟩
  moderate_constants es hes := by
    have hmoderate : ∀ e ∈ es, Moderate σ 0 e := fun e he => by
      obtain ⟨q, rfl⟩ := exists_of_isConst (hes e he)
      exact moderate_const q
    refine Moderate.mono (D := 0) ⟨canonical_productOf fun e he => (hmoderate e he).canonical,
      (denotes_productOf fun e he => (hmoderate e he).defined).defined,
      (degree_productOf_le _).trans ?_⟩ (Nat.zero_le 1)
    refine Nat.le_of_eq (List.sum_eq_zero fun d hd => ?_)
    obtain ⟨e, he, rfl⟩ := List.mem_map.mp hd
    exact Nat.le_zero.mp (hmoderate e he).degree_le
  identity := ⟨1, rfl, rfl⟩
  residue he hv h0 := by
    obtain ⟨hmoderate, hvalue⟩ := he.divide hv h0
    refine ⟨hmoderate, ?_⟩
    rw [show Operation.product.residue = Expr.divide from rfl, ← hvalue]
    simp
  canonical_combine h := canonical_productOf h
  cancellable_combine h := cancellable_productOf fun e he => ⟨(h e he).1, (h e he).2⟩

/-! ## Sound attempts -/

/-- What the degrees of the subject and of the bindings may come to in a match of a pattern of size
`n`, for a subject of degree `D` and bindings of degree `V`. -/
def cost (n D V : Nat) : Nat :=
  2 ^ n * (D + 2 + V)

theorem le_cost (n D V : Nat) : D + 2 + V ≤ cost n D V :=
  Nat.le_mul_of_pos_left _ (Nat.two_pow_pos n)

theorem cost_mono {n n' D D' V V' : Nat} (hn : n ≤ n') (hD : D ≤ D') (hV : V ≤ V') :
    cost n D V ≤ cost n' D' V' :=
  Nat.mul_le_mul (Nat.pow_le_pow_right (by decide) hn) (by omega)

/-- First one part of the pattern is matched, then the other. -/
theorem cost_trans {n n' D V V' : Nat} (h : V' + D + 2 ≤ cost n D V) :
    cost n' D V' ≤ cost (n + n') D V := by
  rw [cost, cost, Nat.add_comm n n', Nat.pow_add, Nat.mul_assoc]
  exact Nat.mul_le_mul_left _ (by rw [cost] at h; omega)

/-- Something is taken away from the subject. -/
theorem cost_residue {n D D' V : Nat} (h : D' ≤ 2 * D + V + 2) : cost n D' V ≤ cost (n + 1) D V := by
  rw [cost, cost, Nat.pow_succ, Nat.mul_assoc]
  exact Nat.mul_le_mul_left _ (by omega)

/-- On the way to the bindings `b`, a success of the attempt proves `goal`; it adds moderate bindings,
if the cost of a pattern of size `n` and a subject of degree `D` is within bounds. -/
def Sound (σ : String → Rat) (b : Bindings) (n D : Nat) (attempt : Attempt) (goal : Prop) : Prop :=
  ∀ (s : MatchState) (V : Nat), s.Consistent → (∀ p ∈ s.bindings.entries, Moderate σ V p.2) →
    cost n D V ≤ Rational.maxExactExponent → (attempt.run s).1 = true →
      (attempt.run s).2.bindings.entries <+: b.entries →
        goal ∧ ∃ V', V' + D + 2 ≤ cost n D V ∧
          ∀ p ∈ (attempt.run s).2.bindings.entries, Moderate σ V' p.2

/-- Attempts that bind variables only, and take back what they bind when they fail. -/
abbrev Orderly (attempt : Attempt) : Prop :=
  attempt.Clean fun key _ => key.isVar = true

section Sound

variable {σ : String → Rat} {b : Bindings} {n n' D D' : Nat} {first second : Attempt}
  {goal goal' : Prop}

theorem Sound.mono (h : Sound σ b n D first goal) (hn : n ≤ n') (hD : D ≤ D')
    (hgoal : goal → goal') : Sound σ b n' D' first goal' := by
  intro s V hs hV hcost hrun hb
  obtain ⟨hg, V', hV', hmoderate⟩ := h s V hs hV ((cost_mono hn hD le_rfl).trans hcost) hrun hb
  refine ⟨hgoal hg, V', ?_, hmoderate⟩
  have h₁ := cost_mono (V := V) hn (le_refl D) le_rfl
  have h₂ : cost n' D V + (D' - D) ≤ cost n' D' V := by
    rw [cost, cost]
    obtain ⟨k, rfl⟩ := Nat.exists_eq_add_of_le hD
    have hpos := Nat.two_pow_pos n'
    rw [Nat.add_sub_cancel_left, show D + k + 2 + V = (D + 2 + V) + k by omega,
      Nat.mul_add _ (D + 2 + V)]
    exact Nat.add_le_add_left (Nat.le_mul_of_pos_left k hpos) _
  omega

theorem sound_pure (found : Bool) : Sound σ b n D (pure found) (found = true) := by
  intro s V _ hV _ hrun _
  exact ⟨hrun, V, by have := le_cost n D V; omega, hV⟩

theorem Sound.tentatively (h : Sound σ b n D first goal) :
    Sound σ b n D (Attempt.tentatively first) goal := by
  intro s V hs hV hcost hrun hb
  rw [Attempt.run_tentatively] at hrun hb ⊢
  split at hrun
  · rw [if_pos ‹_›] at hb ⊢
    exact h s V hs hV hcost ‹_› hb
  · cases hrun

theorem Sound.orElse (hclean : Orderly first) (h : Sound σ b n D first goal)
    (h' : Sound σ b n D second goal) : Sound σ b n D (Attempt.orElse first second) goal := by
  intro s V hs hV hcost hrun hb
  rw [Attempt.run_orElse] at hrun hb ⊢
  split at hrun
  · rw [if_pos ‹_›] at hb ⊢
    exact h s V hs hV hcost ‹_› hb
  · rw [if_neg ‹_›] at hb ⊢
    rw [hclean.restores s hs (eq_false_of_ne_true ‹_›)] at hrun hb ⊢
    exact h' s V hs hV hcost hrun hb

theorem Sound.andThen (hadds : first.Adds fun key _ => key.isVar = true) (hclean : Orderly second)
    (h : Sound σ b n D first goal) (h' : Sound σ b n' D second goal') :
    Sound σ b (n + n') D (Attempt.andThen first second) (goal ∧ goal') := by
  intro s V hs hV hcost hrun hb
  rw [Attempt.run_andThen] at hrun hb ⊢
  split at hrun
  · rw [if_pos ‹_›] at hb ⊢
    have hs' := (hadds s hs).consistent
    obtain ⟨-, added, hadded, -⟩ := hclean.adds _ hs'
    have hkept := (List.prefix_append _ added).trans (hadded ▸ hb)
    obtain ⟨hg, V', hV', hmoderate⟩ := h s V hs hV
      ((cost_mono (Nat.le_add_right n n') le_rfl le_rfl).trans hcost) ‹_› hkept
    have htrans : cost n' D V' ≤ cost (n + n') D V := cost_trans hV'
    obtain ⟨hg', V'', hV'', hmoderate'⟩ := h' _ V' hs' hmoderate (htrans.trans hcost) hrun hb
    exact ⟨⟨hg, hg'⟩, V'', hV''.trans htrans, hmoderate'⟩
  · cases hrun

theorem orderly_sound_orElse (h : Orderly first ∧ Sound σ b n D first goal)
    (h' : Orderly second ∧ Sound σ b n D second goal) :
    Orderly (first.orElse second) ∧ Sound σ b n D (first.orElse second) goal :=
  ⟨h.1.orElse h'.1, h.2.orElse h.1 h'.2⟩

theorem orderly_sound_fails : Orderly (pure false) ∧ Sound σ b n D (pure false) goal :=
  ⟨Attempt.clean_pure false, (sound_pure false).mono le_rfl le_rfl fun h => by cases h⟩

theorem sound_anyM {α : Type} {attempt : α → Attempt} {xs : List α}
    (h : ∀ x ∈ xs, Orderly (attempt x) ∧ Sound σ b n D (attempt x) goal) :
    Sound σ b n D (xs.anyM attempt) goal :=
  (Attempt.anyM_induction (P := fun a => Orderly a ∧ Sound σ b n D a goal) orderly_sound_fails
    orderly_sound_orElse h).2

theorem sound_anySubset {α : Type} {attempt : List α → List α → Attempt} {items : List α}
    (h : ∀ chosen others, (chosen ++ others).Perm items → Sound σ b n D (attempt chosen others) goal)
    (hclean : ∀ chosen others, Orderly (attempt chosen others)) :
    Sound σ b n D (anySubset attempt items) goal :=
  (anySubset_induction (P := fun a => Orderly a ∧ Sound σ b n D a goal) orderly_sound_fails
    orderly_sound_orElse fun chosen others hperm => ⟨hclean chosen others, h chosen others hperm⟩).2

end Sound

/-! ## Matching is sound -/

open Attempt

section Steps

variable {σ : String → Rat} {b : Bindings} {ctx : Context} {recur : Matcher} {D : Nat}

theorem get?_of_kept {s : MatchState} (h : s.bindings.entries <+: b.entries) {key v : Expr}
    (hget : s.bindings.get? key = some v) : b.get? key = some v := by
  obtain ⟨added, hadded⟩ := h
  have happend : Bindings.get? ⟨s.bindings.entries ++ added⟩ key = some v := by
    rw [MatchState.get?_append, show Bindings.get? ⟨s.bindings.entries⟩ key = some v from hget]
    rfl
  rw [hadded] at happend
  exact happend

theorem valuation_of_get? {n : String} {c : Option Condition} {v : Expr}
    (h : b.get? (.var n c) = some v) : value (b.valuation σ) (.var n c) = value σ v := by
  rw [b.get?_var] at h
  rw [value_var, Bindings.valuation, h]

theorem sound_bind (n : String) (c : Option Condition) {e : Expr} (he : Moderate σ D e) :
    Sound σ b 1 D (Attempt.bind (.var n c) e) (value (b.valuation σ) (.var n c) = value σ e) := by
  intro s V hs hV hcost hrun hb
  rw [Attempt.run_bind] at hrun hb ⊢
  cases hget : s.bindings.get? (.var n c) with
  | some v =>
    rw [hget] at hrun hb
    refine ⟨?_, V, by have := le_cost 1 D V; omega, hV⟩
    rw [valuation_of_get? (get?_of_kept hb hget)]
    exact value_of_beq hrun
  | none =>
    rw [hget] at hb
    have hadded : (s.add (.var n c) e).bindings.get? (.var n c) = some e := by
      refine MatchState.get?_append.trans ?_
      rw [show Bindings.get? ⟨s.bindings.entries⟩ (.var n c) = none from hget]
      simp [Bindings.get?]
    refine ⟨valuation_of_get? (get?_of_kept hb hadded), max V D, by rw [cost]; omega,
      fun p hp => ?_⟩
    rcases List.mem_append.mp hp with hp | hp
    · exact (hV p hp).mono (le_max_left _ _)
    · rw [List.mem_singleton.mp hp]
      exact he.mono (le_max_right _ _)

/-- The match of the parts is sound, for patterns with the side conditions. -/
def SoundMatcher (σ : String → Rat) (b : Bindings) (recur : Matcher) : Prop :=
  ∀ {p e : Expr} {D : Nat}, Canonical p → Cancellable (b.valuation σ) p → Moderate σ D e →
    Sound σ b p.size D (recur p e) (value (b.valuation σ) p = value σ e)

variable (hclean : ∀ p e, Orderly (recur p e)) (h : SoundMatcher σ b recur)
include hclean h

section Commutative

variable {op : Operation} {total : List Rat → Rat} {removable : Rat → Prop}
  (hop : op.Exact σ total removable)
include hop

omit h hop in
theorem sound_split {n n' : Nat} {p remaining subject chosen others : Expr}
    (hchosen : Sound σ b n D (recur p chosen) (value (b.valuation σ) p = value σ chosen))
    (hothers : Sound σ b n' D (recur remaining others)
      (value (b.valuation σ) remaining = value σ others))
    (htotal : total [value σ chosen, value σ others] = value σ subject) :
    Sound σ b (n + n') D (tentatively (andThen (recur p chosen) (recur remaining others)))
      (total [value (b.valuation σ) p, value (b.valuation σ) remaining] = value σ subject) :=
  ((hchosen.andThen (hclean p chosen).adds (hclean remaining others) hothers).mono le_rfl le_rfl
    fun hboth => by rw [hboth.1, hboth.2, htotal]).tentatively

/-- A pattern part and the rest of the pattern, against a subject. -/
theorem sound_matchPart {p remaining subject : Expr} (hp : Canonical p)
    (hcp : Cancellable (b.valuation σ) p)
    (hvar : p.isVar = true → removable (value (b.valuation σ) p)) (hremaining : Canonical remaining)
    (hcr : Cancellable (b.valuation σ) remaining) (hsubject : Moderate σ D subject) :
    Sound σ b (p.size + remaining.size) D (matchPart op ctx recur p remaining subject)
      (total [value (b.valuation σ) p, value (b.valuation σ) remaining] = value σ subject) := by
  have htotal (chosen others : List Expr) (hperm : (chosen ++ others).Perm (op.parts subject)) :
      total [value σ (op.combine chosen), value σ (op.combine others)] = value σ subject := by
    rw [hop.value_combine, hop.value_combine, ← hop.total_append, ← List.map_append,
      hop.total_perm (hperm.map _), hop.value_parts]
  have hsplit (chosen others : List Expr) (hperm : (chosen ++ others).Perm (op.parts subject)) :=
    sound_split hclean
      (h hp hcp (hop.moderate_combine hsubject hperm))
      (h hremaining hcr (hop.moderate_combine hsubject (List.perm_append_comm.trans hperm)))
      (htotal chosen others hperm)
  have hcleanSplit (chosen others : Expr) :
      Orderly (tentatively (andThen (recur p chosen) (recur remaining others))) :=
    ((hclean p chosen).adds.andThen (hclean remaining others).adds).tentatively
  cases hisVar : p.isVar
  · unfold matchPart
    rw [if_neg (by rw [hisVar]; exact Bool.false_ne_true)]
    refine sound_anyM fun x hx => ⟨hcleanSplit _ _, ?_⟩
    obtain ⟨part, others⟩ := x
    have hperm : ([part] ++ others).Perm (op.parts subject) := perm_of_mem_picks hx
    refine sound_split hclean (h hp hcp (hop.moderate_part hsubject
      (hperm.subset List.mem_cons_self)))
      (h hremaining hcr (hop.moderate_combine hsubject (List.perm_append_comm.trans hperm))) ?_
    rw [← htotal [part] others hperm, hop.value_combine σ [part], List.map_singleton,
      hop.total_singleton]
  · obtain ⟨n, c, rfl⟩ : ∃ n c, p = .var n c := by
      cases p <;> first | exact ⟨_, _, rfl⟩ | cases hisVar
    intro s V hs hV hcost
    rw [run_matchPart_var]
    cases hget : s.bindings.get? (.var n c) with
    | none =>
      obtain ⟨q, hconst, hq⟩ := hop.identity
      have hfree : Sound σ b ((Expr.var n c).size + remaining.size) D _
          (total [value (b.valuation σ) (.var n c), value (b.valuation σ) remaining] =
            value σ subject) :=
        (sound_anySubset hsplit fun _ _ => hcleanSplit _ _).orElse
          (clean_anySubset (fun _ _ => hcleanSplit _ _) _)
          (sound_split hclean
            (h hp hcp (hconst ▸ (moderate_const q).mono (Nat.zero_le D)))
            (h hremaining hcr hsubject) ?_)
      · exact hfree s V hs hV hcost
      · have hidentity := hop.total_append [] [value σ subject]
        rw [List.nil_append, hop.total_singleton] at hidentity
        rw [hconst, value_const, hq, ← hidentity]
    | some bound =>
      have horderly : Orderly
          (tentatively (recur remaining ((op.residue subject bound).evaluate ctx))) :=
        (hclean _ _).adds.tentatively
      obtain ⟨-, added, hadded, -⟩ := horderly.adds s hs
      intro hrun hb
      have hvalue : value (b.valuation σ) (.var n c) = value σ bound := valuation_of_get?
        (get?_of_kept ((List.prefix_append _ added).trans (hadded ▸ hb)) hget)
      have hbound : Moderate σ V bound := by
        obtain ⟨entry, hentry, rfl⟩ := Option.map_eq_some_iff.mp hget
        exact hV entry (List.mem_of_find?_eq_some hentry)
      obtain ⟨hresidue, htotal⟩ := hop.residue hsubject hbound (hvalue ▸ hvar rfl)
      have hle := le_cost ((Expr.var n c).size + remaining.size) D V
      obtain ⟨hevaluate, heq⟩ := hresidue.evaluate (by omega) ctx
      have hcost' : cost remaining.size (D + V + 1) V ≤
          cost ((Expr.var n c).size + remaining.size) D V := by
        rw [size, Nat.add_comm 1]
        exact cost_residue (by omega)
      obtain ⟨hgoal, V', hV', hmoderate⟩ := (h hremaining hcr hevaluate).tentatively s V hs hV
        (hcost'.trans hcost) hrun hb
      refine ⟨?_, V', by omega, hmoderate⟩
      rw [hgoal, heq, hvalue, htotal]

omit hclean h hop in
theorem map_value_filter_isConst (xs : List Expr) :
    (xs.filter Expr.isConst).map (value σ) = constants xs := by
  induction xs with
  | nil => rfl
  | cons x xs ih =>
    cases hx : x.isConst
    · rw [List.filter_cons_of_neg (by rw [hx]; exact Bool.false_ne_true), ih, constants_cons hx]
    · obtain ⟨q, rfl⟩ := exists_of_isConst hx
      rw [List.filter_cons_of_pos hx, List.map_cons, ih, value_const, constants_const]

/-- The parts of a pattern that are no constants, against what is left of the subject. -/
theorem sound_rest {rest : List Expr} {subject : Expr}
    (hrest : ∀ p ∈ rest, Canonical p ∧ Cancellable (b.valuation σ) p ∧
      (p.isVar = true → removable (value (b.valuation σ) p)))
    (hsubject : Moderate σ D subject) :
    Sound σ b (sizeList rest + 1) D
      (if rest.isEmpty then pure (subject == op.identity)
        else (picks rest).anyM fun (p, others) => matchPart op ctx recur p (op.combine others) subject)
      (total (rest.map (value (b.valuation σ))) = value σ subject) := by
  split
  · next hempty =>
    obtain rfl := List.isEmpty_iff.mp hempty
    refine (sound_pure _).mono le_rfl le_rfl fun heq => ?_
    obtain ⟨q, hconst, hq⟩ := hop.identity
    rw [value_of_beq heq, hconst, value_const, hq, List.map_nil]
  · refine sound_anyM fun x hx => ⟨clean_matchPart hclean op _ _ _, ?_⟩
    obtain ⟨p, others⟩ := x
    have hperm := perm_of_mem_picks hx
    obtain ⟨hp, hcp, hvar⟩ := hrest p (hperm.subset List.mem_cons_self)
    have hothers : ∀ q ∈ others, Canonical q ∧ Cancellable (b.valuation σ) q ∧
        (q.isVar = true → removable (value (b.valuation σ) q)) := fun q hq =>
      hrest q (hperm.subset (List.mem_cons_of_mem p hq))
    have hsize : p.size + (op.combine others).size ≤ sizeList rest + 1 := by
      have := hop.size_combine others
      rw [← sizeList_perm hperm, sizeList]
      omega
    refine (sound_matchPart hclean h hop hp hcp hvar
      (hop.canonical_combine fun q hq => (hothers q hq).1)
      (hop.cancellable_combine fun q hq => (hothers q hq).2) hsubject).mono hsize le_rfl fun htotal => ?_
    rw [← htotal, hop.value_combine, ← hop.total_perm (hperm.map _), List.map_cons,
      ← List.singleton_append, hop.total_append, hop.total_singleton]

/-- All parts of a pattern: first the constants are taken away from the subject. -/
theorem sound_matchCommutative {pattern : List Expr} {subject : Expr}
    (hpattern : ∀ p ∈ pattern, Canonical p ∧ Cancellable (b.valuation σ) p ∧
      (p.isVar = true → removable (value (b.valuation σ) p)))
    (hconstants : removable (total (constants pattern))) (hsubject : Moderate σ D subject) :
    Sound σ b (sizeList pattern + 1) D (matchCommutative op ctx recur pattern subject)
      (total (pattern.map (value (b.valuation σ))) = value σ subject) := by
  have hperm := List.filter_append_perm Expr.isConst pattern
  have hrest : ∀ p ∈ pattern.filter (fun p => !p.isConst), Canonical p ∧
      Cancellable (b.valuation σ) p ∧ (p.isVar = true → removable (value (b.valuation σ) p)) :=
    fun p hp => hpattern p (List.mem_of_mem_filter hp)
  have hall : total (pattern.map (value (b.valuation σ))) = total [total (constants pattern),
      total ((pattern.filter fun p => !p.isConst).map (value (b.valuation σ)))] := by
    rw [← hop.total_perm (hperm.map _), List.map_append, hop.total_append, map_value_filter_isConst]
  have hsize := sizeList_perm hperm
  rw [sizeList_append] at hsize
  unfold matchCommutative
  rw [List.partition_eq_filter_filter]
  dsimp only
  by_cases hempty : (pattern.filter Expr.isConst).isEmpty = true
  · rw [if_pos hempty]
    refine (sound_rest hclean h hop hrest hsubject).mono (by omega) le_rfl fun htotal => ?_
    have hnone : constants pattern = [] := by
      rw [← map_value_filter_isConst (σ := σ), List.isEmpty_iff.mp hempty, List.map_nil]
    rw [hall, htotal, hnone, ← hop.total_singleton (value σ subject), ← hop.total_append,
      List.nil_append]
  · rw [if_neg hempty]
    intro s V hs hV hcost hrun hb
    have hvalue : value σ (op.combine (pattern.filter Expr.isConst)) = total (constants pattern) := by
      rw [hop.value_combine, map_value_filter_isConst]
    obtain ⟨hresidue, htotal⟩ := hop.residue hsubject
      (hop.moderate_constants _ fun p hp => (List.mem_filter.mp hp).2) (hvalue ▸ hconstants)
    have hle := le_cost (sizeList pattern + 1) D V
    obtain ⟨hevaluate, heq⟩ := hresidue.evaluate (by omega) ctx
    have hpos : 1 ≤ sizeList (pattern.filter Expr.isConst) := by
      rcases hfilter : pattern.filter Expr.isConst with _ | ⟨p, ps⟩
      · rw [hfilter] at hempty
        exact absurd rfl hempty
      · have := size_pos p
        rw [sizeList]
        omega
    have hcost' : cost (sizeList (pattern.filter fun p => !p.isConst) + 1) (D + 1 + 1) V ≤
        cost (sizeList pattern + 1) D V :=
      (cost_residue (by omega)).trans (cost_mono (by omega) le_rfl le_rfl)
    obtain ⟨hgoal, V', hV', hmoderate⟩ := sound_rest hclean h hop hrest hevaluate s V hs hV
      (hcost'.trans hcost) hrun hb
    refine ⟨?_, V', by omega, hmoderate⟩
    rw [hall, hgoal, heq, ← hvalue, htotal]

end Commutative

theorem sound_matchProduct {pattern : List Expr} {subject : Expr}
    (hpattern : ∀ p ∈ pattern, Canonical p ∧ Cancellable (b.valuation σ) p ∧
      (p.isVar = true → value (b.valuation σ) p ≠ 0))
    (hconstants : (constants pattern).prod ≠ 0) (hsubject : Moderate σ D subject) :
    Sound σ b (sizeList pattern + 1) D (matchProduct ctx recur pattern subject)
      ((pattern.map (value (b.valuation σ))).prod = value σ subject) := by
  unfold matchProduct
  split
  · next hzero =>
    obtain rfl := eq_const_of_isZero hzero
    refine sound_anyM fun p hp => ⟨(hclean p .zero).adds.tentatively, ?_⟩
    obtain ⟨hcanon, hcancel, -⟩ := hpattern p hp
    have hsize := size_le_sizeList hp
    refine ((h hcanon hcancel (moderate_const 0)).mono (by omega) (Nat.zero_le D)
      fun hvalue => ?_).tentatively
    rw [value_const]
    exact List.prod_eq_zero (List.mem_map.mpr ⟨p, hp, hvalue.trans (value_const 0)⟩)
  · exact sound_matchCommutative hclean h (exact_product σ) hpattern hconstants hsubject

/-- **A step is sound when the matches of the parts are.** -/
theorem sound_step {p e : Expr} (hp : Canonical p) (hc : Cancellable (b.valuation σ) p)
    (he : Moderate σ D e) : Sound σ b p.size D (step ctx recur p e)
      (value (b.valuation σ) p = value σ e) := by
  cases hc with
  | const q =>
    refine (sound_pure _).mono (Nat.zero_le _) le_rfl fun heq => ?_
    rw [← value_of_beq heq, value_const, value_const]
  | var n c =>
    simp only [step]
    split
    · exact sound_bind n c he
    · exact (sound_pure false).mono (Nat.zero_le _) le_rfl fun hfalse => by cases hfalse
  | @sum ts hts =>
    rw [size, value_sum]
    exact sound_matchCommutative hclean h (exact_sum σ)
      (fun t ht => ⟨hp.of_terms t ht, hts t ht, fun _ => trivial⟩) trivial he
  | @product fs hfs hvar =>
    rw [size, value_product]
    refine sound_matchProduct hclean h (fun f hf => ⟨hp.of_factors f hf, hfs f hf, hvar f hf⟩) ?_ he
    rcases hp.constants_factors rfl with hnone | ⟨q, hq, -, hone⟩
    · rw [show constants fs = [] from hnone]
      exact one_ne_zero
    · rw [show constants fs = [q] from hone, List.prod_singleton]
      exact hq
  | @binary op l r hop hl hr =>
    obtain ⟨hpl, hpr⟩ := hp.of_binary
    have hfail (goal : Prop) : Sound σ b (Expr.binary op l r).size D (return false) goal :=
      (sound_pure false).mono (Nat.zero_le _) le_rfl fun hfalse => by cases hfalse
    rw [step_binary (by rintro rfl; cases hop)]
    split
    · next op' l' r' =>
      split
      · next heq =>
        subst heq
        obtain ⟨hcl, hcr⟩ := he.canonical.of_binary
        have hdegree := he.degree_le
        rw [degree_binary (by rintro rfl; cases hop)] at hdegree
        have hbl := degree_le_exponentBound l'
        have hbr := degree_le_exponentBound r'
        have hd : Defined σ l' ∧ Defined σ r' := by
          cases he.defined with
          | power _ _ _ _ => cases hop
          | binary _ hdl hdr => exact ⟨hdl, hdr⟩
        refine (((h hpl hl ⟨hcl, hd.1, by omega⟩).andThen (hclean l l').adds (hclean r r')
          (h hpr hr ⟨hcr, hd.2, by omega⟩)).mono (by rw [size]; omega) le_rfl
            fun hboth => ?_).tentatively
        rw [value_binary, value_binary, hboth.1, hboth.2]
      · exact hfail _
    · exact hfail _
  | @not a ha =>
    cases e with
    | not a' =>
      have hdegree := he.degree_le
      rw [degree] at hdegree
      have hca : Canonical a := by cases hp; assumption
      have hca' : Canonical a' := by cases he.canonical; assumption
      have hda' : Defined σ a' := by cases he.defined; assumption
      refine ((h hca ha ⟨hca', hda', by omega⟩).mono (by rw [size]; omega) le_rfl
        fun heq => ?_).tentatively
      rw [value_not, value_not, heq]
    | _ => exact (sound_pure false).mono (Nat.zero_le _) le_rfl fun hfalse => by cases hfalse

end Steps

theorem orderly_matchTo (ctx : Context) (depth : Nat) (p e : Expr) :
    Orderly (matchTo ctx depth p e) :=
  clean_matchTo (fun _ _ _ _ => rfl) ctx depth p e

/-- **Matching is sound**, by induction on the depth. -/
theorem sound_matchTo (σ : String → Rat) (b : Bindings) (ctx : Context) :
    ∀ depth : Nat, SoundMatcher σ b (matchTo ctx depth)
  | 0, _, _, _, _, _, _ =>
    (sound_pure false).mono (Nat.zero_le _) le_rfl fun hfalse => by cases hfalse
  | depth + 1, _, _, _, hp, hc, he =>
    sound_step (orderly_matchTo ctx depth) (sound_matchTo σ b ctx depth) hp hc he

end Matching

namespace Expr

open Matching

/-- A match succeeds with the bindings of a run that succeeds. -/
theorem run_of_match? {p e : Expr} {ctx : Context} {b : Bindings}
    (hmatch : p.match? e ctx = some b) :
    ∃ s : MatchState, (matchTo ctx (p.size + 1) p e).run .empty = (true, s) ∧ s.bindings = b := by
  rw [match?, Attempt.bindings?, matching] at hmatch
  split at hmatch
  next matched final hrun =>
  split at hmatch
  · next hmatched =>
    subst hmatched
    exact ⟨final, hrun, Option.some.inj hmatch⟩
  · cases hmatch

/-- **The instance of a matched pattern has the value of the subject.** This holds for patterns
without powers and calls, at all assignments under which the subject has a value and no variable that
is a factor of the pattern stands for `0`, if the degree of the subject is small enough for the powers
that are computed on the way to be exact. -/
theorem value_instantiate_of_match? {σ : String → Rat} {p e : Expr} {b : Bindings} {ctx : Context}
    (hp : Canonical p) (he : Canonical e) (hmatch : p.match? e ctx = some b)
    (hc : Cancellable (b.valuation σ) p) (hd : Defined σ e)
    (hcost : 2 ^ p.size * (e.degree + 2) ≤ Rational.maxExactExponent) :
    value σ (p.instantiate b) = value σ e := by
  obtain ⟨final, hrun, rfl⟩ := run_of_match? hmatch
  have hgrows := (orderly_matchTo ctx (p.size + 1) p e).adds _ MatchState.consistent_empty
  have hsound := sound_matchTo σ final.bindings ctx (p.size + 1) hp hc ⟨he, hd, le_rfl⟩ .empty 0
    MatchState.consistent_empty (fun x hx => by cases hx) hcost
  rw [hrun] at hgrows hsound
  obtain ⟨-, added, hadded, hvars⟩ := hgrows
  have hvariables : Bindings.OfVariables final.bindings := by
    intro x hx
    rw [hadded] at hx
    exact hvars x (by simpa [MatchState.empty, Bindings.empty] using hx)
  rw [value_instantiate hvariables hc]
  exact (hsound rfl (List.prefix_refl _)).1

/-- The variables of the pattern `a + b` are bound to the terms of `1 + x`. -/
theorem value_instantiate_of_match?_succ :
    value (fun _ => 5) ((Expr.sum [symbol "a", symbol "b"]).instantiate
      ⟨[(symbol "a", .one), (symbol "b", symbol "x")]⟩) =
        value (fun _ => 5) (.sum [.one, symbol "x"]) := by
  have hpattern : Canonical (.sum [symbol "a", symbol "b"]) :=
    .sum (by simp [symbol, Canonical.var]) (by cbv)
  have hsubject : Canonical (.sum [.one, symbol "x"]) :=
    .sum (by simp [symbol, Expr.one, Canonical.var, Canonical.const]) (by cbv)
  have hmatch : (Expr.sum [symbol "a", symbol "b"]).match? (.sum [.one, symbol "x"])
      (.inert .standard) = some ⟨[(symbol "a", .one), (symbol "b", symbol "x")]⟩ := by
    with_unfolding_all rfl
  refine value_instantiate_of_match? hpattern hsubject hmatch
    (.sum (by simp [symbol, Cancellable.var])) ?_ (by decide)
  exact .sum (by simp [symbol, Expr.one, Defined.var, Defined.const])

end Expr

end SymbolicAlgebra
