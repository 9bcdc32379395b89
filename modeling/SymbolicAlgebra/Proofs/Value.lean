import Mathlib.Algebra.BigOperators.Group.List.Basic
import Mathlib.Algebra.GroupWithZero.Basic
import Mathlib.Data.Rat.Cast.Defs
import Mathlib.Tactic.Ring
import SymbolicAlgebra.Proofs.Collection

/-!
# The value of an expression

The value of an expression under an assignment of rationals to the variables, with truth as `1` and
`0`. `value` is total; `Defined` says where it is meant: the exponents of powers are nonzero integer
constants, no base of value `0` has a negative exponent, and the operators are relations and
connectives. What the constructors, `collect` and the product of a tally of bases build has the value
of what they are given, and is defined where that is.

Results:
* `value_sumOf`, `value_productOf`: the constructors keep the value, and with `denotes_sumOf` and
  `denotes_productOf` also that it is meant.
* `denotes_collect`: combining like terms keeps the value.
* `denotes_ofFactors`, `denotes_replace`, `denotes_product`: so do combining like bases, the sum that
  takes over the constant, and multiplying out the tally.
-/

namespace SymbolicAlgebra

/-- Truth as a number. -/
def truth (b : Bool) : Rat :=
  if b then 1 else 0

namespace BinaryOp

/-- Connectives and exact relations. -/
def isLogical : BinaryOp → Bool
  | conj | disj | equal | notEqual | greater | less | greaterEqual | lessEqual => true
  | _ => false

/-- The value of an operator; a power takes the numerator of an integer exponent. -/
def value (op : BinaryOp) (a b : Rat) : Rat :=
  match op with
  | power => a ^ b.num
  | conj => truth (a != 0 && b != 0)
  | disj => truth (a != 0 || b != 0)
  | equal => truth (a == b)
  | notEqual => truth (a != b)
  | greater => truth (decide (b < a))
  | less => truth (decide (a < b))
  | greaterEqual => truth (decide (b ≤ a))
  | lessEqual => truth (decide (a ≤ b))
  | _ => 0

end BinaryOp

namespace Expr

mutual

/-- The value under an assignment; calls and sets have none that means anything. -/
def value (σ : String → Rat) : Expr → Rat
  | const q => q
  | var n _ => σ n
  | sum ts => (values σ ts).sum
  | product fs => (values σ fs).prod
  | binary op l r => op.value (value σ l) (value σ r)
  | not a => truth (value σ a == 0)
  | call .. => 0
  | set _ => 0

/-- The values of a list. -/
def values (σ : String → Rat) : List Expr → List Rat
  | [] => []
  | t :: ts => value σ t :: values σ ts

end

/-- Where the value is meant. -/
inductive Defined (σ : String → Rat) : Expr → Prop
  | const (q : Rat) : Defined σ (const q)
  | var (n : String) (c : Option Condition) : Defined σ (var n c)
  | sum {ts : List Expr} : (∀ t ∈ ts, Defined σ t) → Defined σ (sum ts)
  | product {fs : List Expr} : (∀ f ∈ fs, Defined σ f) → Defined σ (product fs)
  | power {b : Expr} {n : Rat} : Defined σ b → Rational.isInteger n = true → n ≠ 0 →
    (n < 0 → value σ b ≠ 0) → Defined σ (power b (.const n))
  | binary {op : BinaryOp} {l r : Expr} : op.isLogical = true → Defined σ l → Defined σ r →
    Defined σ (binary op l r)
  | not {a : Expr} : Defined σ a → Defined σ (not a)

/-- The value is meant, and it is `v`. -/
structure Denotes (σ : String → Rat) (e : Expr) (v : Rat) : Prop where
  defined : Defined σ e
  value_eq : value σ e = v

section Value

variable {σ : String → Rat}

theorem values_eq_map (ts : List Expr) : values σ ts = ts.map (value σ) := by
  induction ts with
  | nil => rw [values, List.map_nil]
  | cons t ts ih => rw [values, List.map_cons, ih]

@[simp] theorem value_const (q : Rat) : value σ (const q) = q := by
  rw [value]

@[simp] theorem value_var (n : String) (c : Option Condition) : value σ (var n c) = σ n := by
  rw [value]

@[simp] theorem value_sum (ts : List Expr) : value σ (sum ts) = (ts.map (value σ)).sum := by
  rw [value, values_eq_map]

@[simp] theorem value_product (fs : List Expr) :
    value σ (product fs) = (fs.map (value σ)).prod := by
  rw [value, values_eq_map]

@[simp] theorem value_binary (op : BinaryOp) (l r : Expr) :
    value σ (binary op l r) = op.value (value σ l) (value σ r) := by
  rw [value]

@[simp] theorem value_power (b : Expr) (n : Rat) :
    value σ (power b (const n)) = value σ b ^ n.num := by
  rw [power, value_binary, value_const]
  rfl

@[simp] theorem value_not (a : Expr) : value σ (not a) = truth (value σ a == 0) := by
  rw [value]

/-! ## Operands -/

theorem addsUp_value : AddsUp (fun _ => True) (value σ) where
  const q := ⟨trivial, value_const q⟩
  of_sum _ := ⟨fun _ _ => trivial, value_sum _⟩
  sum _ := trivial

theorem multiplies_value : Multiplies (fun _ => True) (value σ) where
  const q := ⟨trivial, value_const q⟩
  of_product _ := ⟨fun _ _ => trivial, value_product _⟩
  product _ := trivial

theorem value_terms (e : Expr) : (e.terms.map (value σ)).sum = value σ e :=
  (addsUp_value.of_terms trivial).2

theorem value_factors (e : Expr) : (e.factors.map (value σ)).prod = value σ e :=
  (multiplies_value.of_factors trivial).2

theorem Defined.of_terms {e : Expr} (h : Defined σ e) : ∀ t ∈ e.terms, Defined σ t := by
  refine forall_mem_terms h fun ts h => ?_
  cases h with
  | sum hts => exact hts

theorem Defined.of_factors {e : Expr} (h : Defined σ e) : ∀ f ∈ e.factors, Defined σ f := by
  refine forall_mem_factors h fun fs h => ?_
  cases h with
  | product hfs => exact hfs

theorem value_flatMap_terms (xs : List Expr) :
    ((xs.flatMap terms).map (value σ)).sum = (xs.map (value σ)).sum :=
  addsUp_value.flatMap_terms fun _ _ => trivial

theorem value_flatMap_factors (xs : List Expr) :
    ((xs.flatMap factors).map (value σ)).prod = (xs.map (value σ)).prod :=
  multiplies_value.flatMap_factors fun _ _ => trivial

/-- **The canonical sum has the value of the sum.** -/
theorem value_sumOf (xs : List Expr) : value σ (sumOf xs) = (xs.map (value σ)).sum :=
  (addsUp_value.sumOf fun _ _ => trivial).2

/-- **The canonical product has the value of the product.** -/
theorem value_productOf (xs : List Expr) : value σ (productOf xs) = (xs.map (value σ)).prod :=
  (multiplies_value.productOf fun _ _ => trivial).2

theorem defined_flatMap {g : Expr → List Expr} {xs : List Expr} (h : ∀ x ∈ xs, Defined σ x)
    (hg : ∀ x, Defined σ x → ∀ y ∈ g x, Defined σ y) : ∀ y ∈ xs.flatMap g, Defined σ y := by
  intro y hy
  obtain ⟨x, hx, hyx⟩ := List.mem_flatMap.mp hy
  exact hg x (h x hx) y hyx

theorem denotes_sumOf {xs : List Expr} (h : ∀ x ∈ xs, Defined σ x) :
    Denotes σ (sumOf xs) (xs.map (value σ)).sum :=
  ⟨sumOf_induction .const (fun x hx => (h x hx).of_terms) fun _ => .sum, value_sumOf xs⟩

theorem denotes_productOf {xs : List Expr} (h : ∀ x ∈ xs, Defined σ x) :
    Denotes σ (productOf xs) (xs.map (value σ)).prod :=
  ⟨productOf_induction id .const (fun x hx => (h x hx).of_factors) fun _ => .product,
    value_productOf xs⟩

theorem defined_map {α : Type} {g : α → Expr} {w : α → Rat} {xs : List α}
    (h : ∀ x ∈ xs, Denotes σ (g x) (w x)) : ∀ y ∈ xs.map g, Defined σ y :=
  List.forall_mem_map.mpr fun x hx => (h x hx).defined

theorem map_value_map {α : Type} {g : α → Expr} {w : α → Rat} {xs : List α}
    (h : ∀ x ∈ xs, Denotes σ (g x) (w x)) : (xs.map g).map (value σ) = xs.map w := by
  rw [List.map_map]
  exact List.map_congr_left fun x hx => (h x hx).value_eq

theorem denotes_sumOf_map {α : Type} {g : α → Expr} {w : α → Rat} {xs : List α}
    (h : ∀ x ∈ xs, Denotes σ (g x) (w x)) : Denotes σ (sumOf (xs.map g)) (xs.map w).sum :=
  map_value_map h ▸ denotes_sumOf (defined_map h)

theorem denotes_productOf_map {α : Type} {g : α → Expr} {w : α → Rat} {xs : List α}
    (h : ∀ x ∈ xs, Denotes σ (g x) (w x)) : Denotes σ (productOf (xs.map g)) (xs.map w).prod :=
  map_value_map h ▸ denotes_productOf (defined_map h)

theorem denotes_productOf_pair {a b : Expr} {p q : Rat} (ha : Denotes σ a p) (hb : Denotes σ b q) :
    Denotes σ (productOf [a, b]) (p * q) := by
  have h := denotes_productOf
    (List.forall_mem_cons.mpr ⟨ha.defined, List.forall_mem_singleton.mpr hb.defined⟩)
  rwa [List.map_cons, List.map_singleton, List.prod_cons, List.prod_singleton, ha.value_eq,
    hb.value_eq] at h

theorem denotes_inverse {b : Expr} {q : Rat} (hb : Denotes σ b q) (h0 : q ≠ 0) :
    Denotes σ (inverse b) q⁻¹ := by
  obtain ⟨hd, rfl⟩ := hb
  exact ⟨.power hd rfl (by norm_num) fun _ => h0, (value_power b (-1)).trans (zpow_neg_one _)⟩

theorem denotes_divide {a b : Expr} {p q : Rat} (ha : Denotes σ a p) (hb : Denotes σ b q)
    (h0 : q ≠ 0) : Denotes σ (divide a b) (p * q⁻¹) :=
  denotes_productOf_pair ha (denotes_inverse hb h0)

theorem denotes_scaled {q : Rat} {t : Expr} (h : Defined σ t) :
    Denotes σ (scaled q t) (q * value σ t) := by
  rw [scaled]
  split
  · rename_i h1
    exact ⟨h, by rw [h1, one_mul]⟩
  · exact denotes_productOf_pair ⟨.const q, value_const q⟩ ⟨h, rfl⟩

/-! ## Like terms -/

/-- The coefficient and the rest of a term multiply to the term. -/
theorem denotes_splitCoefficient {t : Expr} (ht : Defined σ t) :
    Defined σ (splitCoefficient t).2 ∧
      (splitCoefficient t).1 * value σ (splitCoefficient t).2 = value σ t := by
  unfold splitCoefficient
  cases htake : takeConst t.factors with
  | none => exact ⟨ht, one_mul _⟩
  | some p =>
    obtain ⟨q, rest⟩ := p
    have hperm := takeConst_some htake
    have hrest := denotes_productOf fun f hf =>
      ht.of_factors f (hperm.mem_iff.mpr (List.mem_cons_of_mem _ hf))
    refine ⟨hrest.defined, ?_⟩
    dsimp only
    rw [hrest.value_eq, ← value_factors t, (hperm.map (value σ)).prod_eq, List.map_cons,
      List.prod_cons, value_const]

/-- An expression that mentions none of some variables does not depend on their values. -/
theorem value_congr {xs : List Expr} {σ τ : String → Rat} {e : Expr}
    (hxs : ∀ x, symbol x ∉ xs → σ x = τ x) (h : e.dependsOnAny xs = false) :
    value σ e = value τ e := by
  have hlist : ∀ {ts : List Expr}, (∀ t ∈ ts, mentions xs t = false → value σ t = value τ t) →
      mentionsList xs ts = false → ts.map (value σ) = ts.map (value τ) := by
    intro ts
    induction ts with
    | nil => exact fun _ _ => rfl
    | cons t ts ih =>
      intro ht hts
      rw [mentionsList, Bool.or_eq_false_iff] at hts
      rw [List.map_cons, List.map_cons, ht t (by simp) hts.1,
        ih (fun u hu => ht u (by simp [hu])) hts.2]
  rw [dependsOnAny] at h
  induction e using inductionOn with
  | const q => rw [value_const, value_const]
  | var x c =>
    rw [value_var, value_var]
    refine hxs x fun hmem => ?_
    rw [mentions, List.contains_eq_any_beq] at h
    have := List.any_eq_false.mp h (symbol x) hmem
    exact this (by change (x == x) = true; simp)
  | sum ts ih =>
    rw [mentions, Bool.or_eq_false_iff] at h
    rw [value_sum, value_sum, hlist ih h.2]
  | product fs ih =>
    rw [mentions, Bool.or_eq_false_iff] at h
    rw [value_product, value_product, hlist ih h.2]
  | binary op l r ihl ihr =>
    rw [mentions, Bool.or_eq_false_iff, Bool.or_eq_false_iff] at h
    rw [value_binary, value_binary, ihl h.1.2, ihr h.2]
  | not a ih =>
    rw [mentions, Bool.or_eq_false_iff] at h
    rw [value_not, value_not, ih h.2]
  | call f args _ => rw [value, value]
  | set ms _ => rw [value, value]

/-- Expressions that read the same have the same value. -/
theorem value_of_beq {a b : Expr} (h : (a == b) = true) : value σ a = value σ b := by
  have hlist {xs : List Expr} (hxs : ∀ x ∈ xs, ∀ {y}, (x == y) = true → value σ x = value σ y) :
      ∀ {ys : List Expr}, beqList xs ys = true → xs.map (value σ) = ys.map (value σ) := by
    induction xs with
    | nil =>
      intro ys h
      cases ys with
      | nil => rfl
      | cons y ys => cases h
    | cons x xs ih =>
      intro ys h
      cases ys with
      | nil => cases h
      | cons y ys =>
        rw [beqList, Bool.and_eq_true] at h
        rw [List.map_cons, List.map_cons, hxs x List.mem_cons_self h.1,
          ih (fun z hz => hxs z (List.mem_cons_of_mem x hz)) h.2]
  change beq a b = true at h
  induction a using inductionOn generalizing b with
  | const q =>
    cases b <;> simp only [beq, beq_iff_eq, Bool.false_eq_true] at h
    rw [h]
  | var n c =>
    cases b <;> simp only [beq, beq_iff_eq, Bool.false_eq_true] at h
    rw [value_var, value_var, h]
  | sum ts ih =>
    cases b <;> simp only [beq, Bool.false_eq_true] at h
    rw [value_sum, value_sum, hlist ih h]
  | product fs ih =>
    cases b <;> simp only [beq, Bool.false_eq_true] at h
    rw [value_product, value_product, hlist ih h]
  | binary op l r ihl ihr =>
    cases b <;> simp only [beq, Bool.and_eq_true, beq_iff_eq, Bool.false_eq_true] at h
    rw [value_binary, value_binary, h.1.1, ihl h.1.2, ihr h.2]
  | not a ih =>
    cases b <;> simp only [beq, Bool.false_eq_true] at h
    rw [value_not, value_not, ih h]
  | call f args _ =>
    cases b <;> simp only [beq, Bool.false_eq_true] at h
    rw [value, value]
  | set ms _ =>
    cases b <;> simp only [beq, Bool.false_eq_true] at h
    rw [value, value]

end Value

end Expr

/-- What counts nothing can be left out of a sum. -/
theorem sum_map_filter {α : Type} {g : α → Rat} {p : α → Bool} {xs : List α}
    (h : ∀ x ∈ xs, p x = false → g x = 0) : ((xs.filter p).map g).sum = (xs.map g).sum := by
  induction xs with
  | nil => rfl
  | cons x xs ih =>
    obtain ⟨hx, hxs⟩ := List.forall_mem_cons.mp h
    rw [List.filter_cons]
    split
    · rw [List.map_cons, List.sum_cons, ih hxs, List.map_cons, List.sum_cons]
    · next hp => rw [ih hxs, List.map_cons, List.sum_cons, hx (Bool.eq_false_iff.mpr hp), zero_add]

namespace Tally

/-- The sum of the amounts, each weighed by its key. -/
def weigh (w : Expr → Rat) (xs : List (Expr × Rat)) : Rat :=
  (xs.map fun p => p.2 * w p.1).sum

@[simp] theorem weigh_nil (w : Expr → Rat) : weigh w [] = 0 := rfl

@[simp] theorem weigh_cons (w : Expr → Rat) (p : Expr × Rat) (xs : List (Expr × Rat)) :
    weigh w (p :: xs) = p.2 * w p.1 + weigh w xs := by
  rw [weigh, List.map_cons, List.sum_cons]
  rfl

theorem weigh_addTo (w : Expr → Rat) {key : Expr} (q : Rat) (hkey : Expr.Canonical key) :
    ∀ {xs : List (Expr × Rat)}, (∀ l ∈ keys xs, Expr.Canonical l) →
      weigh w (addTo key q xs) = q * w key + weigh w xs
  | [], _ => by rw [addTo, weigh_cons]
  | (l, r) :: rest, h => by
    obtain ⟨hl, hrest⟩ := List.forall_mem_cons.mp h
    rw [addTo]
    split
    · rw [weigh_cons]
    · rename_i heq
      obtain rfl := hkey.eq_of_compare hl heq
      rw [weigh_cons, weigh_cons]
      ring
    · rw [weigh_cons, weigh_cons, weigh_addTo w q hkey hrest]
      ring

theorem weigh_foldl (w : Expr → Rat) (xs : List (Expr × Rat)) : ∀ t : Tally,
    (∀ k ∈ keys xs, Expr.Canonical k) → (∀ k ∈ keys t.entries, Expr.Canonical k) →
      weigh w (xs.foldl (fun t p => t.add p.1 p.2) t).entries = weigh w t.entries + weigh w xs := by
  induction xs with
  | nil => exact fun t _ _ => (add_zero _).symm
  | cons p xs ih =>
    intro t hxs ht
    obtain ⟨hp, hxs⟩ := List.forall_mem_cons.mp hxs
    have hadd : ∀ k ∈ keys (t.add p.1 p.2).entries, Expr.Canonical k := by
      intro k hk
      rcases (mem_keys_addTo hp ht).mp hk with rfl | hk
      · exact hp
      · exact ht k hk
    rw [List.foldl_cons, ih _ hxs hadd, add, weigh_addTo w p.2 hp ht, weigh_cons]
    ring

/-- A tally weighs as much as what it tallies. -/
theorem weigh_ofList (w : Expr → Rat) {xs : List (Expr × Rat)}
    (hxs : ∀ k ∈ keys xs, Expr.Canonical k) : weigh w (ofList xs).entries = weigh w xs :=
  (weigh_foldl w xs empty hxs (by simp [empty])).trans (zero_add _)

theorem weigh_filter (w : Expr → Rat) (xs : List (Expr × Rat)) :
    weigh w (xs.filter fun p => p.2 != 0) = weigh w xs :=
  sum_map_filter fun p _ h => by
    have h0 : p.2 = 0 := by simpa using h
    rw [h0, zero_mul]

end Tally

namespace Expr

variable {σ : String → Rat}

theorem defined_splits {ts : List Expr} (h : ∀ t ∈ ts, Defined σ t) :
    ∀ p ∈ splits ts, Defined σ p.1 := by
  intro p hp
  obtain ⟨t, ht, rfl⟩ := List.mem_map.mp hp
  exact (denotes_splitCoefficient (h t (mem_others.mp ht).1)).1

theorem weigh_splits {ts : List Expr} (h : ∀ t ∈ ts, Defined σ t) :
    Tally.weigh (value σ) (splits ts) = ((others ts).map (value σ)).sum := by
  rw [splits, Tally.weigh, List.map_map]
  congr 1
  exact List.map_congr_left fun t ht => (denotes_splitCoefficient (h t (mem_others.mp ht).1)).2

/-- **Combining like terms keeps the value.** -/
theorem denotes_collect {ts : List Expr} (hc : ∀ t ∈ ts, Canonical t)
    (h : ∀ t ∈ ts, Defined σ t) : Denotes σ (collect ts) (ts.map (value σ)).sum := by
  have hkeys : ∀ p ∈ likeTerms ts, Defined σ p.1 := by
    intro p hp
    obtain ⟨q, hq, heq⟩ := List.mem_map.mp ((mem_likeTerms hc).mp hp).1
    exact heq ▸ defined_splits h q hq
  have hlike : ((likeTerms ts).map fun p => value σ (scaled p.2 p.1)).sum =
      ((others ts).map (value σ)).sum := by
    rw [← weigh_splits h, ← Tally.weigh_ofList (value σ) (canonical_keys_splits hc),
      ← Tally.weigh_filter, Tally.weigh]
    congr 1
    exact List.map_congr_left fun p hp => (denotes_scaled (hkeys p hp)).value_eq
  have hdefined : ∀ x ∈ (likeTerms ts).map (fun p => scaled p.2 p.1) ++ [const (constants ts).sum],
      Defined σ x := by
    intro x hx
    rcases List.mem_append.mp hx with hx | hx
    · obtain ⟨p, hp, rfl⟩ := List.mem_map.mp hx
      exact (denotes_scaled (hkeys p hp)).defined
    · rw [List.mem_singleton.mp hx]
      exact .const _
  have hsum := denotes_sumOf hdefined
  rw [← collect_eq, List.map_append, List.sum_append, List.map_map, List.map_singleton,
    List.sum_singleton, value_const] at hsum
  rw [← addsUp_value.others_constants, ← hlike]
  exact hsum

/-! ## Like bases -/

theorem exists_int_of_isInteger {q : Rat} (h : Rational.isInteger q = true) : ∃ n : Int, q = n := by
  have hden : q.den = 1 := by simpa [Rational.isInteger] using h
  exact ⟨q.num, ((Rat.den_eq_one_iff q).mp hden).symm⟩

@[simp] theorem isInteger_intCast (n : Int) : Rational.isInteger (n : Rat) = true := rfl

theorem eq_of_toInt64? {q : Rat} {n : Int} (h : Rational.toInt64? q = some n) : q = n := by
  unfold Rational.toInt64? at h
  dsimp only at h
  split at h
  · next hq =>
    rw [Bool.and_eq_true, Bool.and_eq_true] at hq
    obtain ⟨m, rfl⟩ := exists_int_of_isInteger hq.1.1
    rw [Rat.num_intCast] at h
    rw [Option.some.inj h]
  · cases h

theorem toInt64?_intCast {n : Int} (h : -2 ^ 63 ≤ n ∧ n < 2 ^ 63) :
    Rational.toInt64? (n : Rat) = some n := by
  have hbound : ((1 <<< 63 : Nat) : Int) = 2 ^ 63 := rfl
  unfold Rational.toInt64?
  dsimp only
  rw [isInteger_intCast, Rat.num_intCast, hbound, if_pos (by simpa using h)]

/-- A base with an exponent that can be combined with others: an integer, and positive where the base
has value `0`. -/
structure SoundPower (σ : String → Rat) (p : Expr × Rat) : Prop where
  defined : Defined σ p.1
  integral : Rational.isInteger p.2 = true
  positive : p.2 ≤ 0 → value σ p.1 ≠ 0

/-- The value of a base with its exponent. -/
def powerValue (σ : String → Rat) (p : Expr × Rat) : Rat :=
  value σ p.1 ^ p.2.num

theorem soundPower_splitExponent {f : Expr} (h : Defined σ f) :
    SoundPower σ (Evaluator.splitExponent f) ∧
      powerValue σ (Evaluator.splitExponent f) = value σ f := by
  unfold Evaluator.splitExponent
  split
  · cases h with
    | power hb hn h0 hneg =>
      exact ⟨⟨hb, hn, fun hle => hneg (lt_of_le_of_ne hle h0)⟩, (value_power _ _).symm⟩
    | binary hop _ _ => cases hop
  · exact ⟨⟨h, rfl, fun hle => absurd hle (by norm_num)⟩, zpow_one _⟩

/-- Exponents of one base add up. -/
theorem SoundPower.add {k : Expr} {x y : Rat} (hx : SoundPower σ (k, x))
    (hy : SoundPower σ (k, y)) :
    SoundPower σ (k, x + y) ∧ powerValue σ (k, x + y) = powerValue σ (k, x) * powerValue σ (k, y) := by
  obtain ⟨m, rfl⟩ := exists_int_of_isInteger hx.integral
  obtain ⟨n, rfl⟩ := exists_int_of_isInteger hy.integral
  have hsum : ((m : Rat) + n) = ((m + n : Int) : Rat) := (Int.cast_add m n).symm
  rw [hsum]
  simp only [powerValue, Rat.num_intCast]
  by_cases h0 : value σ k = 0
  · have hm : 0 < m := by
      by_contra hle
      exact hx.positive (Int.cast_nonpos.mpr (not_lt.mp hle)) h0
    have hn : 0 < n := by
      by_contra hle
      exact hy.positive (Int.cast_nonpos.mpr (not_lt.mp hle)) h0
    refine ⟨⟨hx.defined, isInteger_intCast _, fun hle => ?_⟩, ?_⟩
    · have : m + n ≤ 0 := Int.cast_nonpos.mp hle
      omega
    · rw [h0, zero_zpow _ (by omega), zero_zpow _ (by omega), zero_mul]
  · exact ⟨⟨hx.defined, isInteger_intCast _, fun _ => h0⟩, zpow_add₀ h0 m n⟩

/-- A list of bases with exponents that multiply to `v`. -/
structure PowersDenote (σ : String → Rat) (xs : List (Expr × Rat)) (v : Rat) : Prop where
  sound : ∀ p ∈ xs, SoundPower σ p
  value_eq : (xs.map (powerValue σ)).prod = v

theorem PowersDenote.nil : PowersDenote σ [] 1 :=
  ⟨fun _ h => absurd h List.not_mem_nil, rfl⟩

theorem PowersDenote.cons {p : Expr × Rat} {xs : List (Expr × Rat)} {v : Rat}
    (hp : SoundPower σ p) (h : PowersDenote σ xs v) :
    PowersDenote σ (p :: xs) (powerValue σ p * v) :=
  ⟨List.forall_mem_cons.mpr ⟨hp, h.sound⟩, by rw [List.map_cons, List.prod_cons, h.value_eq]⟩

theorem PowersDenote.of_cons {p : Expr × Rat} {xs : List (Expr × Rat)} {v : Rat}
    (h : PowersDenote σ (p :: xs) v) :
    SoundPower σ p ∧ ∃ w, PowersDenote σ xs w ∧ v = powerValue σ p * w := by
  obtain ⟨hp, hxs⟩ := List.forall_mem_cons.mp h.sound
  refine ⟨hp, _, ⟨hxs, rfl⟩, ?_⟩
  rw [← h.value_eq, List.map_cons, List.prod_cons]

theorem PowersDenote.addTo {key : Expr} {x : Rat} (hcanon : Canonical key)
    (hkey : SoundPower σ (key, x)) : ∀ {xs : List (Expr × Rat)} {v : Rat},
      (∀ l ∈ Tally.keys xs, Canonical l) → PowersDenote σ xs v →
        PowersDenote σ (Tally.addTo key x xs) (powerValue σ (key, x) * v)
  | [], _, _, h => h.cons hkey
  | (l, y) :: rest, v, hc, h => by
    obtain ⟨hl, hrest⟩ := List.forall_mem_cons.mp hc
    obtain ⟨hly, w, hw, rfl⟩ := h.of_cons
    rw [Tally.addTo]
    split
    · exact h.cons hkey
    · rename_i heq
      obtain rfl := hcanon.eq_of_compare hl heq
      obtain ⟨hsum, hvalue⟩ := hly.add hkey
      have := hw.cons hsum
      rwa [hvalue, mul_comm (powerValue σ (key, y)), mul_assoc] at this
    · have := (PowersDenote.addTo hcanon hkey hrest hw).cons hly
      convert this using 1
      ring

theorem PowersDenote.foldl_add (xs : List (Expr × Rat)) : ∀ {t : Tally} {v w : Rat},
    (∀ k ∈ Tally.keys xs, Canonical k) → (∀ k ∈ Tally.keys t.entries, Canonical k) →
      PowersDenote σ t.entries v → PowersDenote σ xs w →
        PowersDenote σ (xs.foldl (fun t p => t.add p.1 p.2) t).entries (v * w) := by
  induction xs with
  | nil =>
    intro t v w _ _ ht hw
    obtain rfl := hw.value_eq
    rwa [List.map_nil, List.prod_nil, mul_one]
  | cons p xs ih =>
    intro t v w hxs ht hv hw
    obtain ⟨hp, hxs⟩ := List.forall_mem_cons.mp hxs
    obtain ⟨hsound, u, hu, rfl⟩ := hw.of_cons
    have hadd : ∀ k ∈ Tally.keys (t.add p.1 p.2).entries, Canonical k := by
      intro k hk
      rcases (Tally.mem_keys_addTo hp ht).mp hk with rfl | hk
      · exact hp
      · exact ht k hk
    have := ih hxs hadd (hv.addTo hp hsound ht) hu
    rwa [mul_comm _ v, mul_assoc] at this

/-- Combining like bases keeps the value. -/
theorem PowersDenote.ofList {xs : List (Expr × Rat)} {v : Rat}
    (hxs : ∀ k ∈ Tally.keys xs, Canonical k) (h : PowersDenote σ xs v) :
    PowersDenote σ (Tally.ofList xs).entries v := by
  have hempty : PowersDenote σ Tally.empty.entries 1 := .nil
  have := PowersDenote.foldl_add xs hxs (by simp [Tally.empty]) hempty h
  rwa [one_mul] at this

theorem powersDenote_exponentsOf {fs : List Expr} (h : ∀ f ∈ fs, Defined σ f) :
    PowersDenote σ (Evaluator.exponentsOf fs) ((others fs).map (value σ)).prod := by
  have hsplit := fun f (hf : f ∈ others fs) => soundPower_splitExponent (h f (mem_others.mp hf).1)
  refine ⟨fun p hp => ?_, ?_⟩
  · obtain ⟨f, hf, rfl⟩ := List.mem_map.mp hp
    exact (hsplit f hf).1
  · rw [Evaluator.exponentsOf, List.map_map]
    congr 1
    exact List.map_congr_left fun f hf => (hsplit f hf).2

end Expr

namespace Evaluator

open Expr

variable {σ : String → Rat}

/-- The bases are sound, and with the constant they multiply to `v`. -/
def Bases.Denotes (σ : String → Rat) (b : Bases) (v : Rat) : Prop :=
  ∃ w, PowersDenote σ b.exponents.entries w ∧ b.constant * w = v

/-- **Combining like bases keeps the value.** -/
theorem Bases.denotes_ofFactors {fs : List Expr} (hc : ∀ f ∈ fs, Expr.Canonical f)
    (h : ∀ f ∈ fs, Defined σ f) : (Bases.ofFactors fs).Denotes σ (fs.map (value σ)).prod := by
  rw [Bases.ofFactors_eq]
  refine ⟨_, (powersDenote_exponentsOf h).ofList (canonical_keys_exponentsOf hc), ?_⟩
  rw [mul_comm, multiplies_value.others_constants]

theorem denotes_raised {p : Expr × Rat} (h : SoundPower σ p) (h0 : p.2 ≠ 0) :
    Expr.Denotes σ (raised p.1 p.2) (powerValue σ p) := by
  rw [raised, powerValue]
  split
  · rename_i h1
    exact ⟨h.defined, by rw [h1]; exact (zpow_one _).symm⟩
  · exact ⟨.power h.defined h.integral h0 fun hlt => h.positive hlt.le, value_power _ _⟩

/-- **Multiplying out the bases keeps the value**: an exponent that has cancelled belongs to a base
whose value is not `0`. -/
theorem Bases.Denotes.product {b : Bases} {v : Rat} (h : b.Denotes σ v) :
    Expr.Denotes σ b.product v := by
  obtain ⟨w, hw, rfl⟩ := h
  have hraised : ∀ p ∈ b.exponents.entries.filter (fun p => p.2 != 0),
      Expr.Denotes σ (raised p.1 p.2) (powerValue σ p) := by
    intro p hp
    obtain ⟨hp, h0⟩ := List.mem_filter.mp hp
    exact denotes_raised (hw.sound p hp) (by simpa using h0)
  have hfilter : ∀ xs : List (Expr × Rat),
      ((xs.filter fun p => p.2 != 0).map (powerValue σ)).prod = (xs.map (powerValue σ)).prod := by
    intro xs
    induction xs with
    | nil => rfl
    | cons p xs ih =>
      rw [List.filter_cons]
      split
      · rw [List.map_cons, List.map_cons, List.prod_cons, List.prod_cons, ih]
      · rename_i h0
        have hzero : p.2 = 0 := by simpa using h0
        have hone : powerValue σ p = 1 := by
          rw [powerValue, hzero]
          exact zpow_zero _
        rw [List.map_cons, List.prod_cons, ih, hone, one_mul]
  have hvalues : b.powers.map (value σ) =
      (b.exponents.entries.filter fun p => p.2 != 0).map (powerValue σ) := by
    exact map_value_map hraised
  have hdefined : ∀ f ∈ Expr.const b.constant :: b.powers, Defined σ f := by
    refine List.forall_mem_cons.mpr ⟨.const _, fun f hf => ?_⟩
    obtain ⟨p, hp, rfl⟩ := List.mem_map.mp hf
    exact (hraised p hp).defined
  have hprod := denotes_productOf hdefined
  rw [List.map_cons, List.prod_cons, value_const, hvalues, hfilter, hw.value_eq] at hprod
  rwa [Bases.product_eq]

/-- Erasing a base takes its power out. -/
theorem PowersDenote.erase {base : Expr} {x : Rat} : ∀ {xs : List (Expr × Rat)} {v : Rat},
    (∀ l ∈ Tally.keys xs, Expr.Canonical l) → (Tally.keys xs).Nodup → (base, x) ∈ xs →
      PowersDenote σ xs v → SoundPower σ (base, x) ∧
        ∃ w, PowersDenote σ (xs.filter fun p => Expr.compare base p.1 != .eq) w ∧
          v = powerValue σ (base, x) * w
  | p :: xs, v, hc, hnodup, hmem, h => by
    obtain ⟨hp, hxs⟩ := List.forall_mem_cons.mp hc
    obtain ⟨hnot, hnodup⟩ := List.nodup_cons.mp hnodup
    obtain ⟨hsound, u, hu, rfl⟩ := h.of_cons
    rcases List.mem_cons.mp hmem with rfl | hmem
    · refine ⟨hsound, u, ?_, rfl⟩
      rw [List.filter_cons_of_neg (by simp [Expr.compare_self]), List.filter_eq_self.mpr]
      · exact hu
      · intro q hq
        have hq' : q.1 ∈ Tally.keys xs := List.mem_map_of_mem hq
        have hne : Expr.compare base q.1 ≠ .eq := fun heq =>
          hnot (by rwa [hp.eq_of_compare (hxs q.1 hq') heq])
        simpa using hne
    · obtain ⟨hbase, w, hw, rfl⟩ := PowersDenote.erase hxs hnodup hmem hu
      have hkey : base ∈ Tally.keys xs := List.mem_map_of_mem hmem
      have hne : Expr.compare base p.1 ≠ .eq := fun heq =>
        hnot (by rwa [← (hxs base hkey).eq_of_compare hp heq])
      refine ⟨hbase, powerValue σ p * w, ?_, by ring⟩
      rw [List.filter_cons_of_pos (by simpa using hne)]
      exact hw.cons hsound

/-- A constant to the power `1` or `-1`. -/
theorem pow?_unit (r : Rat) {x : Rat} (hx : x = 1 ∨ x = -1) :
    Rational.pow? r x = if x = -1 ∧ r = 0 then none else some (r ^ x.num) := by
  rcases hx with rfl | rfl
  · have : Rational.exactExponent? 1 = some 1 := by decide
    simp [Rational.pow?, this, Rational.integerPower, show (1 : Rat) ≠ -1 by norm_num]
  · have : Rational.exactExponent? (-1) = some (-1) := by decide
    simp [Rational.pow?, this, Rational.integerPower]

/-- **Handing the constant to a sum keeps the value**, if the distributed sum is that multiple of the
sum by which its power makes up for the constant. -/
theorem Bases.Denotes.replace {b : Bases} {base d : Expr} {x scale v : Rat} (h : b.Denotes σ v)
    (hc : b.Canonical) (hnodup : (Tally.keys b.exponents.entries).Nodup)
    (hmem : (base, x) ∈ b.exponents.entries)
    (hx : (x = 1 ∧ scale = b.constant) ∨ (x = -1 ∧ b.constant ≠ 0 ∧ scale = b.constant⁻¹))
    (hd : Expr.Canonical d) (hvalue : Expr.Denotes σ d (scale * value σ base)) :
    (b.replace base x d).Denotes σ v := by
  obtain ⟨w, hw, rfl⟩ := h
  obtain ⟨hbase, u, hu, rfl⟩ := PowersDenote.erase hc hnodup hmem hw
  have herase : ∀ l ∈ Tally.keys (b.exponents.erase base).entries, Expr.Canonical l := by
    intro l hl
    obtain ⟨p, hp, rfl⟩ := List.mem_map.mp hl
    exact hc p.1 (List.mem_map_of_mem (mem_entries_erase.mp hp).1)
  -- the power of the distributed sum is the constant times that of the sum
  have hunit : x = 1 ∨ x = -1 := hx.imp And.left And.left
  have hsound : SoundPower σ (d, x) ∧ powerValue σ (d, x) = b.constant * powerValue σ (base, x) := by
    rcases hx with ⟨rfl, rfl⟩ | ⟨rfl, h0, rfl⟩
    · refine ⟨⟨hvalue.defined, rfl, fun hle => absurd hle (by norm_num)⟩, ?_⟩
      simp [powerValue, hvalue.value_eq]
    · have hne : value σ base ≠ 0 := hbase.positive (by norm_num)
      refine ⟨⟨hvalue.defined, rfl, fun _ => ?_⟩, ?_⟩
      · rw [hvalue.value_eq]
        exact mul_ne_zero (inv_ne_zero h0) hne
      · have hnum : (-1 : Rat).num = -1 := rfl
        simp only [powerValue, hvalue.value_eq, hnum, zpow_neg_one, mul_inv, inv_inv]
  have hadd : Bases.Denotes σ ⟨1, (b.exponents.erase base).add d x⟩
      (b.constant * (powerValue σ (base, x) * u)) := by
    refine ⟨_, hu.addTo hd hsound.1 herase, ?_⟩
    rw [hsound.2]
    ring
  cases d with
  | const r =>
    have hr : value σ (.const r) = r := value_const r
    rw [Bases.replace, pow?_unit r hunit, if_neg]
    · refine ⟨u, hu, ?_⟩
      have := hsound.2
      rw [powerValue, hr] at this
      rw [this, mul_assoc]
    · rintro ⟨rfl, rfl⟩
      exact hsound.1.positive (by norm_num) hr
  | _ => exact hadd

end Evaluator

end SymbolicAlgebra
