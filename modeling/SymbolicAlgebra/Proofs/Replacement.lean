import SymbolicAlgebra.Evaluation.Evaluator
import SymbolicAlgebra.Proofs.Instances
import Mathlib.Logic.Equiv.Basic

/-!
# Replacing parts of an expression

A substitution looks every node up among the keys. A key gives way to its value, which is not searched
again; any other node is built anew by the canonical constructors, which flatten, fold and sort around
what was inserted.

The substitution lemma compares values. An assignment may leave variables without a value, and an
expression has one (`value?`) only if all its parts have one, so that a key whose replacement has no
value does no harm where it does not occur.

Results:
* `canonical_substitute`, `canonical_instantiate`: replacing parts of a plain expression by canonical
  expressions gives a canonical expression.
* `value?_of_denotes`: `value?` extends the value of exact relations.
* `Compositional.sumOf`, `Compositional.productOf`: the constructors keep values.
* `value?_substitute`: the substitution lemma, with exchanged variables and `x -> x + 1` as cases.
-/

namespace SymbolicAlgebra

open Expr

namespace Expr

variable {b : Bindings} {i : Bool}

/-! ## Canonical expressions -/

/-- The keys may be any expressions. -/
theorem canonical_substituteWith (hv : ∀ p ∈ b.entries, Canonical p.2) {e : Expr}
    (he : e.plain = true) : Canonical (substituteWith i b e) := by
  have list {xs : List Expr} (ih : ∀ x ∈ xs, x.plain = true → Canonical (substituteWith i b x))
      (hxs : ∀ x ∈ xs, x.plain = true) : ∀ y ∈ substituteList i b xs, Canonical y := by
    rw [substituteList_eq]
    exact List.forall_mem_map.mpr fun x hx => ih x hx (hxs x hx)
  -- what remains are the nodes that are no keys
  have unbound {e : Expr} (h : b.get? e = none → Canonical (substituteWith i b e)) :
      Canonical (substituteWith i b e) := by
    cases hget : b.get? e with
    | none => exact h hget
    | some v =>
      obtain ⟨p, hp, rfl⟩ := Bindings.exists_of_get? hget
      rw [substituteWith_of_get? hget]
      exact hv p hp
  induction e using inductionOn with
  | const q =>
    refine unbound fun hget => ?_
    rw [substituteWith, hget]
    exact .const q
  | var n c =>
    obtain rfl := (plain_var n c).mp he
    refine unbound fun hget => ?_
    rw [substituteWith, hget]
    exact .var n
  | sum ts ih =>
    refine unbound fun hget => ?_
    rw [substituteWith, hget]
    exact canonical_sumOf (list ih ((plain_sum ts).mp he))
  | product fs ih =>
    refine unbound fun hget => ?_
    rw [substituteWith, hget]
    exact canonical_productOf (list ih ((plain_product fs).mp he))
  | binary op l r ihl ihr =>
    obtain ⟨hop, hl, hr⟩ := (plain_binary op l r).mp he
    refine unbound fun hget => ?_
    rw [substituteWith, hget]
    exact .binary hop (ihl hl) (ihr hr)
  | not a ih =>
    refine unbound fun hget => ?_
    rw [substituteWith, hget]
    exact .not (ih he)
  | call f args _ => cases he
  | set ms ih =>
    refine unbound fun hget => ?_
    rw [substituteWith, hget]
    exact canonical_setOf (list ih ((plain_set ms).mp he))

theorem canonical_substitute (hv : ∀ p ∈ b.entries, Canonical p.2) {f : Expr} (hf : Canonical f) :
    Canonical (f.substitute b) := by
  rw [substitute]
  split
  · exact hf
  · exact canonical_substituteWith hv hf.plain

theorem canonical_instantiate (hv : ∀ p ∈ b.entries, Canonical p.2) {f : Expr} (hf : Canonical f) :
    Canonical (f.instantiate b) := by
  rw [instantiate]
  split
  · exact hf
  · exact canonical_substituteWith hv hf.plain

end Expr

/-! ## Partial values -/

/-- The value of an operator where it has one: exponents are nonzero integers, `0` has no negative
power, and relations are decided as between constants. -/
def BinaryOp.value? (op : BinaryOp) (a b : Rat) : Option Rat :=
  match op with
  | power =>
    if Rational.isInteger b && b != 0 && (decide (0 ≤ b) || a != 0) then some (a ^ b.num) else none
  | conj => some (truth (a != 0 && b != 0))
  | disj => some (truth (a != 0 || b != 0))
  | op => (Evaluator.holds? op a b).map truth

namespace Expr

mutual

/-- The value under an assignment that may leave variables without one. -/
def value? (τ : String → Option Rat) : Expr → Option Rat
  | const q => some q
  | var n _ => τ n
  | sum ts => (values? τ ts).map List.sum
  | product fs => (values? τ fs).map List.prod
  | binary op l r => (value? τ l).bind fun a => (value? τ r).bind fun b => op.value? a b
  | not a => (value? τ a).map fun v => truth (v == 0)
  | call .. => none
  | set _ => none

/-- The values of a list, if all items have one. -/
def values? (τ : String → Option Rat) : List Expr → Option (List Rat)
  | [] => some []
  | t :: ts => (value? τ t).bind fun v => (values? τ ts).map (v :: ·)

end

/-- A partial value by which sums and products have one exactly if all their operands have one. -/
structure Compositional (m : Expr → Option Rat) : Prop where
  const : ∀ q, m (const q) = some q
  sum : ∀ {ts : List Expr} {v : Rat},
    m (sum ts) = some v ↔ ∃ vs : List Rat, ts.map m = vs.map some ∧ vs.sum = v
  product : ∀ {fs : List Expr} {v : Rat},
    m (product fs) = some v ↔ ∃ vs : List Rat, fs.map m = vs.map some ∧ vs.prod = v

section Compositional

variable {m : Expr → Option Rat}

/-- The values of a list that is read item by item. -/
theorem eq_some_iff_of_cons {ms : List Expr → Option (List Rat)} (hnil : ms [] = some [])
    (hcons : ∀ t ts, ms (t :: ts) = (m t).bind fun v => (ms ts).map (v :: ·)) :
    ∀ {ts : List Expr} {vs : List Rat}, ms ts = some vs ↔ ts.map m = vs.map some
  | [], vs => by
    rw [hnil, List.map_nil, Option.some_inj, eq_comm (a := [])]
    exact List.map_eq_nil_iff.symm.trans eq_comm
  | t :: ts, vs => by
    rw [hcons, Option.bind_eq_some_iff, List.map_cons]
    constructor
    · rintro ⟨v, hv, hvs⟩
      obtain ⟨ws, hws, rfl⟩ := Option.map_eq_some_iff.mp hvs
      rw [hv, (eq_some_iff_of_cons hnil hcons).mp hws]
      rfl
    · intro h
      cases vs with
      | nil => cases h
      | cons v ws =>
        obtain ⟨hv, hws⟩ := List.cons.inj h
        exact ⟨v, hv, Option.map_eq_some_iff.mpr
          ⟨ws, (eq_some_iff_of_cons hnil hcons).mpr hws, rfl⟩⟩

/-- The values of a list are those of its items. -/
theorem map_eq_map_some_iff {ts : List Expr} {vs : List Rat} :
    ts.map m = vs.map some ↔
      (∀ t ∈ ts, (m t).isSome = true) ∧ ts.map (fun t => (m t).getD 0) = vs := by
  constructor
  · intro h
    refine ⟨fun t ht => ?_, ?_⟩
    · have hmem : m t ∈ vs.map some := h ▸ List.mem_map_of_mem ht
      obtain ⟨v, -, hv⟩ := List.mem_map.mp hmem
      rw [← hv]
      rfl
    · calc ts.map (fun t => (m t).getD 0)
          = (ts.map m).map (Option.getD · 0) := by rw [List.map_map]; rfl
        _ = (vs.map some).map (Option.getD · 0) := by rw [h]
        _ = vs := by rw [List.map_map]; exact List.map_id vs
  · rintro ⟨h, rfl⟩
    rw [List.map_map]
    refine List.map_congr_left fun t ht => ?_
    obtain ⟨v, hv⟩ := Option.isSome_iff_exists.mp (h t ht)
    rw [Function.comp_apply, hv]
    rfl

namespace Compositional

variable (hm : Compositional m)
include hm

theorem addsUp : AddsUp (fun e => (m e).isSome = true) fun e => (m e).getD 0 where
  const q := ⟨by rw [hm.const]; rfl, by rw [hm.const]; rfl⟩
  of_sum {ts} h := by
    obtain ⟨v, hv⟩ := Option.isSome_iff_exists.mp h
    obtain ⟨vs, hvs, rfl⟩ := hm.sum.mp hv
    obtain ⟨hts, heq⟩ := map_eq_map_some_iff.mp hvs
    refine ⟨hts, ?_⟩
    rw [heq, hv]
    rfl
  sum {ts} h := by
    rw [hm.sum.mpr ⟨_, map_eq_map_some_iff.mpr ⟨h, rfl⟩, rfl⟩]
    rfl

theorem multiplies : Multiplies (fun e => (m e).isSome = true) fun e => (m e).getD 0 where
  const q := ⟨by rw [hm.const]; rfl, by rw [hm.const]; rfl⟩
  of_product {fs} h := by
    obtain ⟨v, hv⟩ := Option.isSome_iff_exists.mp h
    obtain ⟨vs, hvs, rfl⟩ := hm.product.mp hv
    obtain ⟨hfs, heq⟩ := map_eq_map_some_iff.mp hvs
    refine ⟨hfs, ?_⟩
    rw [heq, hv]
    rfl
  product {fs} h := by
    rw [hm.product.mpr ⟨_, map_eq_map_some_iff.mpr ⟨h, rfl⟩, rfl⟩]
    rfl

/-- **The canonical sum of operands with values has the sum of the values.** -/
theorem sumOf {xs : List Expr} {vs : List Rat} (h : xs.map m = vs.map some) :
    m (Expr.sumOf xs) = some vs.sum := by
  obtain ⟨hxs, rfl⟩ := map_eq_map_some_iff.mp h
  obtain ⟨hsome, heq⟩ := hm.addsUp.sumOf hxs
  rw [← heq]
  exact (Option.getD_of_ne_none (Option.isSome_iff_ne_none.mp hsome) 0).symm

/-- **The canonical product of operands with values has the product of the values.** -/
theorem productOf {xs : List Expr} {vs : List Rat} (h : xs.map m = vs.map some) :
    m (Expr.productOf xs) = some vs.prod := by
  obtain ⟨hxs, rfl⟩ := map_eq_map_some_iff.mp h
  obtain ⟨hsome, heq⟩ := hm.multiplies.productOf hxs
  rw [← heq]
  exact (Option.getD_of_ne_none (Option.isSome_iff_ne_none.mp hsome) 0).symm

end Compositional

end Compositional

section PartialValues

variable {τ : String → Option Rat}

theorem values?_eq_some_iff {ts : List Expr} {vs : List Rat} :
    values? τ ts = some vs ↔ ts.map (value? τ) = vs.map some :=
  eq_some_iff_of_cons (by rw [values?]) fun t ts => by rw [values?]

theorem value?_symbol (n : String) : value? τ (symbol n) = τ n := by
  rw [symbol, value?]

theorem compositional_value? (τ : String → Option Rat) : Compositional (value? τ) where
  const q := by rw [value?]
  sum {ts v} := by
    rw [value?, Option.map_eq_some_iff]
    simp only [values?_eq_some_iff]
  product {fs v} := by
    rw [value?, Option.map_eq_some_iff]
    simp only [values?_eq_some_iff]

/-- **A meant value is a value**: exact relations are decided in the same way. -/
theorem value?_of_denotes {σ : String → Rat} {e : Expr} {v : Rat} (h : Denotes σ e v) :
    value? (fun n => some (σ n)) e = some v := by
  obtain ⟨hd, rfl⟩ := h
  have list {xs : List Expr} (ih : ∀ x ∈ xs, value? (fun n => some (σ n)) x = some (value σ x)) :
      xs.map (value? fun n => some (σ n)) = (xs.map (value σ)).map some := by
    rw [List.map_map]
    exact List.map_congr_left ih
  induction hd with
  | const q => rw [value?, value_const]
  | var n c => rw [value?, value_var]
  | sum _ ih =>
    rw [value_sum]
    exact (compositional_value? _).sum.mpr ⟨_, list ih, rfl⟩
  | product _ ih =>
    rw [value_product]
    exact (compositional_value? _).product.mpr ⟨_, list ih, rfl⟩
  | @power b n _ hn h0 hneg ih =>
    have hmeant : (decide (0 ≤ n) || value σ b != 0) = true := by
      rcases lt_or_ge n 0 with hlt | hle
      · simp [hneg hlt]
      · simp [hle]
    rw [power, value?, ih, value?, Option.bind_some, Option.bind_some, BinaryOp.value?, hn,
      bne_iff_ne.mpr h0, hmeant, Bool.and_true, Bool.and_true, if_pos rfl]
    exact congrArg some (value_power b n).symm
  | @binary op l r hop _ _ ihl ihr =>
    rw [value?, ihl, ihr, value_binary, Option.bind_some, Option.bind_some]
    cases op <;> first | rfl | cases hop
  | not _ ih =>
    rw [value?, ih, value_not]
    rfl

end PartialValues

end Expr

/-! ## The substitution lemma -/

namespace Bindings

variable {b : Bindings} {τ : String → Option Rat}

/-- What variables stand for: a bound variable for the value of its replacement. -/
def assignment (b : Bindings) (τ : String → Option Rat) (n : String) : Option Rat :=
  match b.get? (symbol n) with
  | some e => e.value? τ
  | none => τ n

theorem assignment_of_isEmpty (h : b.isEmpty = true) : b.assignment τ = τ := by
  funext n
  have hnone : b.get? (symbol n) = none := by
    rw [get?, List.isEmpty_iff.mp h]
    rfl
  rw [assignment, hnone]

theorem get?_cons_symbol (x n : String) (v : Expr) (entries : List (Expr × Expr)) :
    get? ⟨(symbol x, v) :: entries⟩ (symbol n) =
      if x = n then some v else get? ⟨entries⟩ (symbol n) := by
  have hkey : (symbol x == symbol n) = decide (x = n) := beq_symbol x n
  split
  · rename_i h
    exact congrArg (Option.map Prod.snd)
      (List.find?_cons_of_pos (hkey.trans (decide_eq_true h)))
  · rename_i h
    exact congrArg (Option.map Prod.snd)
      (List.find?_cons_of_neg (Bool.eq_false_iff.mp (hkey.trans (decide_eq_false h))))

theorem get?_nil (k : Expr) : get? ⟨[]⟩ k = none := rfl

/-- The bindings that exchange two variables. -/
def exchange (x y : String) : Bindings :=
  ⟨[(symbol x, symbol y), (symbol y, symbol x)]⟩

theorem assignment_exchange (x y : String) (τ : String → Option Rat) :
    (exchange x y).assignment τ = τ ∘ Equiv.swap x y := by
  funext n
  rw [assignment, exchange, get?_cons_symbol, get?_cons_symbol, get?_nil, Function.comp_apply,
    Equiv.swap_apply_def]
  by_cases hx : x = n
  · rw [if_pos hx, if_pos hx.symm]
    exact value?_symbol y
  · rw [if_neg hx, if_neg (Ne.symm hx)]
    by_cases hy : y = n
    · rw [if_pos hy, if_pos hy.symm]
      exact value?_symbol x
    · rw [if_neg hy, if_neg (Ne.symm hy)]

/-- The bindings `x -> x + 1`. -/
def increment (x : String) : Bindings :=
  singleton (symbol x) (symbol x + 1)

theorem assignment_increment (x : String) (ρ : String → Rat) :
    (increment x).assignment (some ∘ ρ) = some ∘ Function.update ρ x (ρ x + 1) := by
  have hvalue : value? (some ∘ ρ) (symbol x + 1) = some (ρ x + 1) := by
    have hsum : value? (some ∘ ρ) (sumOf [symbol x, const 1]) = some [ρ x, 1].sum :=
      (compositional_value? _).sumOf (by simp [value?_symbol, value?])
    rwa [List.sum_cons, List.sum_singleton] at hsum
  funext n
  rw [assignment, increment, singleton, get?_cons_symbol, get?_nil, Function.comp_apply,
    Function.comp_apply, Function.update_apply]
  by_cases hx : x = n
  · rw [if_pos hx, if_pos hx.symm]
    exact hvalue
  · rw [if_neg hx, if_neg (Ne.symm hx)]

end Bindings

namespace Expr

variable {b : Bindings} {i : Bool} {τ : String → Option Rat}

/-- **A substitution keeps the value** that the expression has when the bound variables stand for the
values of their replacements: by induction on the expression, with a rebuilt node as the canonical
constructor of operands that have their values. -/
theorem value?_substituteWith (hb : b.OfVariables) {f : Expr} {v : Rat}
    (h : value? (b.assignment τ) f = some v) : value? τ (substituteWith i b f) = some v := by
  have list {xs : List Expr} {vs : List Rat} (ih : ∀ x ∈ xs, ∀ {v}, value? (b.assignment τ) x = some v →
      value? τ (substituteWith i b x) = some v) (h : xs.map (value? (b.assignment τ)) = vs.map some) :
      (xs.map (substituteWith i b)).map (value? τ) = vs.map some := by
    rw [← h, List.map_map]
    refine List.map_congr_left fun x hx => ?_
    obtain ⟨v, -, hv⟩ := List.mem_map.mp (h ▸ List.mem_map_of_mem hx)
    rw [← hv]
    exact ih x hx hv.symm
  induction f using inductionOn generalizing v with
  | const q =>
    rw [value?] at h
    rw [substituteWith_const hb, value?, h]
  | var n c =>
    rw [value?, Bindings.assignment] at h
    rw [substituteWith, b.get?_var]
    cases hget : b.get? (symbol n) with
    | none =>
      rw [hget] at h
      rwa [value?]
    | some t =>
      rw [hget] at h
      exact h
  | sum ts ih =>
    obtain ⟨vs, hvs, rfl⟩ := (compositional_value? _).sum.mp h
    rw [substituteWith_sum hb]
    exact (compositional_value? _).sumOf (list ih hvs)
  | product fs ih =>
    obtain ⟨vs, hvs, rfl⟩ := (compositional_value? _).product.mp h
    rw [substituteWith_product hb]
    exact (compositional_value? _).productOf (list ih hvs)
  | binary op l r ihl ihr =>
    rw [value?] at h
    obtain ⟨p, hl, h⟩ := Option.bind_eq_some_iff.mp h
    obtain ⟨q, hr, h⟩ := Option.bind_eq_some_iff.mp h
    rw [substituteWith_binary hb, value?, ihl hl, ihr hr, Option.bind_some, Option.bind_some, h]
  | not a ih =>
    rw [value?] at h
    obtain ⟨p, ha, rfl⟩ := Option.map_eq_some_iff.mp h
    rw [substituteWith_not hb, value?, ih ha]
    rfl
  | call f args _ => cases h
  | set ms _ => cases h

/-- Both modes of substitution keep the value. -/
theorem value?_replaced (hb : b.OfVariables) {f : Expr} {v : Rat}
    (h : value? (b.assignment τ) f = some v) :
    value? τ (f.substitute b) = some v ∧ value? τ (f.instantiate b) = some v := by
  rw [substitute, instantiate]
  split
  · next hempty =>
    rw [Bindings.assignment_of_isEmpty hempty] at h
    exact ⟨h, h⟩
  · exact ⟨value?_substituteWith hb h, value?_substituteWith hb h⟩

/-- **The substitution lemma.** If an expression has a value when each bound variable stands for the
value of its replacement, then either mode of substitution gives an expression with that value. The
replacements are made at once and are not searched again: exchanging two variables exchanges what they
stand for, and `x -> x + 1` moves `x` by one. -/
theorem value?_substitute (ρ : String → Rat) (f : Expr) (v : Rat) :
    (∀ b : Bindings, b.OfVariables → value? (b.assignment (some ∘ ρ)) f = some v →
      value? (some ∘ ρ) (f.substitute b) = some v ∧
      value? (some ∘ ρ) (f.instantiate b) = some v) ∧
    (∀ x y, value? (some ∘ ρ ∘ Equiv.swap x y) f = some v →
      value? (some ∘ ρ) (f.substitute (.exchange x y)) = some v ∧
      value? (some ∘ ρ) (f.instantiate (.exchange x y)) = some v) ∧
    ∀ x, value? (some ∘ Function.update ρ x (ρ x + 1)) f = some v →
      value? (some ∘ ρ) (f.substitute (.increment x)) = some v ∧
      value? (some ∘ ρ) (f.instantiate (.increment x)) = some v := by
  refine ⟨fun b hb h => value?_replaced hb h, fun x y h => ?_, fun x h => ?_⟩
  · refine value?_replaced (b := .exchange x y) ?_ ?_
    · exact List.forall_mem_cons.mpr ⟨rfl, List.forall_mem_singleton.mpr rfl⟩
    · rw [Bindings.assignment_exchange]
      exact h
  · refine value?_replaced (b := .increment x) (List.forall_mem_singleton.mpr rfl) ?_
    rw [Bindings.assignment_increment]
    exact h

/-- The quotient `(x < y) / x` at `x = 2` and `y = 4`: with `x` and `y` exchanged, with `x + 1` for `x`,
and with `y` for `x` beside a replacement that has no value, of a variable that does not occur. -/
theorem value?_substitute_quotient :
    let ρ : String → Rat := fun n => if n = "x" then 2 else 4
    let f := product [power (symbol "x") (const (-1)), binary .less (symbol "x") (symbol "y")]
    let b : Bindings := ⟨[(symbol "x", symbol "y"), (symbol "z", power zero (const (-1)))]⟩
    value? (some ∘ ρ) (f.substitute b) = some 0 ∧
      value? (some ∘ ρ) (f.instantiate (.exchange "x" "y")) = some 0 ∧
      value? (some ∘ ρ) (f.substitute (.increment "x")) = some (1 / 3) := by
  intro ρ f b
  obtain ⟨hmap, -, -⟩ := value?_substitute ρ f 0
  obtain ⟨-, hexchange, -⟩ := value?_substitute ρ f 0
  obtain ⟨-, -, hincrement⟩ := value?_substitute ρ f (1 / 3)
  have hb : b.OfVariables := List.forall_mem_cons.mpr ⟨rfl, List.forall_mem_singleton.mpr rfl⟩
  refine ⟨(hmap b hb ?_).1, (hexchange "x" "y" ?_).2, (hincrement "x" ?_).1⟩
  · decide +kernel
  · decide +kernel
  · decide +kernel

end Expr

end SymbolicAlgebra
