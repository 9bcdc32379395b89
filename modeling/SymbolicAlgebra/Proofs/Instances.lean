import SymbolicAlgebra.Proofs.Matching
import SymbolicAlgebra.Proofs.Value

/-!
# The value of an instance

The instance of a pattern under some bindings has the value that the pattern has when every bound
variable stands for the value it is bound to. Patterns here have no powers and no calls, and those of
their variables that are factors stand for something other than `0` (`Cancellable`): what matching
divides by. Sums and products of such patterns are such patterns.

Results:
* `value_instantiate`: the value of an instance is the value of the pattern under the valuation that
  the bindings give.
-/

namespace SymbolicAlgebra

open Expr

/-! ## Instances -/

namespace Bindings

/-- What variables stand for: a bound variable for the value it is bound to. -/
def valuation (b : Bindings) (σ : String → Rat) (n : String) : Rat :=
  match b.get? (.symbol n) with
  | some v => v.value σ
  | none => σ n

/-- All keys are variables. -/
def OfVariables (b : Bindings) : Prop :=
  ∀ p ∈ b.entries, p.1.isVar = true

variable {b : Bindings} {σ : String → Rat}

theorem get?_var (b : Bindings) (n : String) (c : Option Condition) :
    b.get? (.var n c) = b.get? (.symbol n) := by
  have h (k : Expr) : (k == .var n c) = (k == .symbol n) :=
    BEq.congr_right (show (Expr.var n c == .symbol n) = true from beq_refl (.symbol n))
  simp only [get?, h]

theorem get?_eq_none (hb : b.OfVariables) {e : Expr} (he : e.isVar = false) : b.get? e = none := by
  refine MatchState.get?_eq_none_iff.mpr fun k hk => ?_
  obtain ⟨p, hp, rfl⟩ := List.mem_map.mp hk
  have hvar := hb p hp
  cases hkey : p.1 <;> rw [hkey] at hvar <;> cases hvar
  cases e <;> first | rfl | cases he

theorem OfVariables.insert (hb : b.OfVariables) {key : Expr} (hkey : key.isVar = true)
    (value : Expr) : (b.insert key value).OfVariables := by
  intro p hp
  rw [Bindings.insert] at hp
  split at hp
  · obtain ⟨⟨k, v⟩, hmem, rfl⟩ := List.mem_map.mp hp
    have hk := hb _ hmem
    dsimp only
    split <;> exact hk
  · rcases List.mem_append.mp hp with hmem | hmem
    · exact hb p hmem
    · rw [List.mem_singleton.mp hmem]
      exact hkey

theorem ofVariables_ofList {pairs : List (Expr × Expr)} (h : ∀ p ∈ pairs, p.1.isVar = true) :
    (ofList pairs).OfVariables :=
  List.foldlRecOn pairs _ nofun fun _ hb p hp => hb.insert (h p hp) p.2

/-- The value of a key is the value of an entry. -/
theorem exists_of_get? {k v : Expr} (h : b.get? k = some v) : ∃ p ∈ b.entries, p.2 = v := by
  obtain ⟨p, hp, rfl⟩ := Option.map_eq_some_iff.mp h
  exact ⟨p, List.mem_of_find?_eq_some hp, rfl⟩

theorem valuation_of_isEmpty (h : b.isEmpty = true) : b.valuation σ = σ := by
  have hnone (n : String) : b.get? (symbol n) = none := by
    rw [get?, List.isEmpty_iff.mp h]
    rfl
  funext n
  rw [valuation, hnone]

end Bindings

/-! ## Patterns -/

namespace Expr

/-- A pattern without powers whose variable factors do not have the value `0`. -/
inductive Cancellable (τ : String → Rat) : Expr → Prop
  | const (q : Rat) : Cancellable τ (const q)
  | var (n : String) (c : Option Condition) : Cancellable τ (var n c)
  | sum {ts : List Expr} : (∀ t ∈ ts, Cancellable τ t) → Cancellable τ (sum ts)
  | product {fs : List Expr} : (∀ f ∈ fs, Cancellable τ f) →
    (∀ f ∈ fs, f.isVar = true → value τ f ≠ 0) → Cancellable τ (product fs)
  | binary {op : BinaryOp} {l r : Expr} : op.isLogical = true → Cancellable τ l →
    Cancellable τ r → Cancellable τ (binary op l r)
  | not {a : Expr} : Cancellable τ a → Cancellable τ (not a)

section Cancellable

variable {τ : String → Rat}

theorem Cancellable.of_terms {e : Expr} (h : Cancellable τ e) : ∀ t ∈ e.terms, Cancellable τ t := by
  refine forall_mem_terms h fun ts h => ?_
  cases h with
  | sum hts => exact hts

/-- What may be a factor of a pattern. -/
structure Factor (τ : String → Rat) (e : Expr) : Prop where
  cancellable : Cancellable τ e
  ne_zero : e.isVar = true → value τ e ≠ 0

theorem Factor.of_factors {e : Expr} (h : Factor τ e) : ∀ f ∈ e.factors, Factor τ f := by
  refine forall_mem_factors h fun fs h => ?_
  cases h.cancellable with
  | product hfs hvar => exact fun f hf => ⟨hfs f hf, hvar f hf⟩

theorem cancellable_sumOf {xs : List Expr} (h : ∀ x ∈ xs, Cancellable τ x) :
    Cancellable τ (sumOf xs) :=
  sumOf_induction .const (fun x hx => (h x hx).of_terms) fun _ => .sum

theorem cancellable_productOf {xs : List Expr} (h : ∀ x ∈ xs, Factor τ x) :
    Cancellable τ (productOf xs) :=
  productOf_induction Factor.cancellable (fun q => ⟨.const q, fun hvar => by cases hvar⟩)
    (fun x hx => (h x hx).of_factors)
    fun _ hfs => .product (fun f hf => (hfs f hf).cancellable) fun f hf => (hfs f hf).ne_zero

end Cancellable

/-! ## Substitution node by node -/

section Nodes

variable {b : Bindings} {i : Bool}

theorem substituteList_eq (i : Bool) (b : Bindings) (xs : List Expr) :
    substituteList i b xs = xs.map (substituteWith i b) := by
  induction xs with
  | nil => rfl
  | cons x xs ih => rw [substituteList, ih, List.map_cons]

/-- A key is replaced by its value, which is not searched again. -/
theorem substituteWith_of_get? {e v : Expr} (h : b.get? e = some v) :
    substituteWith i b e = v := by
  rw [substituteWith.eq_def, h]

theorem substituteWith_symbol (i : Bool) (b : Bindings) (n : String) :
    substituteWith i b (symbol n) = (b.get? (symbol n)).getD (symbol n) := by
  rw [symbol, substituteWith]
  cases b.get? (var n none) <;> rfl

variable (hb : b.OfVariables)
include hb

theorem substituteWith_const (q : Rat) : substituteWith i b (.const q) = .const q := by
  rw [substituteWith, Bindings.get?_eq_none hb rfl]

theorem substituteWith_sum (ts : List Expr) :
    substituteWith i b (.sum ts) = sumOf (ts.map (substituteWith i b)) := by
  rw [substituteWith, Bindings.get?_eq_none hb rfl, ← substituteList_eq]

theorem substituteWith_product (fs : List Expr) :
    substituteWith i b (.product fs) = productOf (fs.map (substituteWith i b)) := by
  rw [substituteWith, Bindings.get?_eq_none hb rfl, ← substituteList_eq]

theorem substituteWith_binary (op : BinaryOp) (l r : Expr) :
    substituteWith i b (.binary op l r) =
      .binary op (substituteWith i b l) (substituteWith i b r) := by
  rw [substituteWith, Bindings.get?_eq_none hb rfl]

theorem substituteWith_power (e : Expr) (n : Rat) :
    substituteWith i b (power e (.const n)) = power (substituteWith i b e) (.const n) := by
  rw [power, substituteWith_binary hb, substituteWith_const hb]
  rfl

theorem substituteWith_not (a : Expr) :
    substituteWith i b (.not a) = .not (substituteWith i b a) := by
  rw [substituteWith, Bindings.get?_eq_none hb rfl]

/-- At once, so that no binding is held back. -/
theorem substituteWith_call (f : Function) (args : List Expr) :
    substituteWith true b (.call f args) = .call f (args.map (substituteWith true b)) := by
  rw [substituteWith, Bindings.get?_eq_none hb rfl, ← substituteList_eq]
  rfl

theorem substituteWith_set (ms : List Expr) :
    substituteWith i b (.set ms) = setOf (ms.map (substituteWith i b)) := by
  rw [substituteWith, Bindings.get?_eq_none hb rfl, ← substituteList_eq]

end Nodes

/-- **The value of an instance** is the value of the pattern under the valuation of the bindings. -/
theorem value_substituteWith {τ σ : String → Rat} {b : Bindings} (hb : b.OfVariables)
    (immediate : Bool) {p : Expr} (hp : Cancellable τ p) :
    value σ (substituteWith immediate b p) = value (b.valuation σ) p := by
  have hlist {xs : List Expr} (h : ∀ x ∈ xs, value σ (substituteWith immediate b x) =
      value (b.valuation σ) x) :
        (xs.map (substituteWith immediate b)).map (value σ) = xs.map (value (b.valuation σ)) := by
    rw [List.map_map]
    exact List.map_congr_left h
  induction hp with
  | var n c =>
    rw [substituteWith, value_var, Bindings.valuation, b.get?_var]
    cases b.get? (symbol n) with
    | some v => rfl
    | none => exact value_var n c
  | const q => rw [substituteWith_const hb, value_const, value_const]
  | sum _ ih => rw [substituteWith_sum hb, value_sumOf, value_sum, hlist ih]
  | product _ _ ih => rw [substituteWith_product hb, value_productOf, value_product, hlist ih]
  | binary _ _ _ ihl ihr => rw [substituteWith_binary hb, value_binary, value_binary, ihl, ihr]
  | not _ ih => rw [substituteWith_not hb, value_not, value_not, ih]

theorem value_instantiate {τ σ : String → Rat} {b : Bindings} (hb : b.OfVariables) {p : Expr}
    (hp : Cancellable τ p) : value σ (p.instantiate b) = value (b.valuation σ) p := by
  rw [instantiate]
  split
  · next hempty => rw [Bindings.valuation_of_isEmpty hempty]
  · exact value_substituteWith hb true hp

/-- The same for a substitution. -/
theorem value_substitute {τ σ : String → Rat} {b : Bindings} (hb : b.OfVariables) {p : Expr}
    (hp : Cancellable τ p) : value σ (p.substitute b) = value (b.valuation σ) p := by
  rw [substitute]
  split
  · next hempty => rw [Bindings.valuation_of_isEmpty hempty]
  · exact value_substituteWith hb false hp

end Expr

end SymbolicAlgebra
