import SymbolicAlgebra.Proofs.Growth
import SymbolicAlgebra.Proofs.Replacement

/-!
# Substitution for variables

Variables are replaced by canonical expressions; the constructors put the result into canonical form
again.

Results:
* `leaves_substituteWith_ne_top`: the result is arithmetic if everything is.
* `denotes_substituteWith`: its value is the value under the valuation that the bindings give.
* `raised_substituteWith`: it is at most as high as the expression and the highest value
  together.
-/

namespace SymbolicAlgebra

open Expr

/-! ## Bindings of variables -/

namespace Bindings

variable {b : Bindings} {x : String}

theorem isEmpty_eq_false {k v : Expr} (h : b.get? k = some v) : b.isEmpty = false := by
  obtain ⟨p, hp, -⟩ := exists_of_get? h
  cases hb : b.isEmpty
  · rfl
  · rw [List.isEmpty_iff.mp hb] at hp
    cases hp

theorem get?_erase_self (b : Bindings) (k : Expr) : (b.erase k).get? k = none := by
  rw [MatchState.get?_eq_none_iff]
  intro l hl
  obtain ⟨p, hp, rfl⟩ := List.mem_map.mp hl
  simpa using (List.mem_filter.mp hp).2

/-- Forgetting a variable keeps the values of the others. -/
theorem get?_erase_symbol {n : String} (hn : n ≠ x) :
    (b.erase (symbol x)).get? (symbol n) = b.get? (symbol n) := by
  have hkey (k : Expr) (hk : (k == symbol n) = true) : (k == symbol x) = false := by
    rw [BEq.congr_left hk]
    exact (beq_symbol n x).trans (decide_eq_false hn)
  rw [get?, get?, erase, List.find?_filter]
  congr 2
  funext p
  cases hp : (p.1 == symbol n)
  · simp [hp]
  · simp [hp, hkey _ hp]

theorem OfVariables.erase (hb : b.OfVariables) (k : Expr) : (b.erase k).OfVariables :=
  fun p hp => hb p (List.mem_filter.mp hp).1

theorem ofVariables_singleton (x : String) (v : Expr) : (singleton (symbol x) v).OfVariables :=
  List.forall_mem_singleton.mpr rfl

theorem valuation_singleton (x : String) (v : Expr) (σ : String → Rat) :
    (singleton (symbol x) v).valuation σ = moved σ x (value σ v) := by
  funext n
  rw [valuation, singleton, get?_cons_symbol, get?_nil]
  by_cases hx : x = n
  · rw [if_pos hx, ← hx]
    exact (moved_apply_self σ x _).symm
  · rw [if_neg hx]
    exact (moved_apply_of_ne (Ne.symm hx) _).symm

end Bindings

namespace Expr

variable {b : Bindings} {i : Bool} {σ : String → Rat}

/-- What is substituted for a variable: its value, or the variable. -/
theorem substituteWith_symbol_cases (i : Bool) (b : Bindings) (n : String) :
    (∃ p ∈ b.entries, substituteWith i b (symbol n) = p.2) ∨
      substituteWith i b (symbol n) = symbol n := by
  rw [substituteWith_symbol]
  cases hget : b.get? (symbol n) with
  | none => exact .inr rfl
  | some v =>
    obtain ⟨p, hp, rfl⟩ := Bindings.exists_of_get? hget
    exact .inl ⟨p, hp, rfl⟩

theorem forall_map_substituteWith {P : Expr → Prop} {xs : List Expr}
    (h : ∀ x ∈ xs, P (substituteWith i b x)) : ∀ y ∈ xs.map (substituteWith i b), P y :=
  List.forall_mem_map.mpr h

/-! ## Rational expressions -/

theorem leaves_substituteWith_ne_top (hb : b.OfVariables) (hv : ∀ p ∈ b.entries, p.2.leaves ≠ ⊤)
    {e : Expr} (he : IsRational e) : (substituteWith i b e).leaves ≠ ⊤ := by
  induction he with
  | const q =>
    rw [substituteWith_const hb, leaves_const]
    exact ENat.zero_ne_top
  | var n =>
    obtain ⟨p, hp, h⟩ | h := substituteWith_symbol_cases i b n
    · exact h ▸ hv p hp
    · exact h ▸ ENat.one_ne_top
  | sum _ ih =>
    rw [substituteWith_sum hb, leaves_sumOf]
    exact sum_leaves_ne_top (forall_map_substituteWith ih)
  | product _ ih =>
    rw [substituteWith_product hb]
    exact Derivative.leaves_productOf_ne_top (forall_map_substituteWith ih)
  | power _ _ _ ih =>
    rw [substituteWith_power hb, leaves_power_const]
    exact ih

/-- **The value after a substitution** is the value under the valuation of the bindings. -/
theorem denotes_substituteWith (hb : b.OfVariables) (hv : ∀ p ∈ b.entries, Defined σ p.2)
    {e : Expr} (he : IsRational e) (hd : Defined (b.valuation σ) e) :
    Denotes σ (substituteWith i b e) (value (b.valuation σ) e) := by
  induction he with
  | const q =>
    rw [substituteWith_const hb]
    exact ⟨.const q, by rw [value_const, value_const]⟩
  | var n =>
    change Denotes σ (substituteWith i b (symbol n)) (value (b.valuation σ) (symbol n))
    rw [substituteWith_symbol, symbol, value_var, Bindings.valuation]
    change Denotes σ ((b.get? (symbol n)).getD (symbol n)) _
    cases hget : b.get? (symbol n) with
    | none => exact ⟨.var n none, value_var n none⟩
    | some v =>
      obtain ⟨p, hp, rfl⟩ := Bindings.exists_of_get? hget
      exact ⟨hv p hp, rfl⟩
  | sum _ ih =>
    rw [substituteWith_sum hb, value_sum]
    exact denotes_sumOf_map fun t ht => ih t ht (hd.of_terms t ht)
  | product _ ih =>
    rw [substituteWith_product hb, value_product]
    exact denotes_productOf_map fun f hf => ih f hf (hd.of_factors f hf)
  | power _ _ _ ih =>
    cases hd with
    | binary hop _ _ => cases hop
    | power hbase hn h0 hneg =>
      obtain ⟨hdefined, heq⟩ := ih hbase
      rw [substituteWith_power hb, value_power, ← heq]
      exact ⟨.power hdefined hn h0 fun h => heq ▸ hneg h, value_power _ _⟩

/-! ## The height -/

/-- What a substitution does to the heights of an expression, as a term and as a base. -/
structure Raised (V : Nat) (e r : Expr) : Prop where
  termHeight_le : r.termHeight ≤ e.termHeight + V
  baseHeight_le : r.baseHeight ≤ e.baseHeight + V

theorem baseHeight_le_termHeight (e : Expr) : e.baseHeight ≤ e.termHeight + 3 := by
  have h₁ := height_le_termHeight e
  have h₂ := weight_le_three e
  rw [baseHeight]
  omega

theorem raised_sumOf {V : Nat} {ts rs : List Expr} (hts : 1 ≤ ts.length)
    (hrs : ∀ r ∈ rs, Canonical r ∧ ∃ t ∈ ts, Raised V t r) : Raised V (sum ts) (sumOf rs) := by
  obtain ⟨N, hN⟩ : ∃ N, (sum ts).termHeight = N + 4 := by
    obtain ⟨t, ht⟩ := List.exists_mem_of_length_pos hts
    exact ⟨(sum ts).termHeight - 4, by have := termHeight_term ht
                                       omega⟩
  have hbase : (sum ts).baseHeight + 1 = (sum ts).termHeight := by
    rw [termHeight_eq rfl rfl, factorHeight]
    rfl
  have hterms : ∀ t ∈ (sumOf rs).terms, t.termHeight ≤ N + V := by
    intro t ht
    obtain hc | ⟨-, r, hr, htr⟩ := mem_terms_sumOf (fun r hr => (hrs r hr).1) ht
    · obtain ⟨q, rfl⟩ := exists_of_isConst hc
      exact Nat.zero_le _
    · obtain ⟨u, hu, hraised⟩ := (hrs r hr).2
      have h₁ := termHeight_of_mem_terms htr
      have h₂ := hraised.termHeight_le
      have h₃ := termHeight_term hu
      omega
  obtain ⟨hsum, hle⟩ | ⟨-, hle⟩ := height_of_terms hterms
  · have h₁ := termHeight_le_height_add_two (sumOf rs)
    have h₂ : (sumOf rs).baseHeight = (sumOf rs).height + 1 := by
      obtain ⟨us, hus⟩ := exists_of_isSum hsum
      rw [hus]
      rfl
    exact ⟨by omega, by omega⟩
  · have := baseHeight_le_termHeight (sumOf rs)
    exact ⟨by omega, by omega⟩

/-- **The height after a substitution.** -/
theorem raised_substituteWith {V : Nat} (hb : b.OfVariables)
    (hv : ∀ p ∈ b.entries, Canonical p.2 ∧ p.2.termHeight + 2 ≤ V) {e : Expr} (he : RationalForm e) :
    Raised V e (substituteWith i b e) := by
  have hcanon : ∀ {e}, IsRational e → Canonical (substituteWith i b e) := fun he =>
    canonical_substituteWith (fun p hp => (hv p hp).1) he.plain
  obtain ⟨hr, hc⟩ := he
  induction hr with
  | const q =>
    rw [substituteWith_const hb]
    exact ⟨Nat.le_add_right _ _, Nat.le_add_right _ _⟩
  | var n =>
    obtain ⟨p, hp, h⟩ | h := substituteWith_symbol_cases i b n
    · have h₁ := (hv p hp).2
      have h₂ := baseHeight_le_termHeight p.2
      have h₃ : 1 ≤ (var n none).baseHeight := Nat.le_refl 1
      rw [show substituteWith i b (var n none) = p.2 from h]
      exact ⟨by omega, by omega⟩
    · rw [show substituteWith i b (var n none) = var n none from h]
      exact ⟨Nat.le_add_right _ _, Nat.le_add_right _ _⟩
  | @sum ts hts ih =>
    rw [substituteWith_sum hb]
    have hlength := hc.two_le_terms
    refine raised_sumOf (by omega) (forall_map_substituteWith fun t ht => ?_)
    exact ⟨hcanon (hts t ht), t, ht, ih t ht (hc.of_sum t ht)⟩
  | @product fs hfs ih =>
    have hle : (productOf (fs.map (substituteWith i b))).termHeight ≤
        (product fs).termHeight + V := by
      refine termHeight_productOf (forall_map_substituteWith fun f hf => hcanon (hfs f hf))
        (forall_map_substituteWith fun f hf => ?_)
      exact (ih f hf (hc.of_product f hf)).termHeight_le.trans
        (Nat.add_le_add_right (termHeight_factor hc hf) V)
    have h₁ := baseHeight_le_termHeight (productOf (fs.map (substituteWith i b)))
    have h₂ := baseHeight_product fs
    rw [← termHeight_product] at h₂
    rw [substituteWith_product hb]
    exact ⟨hle, by omega⟩
  | @power e n _ _ _ ih =>
    have hle := (ih hc.of_binary.1).baseHeight_le
    have hbase (e : Expr) : (power e (.const n)).baseHeight = e.baseHeight + 1 := by
      rw [baseHeight_eq rfl, height_power, termHeight_const]
    rw [substituteWith_power hb]
    constructor
    · rw [termHeight_power_const, termHeight_power_const]
      omega
    · rw [hbase, hbase]
      omega

end Expr

end SymbolicAlgebra
