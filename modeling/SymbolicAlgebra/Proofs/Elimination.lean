import Mathlib.LinearAlgebra.Matrix.ToLinearEquiv
import SymbolicAlgebra.Proofs.Rows

/-!
# Elimination over rows

The system of the solver is a list of rows that keeps its order. Elimination adds multiples of one row
to others, which changes no solution (`SameSolutions`). Eliminating an unknown from the rows that lead
with it leaves the pivot row as the only one, whichever it is; back substitution keeps the leading
unknowns and clears the columns one after the other, in the order of the rows.

Results:
* `leadsOnce_cancelRows`: elimination of an unknown.
* `Cleared.step`: one step of back substitution.
* `exists_lead`: in a square system without homogeneous solutions every row has a leading unknown.
-/

namespace SymbolicAlgebra

open Expr

namespace Row

variable {n : Nat}

/-! ## Leading unknowns -/

/-- The first unknown with a nonzero coefficient. -/
def lead (r : Row n) : Option (Fin n) :=
  (List.finRange n).find? fun j => r.1 j != 0

theorem lead_eq_none {r : Row n} : r.lead = none ↔ ∀ j, r.1 j = 0 := by
  simp [lead]

theorem lead_eq_some {r : Row n} {j : Fin n} :
    r.lead = some j ↔ r.1 j ≠ 0 ∧ ∀ i < j, r.1 i = 0 := by
  rw [lead, ← Fin.find?_eq_find?_finRange, Fin.find?_eq_some_iff]
  simp

theorem ne_zero_of_lead {r : Row n} {j : Fin n} (h : r.lead = some j) : r.1 j ≠ 0 :=
  (lead_eq_some.mp h).1

theorem eq_zero_of_lt_lead {r : Row n} {i j : Fin n} (h : r.lead = some j) (hij : i < j) :
    r.1 i = 0 :=
  (lead_eq_some.mp h).2 i hij

/-- The multiple of the pivot row that cancels the coefficient of `j`, added to a row. -/
def cancel (p : Row n) (j : Fin n) (r : Row n) : Row n :=
  r + (r.1 j / -p.1 j) • p

theorem cancel_apply (p : Row n) (j : Fin n) (r : Row n) (i : Fin n) :
    (cancel p j r).1 i = r.1 i + r.1 j / -p.1 j * p.1 i := rfl

theorem cancel_self {p : Row n} {j : Fin n} (h : p.1 j ≠ 0) (r : Row n) :
    (cancel p j r).1 j = 0 := by
  rw [cancel_apply]
  field_simp
  ring

end Row

/-! ## Systems of rows -/

section Systems

variable {m n : Nat}

/-- The two systems have the same solutions, also with the constant parts left out. -/
structure SameSolutions (R S : Fin m → Row n) : Prop where
  eval : ∀ x, (∀ i, (R i).eval x = 0) ↔ ∀ i, (S i).eval x = 0
  homogeneous : ∀ x : Fin n → Rat, (∀ i, ∑ j, (R i).1 j * x j = 0) ↔ ∀ i, ∑ j, (S i).1 j * x j = 0

theorem SameSolutions.refl (R : Fin m → Row n) : SameSolutions R R :=
  ⟨fun _ => Iff.rfl, fun _ => Iff.rfl⟩

theorem SameSolutions.trans {R S T : Fin m → Row n} (h : SameSolutions R S)
    (h' : SameSolutions S T) : SameSolutions R T :=
  ⟨fun x => (h.eval x).trans (h'.eval x), fun x => (h.homogeneous x).trans (h'.homogeneous x)⟩

/-- Adding multiples of one row to others changes no solution. -/
theorem sameSolutions_of_add {R S : Fin m → Row n} {p : Fin m} {c : Fin m → Rat} (hp : c p = 0)
    (h : ∀ i, S i = R i + c i • R p) : SameSolutions R S := by
  have hzero : ∀ φ : Row n → Rat, (∀ a b, φ (a + b) = φ a + φ b) →
      (∀ (q : Rat) a, φ (q • a) = q * φ a) → ((∀ i, φ (R i) = 0) ↔ ∀ i, φ (S i) = 0) := by
    intro φ hadd hsmul
    have hval : ∀ i, φ (S i) = φ (R i) + c i * φ (R p) := fun i => by rw [h, hadd, hsmul]
    constructor
    · intro hR i
      rw [hval, hR, hR, mul_zero, add_zero]
    · intro hS i
      have hpivot : φ (R p) = 0 := by simpa [hval, hp] using hS p
      simpa [hval, hpivot] using hS i
  refine ⟨fun x => hzero (·.eval x) (fun a b => Row.eval_add a b x) fun q a => Row.eval_smul q a x,
    fun x => hzero (fun r => ∑ j, r.1 j * x j) (fun a b => ?_) fun q a => ?_⟩
  · simp only [Prod.fst_add, Pi.add_apply, add_mul, Finset.sum_add_distrib]
  · simp only [Prod.smul_fst, Pi.smul_apply, smul_eq_mul, mul_assoc, Finset.mul_sum]

/-- One step of elimination: the pivot row `p` cancels `j` from the chosen rows. -/
def cancelRows (R : Fin m → Row n) (p : Fin m) (j : Fin n) (chosen : Fin m → Bool) :
    Fin m → Row n :=
  fun i => if i ≠ p ∧ chosen i = true then Row.cancel (R p) j (R i) else R i

theorem sameSolutions_cancelRows (R : Fin m → Row n) (p : Fin m) (j : Fin n)
    (chosen : Fin m → Bool) : SameSolutions R (cancelRows R p j chosen) := by
  refine @sameSolutions_of_add m n R _ p
    (fun i => if i ≠ p ∧ chosen i = true then (R i).1 j / -(R p).1 j else 0) ?_ fun i => ?_
  · exact if_neg fun h => h.1 rfl
  · rw [cancelRows]
    split
    · rfl
    · rw [zero_smul, add_zero]

/-- At most one row leads with `j`. -/
def LeadsOnce (R : Fin m → Row n) (j : Fin n) : Prop :=
  ∀ i i', (R i).lead = some j → (R i').lead = some j → i = i'

/-- **Elimination of `j`**: afterwards only the pivot row leads with `j`, and nothing changes for the
unknowns before. -/
theorem leadsOnce_cancelRows {R : Fin m → Row n} {p : Fin m} {j : Fin n}
    (hp : (R p).lead = some j) :
    let S := cancelRows R p j fun i => (R i).lead == some j
    LeadsOnce S j ∧ ∀ l < j, LeadsOnce R l → LeadsOnce S l := by
  intro S
  have hS : ∀ i, (i ≠ p ∧ (R i).lead = some j) ∧ (∀ l ≤ j, (S i).1 l = 0) ∨
      ¬(i ≠ p ∧ (R i).lead = some j) ∧ S i = R i := by
    intro i
    by_cases hi : i ≠ p ∧ (R i).lead = some j
    · refine Or.inl ⟨hi, fun l hl => ?_⟩
      have hSi : S i = Row.cancel (R p) j (R i) :=
        if_pos ⟨hi.1, beq_iff_eq.mpr hi.2⟩
      rcases hl.lt_or_eq with hl | rfl
      · rw [hSi, Row.cancel_apply, Row.eq_zero_of_lt_lead hi.2 hl, Row.eq_zero_of_lt_lead hp hl,
          mul_zero, add_zero]
      · rw [hSi, Row.cancel_self (Row.ne_zero_of_lead hp)]
    · refine Or.inr ⟨hi, if_neg fun h => hi ⟨h.1, beq_iff_eq.mp h.2⟩⟩
  -- a row that leads with something up to `j` is unchanged
  have hold : ∀ i l, l ≤ j → (S i).lead = some l → S i = R i := by
    intro i l hl hlead
    rcases hS i with ⟨-, hzero⟩ | ⟨-, h⟩
    · exact absurd (hzero l hl) (Row.ne_zero_of_lead hlead)
    · exact h
  constructor
  · have honly : ∀ i, (S i).lead = some j → i = p := by
      intro i hlead
      by_contra hne
      rcases hS i with ⟨-, hzero⟩ | ⟨hnot, h⟩
      · exact Row.ne_zero_of_lead hlead (hzero j le_rfl)
      · exact hnot ⟨hne, h ▸ hlead⟩
    exact fun i i' hi hi' => (honly i hi).trans (honly i' hi').symm
  · intro l hl honce i i' hi hi'
    have h₁ := hold i l hl.le hi
    have h₂ := hold i' l hl.le hi'
    rw [h₁] at hi
    rw [h₂] at hi'
    exact honce i i' hi hi'

/-! ## Back substitution -/

/-- Every unknown leads at most one row, and what the rows in `done` lead with is in no other row. -/
structure Cleared (R : Fin m → Row n) (done : List (Fin m)) : Prop where
  once : ∀ j, LeadsOnce R j
  column : ∀ p ∈ done, ∀ j, (R p).lead = some j → ∀ i, i ≠ p → (R i).1 j = 0

/-- To cancel the leading unknown of a row from the others changes no leading unknown. -/
theorem lead_cancelRows {R : Fin m → Row n} {p : Fin m} {j : Fin n} (honce : LeadsOnce R j)
    (hp : (R p).lead = some j) (i : Fin m) :
    (cancelRows R p j (fun i => (R i).1 j != 0) i).lead = (R i).lead := by
  rw [cancelRows]
  split
  · rename_i hi
    obtain ⟨hip, hcoef⟩ := hi
    have hcoef := bne_iff_ne.mp hcoef
    cases hlead : (R i).lead with
    | none => exact absurd (Row.lead_eq_none.mp hlead j) hcoef
    | some l =>
      obtain ⟨hne, hzero⟩ := Row.lead_eq_some.mp hlead
      have hlj : l < j := by
        rcases lt_trichotomy l j with hlt | rfl | hgt
        · exact hlt
        · exact absurd (honce i p hlead hp) hip
        · exact absurd (hzero j hgt) hcoef
      -- the pivot row has nothing up to the unknown that row `i` leads with
      have hpivot : ∀ k ≤ l, (R p).1 k = 0 := fun k hk =>
        Row.eq_zero_of_lt_lead hp (hk.trans_lt hlj)
      refine Row.lead_eq_some.mpr ⟨?_, fun k hk => ?_⟩
      · rwa [Row.cancel_apply, hpivot l le_rfl, mul_zero, add_zero]
      · rw [Row.cancel_apply, hzero k hk, hpivot k hk.le, mul_zero, add_zero]
  · rfl

/-- **One step of back substitution** keeps the cleared columns, and clears the column of the unknown
that the pivot row leads with. -/
theorem Cleared.step {R : Fin m → Row n} {done : List (Fin m)} (h : Cleared R done) {p : Fin m}
    {j : Fin n} (hp : (R p).lead = some j) :
    Cleared (cancelRows R p j fun i => (R i).1 j != 0) (done ++ [p]) := by
  have hlead := lead_cancelRows (h.once j) hp
  refine ⟨fun l i i' hi hi' => h.once l i i' (hlead i ▸ hi) (hlead i' ▸ hi'), ?_⟩
  intro q hq l hl i hi
  rw [hlead] at hl
  by_cases hqp : q = p
  · subst hqp
    obtain rfl : j = l := Option.some.inj (hp.symm.trans hl)
    rw [cancelRows]
    split
    · exact Row.cancel_self (Row.ne_zero_of_lead hp) _
    · rename_i hnot
      by_contra hcoef
      exact hnot ⟨hi, bne_iff_ne.mpr hcoef⟩
  · have hdone : q ∈ done := (List.mem_append.mp hq).resolve_right fun hmem =>
      hqp (List.mem_singleton.mp hmem)
    have hcolumn := h.column q hdone l hl
    rw [cancelRows]
    split
    · rw [Row.cancel_apply, hcolumn i hi, hcolumn p fun hpq => hqp hpq.symm, mul_zero, add_zero]
    · exact hcolumn i hi

/-- A row without leading unknown clears nothing. -/
theorem Cleared.skip {R : Fin m → Row n} {done : List (Fin m)} (h : Cleared R done) {p : Fin m}
    (hp : (R p).lead = none) : Cleared R (done ++ [p]) := by
  refine ⟨h.once, fun q hq j hj => ?_⟩
  rcases List.mem_append.mp hq with hq | hq
  · exact h.column q hq j hj
  · rw [List.mem_singleton.mp hq, hp] at hj
    cases hj

/-- A square system without homogeneous solutions has a leading unknown in every row. -/
theorem exists_lead {R : Fin n → Row n}
    (h : ∀ x : Fin n → Rat, (∀ i, ∑ j, (R i).1 j * x j = 0) → x = 0) (i : Fin n) :
    ∃ j, (R i).lead = some j := by
  cases hlead : (R i).lead with
  | some j => exact ⟨j, rfl⟩
  | none =>
    have hdet : Matrix.det (Matrix.of fun i j => (R i).1 j) = 0 :=
      Matrix.det_eq_zero_of_row_eq_zero i (Row.lead_eq_none.mp hlead)
    obtain ⟨x, hx, hzero⟩ := Matrix.exists_mulVec_eq_zero_iff.mpr hdet
    exact absurd (h x fun i => congrFun hzero i) hx

end Systems

end SymbolicAlgebra
