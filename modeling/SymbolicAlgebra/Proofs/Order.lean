import SymbolicAlgebra.Proofs.Structure
import SymbolicAlgebra.Expr.Order
import Mathlib.Algebra.Order.Ring.Rat
import Mathlib.Tactic.Linarith

/-!
# The canonical order is a total preorder

`Expr.compare` looks at two expressions at the coarsest level that one of them has. Whatever that
level is, the comparison can also be read at any coarser one: as lists of terms (`compare_terms`), as
lists of factors when neither side is a sum (`compare_factors`), as base, exponent and being a power
when neither is a product (`compare_power`), and by label and operands for the rest
(`compare_atom`). Three expressions can therefore always be compared at the coarsest level of all
three, and induction on their sizes gives transitivity.

Results:
* the instance `Std.TransCmp Expr.compare`: the order is oriented and transitive.
* `compare_totalPreorder`: it is a total preorder, and equals in it form a congruence.
-/

namespace SymbolicAlgebra.Expr

/-! ## Orders of the labels -/

instance : Std.TransCmp Rational.order where
  eq_swap {a b} := by
    simp only [Rational.order]
    rcases lt_trichotomy a b with h | rfl | h
    · simp [h, h.not_gt, h.ne']
    · simp
    · simp [h, h.not_gt, h.ne']
  isLE_trans {a b c} hab hbc := by
    have le_iff (x y : Rat) : (Rational.order x y).isLE ↔ x ≤ y := by
      simp only [Rational.order]
      split_ifs with h₁ h₂
      · simp [h₁.le]
      · simp [h₂]
      · simpa using lt_of_le_of_ne (not_lt.mp h₁) (Ne.symm h₂)
    rw [le_iff] at *
    exact hab.trans hbc

theorem order_eq_iff {a b : Rat} : Rational.order a b = .eq ↔ a = b := by
  simp only [Rational.order]
  split_ifs with h₁ h₂
  · simp [h₁.ne]
  · simp [h₂]
  · simp [h₂]

/-- What is left of three comparisons in a row once the first two are known. -/
def Chain (ab bc ac : Ordering) : Prop :=
  ab.isLE → bc.isLE → ac = ab.then bc

theorem Chain.ofTransCmp {α : Type} {cmp : α → α → Ordering} [Std.TransCmp cmp] (a b c : α) :
    Chain (cmp a b) (cmp b c) (cmp a c) := by
  intro hab hbc
  cases h : cmp a b with
  | lt => exact Std.TransCmp.lt_of_lt_of_isLE h hbc
  | eq => exact Std.TransCmp.congr_left h
  | gt => simp [h] at hab

/-- Chains compose: the second comparison counts only where the first ones are all equal. -/
theorem Chain.andThen {ab bc ac ab' bc' ac' : Ordering} (h : Chain ab bc ac)
    (h' : ab = .eq → bc = .eq → Chain ab' bc' ac') :
    Chain (ab.then ab') (bc.then bc') (ac.then ac') := by
  intro hab hbc
  have hac := h (Ordering.isLE_left_of_isLE_then hab) (Ordering.isLE_left_of_isLE_then hbc)
  subst hac
  cases ab with
  | gt => simp at hab
  | lt => rfl
  | eq =>
    cases bc with
    | gt => simp at hbc
    | lt => cases ab' <;> simp_all
    | eq => exact h' rfl rfl hab hbc

instance : Std.TransCmp fun a b : Rat => Rational.order b.abs a.abs where
  eq_swap := Std.OrientedCmp.eq_swap
  isLE_trans hab hbc := @Std.TransCmp.isLE_trans _ Rational.order _ _ _ _ hbc hab

instance : Std.TransCmp compareConst :=
  inferInstanceAs (Std.TransCmp
    (compareLex (fun a b : Rat => Rational.order b.abs a.abs) Rational.order))

theorem compareConst_eq_iff {a b : Rat} : compareConst a b = .eq ↔ a = b := by
  rw [compareConst, Ordering.then_eq_eq, order_eq_iff, order_eq_iff]
  exact ⟨fun h => h.2, fun h => ⟨by rw [h], h⟩⟩

/-! ## Reading a comparison at a coarser level -/

theorem compareToOne_eq (ts : List Expr) (b : Expr) : compareToOne ts b = compareList ts [b] := by
  match ts with
  | [] => simp [compareToOne, compareList]
  | [t] => simp [compareToOne, compareList]
  | t :: _ :: _ => simp [compareToOne, compareList]

theorem compareOneTo_eq (a : Expr) (us : List Expr) : compareOneTo a us = compareList [a] us := by
  match us with
  | [] => simp [compareOneTo, compareList]
  | [u] => simp [compareOneTo, compareList]
  | u :: _ :: _ => simp [compareOneTo, compareList]

theorem compareList_singleton (a b : Expr) : compareList [a] [b] = compare a b := by
  simp [compareList]

/-- Any two expressions compare as their lists of terms. -/
theorem compare_terms (a b : Expr) : compare a b = compareList a.terms b.terms := by
  cases ha : a.isSum <;> cases hb : b.isSum
  · rw [terms_eq_self ha, terms_eq_self hb, compareList_singleton]
  · obtain ⟨us, rfl⟩ := exists_of_isSum hb
    rw [terms_eq_self ha, terms, ← compareOneTo_eq]
    cases a with
    | sum ts => cases ha
    | _ => rw [compare]; all_goals simp
  · obtain ⟨ts, rfl⟩ := exists_of_isSum ha
    rw [terms_eq_self hb, terms, ← compareToOne_eq]
    cases b with
    | sum us => cases hb
    | _ => rw [compare]; all_goals simp
  · obtain ⟨ts, rfl⟩ := exists_of_isSum ha
    obtain ⟨us, rfl⟩ := exists_of_isSum hb
    rw [compare, terms, terms]

/-- Expressions that are no sums compare as their lists of factors. -/
theorem compare_factors {a b : Expr} (ha : a.isSum = false) (hb : b.isSum = false) :
    compare a b = compareList a.factors b.factors := by
  cases ha' : a.isProduct <;> cases hb' : b.isProduct
  · rw [factors_eq_self ha', factors_eq_self hb', compareList_singleton]
  · obtain ⟨us, rfl⟩ := exists_of_isProduct hb'
    rw [factors_eq_self ha', factors, ← compareOneTo_eq]
    cases a with
    | sum ts => cases ha
    | product ts => cases ha'
    | _ => rw [compare]; all_goals simp
  · obtain ⟨ts, rfl⟩ := exists_of_isProduct ha'
    rw [factors_eq_self hb', factors, ← compareToOne_eq]
    cases b with
    | sum us => cases hb
    | product us => cases hb'
    | _ => rw [compare]; all_goals simp
  · obtain ⟨ts, rfl⟩ := exists_of_isProduct ha'
    obtain ⟨us, rfl⟩ := exists_of_isProduct hb'
    rw [compare, factors, factors]

theorem compare_one_one : compare one one = .eq := by
  simp [one, compare, compareConst_eq_iff]

/-- Expressions that are no sums and no products compare by base, then by exponent; of two that
agree in both, the power comes last. -/
theorem compare_power {a b : Expr} (ha : a.isSum = false) (hb : b.isSum = false)
    (ha' : a.isProduct = false) (hb' : b.isProduct = false) :
    compare a b = ((compare a.base b.base).then (compare a.exponent b.exponent)).then
      (Ord.compare a.isPower.toNat b.isPower.toNat) := by
  have h01 : Ord.compare 0 1 = .lt := rfl
  have h10 : Ord.compare 1 0 = .gt := rfl
  cases hpa : a.isPower <;> cases hpb : b.isPower
  · rw [base_eq_self hpa, base_eq_self hpb, exponent_eq_one hpa, exponent_eq_one hpb,
      compare_one_one]
    simp
  · obtain ⟨l, x, rfl⟩ := exists_of_isPower hpb
    rw [base_eq_self hpa, exponent_eq_one hpa]
    cases a with
    | binary op _ _ => cases op <;> simp_all [isPower, power, compare, base, exponent]
    | _ => simp_all [isSum, isProduct, power, compare, base, exponent]
  · obtain ⟨l, x, rfl⟩ := exists_of_isPower hpa
    rw [base_eq_self hpb, exponent_eq_one hpb]
    cases b with
    | binary op _ _ => cases op <;> simp_all [isPower, power, compare, base, exponent]
    | _ => simp_all [isSum, isProduct, power, compare, base, exponent]
  · obtain ⟨l, x, rfl⟩ := exists_of_isPower hpa
    obtain ⟨l', x', rfl⟩ := exists_of_isPower hpb
    simp [power, compare, base, exponent]

/-! ### Atoms -/

/-- What is compared by kind: neither a sum nor a product nor a power. -/
def isAtom (e : Expr) : Bool :=
  !e.isSum && !e.isProduct && !e.isPower

/-- The constant at the root of an atom. -/
def rootConst (e : Expr) : Rat :=
  e.asConst?.getD 0

/-- The name at the root of an atom. -/
def rootName : Expr → String
  | var n _ => n
  | call f _ => f.name
  | _ => ""

/-- The number at the root of an atom: an arity or the rank of an operator. -/
def rootNumber : Expr → Nat
  | call f _ => f.arity
  | binary op _ _ => op.rank
  | _ => 0

/-- The operands of an atom. -/
def operands : Expr → List Expr
  | binary _ l r => [l, r]
  | not a => [a]
  | call _ args => args
  | set ms => ms
  | _ => []

/-- The order of the roots of atoms. -/
def compareRoot (a b : Expr) : Ordering :=
  (((Ord.compare a.kindRank b.kindRank).then (compareConst a.rootConst b.rootConst)).then
    (Ord.compare a.rootName b.rootName)).then (Ord.compare a.rootNumber b.rootNumber)

theorem op_ne_power {op : BinaryOp} {l r : Expr} (h : (binary op l r).isAtom = true) :
    op ≠ .power := by
  rintro rfl
  cases h

/-- Atoms of different kinds compare by kind. -/
theorem compare_kindRank {a b : Expr} (ha : a.isAtom = true) (hb : b.isAtom = true)
    (h : a.kindRank ≠ b.kindRank) : compare a b = Ord.compare a.kindRank b.kindRank := by
  have hsum (ts : List Expr) : (sum ts).isAtom ≠ true := by simp [isAtom, isSum]
  have hproduct (ts : List Expr) : (product ts).isAtom ≠ true := by simp [isAtom, isProduct]
  unfold compare
  split
  all_goals first
    | rfl
    | exact absurd ha (hsum _)
    | exact absurd hb (hsum _)
    | exact absurd ha (hproduct _)
    | exact absurd hb (hproduct _)
    | exact absurd rfl (op_ne_power ha)
    | exact absurd rfl (op_ne_power hb)
    | exact absurd rfl h

theorem compareRoot_of_ne {a b : Expr} (h : a.kindRank ≠ b.kindRank) (o : Ordering) :
    (compareRoot a b).then o = Ord.compare a.kindRank b.kindRank := by
  unfold compareRoot
  cases hk : Ord.compare a.kindRank b.kindRank with
  | eq => exact absurd (Nat.compare_eq_eq.mp hk) h
  | _ => rfl

/-- Atoms compare by their roots, then by their operands. -/
theorem compare_atom {a b : Expr} (ha : a.isAtom = true) (hb : b.isAtom = true) :
    compare a b = (compareRoot a b).then (compareList a.operands b.operands) := by
  by_cases hk : a.kindRank = b.kindRank
  · have hc (q : Rat) : compareConst q q = .eq := compareConst_eq_iff.mpr rfl
    cases a <;> cases b <;> try (cases hk; done)
    case sum.sum => simp [isAtom, isSum] at ha
    case product.product => simp [isAtom, isProduct] at ha
    case binary.binary op l r op' l' r' =>
      have hop := op_ne_power ha
      have hop' := op_ne_power hb
      rw [compare]
      · simp [compareRoot, kindRank, rootConst, rootName, rootNumber, operands, asConst?, compareList,
          Ordering.then_assoc, hc]
      all_goals simp [hop, hop']
    all_goals
      rw [compare]
      simp [compareRoot, kindRank, rootConst, rootName, rootNumber, operands, asConst?, compareList,
        Ordering.then_assoc, hc]
  · rw [compare_kindRank ha hb hk, compareRoot_of_ne hk]

/-! ## Sizes of the parts -/

theorem sizeList_terms_le (e : Expr) : sizeList e.terms ≤ e.size := by
  cases e <;> simp [terms, size, sizeList]

theorem sizeList_terms_lt {e : Expr} (h : e.isSum = true) : sizeList e.terms < e.size := by
  obtain ⟨ts, rfl⟩ := exists_of_isSum h
  simp [terms, size]

theorem sizeList_factors_le (e : Expr) : sizeList e.factors ≤ e.size := by
  cases e <;> simp [factors, size, sizeList]

theorem sizeList_factors_lt {e : Expr} (h : e.isProduct = true) :
    sizeList e.factors < e.size := by
  obtain ⟨fs, rfl⟩ := exists_of_isProduct h
  simp [factors, size]

theorem size_base_le (e : Expr) : e.base.size ≤ e.size := by
  cases h : e.isPower
  · rw [base_eq_self h]
  · obtain ⟨b, x, rfl⟩ := exists_of_isPower h
    simp only [power, base, size]
    omega

theorem size_exponent_le (e : Expr) : e.exponent.size ≤ e.size := by
  cases h : e.isPower
  · rw [exponent_eq_one h]
    exact size_pos e
  · obtain ⟨b, x, rfl⟩ := exists_of_isPower h
    simp only [power, exponent, size]
    omega

theorem size_base_lt {e : Expr} (h : e.isPower = true) :
    e.base.size < e.size ∧ e.exponent.size < e.size := by
  obtain ⟨b, x, rfl⟩ := exists_of_isPower h
  simp only [power, base, exponent, size]
  have := size_pos b
  have := size_pos x
  omega

theorem sizeList_operands_lt (e : Expr) : sizeList e.operands < e.size := by
  cases e <;> simp [operands, size, sizeList]

/-! ## Induction along a comparison -/

/-- Induction over pairs of expressions along the levels at which they are compared. -/
theorem pairInduction {motive : Expr → Expr → Prop}
    (terms : ∀ a b, (∀ x ∈ a.terms, ∀ y ∈ b.terms, motive x y) → motive a b)
    (factors : ∀ a b, a.isSum = false → b.isSum = false →
      (∀ x ∈ a.factors, ∀ y ∈ b.factors, motive x y) → motive a b)
    (power : ∀ a b, a.isSum = false → b.isSum = false → a.isProduct = false →
      b.isProduct = false → motive a.base b.base → motive a.exponent b.exponent → motive a b)
    (atom : ∀ a b, a.isAtom = true → b.isAtom = true →
      (∀ x ∈ a.operands, ∀ y ∈ b.operands, motive x y) → motive a b)
    (a b : Expr) : motive a b := by
  have ih : ∀ x y : Expr, x.size + y.size < a.size + b.size → motive x y := fun x y _ =>
    pairInduction terms factors power atom x y
  have ihList {xs ys : List Expr} (h : sizeList xs + sizeList ys < a.size + b.size) :
      ∀ x ∈ xs, ∀ y ∈ ys, motive x y := fun x hx y hy =>
    ih x y (Nat.lt_of_le_of_lt (Nat.add_le_add (size_le_sizeList hx) (size_le_sizeList hy)) h)
  by_cases hsum : a.isSum = true ∨ b.isSum = true
  · refine terms a b (ihList ?_)
    rcases hsum with h | h
    · exact Nat.add_lt_add_of_lt_of_le (sizeList_terms_lt h) (sizeList_terms_le b)
    · exact Nat.add_lt_add_of_le_of_lt (sizeList_terms_le a) (sizeList_terms_lt h)
  obtain ⟨has, hbs⟩ : a.isSum = false ∧ b.isSum = false := by simpa using hsum
  by_cases hproduct : a.isProduct = true ∨ b.isProduct = true
  · refine factors a b has hbs (ihList ?_)
    rcases hproduct with h | h
    · exact Nat.add_lt_add_of_lt_of_le (sizeList_factors_lt h) (sizeList_factors_le b)
    · exact Nat.add_lt_add_of_le_of_lt (sizeList_factors_le a) (sizeList_factors_lt h)
  obtain ⟨hap, hbp⟩ : a.isProduct = false ∧ b.isProduct = false := by simpa using hproduct
  by_cases hpower : a.isPower = true ∨ b.isPower = true
  · have hb := size_base_le b
    have hx := size_exponent_le b
    have ha := size_base_le a
    have hy := size_exponent_le a
    refine power a b has hbs hap hbp (ih _ _ ?_) (ih _ _ ?_) <;>
      rcases hpower with h | h <;> have := size_base_lt h <;> omega
  · obtain ⟨haw, hbw⟩ : a.isPower = false ∧ b.isPower = false := by simpa using hpower
    exact atom a b (by simp [isAtom, has, hap, haw]) (by simp [isAtom, hbs, hbp, hbw])
      (ihList (Nat.add_lt_add (sizeList_operands_lt a) (sizeList_operands_lt b)))
termination_by a.size + b.size

/-! ## The order is oriented -/

theorem compareRoot_swap (a b : Expr) : compareRoot a b = (compareRoot b a).swap := by
  rw [compareRoot, compareRoot, Ordering.swap_then, Ordering.swap_then, Ordering.swap_then,
    Std.OrientedOrd.eq_swap (a := a.kindRank), Std.OrientedOrd.eq_swap (a := a.rootName),
    Std.OrientedOrd.eq_swap (a := a.rootNumber),
    @Std.OrientedCmp.eq_swap _ compareConst _ a.rootConst]

theorem compareList_swap {xs ys : List Expr}
    (h : ∀ x ∈ xs, ∀ y ∈ ys, compare x y = (compare y x).swap) :
    compareList xs ys = (compareList ys xs).swap := by
  induction xs generalizing ys with
  | nil => cases ys <;> simp [compareList]
  | cons x xs ih =>
    cases ys with
    | nil => simp [compareList]
    | cons y ys =>
      rw [compareList, compareList, Ordering.swap_then, h x (by simp) y (by simp),
        ih fun u hu v hv => h u (by simp [hu]) v (by simp [hv])]

theorem compare_swap (a b : Expr) : compare a b = (compare b a).swap := by
  induction a, b using pairInduction with
  | terms a b ih => rw [compare_terms, compare_terms b, compareList_swap ih]
  | factors a b ha hb ih => rw [compare_factors ha hb, compare_factors hb ha, compareList_swap ih]
  | power a b ha hb ha' hb' ihb ihx =>
    rw [compare_power ha hb ha' hb', compare_power hb ha hb' ha', Ordering.swap_then,
      Ordering.swap_then, ihb, ihx, Std.OrientedOrd.eq_swap (a := a.isPower.toNat)]
  | atom a b ha hb ih =>
    rw [compare_atom ha hb, compare_atom hb ha, Ordering.swap_then, compareRoot_swap,
      compareList_swap ih]

/-! ## The order is transitive -/

theorem chain_compareRoot (a b c : Expr) :
    Chain (compareRoot a b) (compareRoot b c) (compareRoot a c) := by
  refine Chain.andThen (Chain.andThen (Chain.andThen ?_ fun _ _ => ?_) fun _ _ => ?_) fun _ _ => ?_
  · exact Chain.ofTransCmp a.kindRank b.kindRank c.kindRank
  · exact Chain.ofTransCmp a.rootConst b.rootConst c.rootConst
  · exact Chain.ofTransCmp a.rootName b.rootName c.rootName
  · exact Chain.ofTransCmp a.rootNumber b.rootNumber c.rootNumber

theorem chain_compareList {xs ys zs : List Expr}
    (h : ∀ x ∈ xs, ∀ y ∈ ys, ∀ z ∈ zs, Chain (compare x y) (compare y z) (compare x z)) :
    Chain (compareList xs ys) (compareList ys zs) (compareList xs zs) := by
  induction xs generalizing ys zs with
  | nil =>
    cases ys with
    | nil => cases zs <;> simp [Chain, compareList]
    | cons y ys => cases zs <;> simp [Chain, compareList]
  | cons x xs ih =>
    cases ys with
    | nil => simp [Chain, compareList]
    | cons y ys =>
      cases zs with
      | nil => simp [Chain, compareList]
      | cons z zs =>
        rw [compareList, compareList, compareList]
        refine Chain.andThen (h x (by simp) y (by simp) z (by simp)) fun _ _ => ih ?_
        exact fun u hu v hv w hw => h u (by simp [hu]) v (by simp [hv]) w (by simp [hw])

/-- **The order is transitive**: by induction on the sizes, at the coarsest level that one of the
three has. -/
theorem chain_compare (a b c : Expr) : Chain (compare a b) (compare b c) (compare a c) := by
  have ih : ∀ x y z : Expr, x.size + y.size + z.size < a.size + b.size + c.size →
      Chain (compare x y) (compare y z) (compare x z) := fun x y z _ => chain_compare x y z
  have ihList {xs ys zs : List Expr}
      (h : sizeList xs + sizeList ys + sizeList zs < a.size + b.size + c.size) :
      Chain (compareList xs ys) (compareList ys zs) (compareList xs zs) := by
    refine chain_compareList fun x hx y hy z hz => ih x y z ?_
    have := size_le_sizeList hx
    have := size_le_sizeList hy
    have := size_le_sizeList hz
    omega
  by_cases hsum : a.isSum = true ∨ b.isSum = true ∨ c.isSum = true
  · rw [compare_terms a b, compare_terms b c, compare_terms a c]
    refine ihList ?_
    have := sizeList_terms_le a
    have := sizeList_terms_le b
    have := sizeList_terms_le c
    rcases hsum with h | h | h <;> have := sizeList_terms_lt h <;> omega
  obtain ⟨has, hbs, hcs⟩ : a.isSum = false ∧ b.isSum = false ∧ c.isSum = false := by
    simpa using hsum
  by_cases hproduct : a.isProduct = true ∨ b.isProduct = true ∨ c.isProduct = true
  · rw [compare_factors has hbs, compare_factors hbs hcs, compare_factors has hcs]
    refine ihList ?_
    have := sizeList_factors_le a
    have := sizeList_factors_le b
    have := sizeList_factors_le c
    rcases hproduct with h | h | h <;> have := sizeList_factors_lt h <;> omega
  obtain ⟨hap, hbp, hcp⟩ : a.isProduct = false ∧ b.isProduct = false ∧ c.isProduct = false := by
    simpa using hproduct
  by_cases hpower : a.isPower = true ∨ b.isPower = true ∨ c.isPower = true
  · rw [compare_power has hbs hap hbp, compare_power hbs hcs hbp hcp,
      compare_power has hcs hap hcp]
    have := size_base_le a
    have := size_base_le b
    have := size_base_le c
    have := size_exponent_le a
    have := size_exponent_le b
    have := size_exponent_le c
    refine Chain.andThen (Chain.andThen (ih _ _ _ ?_) fun _ _ => ih _ _ _ ?_) fun _ _ =>
      Chain.ofTransCmp _ _ _
    all_goals rcases hpower with h | h | h <;> have := size_base_lt h <;> omega
  · obtain ⟨ha, hb, hc⟩ : a.isAtom = true ∧ b.isAtom = true ∧ c.isAtom = true := by
      simp only [not_or, Bool.not_eq_true] at hpower
      simp [isAtom, has, hbs, hcs, hap, hbp, hcp, hpower]
    rw [compare_atom ha hb, compare_atom hb hc, compare_atom ha hc]
    have := sizeList_operands_lt a
    have := sizeList_operands_lt b
    have := sizeList_operands_lt c
    exact Chain.andThen (chain_compareRoot a b c) fun _ _ => ihList (by omega)
termination_by a.size + b.size + c.size

/-- **The canonical order is a total preorder.** -/
instance : Std.TransCmp compare where
  eq_swap := compare_swap _ _
  isLE_trans {a b c} hab hbc := by
    rw [chain_compare a b c hab hbc]
    cases h : compare a b with
    | lt => rfl
    | eq => exact hbc
    | gt => simp [h] at hab

/-! ## Equals in the order -/

theorem compare_self (e : Expr) : compare e e = .eq :=
  Std.ReflCmp.compare_self

theorem compare_isLE_total (a b : Expr) : (compare a b).isLE ∨ (compare b a).isLE := by
  rw [compare_swap b a]
  cases compare a b <;> simp

theorem compareList_eq_iff {xs ys : List Expr} :
    compareList xs ys = .eq ↔ List.Forall₂ (fun x y => compare x y = .eq) xs ys := by
  induction xs generalizing ys with
  | nil =>
    cases ys with
    | nil => simp [compareList]
    | cons y ys => exact iff_of_false (by simp [compareList]) (by rintro ⟨⟩)
  | cons x xs ih =>
    cases ys with
    | nil => exact iff_of_false (by simp [compareList]) (by rintro ⟨⟩)
    | cons y ys => rw [compareList, Ordering.then_eq_eq, List.forall₂_cons, ih]

/-- Nodes of one kind over operands that compare equal compare equal. -/
theorem compare_nodes_eq {xs ys : List Expr}
    (h : List.Forall₂ (fun x y => compare x y = .eq) xs ys) :
    compare (sum xs) (sum ys) = .eq ∧ compare (product xs) (product ys) = .eq ∧
      compare (set xs) (set ys) = .eq ∧
      ∀ f : Function, compare (call f xs) (call f ys) = .eq := by
  have hlist := compareList_eq_iff.mpr h
  refine ⟨?_, ?_, ?_, fun f => ?_⟩
  · rwa [compare]
  · rwa [compare]
  · rwa [compare]
  · rw [compare, hlist]
    simp

theorem compare_binary_eq (op : BinaryOp) {l l' r r' : Expr} (hl : compare l l' = .eq)
    (hr : compare r r' = .eq) : compare (binary op l r) (binary op l' r') = .eq := by
  cases op <;> simp [compare, hl, hr]

theorem compare_not_eq {a b : Expr} (h : compare a b = .eq) :
    compare (not a) (not b) = .eq := by
  rwa [compare]

/-- **The canonical order is a total preorder whose equals can stand for each other.** The comparison
is defined for any two expressions, by recursion on their sizes; swapping the sides reverses it; it is
total and transitive; and expressions that compare equal compare alike with everything else, alone and
as operands. -/
theorem compare_totalPreorder :
    (∀ a b : Expr, compare b a = (compare a b).swap) ∧
    (∀ a b : Expr, (compare a b).isLE ∨ (compare b a).isLE) ∧
    (∀ a b c : Expr, (compare a b).isLE → (compare b c).isLE → (compare a c).isLE) ∧
    (∀ a b c : Expr, compare a b = .eq → compare a c = compare b c ∧ compare c a = compare c b) ∧
    (∀ (op : BinaryOp) (l l' r r' : Expr), compare l l' = .eq → compare r r' = .eq →
      compare (binary op l r) (binary op l' r') = .eq) ∧
    (∀ a b : Expr, compare a b = .eq → compare (not a) (not b) = .eq) ∧
    (∀ xs ys : List Expr, List.Forall₂ (fun x y => compare x y = .eq) xs ys →
      compare (sum xs) (sum ys) = .eq ∧ compare (product xs) (product ys) = .eq ∧
      compare (set xs) (set ys) = .eq ∧ ∀ f : Function, compare (call f xs) (call f ys) = .eq) := by
  refine ⟨fun a b => compare_swap b a, compare_isLE_total, fun a b c => ?_, fun a b c h => ?_,
    fun op l l' r r' => compare_binary_eq op, fun a b => compare_not_eq, fun xs ys => compare_nodes_eq⟩
  · exact Std.TransCmp.isLE_trans
  · exact ⟨Std.TransCmp.congr_left h, Std.TransCmp.congr_right h⟩

end SymbolicAlgebra.Expr
