import SymbolicAlgebra.Proofs.Alike

/-!
# Canonical expressions

An expression is canonical when it is constructed and plain: every sum, product and set in it is what
its constructor gives back from its own operands, and calls, deferred substitutions and conditions on
variables do not occur. On canonical expressions the order is antisymmetric, so a sorted list of
operands is determined by the operands, whatever order they came in.

Results:
* `Canonical.constructed`, `Constructed.canonical`: canonical is constructed and plain.
* `Canonical.two_le_terms`, `Canonical.flat_terms`: a canonical sum has two terms or more, none of
  them a sum; likewise for products.
* `Canonical.eq_of_compare`: canonical expressions that compare equal are equal.
-/

namespace SymbolicAlgebra.Expr

/-! ## Canonical expressions -/

/-- Every sum, product and set is what its constructor gives back. -/
inductive Canonical : Expr → Prop
  | const (q : Rat) : Canonical (const q)
  | var (n : String) : Canonical (var n none)
  | sum {ts : List Expr} : (∀ t ∈ ts, Canonical t) → sumOf ts = sum ts → Canonical (sum ts)
  | product {fs : List Expr} :
    (∀ f ∈ fs, Canonical f) → productOf fs = product fs → Canonical (product fs)
  | binary {op : BinaryOp} {l r : Expr} :
    op ≠ .substitute → Canonical l → Canonical r → Canonical (binary op l r)
  | not {a : Expr} : Canonical a → Canonical (not a)
  | set {ms : List Expr} : (∀ m ∈ ms, Canonical m) → setOf ms = set ms → Canonical (set ms)

theorem Canonical.plain {e : Expr} (h : Canonical e) : e.plain = true := by
  induction h with
  | const q => rfl
  | var n => rfl
  | sum _ _ ih => exact (plain_sum _).mpr ih
  | product _ _ ih => exact (plain_product _).mpr ih
  | binary hop _ _ ihl ihr => exact (plain_binary _ _ _).mpr ⟨hop, ihl, ihr⟩
  | not _ ih => exact ih
  | set _ _ ih => exact (plain_set _).mpr ih

theorem Canonical.of_sum {ts : List Expr} (h : Canonical (.sum ts)) : ∀ t ∈ ts, Canonical t := by
  cases h with
  | sum h _ => exact h

theorem Canonical.of_product {fs : List Expr} (h : Canonical (.product fs)) :
    ∀ f ∈ fs, Canonical f := by
  cases h with
  | product h _ => exact h

theorem Canonical.of_terms {e : Expr} (h : Canonical e) : ∀ t ∈ e.terms, Canonical t :=
  forall_mem_terms h fun _ => of_sum

theorem Canonical.of_factors {e : Expr} (h : Canonical e) : ∀ f ∈ e.factors, Canonical f :=
  forall_mem_factors h fun _ => of_product

theorem Canonical.of_binary {op : BinaryOp} {l r : Expr} (h : Canonical (.binary op l r)) :
    Canonical l ∧ Canonical r := by
  cases h with
  | binary _ hl hr => exact ⟨hl, hr⟩

theorem Canonical.power {b x : Expr} (hb : Canonical b) (hx : Canonical x) :
    Canonical (b.power x) :=
  .binary (by decide) hb hx

theorem Canonical.constructed {e : Expr} (h : Canonical e) : Constructed e := by
  induction h with
  | const q => exact .const q
  | var n => exact .var n none
  | sum _ heq ih => exact .sum ih heq
  | product _ heq ih => exact .product ih heq
  | binary _ _ _ ihl ihr => exact .binary _ ihl ihr
  | not _ ih => exact .not ih
  | set _ heq ih => exact .set ih heq

theorem Canonical.proper {e : Expr} (h : Canonical e) : Proper e :=
  ⟨h.constructed, builtIn_of_plain h.plain⟩

theorem constructed_of_canonical {xs : List Expr} (h : ∀ x ∈ xs, Canonical x) :
    ∀ x ∈ xs, Constructed x :=
  fun x hx => (h x hx).constructed

/-- Canonical expressions are the plain ones among the constructed ones. -/
theorem Constructed.canonical {e : Expr} (h : Constructed e) (hplain : e.plain = true) :
    Canonical e := by
  induction h with
  | const q => exact .const q
  | var n c =>
    obtain rfl := (plain_var n c).mp hplain
    exact .var n
  | sum _ heq ih => exact .sum (fun t ht => ih t ht ((plain_sum _).mp hplain t ht)) heq
  | product _ heq ih => exact .product (fun f hf => ih f hf ((plain_product _).mp hplain f hf)) heq
  | binary op _ _ ihl ihr =>
    obtain ⟨hop, hl, hr⟩ := (plain_binary _ _ _).mp hplain
    exact .binary hop (ihl hl) (ihr hr)
  | not _ ih => exact .not (ih hplain)
  | call f _ _ => cases hplain
  | set _ heq ih => exact .set (fun m hm => ih m hm ((plain_set _).mp hplain m hm)) heq

theorem Canonical.two_le_terms {ts : List Expr} (h : Canonical (.sum ts)) : 2 ≤ ts.length :=
  h.constructed.two_le_terms

theorem Canonical.two_le_factors {fs : List Expr} (h : Canonical (.product fs)) :
    2 ≤ fs.length :=
  h.constructed.two_le_factors

/-- The terms of a canonical expression are no sums. -/
theorem Canonical.flat_terms {e : Expr} (h : Canonical e) : ∀ t ∈ e.terms, t.isSum = false :=
  h.constructed.flat_terms

/-- The factors of a canonical expression are no products. -/
theorem Canonical.flat_factors {e : Expr} (h : Canonical e) :
    ∀ f ∈ e.factors, f.isProduct = false :=
  h.constructed.flat_factors

/-! ### The order is antisymmetric -/

/-- **Canonical expressions that compare equal are equal.** -/
theorem Canonical.eq_of_compare {a b : Expr} (ha : Canonical a) (hb : Canonical b)
    (h : compare a b = .eq) : a = b :=
  ha.proper.eq_of_compare hb.proper h

theorem Canonical.compare_eq_iff {a b : Expr} (ha : Canonical a) (hb : Canonical b) :
    compare a b = .eq ↔ a = b :=
  ⟨ha.eq_of_compare hb, fun h => h ▸ compare_self a⟩

theorem Canonical.antisymm {a b : Expr} (ha : Canonical a) (hb : Canonical b)
    (hab : (compare a b).isLE) (hba : (compare b a).isLE) : a = b :=
  ha.eq_of_compare hb (Std.OrientedCmp.isLE_antisymm hab hba)

/-- Sorted lists of canonical expressions with the same items are the same. -/
theorem eq_of_sorted {xs ys : List Expr} (hxs : ∀ x ∈ xs, Canonical x) (h : xs.Perm ys)
    (hx : Sorted xs) (hy : Sorted ys) : xs = ys :=
  List.Perm.eq_of_pairwise
    (fun x y hxmem hymem => (hxs x hxmem).antisymm (hxs y (h.mem_iff.mpr hymem))) hx hy h

theorem sort_congr {xs ys : List Expr} (hxs : ∀ x ∈ xs, Canonical x) (h : xs.Perm ys) :
    sort xs = sort ys :=
  eq_of_sorted (fun x hx => hxs x (mem_sort.mp hx))
    ((sort_perm xs).trans (h.trans (sort_perm ys).symm)) (sort_sorted xs) (sort_sorted ys)

end SymbolicAlgebra.Expr
