import Mathlib.Data.List.Nodup
import SymbolicAlgebra.Expr.Occurrence

/-!
# Induction over expressions, and equality

Expressions nest in lists, so proofs by induction go through `Expr.inductionOn`, which gives the
hypothesis for every item of a list. On all expressions `==` is an equivalence that the hash
respects, which is what a memo table needs. `builtIn` marks the expressions that are what they read
as, because all functions in them are built in and no variable has a condition; `plain` ones have no
call and no deferred substitution besides.

Results:
* `eq_of_beq_builtIn`: expressions over built-in functions that are `==` are equal.
* `beq_eq_true_iff`: plain expressions are `==` iff they are equal.
* the instances `EquivBEq Expr` and `LawfulHashable Expr`.
* `dependsOn_sum`, `dependsOn_product`, `dependsOn_power`, `dependsOn_call`: what occurs in a part
  occurs in the whole.
-/

namespace SymbolicAlgebra

namespace Expr

/-! ## Induction -/

theorem size_le_sizeList {x : Expr} : ∀ {xs : List Expr}, x ∈ xs → x.size ≤ sizeList xs
  | y :: ys, h => by
    rw [sizeList]
    cases h with
    | head => omega
    | tail _ h => exact Nat.le_trans (size_le_sizeList h) (Nat.le_add_left _ _)

/-- Induction over expressions, with the hypothesis for all items of a list. -/
@[elab_as_elim]
theorem inductionOn {motive : Expr → Prop} (e : Expr)
    (const : ∀ q, motive (.const q))
    (var : ∀ n c, motive (.var n c))
    (sum : ∀ ts, (∀ t ∈ ts, motive t) → motive (.sum ts))
    (product : ∀ fs, (∀ f ∈ fs, motive f) → motive (.product fs))
    (binary : ∀ op l r, motive l → motive r → motive (.binary op l r))
    (not : ∀ a, motive a → motive (.not a))
    (call : ∀ f args, (∀ a ∈ args, motive a) → motive (.call f args))
    (set : ∀ ms, (∀ m ∈ ms, motive m) → motive (.set ms)) : motive e := by
  have ih : ∀ x : Expr, x.size < e.size → motive x := fun x _ =>
    inductionOn x const var sum product binary not call set
  have ihList : ∀ xs : List Expr, sizeList xs < e.size → ∀ x ∈ xs, motive x := fun xs h x hx =>
    ih x (Nat.lt_of_le_of_lt (size_le_sizeList hx) h)
  cases e with
  | const q => exact const q
  | var n c => exact var n c
  | sum ts => exact sum ts (ihList ts (by rw [size]; omega))
  | product fs => exact product fs (ihList fs (by rw [size]; omega))
  | binary op l r => exact binary op l r (ih l (by rw [size]; omega)) (ih r (by rw [size]; omega))
  | not a => exact not a (ih a (by rw [size]; omega))
  | call f args => exact call f args (ihList args (by rw [size]; omega))
  | set ms => exact set ms (ihList ms (by rw [size]; omega))
termination_by e.size

/-! ## Views -/

@[simp] theorem terms_const (q : Rat) : (const q).terms = [const q] := rfl

@[simp] theorem terms_sum (ts : List Expr) : (sum ts).terms = ts := rfl

@[simp] theorem factors_const (q : Rat) : (const q).factors = [const q] := rfl

@[simp] theorem factors_product (fs : List Expr) : (product fs).factors = fs := rfl

theorem exists_of_isConst {a : Expr} (h : a.isConst = true) : ∃ q, a = const q := by
  cases a with
  | const q => exact ⟨q, rfl⟩
  | _ => cases h

theorem exists_of_isSum {a : Expr} (h : a.isSum = true) : ∃ ts, a = sum ts := by
  cases a with
  | sum ts => exact ⟨ts, rfl⟩
  | _ => cases h

theorem exists_of_isProduct {a : Expr} (h : a.isProduct = true) : ∃ fs, a = product fs := by
  cases a with
  | product fs => exact ⟨fs, rfl⟩
  | _ => cases h

theorem exists_of_isPower {a : Expr} (h : a.isPower = true) : ∃ b x, a = power b x := by
  unfold isPower at h
  split at h
  · exact ⟨_, _, rfl⟩
  · cases h

theorem eq_const_of_isZero {e : Expr} (h : e.isZero = true) : e = const 0 := by
  cases e with
  | const q => rw [beq_iff_eq.mp h]
  | _ => cases h

theorem eq_const_of_isOne {e : Expr} (h : e.isOne = true) : e = const 1 := by
  cases e with
  | const q => rw [beq_iff_eq.mp h]
  | _ => cases h

theorem terms_eq_self {a : Expr} (h : a.isSum = false) : a.terms = [a] := by
  cases a with
  | sum ts => cases h
  | _ => rfl

theorem factors_eq_self {a : Expr} (h : a.isProduct = false) : a.factors = [a] := by
  cases a with
  | product fs => cases h
  | _ => rfl

/-- What passes from a sum to its terms holds of the terms of any expression. -/
theorem forall_mem_terms {P : Expr → Prop} {e : Expr} (h : P e)
    (hsum : ∀ ts, P (sum ts) → ∀ t ∈ ts, P t) : ∀ t ∈ e.terms, P t := by
  cases e with
  | sum ts => exact hsum ts h
  | _ => exact List.forall_mem_singleton.mpr h

/-- What passes from a product to its factors holds of the factors of any expression. -/
theorem forall_mem_factors {P : Expr → Prop} {e : Expr} (h : P e)
    (hproduct : ∀ fs, P (product fs) → ∀ f ∈ fs, P f) : ∀ f ∈ e.factors, P f := by
  cases e with
  | product fs => exact hproduct fs h
  | _ => exact List.forall_mem_singleton.mpr h

theorem base_eq_self {a : Expr} (h : a.isPower = false) : a.base = a := by
  unfold base
  split
  · cases h
  · rfl

theorem exponent_eq_one {a : Expr} (h : a.isPower = false) : a.exponent = one := by
  unfold exponent
  split
  · cases h
  · rfl

/-! ## Equality is an equivalence -/

theorem beqList_refl {xs : List Expr} (h : ∀ x ∈ xs, beq x x = true) : beqList xs xs = true := by
  induction xs with
  | nil => rfl
  | cons x xs ih => simp [beqList, h x, ih fun y hy => h y (by simp [hy])]

theorem beq_refl (e : Expr) : beq e e = true := by
  induction e using inductionOn with
  | const q => simp [beq]
  | var n c => simp [beq]
  | sum ts ih => exact beqList_refl ih
  | product fs ih => exact beqList_refl ih
  | binary op l r ihl ihr => simp [beq, ihl, ihr]
  | not a ih => simpa [beq] using ih
  | call f args ih =>
    simp only [beq, Bool.and_eq_true]
    exact ⟨by simp [BEq.beq, Function.same], beqList_refl ih⟩
  | set ms ih => exact beqList_refl ih

theorem beqList_congr {xs : List Expr} :
    (∀ x ∈ xs, ∀ y, beq x y = true → ∀ z, beq x z = beq y z) →
      ∀ {ys : List Expr}, beqList xs ys = true → ∀ zs, beqList xs zs = beqList ys zs := by
  induction xs with
  | nil =>
    intro _ ys h zs
    cases ys with
    | nil => rfl
    | cons y ys => exact absurd h (by simp [beqList])
  | cons x xs ih =>
    intro hxs ys h zs
    cases ys with
    | nil => exact absurd h (by simp [beqList])
    | cons y ys =>
      simp only [beqList, Bool.and_eq_true] at h
      cases zs with
      | nil => rfl
      | cons z zs =>
        simp only [beqList]
        rw [hxs x (by simp) y h.1 z, ih (fun w hw => hxs w (by simp [hw])) h.2 zs]

theorem function_congr {f g : Function} (h : (f == g) = true) (k : Function) :
    (f == k) = (g == k) := by
  simp only [BEq.beq, Function.same, Bool.and_eq_true, decide_eq_true_eq] at h ⊢
  rw [h.1.1, h.1.2, h.2]

/-- Expressions that read the same are `==` to the same expressions. -/
theorem beq_congr {a b : Expr} (h : beq a b = true) (c : Expr) : beq a c = beq b c := by
  induction a using inductionOn generalizing b c with
  | const q =>
    cases b with
    | const p => obtain rfl : q = p := by simpa [beq] using h
                 rfl
    | _ => exact absurd h (by simp [beq])
  | var n d =>
    cases b with
    | var m d' =>
      obtain rfl : n = m := by simpa [beq] using h
      cases c <;> rfl
    | _ => exact absurd h (by simp [beq])
  | sum ts ih =>
    cases b with
    | sum us => cases c with
      | sum vs => exact beqList_congr (fun t ht u htu v => ih t ht htu v) h vs
      | _ => rfl
    | _ => exact absurd h (by simp [beq])
  | product fs ih =>
    cases b with
    | product gs => cases c with
      | product hs => exact beqList_congr (fun t ht u htu v => ih t ht htu v) h hs
      | _ => rfl
    | _ => exact absurd h (by simp [beq])
  | binary op l r ihl ihr =>
    cases b with
    | binary op' l' r' =>
      simp only [beq, Bool.and_eq_true, beq_iff_eq] at h
      obtain ⟨⟨rfl, hl⟩, hr⟩ := h
      cases c with
      | binary o l'' r'' => simp only [beq]; rw [ihl hl, ihr hr]
      | _ => rfl
    | _ => exact absurd h (by simp [beq])
  | not a ih =>
    cases b with
    | not b => cases c with
      | not c => exact ih h c
      | _ => rfl
    | _ => exact absurd h (by simp [beq])
  | call f args ih =>
    cases b with
    | call g brgs =>
      simp only [beq, Bool.and_eq_true] at h
      cases c with
      | call k crgs =>
        simp only [beq]
        rw [function_congr h.1, beqList_congr (fun t ht u htu v => ih t ht htu v) h.2]
      | _ => rfl
    | _ => exact absurd h (by simp [beq])
  | set ms ih =>
    cases b with
    | set ns => cases c with
      | set os => exact beqList_congr (fun t ht u htu v => ih t ht htu v) h os
      | _ => rfl
    | _ => exact absurd h (by simp [beq])

instance : EquivBEq Expr where
  rfl {e} := beq_refl e
  symm {a _} h := (beq_congr h a).symm.trans (beq_refl a)
  trans {_ _ c} hab hbc := (beq_congr hab c).trans hbc

/-! ## The hash respects equality -/

theorem hashList_congr {n : Nat} {xs : List Expr}
    (hxs : ∀ x ∈ xs, ∀ y, beq x y = true → hashTo n x = hashTo n y) :
    ∀ {ys : List Expr} (seed : UInt64), beqList xs ys = true →
      hashList n seed xs = hashList n seed ys := by
  induction xs with
  | nil =>
    intro ys seed h
    cases ys with
    | nil => rfl
    | cons y ys => exact absurd h (by simp [beqList])
  | cons x xs ih =>
    intro ys seed h
    cases ys with
    | nil => exact absurd h (by simp [beqList])
    | cons y ys =>
      simp only [beqList, Bool.and_eq_true] at h
      simp only [hashList]
      rw [hxs x (by simp) y h.1, ih (fun z hz => hxs z (by simp [hz])) _ h.2]

theorem hashTo_congr {a b : Expr} (h : beq a b = true) (n : Nat) : hashTo n a = hashTo n b := by
  induction n generalizing a b with
  | zero => simp [hashTo]
  | succ n ih =>
    have list {xs ys : List Expr} (seed : UInt64) (hl : beqList xs ys = true) :
        hashList n seed xs = hashList n seed ys :=
      hashList_congr (fun x _ y hxy => ih hxy) seed hl
    cases a <;> cases b <;>
      simp only [beq, Bool.and_eq_true, beq_iff_eq, Bool.false_eq_true] at h
    case const.const => rw [h]
    case var.var => simp only [hashTo, h]
    case sum.sum => exact list _ h
    case product.product => exact list _ h
    case binary.binary => simp only [hashTo, h.1.1, ih h.1.2, ih h.2]
    case not.not => simp only [hashTo, ih h]
    case call.call f args g brgs =>
      have hname : f.name = g.name := by
        have := h.1
        simp only [BEq.beq, Function.same, Bool.and_eq_true, decide_eq_true_eq] at this
        exact this.1.2
      simp only [hashTo, hname]
      exact list _ h.2
    case set.set => exact list _ h

instance : LawfulHashable Expr where
  hash_eq _ _ h := hashTo_congr h 4

/-! ## Built-in functions -/

end Expr

theorem Native.mem_all (f : Native) : f ∈ Native.all := by
  cases f with
  | elementary g => cases g <;> decide
  | _ => decide

/-- A built-in function is known by its name and its number of parameters. -/
theorem Native.eq_of_name {f g : Native} (hname : f.name = g.name)
    (hlength : f.parameters.length = g.parameters.length) : f = g := by
  have hnodup : (Native.all.map fun f => (f.name, f.parameters.length)).Nodup := by
    decide +kernel
  exact List.inj_on_of_nodup_map hnodup f.mem_all g.mem_all (Prod.ext hname hlength)

namespace Function

/-- The functions whose meaning is fixed. -/
def isBuiltIn : Function → Bool
  | native _ | ifThenElse => true
  | _ => false

theorem eq_of_beq {f g : Function} (hf : f.isBuiltIn = true) (hg : g.isBuiltIn = true)
    (h : (f == g) = true) : f = g := by
  simp only [BEq.beq, same, Bool.and_eq_true, decide_eq_true_eq] at h
  obtain ⟨⟨hkind, hname⟩, harity⟩ := h
  cases f with
  | native f =>
    cases g with
    | native g => rw [Native.eq_of_name hname harity]
    | ifThenElse => cases hkind
    | _ => cases hg
  | ifThenElse =>
    cases g with
    | native g => cases hkind
    | ifThenElse => rfl
    | _ => cases hg
  | _ => cases hf

end Function

namespace Expr

mutual

/-- Whether all functions are built in, and no variable has a condition. -/
def builtIn : Expr → Bool
  | const _ => true
  | var _ c => c.isNone
  | sum ts => builtInList ts
  | product fs => builtInList fs
  | binary _ l r => builtIn l && builtIn r
  | not a => builtIn a
  | call f args => f.isBuiltIn && builtInList args
  | set ms => builtInList ms

/-- The same for all items. -/
def builtInList : List Expr → Bool
  | [] => true
  | t :: ts => builtIn t && builtInList ts

end

theorem builtInList_iff : ∀ {ts : List Expr}, builtInList ts = true ↔ ∀ t ∈ ts, t.builtIn = true
  | [] => by simp [builtInList]
  | t :: ts => by simp [builtInList, @builtInList_iff ts]

@[simp] theorem builtIn_const (q : Rat) : (const q).builtIn = true := rfl

@[simp] theorem builtIn_var (n : String) (c : Option Condition) :
    (var n c).builtIn = true ↔ c = none := by
  simp [builtIn]

@[simp] theorem builtIn_sum (ts : List Expr) :
    (sum ts).builtIn = true ↔ ∀ t ∈ ts, t.builtIn = true :=
  builtInList_iff

@[simp] theorem builtIn_product (fs : List Expr) :
    (product fs).builtIn = true ↔ ∀ f ∈ fs, f.builtIn = true :=
  builtInList_iff

@[simp] theorem builtIn_binary (op : BinaryOp) (l r : Expr) :
    (binary op l r).builtIn = true ↔ l.builtIn = true ∧ r.builtIn = true := by
  simp [builtIn]

@[simp] theorem builtIn_not (a : Expr) : (not a).builtIn = a.builtIn := rfl

@[simp] theorem builtIn_call (f : Function) (args : List Expr) :
    (call f args).builtIn = true ↔ f.isBuiltIn = true ∧ ∀ a ∈ args, a.builtIn = true := by
  simp [builtIn, builtInList_iff]

@[simp] theorem builtIn_set (ms : List Expr) :
    (set ms).builtIn = true ↔ ∀ m ∈ ms, m.builtIn = true :=
  builtInList_iff

theorem eq_of_beqList {xs ys : List Expr} (h : beqList xs ys = true)
    (hxs : ∀ x ∈ xs, ∀ y ∈ ys, beq x y = true → x = y) : xs = ys := by
  induction xs generalizing ys with
  | nil =>
    cases ys with
    | nil => rfl
    | cons y ys => exact absurd h (by simp [beqList])
  | cons x xs ih =>
    cases ys with
    | nil => exact absurd h (by simp [beqList])
    | cons y ys =>
      simp only [beqList, Bool.and_eq_true] at h
      rw [hxs x (by simp) y (by simp) h.1,
        ih h.2 fun z hz w hw => hxs z (by simp [hz]) w (by simp [hw])]

/-- Expressions over built-in functions that read the same are equal. -/
theorem eq_of_beq_builtIn {a b : Expr} (ha : a.builtIn = true) (hb : b.builtIn = true)
    (h : (a == b) = true) : a = b := by
  change beq a b = true at h
  induction a using inductionOn generalizing b with
  | const q =>
    cases b <;> simp_all [beq]
  | var n c =>
    cases b <;> simp_all [beq]
  | call f args ih =>
    cases b <;> simp only [beq, Bool.and_eq_true, Bool.false_eq_true] at h
    case call g brgs =>
      rw [builtIn_call] at ha hb
      rw [Function.eq_of_beq ha.1 hb.1 h.1,
        eq_of_beqList h.2 fun x hx y hy => ih x hx (ha.2 x hx) (hb.2 y hy)]
  | binary op l r ihl ihr =>
    cases b <;> simp only [beq, Bool.and_eq_true, beq_iff_eq, Bool.false_eq_true] at h
    case binary op' l' r' =>
      rw [builtIn_binary] at ha hb
      rw [h.1.1, ihl ha.1 hb.1 h.1.2, ihr ha.2 hb.2 h.2]
  | not a ih =>
    cases b <;> simp only [beq, Bool.false_eq_true] at h
    case not b =>
      rw [builtIn_not] at ha hb
      rw [ih ha hb h]
  | sum ts ih =>
    cases b <;> simp only [beq, Bool.false_eq_true] at h
    case sum us =>
      rw [builtIn_sum] at ha hb
      rw [eq_of_beqList h fun x hx y hy => ih x hx (ha x hx) (hb y hy)]
  | product ts ih =>
    cases b <;> simp only [beq, Bool.false_eq_true] at h
    case product us =>
      rw [builtIn_product] at ha hb
      rw [eq_of_beqList h fun x hx y hy => ih x hx (ha x hx) (hb y hy)]
  | set ts ih =>
    cases b <;> simp only [beq, Bool.false_eq_true] at h
    case set us =>
      rw [builtIn_set] at ha hb
      rw [eq_of_beqList h fun x hx y hy => ih x hx (ha x hx) (hb y hy)]

/-! ## Plain expressions -/

mutual

/-- No call, no deferred substitution and no condition on a variable. -/
def plain : Expr → Bool
  | const _ => true
  | var _ c => c.isNone
  | sum ts => plainList ts
  | product fs => plainList fs
  | binary op l r => op != .substitute && plain l && plain r
  | not a => plain a
  | call .. => false
  | set ms => plainList ms

/-- Whether all items are plain. -/
def plainList : List Expr → Bool
  | [] => true
  | t :: ts => plain t && plainList ts

end

theorem plainList_iff : ∀ {ts : List Expr}, plainList ts = true ↔ ∀ t ∈ ts, t.plain = true
  | [] => by simp [plainList]
  | t :: ts => by simp [plainList, @plainList_iff ts]

@[simp] theorem plain_const (q : Rat) : (const q).plain = true := rfl

@[simp] theorem plain_var (n : String) (c : Option Condition) : (var n c).plain = true ↔ c = none := by
  simp [plain]

@[simp] theorem plain_sum (ts : List Expr) : (sum ts).plain = true ↔ ∀ t ∈ ts, t.plain = true :=
  plainList_iff

@[simp] theorem plain_product (fs : List Expr) :
    (product fs).plain = true ↔ ∀ f ∈ fs, f.plain = true :=
  plainList_iff

@[simp] theorem plain_binary (op : BinaryOp) (l r : Expr) :
    (binary op l r).plain = true ↔ op ≠ .substitute ∧ l.plain = true ∧ r.plain = true := by
  simp [plain, and_assoc]

@[simp] theorem plain_not (a : Expr) : (not a).plain = a.plain := rfl

@[simp] theorem plain_call (f : Function) (args : List Expr) : (call f args).plain = false := rfl

@[simp] theorem plain_set (ms : List Expr) : (set ms).plain = true ↔ ∀ m ∈ ms, m.plain = true :=
  plainList_iff

/-- Plain expressions call no function at all. -/
theorem builtIn_of_plain {e : Expr} (h : e.plain = true) : e.builtIn = true := by
  induction e using inductionOn with
  | const q => rfl
  | var n c => simpa using h
  | call f args => simp at h
  | binary op l r ihl ihr =>
    rw [plain_binary] at h
    exact (builtIn_binary op l r).mpr ⟨ihl h.2.1, ihr h.2.2⟩
  | not a ih => exact ih h
  | sum ts ih =>
    rw [plain_sum] at h
    exact (builtIn_sum ts).mpr fun t ht => ih t ht (h t ht)
  | product fs ih =>
    rw [plain_product] at h
    exact (builtIn_product fs).mpr fun f hf => ih f hf (h f hf)
  | set ms ih =>
    rw [plain_set] at h
    exact (builtIn_set ms).mpr fun m hm => ih m hm (h m hm)

/-- Plain expressions that read the same are equal. -/
theorem eq_of_beq {a b : Expr} (ha : a.plain = true) (hb : b.plain = true) (h : (a == b) = true) :
    a = b :=
  eq_of_beq_builtIn (builtIn_of_plain ha) (builtIn_of_plain hb) h

/-- On plain expressions `==` is equality. -/
theorem beq_eq_true_iff {a b : Expr} (ha : a.plain = true) (hb : b.plain = true) :
    (a == b) = true ↔ a = b :=
  ⟨eq_of_beq ha hb, fun h => h ▸ beq_refl a⟩

/-- Variables are equal when their names are. -/
theorem beq_var (n m : String) (c d : Option Condition) :
    (var n c == var m d) = decide (n = m) := by
  change beq _ _ = _
  simp [beq, BEq.beq]

theorem beq_symbol (n m : String) : (var n none == symbol m) = decide (n = m) :=
  beq_var n m none none

/-! ## Occurrence -/

section Occurrence

variable {x : Expr}

theorem mentionsList_of_mem {xs ts : List Expr} {t : Expr} (ht : t ∈ ts)
    (h : mentions xs t = true) : mentionsList xs ts = true := by
  induction ts with
  | nil => exact absurd ht List.not_mem_nil
  | cons u us ih =>
    rw [mentionsList, Bool.or_eq_true]
    rcases List.mem_cons.mp ht with rfl | ht
    · exact .inl h
    · exact .inr (ih ht)

theorem dependsOn_symbol (n : String) : (symbol n).dependsOn (symbol n) = true := by
  change List.contains [symbol n] (symbol n) = true
  rw [List.contains_cons, BEq.rfl, Bool.true_or]

theorem dependsOn_sum {ts : List Expr} {t : Expr} (ht : t ∈ ts) (h : t.dependsOn x = true) :
    (sum ts).dependsOn x = true := by
  change mentions _ _ = true
  rw [mentions, mentionsList_of_mem ht h, Bool.or_true]

theorem dependsOn_product {fs : List Expr} {f : Expr} (hf : f ∈ fs) (h : f.dependsOn x = true) :
    (product fs).dependsOn x = true := by
  change mentions _ _ = true
  rw [mentions, mentionsList_of_mem hf h, Bool.or_true]

theorem dependsOn_power {b e : Expr} (h : b.dependsOn x = true) : (power b e).dependsOn x = true := by
  have hb : mentions x.members b = true := h
  change mentions _ (.binary .power b e) = true
  rw [mentions, hb, Bool.or_true, Bool.true_or]

theorem dependsOn_call {f : Function} {args : List Expr} {a : Expr} (ha : a ∈ args)
    (h : a.dependsOn x = true) : (call f args).dependsOn x = true := by
  change mentions _ _ = true
  rw [mentions, mentionsList_of_mem ha h, Bool.or_true]

end Occurrence

end Expr

end SymbolicAlgebra
