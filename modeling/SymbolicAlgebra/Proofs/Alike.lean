import SymbolicAlgebra.Proofs.Constructed

/-!
# The order and equality

The order reads a called function by name and arity, equality also by its kind. Expressions are
alike when they read the same apart from the kinds of called functions. Constructed expressions
compare equal iff they are alike (`compare_eq_iff_alike`); where called functions of one name and
arity are of one kind, they compare equal iff they are equal (`compare_eq_iff_beq`).

Results:
* `compare_eq_iff_alike`, `compare_eq_iff_beq`.
* `Proper.eq_of_compare`: over built-in functions, what compares equal is equal.
-/

namespace SymbolicAlgebra.Expr

/-! ## Alike expressions -/

mutual

/-- Whether two expressions read the same, whatever the kinds of the called functions. -/
def alike : Expr → Expr → Bool
  | const a, const b => a == b
  | var a _, var b _ => a == b
  | sum ts, sum us => alikeList ts us
  | product ts, product us => alikeList ts us
  | binary o l r, binary p l' r' => o == p && alike l l' && alike r r'
  | not a, not b => alike a b
  | call f ts, call g us => f.name == g.name && f.arity == g.arity && alikeList ts us
  | set ts, set us => alikeList ts us
  | _, _ => false

/-- Likeness item by item. -/
def alikeList : List Expr → List Expr → Bool
  | [], [] => true
  | t :: ts, u :: us => alike t u && alikeList ts us
  | _, _ => false

end

theorem alikeList_length : ∀ {xs ys : List Expr}, alikeList xs ys = true → xs.length = ys.length
  | [], [], _ => rfl
  | x :: xs, y :: ys, h => by
    rw [alikeList, Bool.and_eq_true] at h
    rw [List.length_cons, List.length_cons, alikeList_length h.2]
  | [], _ :: _, h => by simp [alikeList] at h
  | _ :: _, [], h => by simp [alikeList] at h

/-! ## Likeness is what the order sees -/

theorem compareList_of_alikeList {xs : List Expr}
    (hxs : ∀ x ∈ xs, ∀ y, alike x y = true → compare x y = .eq) :
    ∀ {ys : List Expr}, alikeList xs ys = true → compareList xs ys = .eq := by
  induction xs with
  | nil =>
    intro ys h
    cases ys with
    | nil => simp [compareList]
    | cons y ys => simp [alikeList] at h
  | cons x xs ih =>
    intro ys h
    cases ys with
    | nil => simp [alikeList] at h
    | cons y ys =>
      rw [alikeList, Bool.and_eq_true] at h
      rw [compareList, Ordering.then_eq_eq]
      exact ⟨hxs x (by simp) y h.1, ih (fun z hz => hxs z (by simp [hz])) h.2⟩

/-- Alike expressions compare equal. -/
theorem compare_of_alike {a b : Expr} (h : alike a b = true) : compare a b = .eq := by
  induction a using inductionOn generalizing b with
  | const q =>
    cases b <;> simp only [alike, beq_iff_eq, Bool.false_eq_true] at h
    rw [h]
    exact compare_self _
  | var n c =>
    cases b <;> simp only [alike, beq_iff_eq, Bool.false_eq_true] at h
    simp [compare, h]
  | sum ts ih =>
    cases b <;> simp only [alike, Bool.false_eq_true] at h
    rw [compare]
    exact compareList_of_alikeList (fun t ht u hu => ih t ht hu) h
  | product fs ih =>
    cases b <;> simp only [alike, Bool.false_eq_true] at h
    rw [compare]
    exact compareList_of_alikeList (fun t ht u hu => ih t ht hu) h
  | binary op l r ihl ihr =>
    cases b <;> simp only [alike, Bool.and_eq_true, beq_iff_eq, Bool.false_eq_true] at h
    case binary p l' r' =>
      obtain ⟨⟨rfl, hl⟩, hr⟩ := h
      cases op <;> simp [compare, ihl hl, ihr hr]
  | not a ih =>
    cases b <;> simp only [alike, Bool.false_eq_true] at h
    rw [compare]
    exact ih h
  | call f args ih =>
    cases b <;> simp only [alike, Bool.and_eq_true, beq_iff_eq, Bool.false_eq_true] at h
    rw [compare, h.1.1, h.1.2, compareList_of_alikeList (fun t ht u hu => ih t ht hu) h.2]
    simp
  | set ms ih =>
    cases b <;> simp only [alike, Bool.false_eq_true] at h
    rw [compare]
    exact compareList_of_alikeList (fun t ht u hu => ih t ht hu) h

theorem alikeList_of_compareList {xs ys : List Expr} (h : compareList xs ys = .eq)
    (ih : ∀ x ∈ xs, ∀ y ∈ ys, compare x y = .eq → alike x y = true) :
    alikeList xs ys = true := by
  induction xs generalizing ys with
  | nil =>
    cases ys with
    | nil => rfl
    | cons y ys => simp [compareList] at h
  | cons x xs ihxs =>
    cases ys with
    | nil => simp [compareList] at h
    | cons y ys =>
      rw [compareList, Ordering.then_eq_eq] at h
      rw [alikeList, Bool.and_eq_true]
      exact ⟨ih x (by simp) y (by simp) h.1,
        ihxs h.2 fun u hu v hv => ih u (by simp [hu]) v (by simp [hv])⟩

theorem alike_of_terms {a b : Expr} (ha : Constructed a) (hb : Constructed b)
    (h : alikeList a.terms b.terms = true) : alike a b = true := by
  have hlength := alikeList_length h
  cases hsa : a.isSum <;> cases hsb : b.isSum
  · rw [terms_eq_self hsa, terms_eq_self hsb, alikeList, alikeList, Bool.and_true] at h
    exact h
  · obtain ⟨us, rfl⟩ := exists_of_isSum hsb
    have := hb.two_le_terms
    rw [terms_eq_self hsa, terms, List.length_singleton] at hlength
    omega
  · obtain ⟨ts, rfl⟩ := exists_of_isSum hsa
    have := ha.two_le_terms
    rw [terms_eq_self hsb, terms, List.length_singleton] at hlength
    omega
  · obtain ⟨ts, rfl⟩ := exists_of_isSum hsa
    obtain ⟨us, rfl⟩ := exists_of_isSum hsb
    exact h

theorem alike_of_factors {a b : Expr} (ha : Constructed a) (hb : Constructed b)
    (h : alikeList a.factors b.factors = true) : alike a b = true := by
  have hlength := alikeList_length h
  cases hpa : a.isProduct <;> cases hpb : b.isProduct
  · rw [factors_eq_self hpa, factors_eq_self hpb, alikeList, alikeList, Bool.and_true] at h
    exact h
  · obtain ⟨us, rfl⟩ := exists_of_isProduct hpb
    have := hb.two_le_factors
    rw [factors_eq_self hpa, factors, List.length_singleton] at hlength
    omega
  · obtain ⟨ts, rfl⟩ := exists_of_isProduct hpa
    have := ha.two_le_factors
    rw [factors_eq_self hpb, factors, List.length_singleton] at hlength
    omega
  · obtain ⟨ts, rfl⟩ := exists_of_isProduct hpa
    obtain ⟨us, rfl⟩ := exists_of_isProduct hpb
    exact h

theorem alike_of_base {a b : Expr} (hb : alike a.base b.base = true)
    (hx : alike a.exponent b.exponent = true)
    (hp : Ord.compare a.isPower.toNat b.isPower.toNat = .eq) : alike a b = true := by
  cases hpa : a.isPower <;> cases hpb : b.isPower
  · rwa [base_eq_self hpa, base_eq_self hpb] at hb
  · rw [hpa, hpb] at hp
    cases hp
  · rw [hpa, hpb] at hp
    cases hp
  · obtain ⟨l, x, rfl⟩ := exists_of_isPower hpa
    obtain ⟨l', x', rfl⟩ := exists_of_isPower hpb
    simp only [base, exponent, power] at hb hx
    simp [power, alike, hb, hx]

theorem rank_injective {p q : BinaryOp} (h : p.rank = q.rank) : p = q := by
  cases p <;> cases q <;> first | rfl | cases h

/-- Atoms with equal roots and alike operands are alike. -/
theorem alike_of_compareRoot {a b : Expr} (hat : a.isAtom = true) (h : compareRoot a b = .eq)
    (hops : alikeList a.operands b.operands = true) : alike a b = true := by
  simp only [compareRoot, Ordering.then_eq_eq, Std.LawfulEqOrd.compare_eq_iff_eq,
    compareConst_eq_iff] at h
  obtain ⟨⟨⟨hkind, hconst⟩, hname⟩, hnumber⟩ := h
  cases a with
  | const q =>
    cases b <;> first | exact beq_iff_eq.mpr hconst | cases hkind
  | var n c =>
    cases b <;> first | exact beq_iff_eq.mpr hname | cases hkind
  | sum ts => simp [isAtom, isSum] at hat
  | product fs => simp [isAtom, isProduct] at hat
  | binary op l r =>
    cases b <;> first | cases hkind; done | skip
    obtain rfl := rank_injective hnumber
    simpa [operands, alikeList, alike] using hops
  | not a =>
    cases b <;> first | cases hkind; done | skip
    simpa [operands, alikeList, alike] using hops
  | call f args =>
    cases b <;> first | cases hkind; done | skip
    simp only [rootName, rootNumber] at hname hnumber
    simpa [alike, operands, hname, hnumber] using hops
  | set ms =>
    cases b <;> first | cases hkind; done | skip
    exact hops

theorem alike_of_compare {a b : Expr} :
    Constructed a → Constructed b → compare a b = .eq → alike a b = true := by
  induction a, b using pairInduction with
  | terms a b ih =>
    intro ha hb h
    rw [compare_terms] at h
    exact alike_of_terms ha hb (alikeList_of_compareList h fun x hx y hy =>
      ih x hx y hy (ha.of_terms x hx) (hb.of_terms y hy))
  | factors a b has hbs ih =>
    intro ha hb h
    rw [compare_factors has hbs] at h
    exact alike_of_factors ha hb (alikeList_of_compareList h fun x hx y hy =>
      ih x hx y hy (ha.of_factors x hx) (hb.of_factors y hy))
  | power a b has hbs hap hbp ihb ihx =>
    intro ha hb h
    rw [compare_power has hbs hap hbp, Ordering.then_eq_eq, Ordering.then_eq_eq] at h
    exact alike_of_base (ihb ha.of_base hb.of_base h.1.1)
      (ihx ha.of_exponent hb.of_exponent h.1.2) h.2
  | atom a b hat hbt ih =>
    intro ha hb h
    rw [compare_atom hat hbt, Ordering.then_eq_eq] at h
    exact alike_of_compareRoot hat h.1 (alikeList_of_compareList h.2 fun x hx y hy =>
      ih x hx y hy (ha.of_operands x hx) (hb.of_operands y hy))

/-- **Constructed expressions compare equal iff they are alike.** -/
theorem compare_eq_iff_alike {a b : Expr} (ha : Constructed a) (hb : Constructed b) :
    compare a b = .eq ↔ alike a b = true :=
  ⟨alike_of_compare ha hb, compare_of_alike⟩

/-! ## Kinds of called functions -/

mutual

/-- The called functions, from left to right. -/
def calls : Expr → List Function
  | const _ | var .. => []
  | sum ts => callsList ts
  | product fs => callsList fs
  | binary _ l r => calls l ++ calls r
  | not a => calls a
  | call f args => f :: callsList args
  | set ms => callsList ms

/-- The called functions of a list. -/
def callsList : List Expr → List Function
  | [] => []
  | t :: ts => calls t ++ callsList ts

end

/-- A function of the one list and one of the other that share name and arity are of one kind. -/
def SameKinds (fs gs : List Function) : Prop :=
  ∀ f ∈ fs, ∀ g ∈ gs, f.name = g.name → f.arity = g.arity → f.kindRank = g.kindRank

theorem SameKinds.mono {fs gs fs' gs' : List Function} (h : SameKinds fs gs)
    (hf : ∀ f ∈ fs', f ∈ fs) (hg : ∀ g ∈ gs', g ∈ gs) : SameKinds fs' gs' :=
  fun f hff g hgg => h f (hf f hff) g (hg g hgg)

theorem calls_subset {x : Expr} : ∀ {xs : List Expr}, x ∈ xs → ∀ f ∈ x.calls, f ∈ callsList xs
  | y :: ys, h, f, hf => by
    rw [callsList, List.mem_append]
    cases h with
    | head => exact Or.inl hf
    | tail _ h => exact Or.inr (calls_subset h f hf)

theorem mem_callsList {f : Function} : ∀ {xs : List Expr},
    f ∈ callsList xs ↔ ∃ x ∈ xs, f ∈ x.calls
  | [] => by simp [callsList]
  | x :: xs => by simp [callsList, @mem_callsList f xs]

theorem beqList_of_alikeList {xs : List Expr} : ∀ {ys : List Expr}, alikeList xs ys = true →
    SameKinds (callsList xs) (callsList ys) →
    (∀ x ∈ xs, ∀ y, alike x y = true → SameKinds x.calls y.calls → beq x y = true) →
      beqList xs ys = true := by
  induction xs with
  | nil =>
    intro ys h _ _
    cases ys with
    | nil => rfl
    | cons y ys => simp [alikeList] at h
  | cons x xs ih =>
    intro ys h hk hxs
    cases ys with
    | nil => simp [alikeList] at h
    | cons y ys =>
      rw [alikeList, Bool.and_eq_true] at h
      rw [beqList, Bool.and_eq_true]
      refine ⟨hxs x (by simp) y h.1 (hk.mono ?_ ?_), ih h.2 (hk.mono ?_ ?_) fun z hz =>
        hxs z (by simp [hz])⟩
      all_goals
        intro f hf
        rw [callsList, List.mem_append]
        simp [hf]

/-- Alike expressions are equal where functions of one name and arity are of one kind. -/
theorem beq_of_alike {a b : Expr} (h : alike a b = true) (hk : SameKinds a.calls b.calls) :
    beq a b = true := by
  induction a using inductionOn generalizing b with
  | const q => cases b <;> simp_all [alike, beq]
  | var n c => cases b <;> simp_all [alike, beq]
  | sum ts ih =>
    cases b <;> simp only [alike, Bool.false_eq_true] at h
    exact beqList_of_alikeList h hk fun x hx y hxy hkxy => ih x hx hxy hkxy
  | product fs ih =>
    cases b <;> simp only [alike, Bool.false_eq_true] at h
    exact beqList_of_alikeList h hk fun x hx y hxy hkxy => ih x hx hxy hkxy
  | binary op l r ihl ihr =>
    cases b <;> simp only [alike, Bool.and_eq_true, beq_iff_eq, Bool.false_eq_true] at h
    case binary p l' r' =>
      have hl := ihl h.1.2 (hk.mono (by simp +contextual [calls]) (by simp +contextual [calls]))
      have hr := ihr h.2 (hk.mono (by simp +contextual [calls]) (by simp +contextual [calls]))
      simp [beq, h.1.1, hl, hr]
  | not a ih =>
    cases b <;> simp only [alike, Bool.false_eq_true] at h
    exact ih h hk
  | call f args ih =>
    cases b <;> simp only [alike, Bool.and_eq_true, beq_iff_eq, Bool.false_eq_true] at h
    case call g brgs =>
      have hkind : f.kindRank = g.kindRank :=
        hk f (by simp [calls]) g (by simp [calls]) h.1.1 h.1.2
      have hargs : beqList args brgs = true :=
        beqList_of_alikeList h.2 (hk.mono (by simp +contextual [calls]) (by simp +contextual [calls]))
          fun x hx y hxy hkxy => ih x hx hxy hkxy
      have hsame : (f == g) = true := by simp [BEq.beq, Function.same, hkind, h.1.1, h.1.2]
      rw [beq, hsame, hargs]
      rfl
  | set ms ih =>
    cases b <;> simp only [alike, Bool.false_eq_true] at h
    exact beqList_of_alikeList h hk fun x hx y hxy hkxy => ih x hx hxy hkxy

theorem alikeList_of_beqList {xs : List Expr}
    (hxs : ∀ x ∈ xs, ∀ y, beq x y = true → alike x y = true) :
    ∀ {ys : List Expr}, beqList xs ys = true → alikeList xs ys = true := by
  induction xs with
  | nil =>
    intro ys h
    cases ys with
    | nil => rfl
    | cons y ys => simp [beqList] at h
  | cons x xs ih =>
    intro ys h
    cases ys with
    | nil => simp [beqList] at h
    | cons y ys =>
      rw [beqList, Bool.and_eq_true] at h
      rw [alikeList, Bool.and_eq_true]
      exact ⟨hxs x (by simp) y h.1, ih (fun z hz => hxs z (by simp [hz])) h.2⟩

theorem alike_of_beq {a b : Expr} (h : beq a b = true) : alike a b = true := by
  induction a using inductionOn generalizing b with
  | const q => cases b <;> simp_all [alike, beq]
  | var n c => cases b <;> simp_all [alike, beq]
  | sum ts ih =>
    cases b <;> simp only [beq, Bool.false_eq_true] at h
    exact alikeList_of_beqList (fun x hx y hxy => ih x hx hxy) h
  | product fs ih =>
    cases b <;> simp only [beq, Bool.false_eq_true] at h
    exact alikeList_of_beqList (fun x hx y hxy => ih x hx hxy) h
  | binary op l r ihl ihr =>
    cases b <;> simp only [beq, Bool.and_eq_true, Bool.false_eq_true] at h
    simp [alike, h.1.1, ihl h.1.2, ihr h.2]
  | not a ih =>
    cases b <;> simp only [beq, Bool.false_eq_true] at h
    exact ih h
  | call f args ih =>
    cases b <;> simp only [beq, Bool.and_eq_true, Bool.false_eq_true] at h
    have hsame := h.1
    simp only [BEq.beq, Function.same, Bool.and_eq_true, decide_eq_true_eq] at hsame
    rw [alike, alikeList_of_beqList (fun x hx y hxy => ih x hx hxy) h.2]
    simp [hsame.1.2, hsame.2]
  | set ms ih =>
    cases b <;> simp only [beq, Bool.false_eq_true] at h
    exact alikeList_of_beqList (fun x hx y hxy => ih x hx hxy) h

/-- Equal expressions compare equal. -/
theorem compare_of_beq {a b : Expr} (h : (a == b) = true) : compare a b = .eq :=
  compare_of_alike (alike_of_beq h)

/-- **The order agrees with equality** where functions of one name and arity are of one kind. -/
theorem compare_eq_iff_beq {a b : Expr} (ha : Constructed a) (hb : Constructed b)
    (hk : SameKinds a.calls b.calls) : compare a b = .eq ↔ (a == b) = true :=
  ⟨fun h => beq_of_alike (alike_of_compare ha hb h) hk, compare_of_beq⟩

/-! ## Built-in functions -/

theorem native_name_ne_if (f : Native) : f.name ≠ "If" := by
  cases f with
  | elementary g => cases g <;> decide
  | _ => decide

/-- No two built-in functions share name and arity. -/
theorem sameKinds_of_isBuiltIn {fs gs : List Function} (hfs : ∀ f ∈ fs, f.isBuiltIn = true)
    (hgs : ∀ g ∈ gs, g.isBuiltIn = true) : SameKinds fs gs := by
  intro f hf g hg hname _
  have hf := hfs f hf
  have hg := hgs g hg
  cases f with
  | native f =>
    cases g with
    | native g => rfl
    | ifThenElse => exact absurd hname (native_name_ne_if f)
    | _ => cases hg
  | ifThenElse =>
    cases g with
    | native g => exact absurd hname.symm (native_name_ne_if g)
    | ifThenElse => rfl
    | _ => cases hg
  | _ => cases hf

theorem isBuiltIn_of_mem_calls {e : Expr} (h : e.builtIn = true) :
    ∀ f ∈ e.calls, f.isBuiltIn = true := by
  have list {xs : List Expr} (hxs : ∀ x ∈ xs, x.builtIn = true)
      (ih : ∀ x ∈ xs, x.builtIn = true → ∀ f ∈ x.calls, f.isBuiltIn = true) :
      ∀ f ∈ callsList xs, f.isBuiltIn = true := by
    intro f hf
    obtain ⟨x, hx, hfx⟩ := mem_callsList.mp hf
    exact ih x hx (hxs x hx) f hfx
  induction e using inductionOn with
  | const q => exact nofun
  | var n c => exact nofun
  | sum ts ih => exact list ((builtIn_sum ts).mp h) ih
  | product fs ih => exact list ((builtIn_product fs).mp h) ih
  | binary op l r ihl ihr =>
    obtain ⟨hl, hr⟩ := (builtIn_binary op l r).mp h
    intro f hf
    rcases List.mem_append.mp hf with hf | hf
    · exact ihl hl f hf
    · exact ihr hr f hf
  | not a ih => exact ih h
  | call f args ih =>
    obtain ⟨hf, hargs⟩ := (builtIn_call f args).mp h
    exact List.forall_mem_cons.mpr ⟨hf, list hargs ih⟩
  | set ms ih => exact list ((builtIn_set ms).mp h) ih

/-- **Constructed expressions over built-in functions that compare equal are equal.** -/
theorem Proper.eq_of_compare {a b : Expr} (ha : Proper a) (hb : Proper b)
    (h : compare a b = .eq) : a = b :=
  eq_of_beq_builtIn ha.builtIn hb.builtIn
    ((compare_eq_iff_beq ha.constructed hb.constructed (sameKinds_of_isBuiltIn
      (isBuiltIn_of_mem_calls ha.builtIn) (isBuiltIn_of_mem_calls hb.builtIn))).mp h)

end SymbolicAlgebra.Expr
