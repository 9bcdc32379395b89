import SymbolicAlgebra.Proofs.Alike

/-!
# Sums and products determine their operands

Two sums of constructed expressions are equal iff their constants have the same total and their other
terms, nested sums flattened, are the same up to order; for products the constants multiply, and a
zero hides everything else. "The same" is `==`, so the items of two lists agree when every expression
is counted equally often in both. All of this needs functions of one name and arity to be of one kind:
otherwise calls that compare equal without being equal keep the order in which they were given.

The operands of a sum come out sorted, and sorted lists that agree in their counts are equal item by
item (`beqList_of_count`).

Results:
* `sumOf_productOf_normalForm`: what two equal sums or products have in common, that groupings of the
  same operands give equal sums and products, and that an expression is the sum of its terms and the
  product of its factors.
-/

namespace SymbolicAlgebra.Expr

/-! ## Equality item by item and counts -/

theorem count_of_beqList : ∀ {xs ys : List Expr}, beqList xs ys = true →
    ∀ t, xs.count t = ys.count t
  | [], [], _, _ => rfl
  | x :: xs, y :: ys, h, t => by
    rw [beqList, Bool.and_eq_true] at h
    rw [List.count_cons, List.count_cons, count_of_beqList h.2 t]
    have hxy : (x == t) = (y == t) := beq_congr h.1 t
    rw [hxy]
  | [], _ :: _, h, _ => by simp [beqList] at h
  | _ :: _, [], h, _ => by simp [beqList] at h

theorem isConst_of_beq {a b : Expr} (h : (a == b) = true) : a.isConst = b.isConst := by
  cases a <;> cases b <;> first | rfl | cases h

theorem const_beq_iff {q : Rat} {e : Expr} : (const q == e) = true ↔ e = const q := by
  constructor
  · intro h
    cases e with
    | const p => rw [beq_iff_eq.mp (show (q == p) = true from h)]
    | _ => cases h
  · rintro rfl
    exact beq_refl _

/-- Lists that are equal item by item have the same constants, and their other items are equal. -/
theorem operands_of_beqList : ∀ {xs ys : List Expr}, beqList xs ys = true →
    constants xs = constants ys ∧ beqList (others xs) (others ys) = true
  | [], [], _ => ⟨rfl, rfl⟩
  | x :: xs, y :: ys, h => by
    rw [beqList, Bool.and_eq_true] at h
    obtain ⟨hconstants, hothers⟩ := operands_of_beqList h.2
    cases hx : x.isConst with
    | true =>
      obtain ⟨q, rfl⟩ := exists_of_isConst hx
      obtain rfl := const_beq_iff.mp h.1
      rw [constants_const, constants_const, hconstants, others_const, others_const]
      exact ⟨rfl, hothers⟩
    | false =>
      have hy : y.isConst = false := by rw [← isConst_of_beq h.1, hx]
      rw [constants_cons hx, constants_cons hy, others_cons hx, others_cons hy, beqList, h.1]
      exact ⟨hconstants, hothers⟩
  | [], _ :: _, h => by simp [beqList] at h
  | _ :: _, [], h => by simp [beqList] at h

/-- Whether two expressions that compare equal are equal, for the items of two lists. -/
abbrev Separated (xs ys : List Expr) : Prop :=
  ∀ x ∈ xs, ∀ y ∈ ys, compare x y = .eq → (x == y) = true

/-- Something that equals `x` is counted in every list that counts `x`. -/
theorem exists_beq_of_count {x : Expr} {xs ys : List Expr} (hx : x ∈ xs)
    (h : ∀ t, xs.count t = ys.count t) : ∃ y ∈ ys, (y == x) = true := by
  have hpos : 0 < xs.count x := List.countP_pos_iff.mpr ⟨x, hx, beq_refl x⟩
  rw [h x] at hpos
  exact List.countP_pos_iff.mp hpos

/-- The first item of a sorted list comes before everything that the list counts. -/
theorem head_isLE_of_count {x y : Expr} {xs ys : List Expr} (hy : Sorted (y :: ys))
    (h : ∀ t, (x :: xs).count t = (y :: ys).count t) : (compare y x).isLE := by
  obtain ⟨z, hz, hzx⟩ := exists_beq_of_count (x := x) (by simp) h
  rw [← Std.TransCmp.congr_right (compare_of_beq hzx)]
  rcases List.mem_cons.mp hz with rfl | hz
  · simp [compare_self]
  · exact (List.pairwise_cons.mp hy).1 z hz

/-- **Sorted lists with the same counts are equal item by item**: the first items come before each
other, so they compare equal, and the rests have the same counts again. -/
theorem beqList_of_count {xs ys : List Expr} (hsep : Separated xs ys) (hx : Sorted xs)
    (hy : Sorted ys) (h : ∀ t, xs.count t = ys.count t) : beqList xs ys = true := by
  induction xs generalizing ys with
  | nil =>
    cases ys with
    | nil => rfl
    | cons y ys =>
      obtain ⟨z, hz, -⟩ := exists_beq_of_count (x := y) (by simp) fun t => (h t).symm
      cases hz
  | cons x xs ih =>
    cases ys with
    | nil =>
      obtain ⟨z, hz, -⟩ := exists_beq_of_count (x := x) (by simp) h
      cases hz
    | cons y ys =>
      have heq : compare x y = .eq := Std.OrientedCmp.isLE_antisymm
        (head_isLE_of_count hx fun t => (h t).symm) (head_isLE_of_count hy h)
      have hxy : (x == y) = true := hsep x (by simp) y (by simp) heq
      rw [beqList, Bool.and_eq_true]
      refine ⟨hxy, ih (fun u hu v hv => hsep u (by simp [hu]) v (by simp [hv]))
        (List.pairwise_cons.mp hx).2 (List.pairwise_cons.mp hy).2 fun t => ?_⟩
      have ht := h t
      have hcongr : (x == t) = (y == t) := beq_congr hxy t
      rw [List.count_cons, List.count_cons, hcongr] at ht
      omega

/-! ## Arranged operands -/

theorem sorted_arranged (neutral c : Rat) (xs : List Expr) : Sorted (arranged neutral c xs) :=
  sort_sorted _

theorem arranged_perm_append (neutral c : Rat) (xs : List Expr) :
    (arranged neutral c xs).Perm (others xs ++ if c = neutral then [] else [const c]) := by
  refine (sort_perm _).trans ?_
  split
  · rw [List.append_nil]
  · exact List.Perm.refl _

/-- Arranged operands are equal item by item iff the constants are the same and all others are counted
equally often. -/
theorem beqList_arranged_iff {neutral c d : Rat} {xs ys : List Expr}
    (hsep : Separated (arranged neutral c xs) (arranged neutral d ys)) :
    beqList (arranged neutral c xs) (arranged neutral d ys) = true ↔
      (∀ t, (others xs).count t = (others ys).count t) ∧ c = d := by
  constructor
  · intro h
    refine ⟨fun t => ?_, ?_⟩
    · have hcount := count_of_beqList (operands_of_beqList h).2 t
      rwa [others_arranged_eq, others_arranged_eq, (sort_perm _).count_eq,
        (sort_perm _).count_eq] at hcount
    · have hconstants := (operands_of_beqList h).1
      rw [constants_arranged, constants_arranged] at hconstants
      split at hconstants <;> split at hconstants
      · simp_all
      · cases hconstants
      · cases hconstants
      · exact List.singleton_inj.mp hconstants
  · rintro ⟨hothers, rfl⟩
    refine beqList_of_count hsep (sorted_arranged _ _ _) (sorted_arranged _ _ _) fun t => ?_
    rw [(arranged_perm_append neutral c xs).count_eq, (arranged_perm_append neutral c ys).count_eq,
      List.count_append, List.count_append, hothers]

/-! ### Lists of operands as expressions -/

theorem isSum_of_beq {a b : Expr} (h : (a == b) = true) : a.isSum = b.isSum := by
  cases a <;> cases b <;> first | rfl | cases h

theorem isProduct_of_beq {a b : Expr} (h : (a == b) = true) : a.isProduct = b.isProduct := by
  cases a <;> cases b <;> first | rfl | cases h

/-- Sums over flat terms are equal iff their terms are, as none of the terms is `0`. -/
theorem ofTerms_beq_iff {xs ys : List Expr} (hx : ∀ x ∈ xs, x.isSum = false ∧ x ≠ const 0)
    (hy : ∀ y ∈ ys, y.isSum = false ∧ y ≠ const 0) :
    (ofTerms xs == ofTerms ys) = true ↔ beqList xs ys = true := by
  match xs, ys, hx, hy with
  | [], [], _, _ => simp [ofTerms, beqList]
  | [], [y], _, hy =>
    have : ¬(zero == y) = true := fun h => (hy y (by simp)).2 (const_beq_iff.mp h)
    simpa [ofTerms, beqList] using this
  | [], _ :: _ :: _, _, _ => exact iff_of_false Bool.false_ne_true Bool.false_ne_true
  | [x], [], hx, _ =>
    have : ¬(x == zero) = true := fun h =>
      (hx x (by simp)).2 (const_beq_iff.mp (BEq.symm h))
    simpa [ofTerms, beqList] using this
  | [x], [y], _, _ => simp [ofTerms, beqList, BEq.beq]
  | [x], y :: y' :: ys, hx, _ =>
    refine ⟨fun h => ?_, fun h => by simp [beqList] at h⟩
    have hflat : x.isSum = (sum (y :: y' :: ys)).isSum := isSum_of_beq h
    rw [(hx x (by simp)).1] at hflat
    cases hflat
  | _ :: _ :: _, [], _, _ => exact iff_of_false Bool.false_ne_true Bool.false_ne_true
  | x :: x' :: xs, [y], _, hy =>
    refine ⟨fun h => ?_, fun h => by simp [beqList] at h⟩
    have hflat : (sum (x :: x' :: xs)).isSum = y.isSum := isSum_of_beq h
    rw [(hy y (by simp)).1] at hflat
    cases hflat
  | x :: x' :: xs, y :: y' :: ys, _, _ => exact Iff.rfl

/-- Products over flat factors are equal iff their factors are, as none of the factors is `1`. -/
theorem ofFactors_beq_iff {xs ys : List Expr}
    (hx : ∀ x ∈ xs, x.isProduct = false ∧ x ≠ const 1)
    (hy : ∀ y ∈ ys, y.isProduct = false ∧ y ≠ const 1) :
    (ofFactors xs == ofFactors ys) = true ↔ beqList xs ys = true := by
  match xs, ys, hx, hy with
  | [], [], _, _ => simp [ofFactors, beqList]
  | [], [y], _, hy =>
    have : ¬(one == y) = true := fun h => (hy y (by simp)).2 (const_beq_iff.mp h)
    simpa [ofFactors, beqList] using this
  | [], _ :: _ :: _, _, _ => exact iff_of_false Bool.false_ne_true Bool.false_ne_true
  | [x], [], hx, _ =>
    have : ¬(x == one) = true := fun h =>
      (hx x (by simp)).2 (const_beq_iff.mp (BEq.symm h))
    simpa [ofFactors, beqList] using this
  | [x], [y], _, _ => simp [ofFactors, beqList, BEq.beq]
  | [x], y :: y' :: ys, hx, _ =>
    refine ⟨fun h => ?_, fun h => by simp [beqList] at h⟩
    have hflat : x.isProduct = (product (y :: y' :: ys)).isProduct := isProduct_of_beq h
    rw [(hx x (by simp)).1] at hflat
    cases hflat
  | _ :: _ :: _, [], _, _ => exact iff_of_false Bool.false_ne_true Bool.false_ne_true
  | x :: x' :: xs, [y], _, hy =>
    refine ⟨fun h => ?_, fun h => by simp [beqList] at h⟩
    have hflat : (product (x :: x' :: xs)).isProduct = y.isProduct := isProduct_of_beq h
    rw [(hy y (by simp)).1] at hflat
    cases hflat
  | x :: x' :: xs, y :: y' :: ys, _, _ => exact Iff.rfl

/-! ## Coherent operands -/

/-- Constructed expressions in which functions of one name and arity are of one kind. -/
structure Coherent (xs : List Expr) : Prop where
  constructed : ∀ x ∈ xs, Constructed x
  kinds : SameKinds (callsList xs) (callsList xs)

/-- Expressions that call nothing new are coherent with those that they come from. -/
theorem Coherent.of_calls {xs ys : List Expr} (h : Coherent xs)
    (hys : ∀ y ∈ ys, Constructed y ∧ ∀ f ∈ y.calls, f ∈ callsList xs) : Coherent ys := by
  have hcalls : ∀ f ∈ callsList ys, f ∈ callsList xs := by
    intro f hf
    obtain ⟨y, hy, hfy⟩ := mem_callsList.mp hf
    exact (hys y hy).2 f hfy
  exact ⟨fun y hy => (hys y hy).1, h.kinds.mono hcalls hcalls⟩

theorem Coherent.separated {xs ys : List Expr} (h : Coherent (xs ++ ys)) : Separated xs ys := by
  intro x hx y hy
  have hx := List.mem_append_left ys hx
  have hy := List.mem_append_right xs hy
  exact (compare_eq_iff_beq (h.constructed x hx) (h.constructed y hy)
    (h.kinds.mono (calls_subset hx) (calls_subset hy))).mp

theorem calls_of_mem_terms {e t : Expr} (h : t ∈ e.terms) : ∀ f ∈ t.calls, f ∈ e.calls := by
  cases e with
  | sum ts => exact calls_subset h
  | _ => rw [List.mem_singleton.mp h]; exact fun _ hf => hf

theorem calls_of_mem_factors {e t : Expr} (h : t ∈ e.factors) : ∀ f ∈ t.calls, f ∈ e.calls := by
  cases e with
  | product fs => exact calls_subset h
  | _ => rw [List.mem_singleton.mp h]; exact fun _ hf => hf

theorem Coherent.flatMap_terms {xs : List Expr} (h : Coherent xs) :
    Coherent (xs.flatMap terms) := by
  refine h.of_calls fun t ht => ⟨(constructed_flatMap_terms h.constructed t ht).1, fun f hf => ?_⟩
  obtain ⟨x, hx, htx⟩ := List.mem_flatMap.mp ht
  exact calls_subset hx f (calls_of_mem_terms htx f hf)

theorem Coherent.flatMap_factors {xs : List Expr} (h : Coherent xs) :
    Coherent (xs.flatMap factors) := by
  refine h.of_calls fun t ht => ⟨(constructed_flatMap_factors h.constructed t ht).1, fun f hf => ?_⟩
  obtain ⟨x, hx, htx⟩ := List.mem_flatMap.mp ht
  exact calls_subset hx f (calls_of_mem_factors htx f hf)

theorem Coherent.arranged {neutral c d : Rat} {us vs : List Expr} (h : Coherent (us ++ vs)) :
    Coherent (arranged neutral c us ++ arranged neutral d vs) := by
  refine h.of_calls fun t ht => ?_
  have hmem : t ∈ us ++ vs ∨ ∃ q, t = const q := by
    rcases List.mem_append.mp ht with ht | ht <;> rcases mem_arranged ht with ht | ⟨rfl, -⟩
    · exact Or.inl (List.mem_append_left vs (mem_others.mp ht).1)
    · exact Or.inr ⟨c, rfl⟩
    · exact Or.inl (List.mem_append_right us (mem_others.mp ht).1)
    · exact Or.inr ⟨d, rfl⟩
  rcases hmem with hmem | ⟨q, rfl⟩
  · exact ⟨h.constructed t hmem, calls_subset hmem⟩
  · exact ⟨.const q, nofun⟩

/-! ## What equal sums and products have in common -/

theorem ne_const_of_mem_arranged {neutral c : Rat} {us : List Expr} :
    ∀ x ∈ arranged neutral c us, x ≠ const neutral := by
  rintro x hx rfl
  rcases mem_arranged hx with hx | ⟨hx, hne⟩
  · cases (mem_others.mp hx).2
  · cases hx
    exact hne rfl

/-- **Equal sums have the same total of constants and the same other terms.** -/
theorem sumOf_beq_iff {xs ys : List Expr} (h : Coherent (xs ++ ys)) :
    (sumOf xs == sumOf ys) = true ↔
      (∀ t, (others (xs.flatMap terms)).count t = (others (ys.flatMap terms)).count t) ∧
      (constants (xs.flatMap terms)).sum = (constants (ys.flatMap terms)).sum := by
  have hxs := constructed_flatMap_terms fun x hx => h.constructed x (List.mem_append_left ys hx)
  have hys := constructed_flatMap_terms fun y hy => h.constructed y (List.mem_append_right xs hy)
  have hflat : Coherent (xs.flatMap terms ++ ys.flatMap terms) := by
    rw [← List.flatMap_append]
    exact h.flatMap_terms
  rw [sumOf_eq, sumOf_eq, ofTerms_beq_iff
      (fun x hx => ⟨isSum_arranged (fun t ht => (hxs t ht).2) x hx, ne_const_of_mem_arranged x hx⟩)
      (fun y hy => ⟨isSum_arranged (fun t ht => (hys t ht).2) y hy, ne_const_of_mem_arranged y hy⟩),
    beqList_arranged_iff hflat.arranged.separated]

theorem ofFactors_ne_zero {us : List Expr} {c : Rat} (hc : c ≠ 0) :
    ¬(zero == ofFactors (arranged 1 c us)) = true := by
  intro h
  have hzero := const_beq_iff.mp h
  have hmem : ∀ x ∈ arranged 1 c us, x ≠ const 0 := by
    rintro x hx rfl
    rcases mem_arranged hx with hx | ⟨hx, -⟩
    · cases (mem_others.mp hx).2
    · cases hx
      exact hc rfl
  revert hzero hmem
  rcases arranged 1 c us with _ | ⟨x, _ | ⟨y, ys⟩⟩
  · exact fun hzero _ => absurd hzero (by simp [ofFactors, one])
  · exact fun hzero hmem => hmem x (by simp) hzero
  · exact fun hzero _ => by cases hzero

/-- **Equal products are both `0`, or have the same product of constants and the same other
factors.** -/
theorem productOf_beq_iff {xs ys : List Expr} (h : Coherent (xs ++ ys)) :
    (productOf xs == productOf ys) = true ↔
      ((constants (xs.flatMap factors)).prod = 0 ∧ (constants (ys.flatMap factors)).prod = 0) ∨
      ((∀ t, (others (xs.flatMap factors)).count t = (others (ys.flatMap factors)).count t) ∧
        (constants (xs.flatMap factors)).prod = (constants (ys.flatMap factors)).prod) := by
  have hxs := constructed_flatMap_factors fun x hx => h.constructed x (List.mem_append_left ys hx)
  have hys := constructed_flatMap_factors fun y hy => h.constructed y (List.mem_append_right xs hy)
  have hflat : Coherent (xs.flatMap factors ++ ys.flatMap factors) := by
    rw [← List.flatMap_append]
    exact h.flatMap_factors
  rw [productOf_eq, productOf_eq]
  by_cases hx0 : (constants (xs.flatMap factors)).prod = 0 <;>
    by_cases hy0 : (constants (ys.flatMap factors)).prod = 0
  · simp [hx0, hy0]
  · rw [if_pos hx0, if_neg hy0, hx0]
    refine ⟨fun heq => absurd heq (ofFactors_ne_zero hy0), ?_⟩
    rintro (⟨-, h0⟩ | ⟨-, h0⟩)
    · exact absurd h0 hy0
    · exact absurd h0.symm hy0
  · rw [if_neg hx0, if_pos hy0, hy0]
    refine ⟨fun heq => absurd (BEq.symm heq) (ofFactors_ne_zero hx0), ?_⟩
    rintro (⟨h0, -⟩ | ⟨-, h0⟩)
    · exact absurd h0 hx0
    · exact absurd h0 hx0
  · rw [if_neg hx0, if_neg hy0, ofFactors_beq_iff
        (fun x hx => ⟨isProduct_arranged (fun t ht => (hxs t ht).2) x hx,
          ne_const_of_mem_arranged x hx⟩)
        (fun y hy => ⟨isProduct_arranged (fun t ht => (hys t ht).2) y hy,
          ne_const_of_mem_arranged y hy⟩),
      beqList_arranged_iff hflat.arranged.separated, or_iff_right fun h0 => hx0 h0.1]

/-! ## Groupings -/

/-- A way to build a sum or product of some operands in steps. -/
inductive Grouping where
  | leaf (x : Expr)
  | node (parts : List Grouping)

namespace Grouping

mutual

/-- The operands from left to right. -/
def leaves : Grouping → List Expr
  | leaf x => [x]
  | node parts => leavesList parts

/-- The operands of several groupings. -/
def leavesList : List Grouping → List Expr
  | [] => []
  | g :: gs => leaves g ++ leavesList gs

end

mutual

/-- What an operation such as `sumOf` makes of a grouping, from the inside out. -/
def combine (op : List Expr → Expr) : Grouping → Expr
  | leaf x => x
  | node parts => op (combineList op parts)

/-- What an operation makes of several groupings. -/
def combineList (op : List Expr → Expr) : List Grouping → List Expr
  | [] => []
  | g :: gs => combine op g :: combineList op gs

end

end Grouping

/-! ### The functions of sums and products -/

theorem calls_ofTerms {ts : List Expr} : ∀ f ∈ (ofTerms ts).calls, f ∈ callsList ts := by
  match ts with
  | [] => exact nofun
  | [_] => exact calls_subset List.mem_cons_self
  | _ :: _ :: _ => exact fun _ hf => hf

theorem calls_ofFactors {fs : List Expr} : ∀ f ∈ (ofFactors fs).calls, f ∈ callsList fs := by
  match fs with
  | [] => exact nofun
  | [_] => exact calls_subset List.mem_cons_self
  | _ :: _ :: _ => exact fun _ hf => hf

theorem calls_sumOf {xs : List Expr} : ∀ f ∈ (sumOf xs).calls, f ∈ callsList xs := by
  intro f hf
  rw [sumOf_eq] at hf
  obtain ⟨t, ht, hft⟩ := mem_callsList.mp (calls_ofTerms f hf)
  rcases mem_arranged ht with ht | ⟨rfl, -⟩
  · obtain ⟨x, hx, htx⟩ := List.mem_flatMap.mp (mem_others.mp ht).1
    exact calls_subset hx f (calls_of_mem_terms htx f hft)
  · cases hft

theorem calls_productOf {xs : List Expr} : ∀ f ∈ (productOf xs).calls, f ∈ callsList xs := by
  intro f hf
  rw [productOf_eq] at hf
  split at hf
  · cases hf
  · obtain ⟨t, ht, hft⟩ := mem_callsList.mp (calls_ofFactors f hf)
    rcases mem_arranged ht with ht | ⟨rfl, -⟩
    · obtain ⟨x, hx, htx⟩ := List.mem_flatMap.mp (mem_others.mp ht).1
      exact calls_subset hx f (calls_of_mem_factors htx f hft)
    · cases hft

/-! ### Grouping makes no difference -/

/-- The terms of `es` are those of `xs`, with their constants added up in some way. -/
structure Sums (es xs : List Expr) : Prop where
  constructed : ∀ e ∈ es, Constructed e
  calls : ∀ f ∈ callsList es, f ∈ callsList xs
  others : (others (es.flatMap terms)).Perm (others (xs.flatMap terms))
  constants : (constants (es.flatMap terms)).sum = (constants (xs.flatMap terms)).sum

theorem Sums.refl {xs : List Expr} (h : ∀ x ∈ xs, Constructed x) : Sums xs xs :=
  ⟨h, fun _ hf => hf, List.Perm.refl _, rfl⟩

theorem callsList_append (xs ys : List Expr) :
    callsList (xs ++ ys) = callsList xs ++ callsList ys := by
  induction xs with
  | nil => rfl
  | cons x xs ih => rw [List.cons_append, callsList, callsList, ih, List.append_assoc]

theorem Sums.append {es es' xs xs' : List Expr} (h : Sums es xs) (h' : Sums es' xs') :
    Sums (es ++ es') (xs ++ xs') where
  constructed e he := (List.mem_append.mp he).elim (h.constructed e) (h'.constructed e)
  calls f hf := by
    rw [callsList_append, List.mem_append] at hf ⊢
    exact hf.imp (h.calls f) (h'.calls f)
  others := by
    rw [List.flatMap_append, List.flatMap_append, others_append, others_append]
    exact h.others.append h'.others
  constants := by
    rw [List.flatMap_append, List.flatMap_append, constants_append, constants_append,
      List.sum_append, List.sum_append, h.constants, h'.constants]

theorem Sums.sumOf {es xs : List Expr} (h : Sums es xs) : Sums [sumOf es] xs where
  constructed e he := by
    rw [List.mem_singleton.mp he]
    exact constructed_sumOf h.constructed
  calls f hf := by
    rw [callsList, callsList, List.append_nil] at hf
    exact h.calls f (calls_sumOf f hf)
  others := by
    rw [List.flatMap_singleton]
    exact (others_terms_sumOf h.constructed).trans h.others
  constants := by
    rw [List.flatMap_singleton, constants_terms_sumOf h.constructed, h.constants]

/-- The factors of `es` are those of `xs`, with their constants multiplied in some way; once a
constant is `0`, the other factors no longer count. -/
structure Products (es xs : List Expr) : Prop where
  constructed : ∀ e ∈ es, Constructed e
  calls : ∀ f ∈ callsList es, f ∈ callsList xs
  others : (constants (xs.flatMap factors)).prod ≠ 0 →
    (others (es.flatMap factors)).Perm (others (xs.flatMap factors))
  constants : (constants (es.flatMap factors)).prod = (constants (xs.flatMap factors)).prod

theorem Products.refl {xs : List Expr} (h : ∀ x ∈ xs, Constructed x) : Products xs xs :=
  ⟨h, fun _ hf => hf, fun _ => List.Perm.refl _, rfl⟩

theorem Products.append {es es' xs xs' : List Expr} (h : Products es xs) (h' : Products es' xs') :
    Products (es ++ es') (xs ++ xs') where
  constructed e he := (List.mem_append.mp he).elim (h.constructed e) (h'.constructed e)
  calls f hf := by
    rw [callsList_append, List.mem_append] at hf ⊢
    exact hf.imp (h.calls f) (h'.calls f)
  others hne := by
    rw [List.flatMap_append, constants_append, List.prod_append] at hne
    rw [List.flatMap_append, List.flatMap_append, others_append, others_append]
    exact (h.others (left_ne_zero_of_mul hne)).append (h'.others (right_ne_zero_of_mul hne))
  constants := by
    rw [List.flatMap_append, List.flatMap_append, constants_append, constants_append,
      List.prod_append, List.prod_append, h.constants, h'.constants]

theorem Products.productOf {es xs : List Expr} (h : Products es xs) :
    Products [productOf es] xs where
  constructed e he := by
    rw [List.mem_singleton.mp he]
    exact constructed_productOf h.constructed
  calls f hf := by
    rw [callsList, callsList, List.append_nil] at hf
    exact h.calls f (calls_productOf f hf)
  others hne := by
    rw [List.flatMap_singleton]
    refine (others_factors_productOf h.constructed ?_).trans (h.others hne)
    rw [h.constants]
    exact hne
  constants := by
    rw [List.flatMap_singleton, constants_factors_productOf h.constructed, h.constants]

namespace Grouping

mutual

/-- A grouped sum has the terms of its operands. -/
theorem sums : ∀ g : Grouping, (∀ x ∈ g.leaves, Constructed x) →
    Sums [g.combine sumOf] g.leaves
  | leaf _, h => Sums.refl h
  | node parts, h => (sumsList parts h).sumOf

theorem sumsList : ∀ gs : List Grouping, (∀ x ∈ leavesList gs, Constructed x) →
    Sums (combineList sumOf gs) (leavesList gs)
  | [], h => Sums.refl h
  | g :: gs, h => by
    rw [leavesList] at h
    exact (sums g fun x hx => h x (List.mem_append_left _ hx)).append
      (sumsList gs fun x hx => h x (List.mem_append_right _ hx))

end

mutual

/-- A grouped product has the factors of its operands. -/
theorem products : ∀ g : Grouping, (∀ x ∈ g.leaves, Constructed x) →
    Products [g.combine productOf] g.leaves
  | leaf _, h => Products.refl h
  | node parts, h => (productsList parts h).productOf

theorem productsList : ∀ gs : List Grouping, (∀ x ∈ leavesList gs, Constructed x) →
    Products (combineList productOf gs) (leavesList gs)
  | [], h => Products.refl h
  | g :: gs, h => by
    rw [leavesList] at h
    exact (products g fun x hx => h x (List.mem_append_left _ hx)).append
      (productsList gs fun x hx => h x (List.mem_append_right _ hx))

end

end Grouping

theorem Coherent.pair {a b : Expr} {xs ys : List Expr} (h : Coherent (xs ++ ys))
    (ha : Constructed a) (hb : Constructed b) (hca : ∀ f ∈ callsList [a], f ∈ callsList xs)
    (hcb : ∀ f ∈ callsList [b], f ∈ callsList ys) : Coherent ([a] ++ [b]) := by
  refine h.of_calls fun e he => ?_
  rw [callsList_append]
  rcases List.mem_append.mp he with he | he
  · obtain rfl := List.mem_singleton.mp he
    exact ⟨ha, fun f hf => List.mem_append_left _ (hca f (calls_subset he f hf))⟩
  · obtain rfl := List.mem_singleton.mp he
    exact ⟨hb, fun f hf => List.mem_append_right _ (hcb f (calls_subset he f hf))⟩

/-- **Sums are associative and commutative under any grouping.** -/
theorem Grouping.combine_sumOf_beq {g h : Grouping} (hc : Coherent (g.leaves ++ h.leaves))
    (hperm : g.leaves.Perm h.leaves) : (g.combine sumOf == h.combine sumOf) = true := by
  have hg := g.sums fun x hx => hc.constructed x (List.mem_append_left _ hx)
  have hh := h.sums fun x hx => hc.constructed x (List.mem_append_right _ hx)
  have hcg := hg.constructed _ List.mem_cons_self
  have hch := hh.constructed _ List.mem_cons_self
  have hterms := hperm.flatMap_right terms
  rw [← hcg.sumOf_singleton, ← hch.sumOf_singleton,
    sumOf_beq_iff (hc.pair hcg hch hg.calls hh.calls)]
  refine ⟨fun t => ?_, ?_⟩
  · exact (hg.others.trans ((others_perm hterms).trans hh.others.symm)).count_eq t
  · rw [hg.constants, hh.constants]
    exact (constants_perm hterms).sum_eq

/-- **Products are associative and commutative under any grouping.** -/
theorem Grouping.combine_productOf_beq {g h : Grouping} (hc : Coherent (g.leaves ++ h.leaves))
    (hperm : g.leaves.Perm h.leaves) : (g.combine productOf == h.combine productOf) = true := by
  have hg := g.products fun x hx => hc.constructed x (List.mem_append_left _ hx)
  have hh := h.products fun x hx => hc.constructed x (List.mem_append_right _ hx)
  have hcg := hg.constructed _ List.mem_cons_self
  have hch := hh.constructed _ List.mem_cons_self
  have hfactors := hperm.flatMap_right factors
  have hprod := (constants_perm hfactors).prod_eq
  rw [← hcg.productOf_singleton, ← hch.productOf_singleton,
    productOf_beq_iff (hc.pair hcg hch hg.calls hh.calls), hg.constants, hh.constants, hprod]
  by_cases h0 : (constants (h.leaves.flatMap factors)).prod = 0
  · exact Or.inl ⟨h0, h0⟩
  · refine Or.inr ⟨fun t => ?_, rfl⟩
    have hothers := hg.others (by rw [hprod]; exact h0)
    exact (hothers.trans ((others_perm hfactors).trans (hh.others h0).symm)).count_eq t

/-- **Sums and products are normal forms.** Two sums are equal iff their other terms agree as multisets
and their constants add up to the same; two products are equal iff both have a zero, or their other
factors agree as multisets and their constants multiply to the same. So the grouping and the order of
the operands make no difference, and an expression is the sum of its own terms and the product of its
own factors. -/
theorem sumOf_productOf_normalForm :
    (∀ xs ys : List Expr, Coherent (xs ++ ys) →
      ((sumOf xs == sumOf ys) = true ↔
        (∀ t, (others (xs.flatMap terms)).count t = (others (ys.flatMap terms)).count t) ∧
        (constants (xs.flatMap terms)).sum = (constants (ys.flatMap terms)).sum) ∧
      ((productOf xs == productOf ys) = true ↔
        ((constants (xs.flatMap factors)).prod = 0 ∧ (constants (ys.flatMap factors)).prod = 0) ∨
        ((∀ t, (others (xs.flatMap factors)).count t = (others (ys.flatMap factors)).count t) ∧
          (constants (xs.flatMap factors)).prod = (constants (ys.flatMap factors)).prod))) ∧
    (∀ g h : Grouping, Coherent (g.leaves ++ h.leaves) → g.leaves.Perm h.leaves →
      (g.combine sumOf == h.combine sumOf) = true ∧
      (g.combine productOf == h.combine productOf) = true) ∧
    ∀ e : Expr, Constructed e →
      (sumOf e.terms == e) = true ∧ (productOf e.factors == e) = true := by
  refine ⟨fun xs ys hc => ⟨sumOf_beq_iff hc, productOf_beq_iff hc⟩,
    fun g h hc hperm => ⟨Grouping.combine_sumOf_beq hc hperm, Grouping.combine_productOf_beq hc hperm⟩,
    fun e he => ?_⟩
  rw [he.sumOf_terms, he.productOf_factors]
  exact ⟨beq_refl e, beq_refl e⟩

theorem sumOf_productOf_normalForm_reversed :
    (sumOf [sumOf [symbol "x", const 2], sumOf [symbol "y", const 3]] ==
      sumOf [const 3, sumOf [symbol "y", sumOf [const 2, symbol "x"]]]) = true := by
  have hleaf : ∀ e ∈ [symbol "x", const 2, symbol "y", const 3], Constructed e := by
    simp [symbol, Constructed.var, Constructed.const]
  have hperm := (List.reverse_perm [symbol "x", const 2, symbol "y", const 3]).symm
  refine (sumOf_productOf_normalForm.2.1
    (.node [.node [.leaf (symbol "x"), .leaf (const 2)], .node [.leaf (symbol "y"), .leaf (const 3)]])
    (.node [.leaf (const 3), .node [.leaf (symbol "y"), .node [.leaf (const 2), .leaf (symbol "x")]]])
    ⟨fun e he => ?_, nofun⟩ hperm).1
  exact (List.mem_append.mp he).elim (hleaf e) fun h => hleaf e (hperm.mem_iff.mpr h)

end SymbolicAlgebra.Expr
