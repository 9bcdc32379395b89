import SymbolicAlgebra.Proofs.FixedPoints
import SymbolicAlgebra.Proofs.Occurrence
import SymbolicAlgebra.Proofs.OperatorRules

/-!
# Matching an expression with itself

A search that commits to the first way that succeeds need not find a match that exists. For an expression
matched with itself it does: wherever the search has a choice, the first way that can succeed binds
each variable to itself. In sums and products the first part of the pattern is matched against the
first part of the subject, or cancelled from it when it is a variable that is bound already, and what is
left is again the same on both sides. That is where the subject has to be a fixed point: constants and
bound variables are cancelled by evaluation.

Results:
* `Reflects`: what an attempt does that binds variables to themselves.
* `reflects_matchCommutative`, `reflects_matchPower`: one node, if the operands match themselves.
* `match?_self`: a fixed point matches itself, and every variable in it is bound to itself.
-/

namespace SymbolicAlgebra

open Expr

/-! ## Bindings of variables to themselves -/

namespace MatchState

/-- A variable and the same variable. -/
def Self (key value : Expr) : Prop :=
  ∃ n, key = symbol n ∧ value = symbol n

/-- All that is bound are variables, to themselves. -/
structure Identical (s : MatchState) : Prop where
  consistent : s.Consistent
  entries : ∀ b ∈ s.bindings.entries, Self b.1 b.2

/-- The variable is bound to itself. -/
def Binds (s : MatchState) (n : String) : Prop :=
  s.bindings.get? (symbol n) = some (symbol n)

variable {s t : MatchState} {n : String}

theorem identical_empty : empty.Identical := ⟨consistent_empty, nofun⟩

theorem Identical.grows (hs : s.Identical) (h : Grows Self s t) : t.Identical := by
  obtain ⟨ht, added, hadded, hself⟩ := h
  refine ⟨ht, ?_⟩
  rw [hadded]
  exact List.forall_mem_append.mpr ⟨hs.entries, hself⟩

theorem Binds.grows (hn : s.Binds n) (h : Grows Self s t) : t.Binds n := by
  obtain ⟨-, added, hadded, -⟩ := h
  have hget : t.bindings.get? (symbol n) =
      (s.bindings.get? (symbol n)).or (Bindings.get? ⟨added⟩ (symbol n)) := by
    rw [← get?_append, ← hadded]
  rw [Binds, hget, hn, Option.some_or]

/-- What is bound is a variable, to itself. -/
theorem Identical.eq_of_get? (hs : s.Identical) {e value : Expr} (he : e.plain = true)
    (h : s.bindings.get? e = some value) : ∃ m, e = symbol m ∧ value = symbol m := by
  obtain ⟨⟨k, v⟩, hfind, rfl⟩ := Option.map_eq_some_iff.mp h
  obtain ⟨m, rfl, rfl⟩ := hs.entries (k, v) (List.mem_of_find?_eq_some hfind)
  have hkey : (symbol m == e) = true := List.find?_some (p := fun b : Expr × Expr => b.1 == e) hfind
  exact ⟨m, (Expr.eq_of_beq rfl he hkey).symm, rfl⟩

theorem binds_add (hnew : s.bindings.get? (symbol n) = none) :
    (s.add (symbol n) (symbol n)).Binds n := by
  rw [Binds, add, get?_append, hnew, Option.none_or]
  simp [Bindings.get?]

end MatchState

/-! ## Attempts that bind variables to themselves -/

namespace Attempt

open MatchState

/-- The attempt succeeds from `s`, binds variables to themselves only, and among them those in `names`. -/
def Reflects (a : Attempt) (names : Set String) (s : MatchState) : Prop :=
  ∃ t, a.run s = (true, t) ∧ Grows Self s t ∧ ∀ n ∈ names, t.Binds n

variable {a b : Attempt} {names names' : Set String} {s : MatchState}

theorem Reflects.mono (h : Reflects a names s) (hsub : names' ⊆ names) : Reflects a names' s := by
  obtain ⟨t, hrun, hgrows, hbinds⟩ := h
  exact ⟨t, hrun, hgrows, fun n hn => hbinds n (hsub hn)⟩

theorem reflects_pure (hs : s.Identical) : Reflects (pure true) ∅ s :=
  ⟨s, rfl, .refl hs.consistent, nofun⟩

/-- What is bound already stays bound. -/
theorem Reflects.insert {n : String} (h : Reflects a names s) (hn : s.Binds n) :
    Reflects a (names ∪ {n}) s := by
  obtain ⟨t, hrun, hgrows, hbinds⟩ := h
  refine ⟨t, hrun, hgrows, fun m hm => ?_⟩
  rcases hm with hm | rfl
  · exact hbinds m hm
  · exact hn.grows hgrows

theorem Reflects.andThen (hs : s.Identical) (ha : Reflects a names s)
    (hb : ∀ t : MatchState, t.Identical → Reflects b names' t) :
    Reflects (a.andThen b) (names ∪ names') s := by
  obtain ⟨t, hrun, hgrows, hbinds⟩ := ha
  obtain ⟨u, hrun', hgrows', hbinds'⟩ := hb t (hs.grows hgrows)
  refine ⟨u, (run_andThen_of_succeeds hrun).trans hrun', hgrows.trans hgrows', fun n hn => ?_⟩
  rcases hn with hn | hn
  · exact (hbinds n hn).grows hgrows'
  · exact hbinds' n hn

theorem Reflects.tentatively (h : Reflects a names s) : Reflects (tentatively a) names s := by
  obtain ⟨t, hrun, hgrows, hbinds⟩ := h
  exact ⟨t, run_tentatively_of_succeeds hrun, hgrows, hbinds⟩

theorem Reflects.orElse (h : Reflects a names s) : Reflects (a.orElse b) names s := by
  obtain ⟨t, hrun, hgrows, hbinds⟩ := h
  exact ⟨t, run_orElse_of_succeeds hrun, hgrows, hbinds⟩

theorem Reflects.anyM {α : Type} {attempt : α → Attempt} {x : α} {xs : List α}
    (h : Reflects (attempt x) names s) : Reflects ((x :: xs).anyM attempt) names s := by
  rw [anyM_cons]
  exact h.orElse

/-- A variable is bound to itself, or found bound to itself. -/
theorem reflects_bind (hs : s.Identical) (n : String) :
    Reflects (Attempt.bind (symbol n) (symbol n)) {n} s := by
  cases hget : s.bindings.get? (symbol n) with
  | none =>
    refine ⟨_, run_bind_of_unbound hget, .add hs.consistent hget ⟨n, rfl, rfl⟩, ?_⟩
    rintro m rfl
    exact binds_add hget
  | some bound =>
    obtain ⟨m, hm, rfl⟩ := hs.eq_of_get? rfl hget
    cases hm
    refine ⟨s, (run_bind_of_bound hget).trans (by rw [BEq.rfl]), .refl hs.consistent, ?_⟩
    rintro m rfl
    exact hget

end Attempt

namespace Matching

open Attempt MatchState Evaluator

variable {ctx : Context} {recur : Matcher} {s : MatchState}

/-- The variables that occur in an expression. -/
def names (e : Expr) : Set String :=
  {n | Relation.ReflTransGen Operand (symbol n) e}

/-- A variable occurs in an operand, or is the expression. -/
theorem mem_names {n : String} {e : Expr} (h : n ∈ names e) :
    symbol n = e ∨ ∃ c, Operand c e ∧ n ∈ names c := by
  rcases Relation.ReflTransGen.cases_tail h with heq | ⟨c, hnc, hce⟩
  · exact .inl heq.symm
  · exact .inr ⟨c, hce, hnc⟩

theorem eq_of_mem_names_symbol {m n : String} (h : m ∈ names (symbol n)) : m = n := by
  rcases mem_names h with heq | ⟨c, hc, -⟩
  · cases heq
    rfl
  · cases hc

/-- The first choice of one item is the first item. -/
theorem reflects_anySubset {α : Type} {attempt : List α → List α → Attempt} {x : α} {xs : List α}
    {names : Set String} (h : Reflects (attempt [x] xs) names s) :
    Reflects (anySubset attempt (x :: xs)) names s := by
  rw [anySubset, List.length_cons, List.range_succ_eq_map]
  refine Reflects.anyM ?_
  rw [anyChoice]
  refine Reflects.orElse ?_
  rw [anyChoice]
  exact h

/-! ## Sums and products -/

/-- Operands of a sum or product the first of which can be split off or, if it is a variable,
cancelled. -/
structure Peels (op : Operation) (ctx : Context) (p : Expr) (rest : List Expr) : Prop where
  parts : op.parts (op.combine (p :: rest)) = p :: rest
  single : op.combine [p] = p
  residue : ∀ n, p = symbol n →
    (op.residue (op.combine (p :: rest)) p).evaluate ctx = op.combine rest

/-- A pattern that matches itself, wherever variables are bound to themselves. -/
def SelfMatching (recur : Matcher) (e : Expr) : Prop :=
  ∀ s : MatchState, s.Identical → Reflects (recur e e) (names e) s

section Operands

variable {op : Operation} {p : Expr} {rest : List Expr} (hs : s.Identical)
  (hpeels : Peels op ctx p rest) (hp : SelfMatching recur p)
  (hrest : SelfMatching recur (op.combine rest))

include hs hpeels hp hrest

/-- **The first part matches itself**, and what is left matches what is left. -/
theorem reflects_matchPart (hplain : p.plain = true) :
    Reflects (matchPart op ctx recur p (op.combine rest) (op.combine (p :: rest)))
      (names p ∪ names (op.combine rest)) s := by
  have hsplit : Reflects (tentatively (andThen (recur p p)
      (recur (op.combine rest) (op.combine rest)))) (names p ∪ names (op.combine rest)) s :=
    ((hp s hs).andThen hs hrest).tentatively
  cases hvar : p.isVar
  · unfold matchPart
    dsimp only
    rw [hvar, if_neg Bool.false_ne_true, hpeels.parts, picks]
    refine Reflects.anyM ?_
    exact hsplit
  · cases p with
    | var n c =>
      obtain rfl := (plain_var n c).mp hplain
      rw [Reflects, run_matchPart_var]
      cases hget : s.bindings.get? (.var n none) with
      | none =>
        dsimp only
        rw [hpeels.parts]
        refine Reflects.orElse (reflects_anySubset ?_)
        rw [hpeels.single]
        exact hsplit
      | some bound =>
        obtain ⟨m, hm, rfl⟩ := hs.eq_of_get? rfl hget
        cases hm
        dsimp only
        have hresidue : (op.residue (op.combine (.var n none :: rest)) (symbol n)).evaluate ctx =
            op.combine rest := hpeels.residue n rfl
        rw [hresidue]
        refine Reflects.mono ((hrest s hs).tentatively.insert hget) ?_
        rintro k (hk | hk)
        · exact .inr (eq_of_mem_names_symbol hk)
        · exact .inl hk
    | _ => cases hvar

/-- **A sum or product matches itself** if the first part that is no constant does, and what is left
without it. -/
theorem reflects_matchCommutative {pattern : List Expr} {subject : Expr} (hplain : p.plain = true)
    (hothers : others pattern = p :: rest)
    (hsubject : (if (pattern.filter Expr.isConst).isEmpty then subject
      else (op.residue subject (op.combine (pattern.filter Expr.isConst))).evaluate ctx) =
        op.combine (p :: rest)) :
    Reflects (matchCommutative op ctx recur pattern subject)
      (names p ∪ names (op.combine rest)) s := by
  have hparts : pattern.partition Expr.isConst = (pattern.filter Expr.isConst, p :: rest) := by
    rw [← hothers, List.partition_eq_filter_filter]
    rfl
  unfold matchCommutative
  rw [hparts]
  dsimp only
  rw [hsubject, List.isEmpty_cons, if_neg Bool.false_ne_true, picks]
  refine Reflects.anyM ?_
  exact reflects_matchPart hs hpeels hp hrest hplain

end Operands

/-! ### Fixed sums and products -/

theorem filter_isConst (xs : List Expr) :
    xs.filter Expr.isConst = (constants xs).map Expr.const := by
  induction xs with
  | nil => rfl
  | cons x xs ih =>
    cases hc : x.isConst
    · rw [List.filter_cons_of_neg (by rw [hc]; exact Bool.false_ne_true), constants_cons hc, ih]
    · obtain ⟨q, rfl⟩ := exists_of_isConst hc
      rw [List.filter_cons_of_pos rfl, constants_const, List.map_cons, ih]

theorem peels_sum (ctx : Context) {t : Expr} {ts : List Expr} (h : Addends (t :: ts)) :
    Peels .sum ctx t ts where
  parts := h.terms_sumOf
  single := (h.canonical t List.mem_cons_self).constructed.sumOf_singleton
  residue n hn := by
    subst hn
    have hsum := canonical_sumOf h.canonical
    dsimp only [Operation.sum]
    rw [evaluate_eq (canonical_subtract hsum (h.canonical _ List.mem_cons_self)),
      h.evaluated_subtract]

theorem peels_product (ctx : Context) {f : Expr} {fs : List Expr} (h : Multiplicands (f :: fs)) :
    Peels .product ctx f fs where
  parts := h.factors_productOf
  single := (h.canonical f List.mem_cons_self).constructed.productOf_singleton
  residue n hn := by
    subst hn
    have hproduct := canonical_productOf h.canonical
    dsimp only [Operation.product]
    rw [evaluate_eq (canonical_divide hproduct (h.canonical _ List.mem_cons_self)),
      h.evaluated_divide]

/-- What is left of a fixed sum without its constant. -/
theorem sum_without_constant (ctx : Context) {ts : List Expr} (h : Fixed (.sum ts)) :
    (if (ts.filter Expr.isConst).isEmpty then Expr.sum ts
      else (Operation.sum.residue (.sum ts)
        (Operation.sum.combine (ts.filter Expr.isConst))).evaluate ctx) = sumOf (others ts) := by
  rw [filter_isConst]
  rcases h.canonical.constructed.constants_terms with hnil | ⟨c, hc, -⟩
  · rw [terms_sum] at hnil
    rw [hnil, List.map_nil, List.isEmpty_nil, if_pos rfl, others_eq_self hnil]
    exact h.canonical.sumOf_terms.symm
  · rw [terms_sum] at hc
    rw [hc, List.map_singleton, List.isEmpty_cons, if_neg Bool.false_ne_true]
    have hconst : Expr.Canonical (sumOf [.const c]) :=
      canonical_sumOf (List.forall_mem_singleton.mpr (.const c))
    dsimp only [Operation.sum]
    rw [evaluate_eq (canonical_subtract h.canonical hconst), h.evaluated_subtract_const hc]

/-- What is left of a fixed product without its constant. -/
theorem product_without_constant (ctx : Context) {fs : List Expr} (h : Fixed (.product fs)) :
    (if (fs.filter Expr.isConst).isEmpty then Expr.product fs
      else (Operation.product.residue (.product fs)
        (Operation.product.combine (fs.filter Expr.isConst))).evaluate ctx) =
      productOf (others fs) := by
  rw [filter_isConst]
  rcases h.canonical.constructed.constants_factors rfl with hnil | ⟨c, -, -, hc⟩
  · rw [factors_product] at hnil
    rw [hnil, List.map_nil, List.isEmpty_nil, if_pos rfl, others_eq_self hnil]
    exact h.canonical.productOf_factors.symm
  · rw [factors_product] at hc
    rw [hc, List.map_singleton, List.isEmpty_cons, if_neg Bool.false_ne_true]
    have hconst : Expr.Canonical (productOf [.const c]) :=
      canonical_productOf (List.forall_mem_singleton.mpr (.const c))
    dsimp only [Operation.product]
    rw [evaluate_eq (canonical_divide h.canonical hconst), h.evaluated_divide_const hc]

/-! ## Variables of the operands -/

theorem names_of_operand {c e : Expr} (h : Operand c e) : names c ⊆ names e :=
  fun _ hn => hn.tail h

theorem names_const (q : Rat) : names (.const q) = ∅ := by
  refine Set.eq_empty_of_forall_notMem fun n hn => ?_
  rcases mem_names hn with heq | ⟨c, hc, -⟩
  · cases heq
  · cases hc

theorem names_of_terms {t e : Expr} (ht : t ∈ e.terms) : names t ⊆ names e := by
  cases hs : e.isSum
  · rw [terms_eq_self hs, List.mem_singleton] at ht
    exact ht ▸ Set.Subset.rfl
  · obtain ⟨ts, rfl⟩ := exists_of_isSum hs
    exact names_of_operand (.term ht)

theorem names_of_factors {f e : Expr} (hf : f ∈ e.factors) : names f ⊆ names e := by
  cases hp : e.isProduct
  · rw [factors_eq_self hp, List.mem_singleton] at hf
    exact hf ▸ Set.Subset.rfl
  · obtain ⟨fs, rfl⟩ := exists_of_isProduct hp
    exact names_of_operand (.factor hf)

/-- The variables of a sum are those of its first term that is no constant and of the rest. -/
theorem names_sum {t : Expr} {ts us : List Expr} (hothers : others ts = t :: us)
    (h : Addends (t :: us)) : names (.sum ts) ⊆ names t ∪ names (sumOf us) := by
  intro n hn
  rcases mem_names hn with heq | ⟨c, hc, hnc⟩
  · cases heq
  cases hc with
  | term hmem =>
    cases hconst : c.isConst
    · have hc : c ∈ t :: us := hothers ▸ mem_others.mpr ⟨hmem, hconst⟩
      rcases List.mem_cons.mp hc with rfl | hc
      · exact .inl hnc
      · refine .inr (names_of_terms ?_ hnc)
        cases us with
        | nil => cases hc
        | cons u us => rwa [h.tail.terms_sumOf]
    · obtain ⟨q, rfl⟩ := exists_of_isConst hconst
      rw [names_const] at hnc
      cases hnc

/-- The variables of a product are those of its first factor that is no constant and of the rest. -/
theorem names_product {f : Expr} {fs gs : List Expr} (hothers : others fs = f :: gs)
    (h : Multiplicands (f :: gs)) : names (.product fs) ⊆ names f ∪ names (productOf gs) := by
  intro n hn
  rcases mem_names hn with heq | ⟨c, hc, hnc⟩
  · cases heq
  cases hc with
  | factor hmem =>
    cases hconst : c.isConst
    · have hc : c ∈ f :: gs := hothers ▸ mem_others.mpr ⟨hmem, hconst⟩
      rcases List.mem_cons.mp hc with rfl | hc
      · exact .inl hnc
      · refine .inr (names_of_factors ?_ hnc)
        cases gs with
        | nil => cases hc
        | cons g gs => rwa [h.tail.factors_productOf]
    · obtain ⟨q, rfl⟩ := exists_of_isConst hconst
      rw [names_const] at hnc
      cases hnc

/-! ## Powers -/

/-- A power pattern whose exponent is bound matches by a root. -/
theorem run_matching_power_of_bound {p q e bound : Expr} {t : MatchState}
    (hbound : s.bindings.get? q = some bound)
    (hroot : (p.matching ((power e (inverse bound)).evaluate ctx) ctx).run s = (true, t)) :
    ((power p q).matching e ctx).run s = (true, t) := by
  rw [Expr.matching_eq]
  change StateT.run (matchPower ctx (fun p e => p.matching e ctx) p q e) s = _
  unfold matchPower
  simp only [anyM_cons]
  refine run_orElse_of_succeeds (run_tentatively_of_succeeds ?_)
  have hget : ((get : StateM MatchState MatchState).run s).1.bindings.get? q = some bound := hbound
  simp only [run_seq, hget]
  exact hroot

/-- **A power matches itself**: by its root when the exponent is a variable that is bound already, else
as the power that it is. -/
theorem reflects_matchPower {b x : Expr} (h : Fixed (power b x)) (hs : s.Identical)
    (hb : SelfMatching (fun p e => p.matching e ctx) b)
    (hx : SelfMatching (fun p e => p.matching e ctx) x) :
    Reflects ((power b x).matching (power b x) ctx) (names b ∪ names x) s := by
  have hcanon := h.canonical.of_binary
  cases hget : s.bindings.get? x with
  | none =>
    rw [Reflects, run_matching_power hget rfl fun h => by cases h]
    exact ((hb s hs).andThen hs hx).tentatively.orElse
  | some bound =>
    obtain ⟨n, rfl, rfl⟩ := hs.eq_of_get? hcanon.2.plain hget
    have hroot : (power (power b (symbol n)) (inverse (symbol n))).evaluate ctx = b := by
      rw [evaluate_eq (h.canonical.power (canonical_inverse hcanon.2)), h.evaluated_root]
    obtain ⟨t, hrun, hgrows, hbinds⟩ := (hb s hs).insert hget
    refine ⟨t, run_matching_power_of_bound hget (by rwa [hroot]), hgrows, fun k hk => ?_⟩
    rcases hk with hk | hk
    · exact hbinds k (.inl hk)
    · exact hbinds k (.inr (eq_of_mem_names_symbol hk))

/-! ## The other nodes -/

/-- Lists match themselves item by item. -/
theorem reflects_eachInOrder : ∀ {ms : List Expr} {s : MatchState}, s.Identical →
    (∀ m ∈ ms, SelfMatching recur m) →
      Reflects (eachInOrder recur ms ms) {n | ∃ m ∈ ms, n ∈ names m} s
  | [], _, hs, _ => (reflects_pure hs).mono fun n ⟨_, hm, _⟩ => nomatch hm
  | m :: ms, s, hs, h => by
    obtain ⟨hm, hms⟩ := List.forall_mem_cons.mp h
    refine ((hm s hs).andThen hs fun t ht => reflects_eachInOrder ht hms).mono ?_
    rintro n ⟨k, hk, hn⟩
    rcases List.mem_cons.mp hk with rfl | hk
    · exact .inl hn
    · exact .inr ⟨k, hk, hn⟩

theorem names_binary (op : BinaryOp) (l r : Expr) :
    names (.binary op l r) ⊆ names l ∪ names r := by
  intro n hn
  rcases mem_names hn with heq | ⟨c, hc, hnc⟩
  · cases heq
  · cases hc with
    | left => exact .inl hnc
    | right => exact .inr hnc

/-- The first operand that is no constant is smaller than the node, and so is the rest. -/
theorem size_split {op : Operation} (hop : op.Bounded) {x : Expr} {xs ys : List Expr}
    (hothers : others xs = x :: ys) :
    x.size < sizeList xs + 1 ∧ (op.combine ys).size < sizeList xs + 1 := by
  have hle : sizeList (others xs) ≤ sizeList xs := by
    rw [sizeList_eq_sum, sizeList_eq_sum]
    exact (List.filter_sublist.map _).sum_le_sum fun _ _ => Nat.zero_le _
  rw [hothers, sizeList] at hle
  have hcombine := hop ys
  have hpos := x.size_pos
  omega

/-- **A fixed point matches itself** wherever variables are bound to themselves, by induction on its
size: what is left of a sum or product without its first operand is no part of it, but smaller. -/
theorem reflects_matching {e : Expr} (he : Fixed e) (ctx : Context) :
    SelfMatching (fun p e => p.matching e ctx) e := by
  induction hsize : e.size using Nat.strong_induction_on generalizing e with
  | _ n ih =>
  intro s hs
  have operand {c : Expr} (hc : Operand c e) (hlt : c.size < n) :
      SelfMatching (fun p e => p.matching e ctx) c := ih c.size hlt (he.of_operand hc) rfl
  subst hsize
  dsimp only
  cases e with
  | const q =>
    rw [matching_const, BEq.rfl, names_const]
    exact reflects_pure hs
  | var n c =>
    obtain rfl := (plain_var n c).mp he.canonical.plain
    have hbind := reflects_bind hs n
    rw [← matching_symbol n _ ctx] at hbind
    exact hbind.mono fun k hk => eq_of_mem_names_symbol hk
  | sum ts =>
    obtain ⟨t, us, hothers⟩ := List.exists_cons_of_ne_nil (others_terms_ne_nil he.canonical rfl)
    rw [terms_sum] at hothers
    have haddends : Addends (t :: us) := hothers ▸ he.addends
    obtain ⟨ht, hus⟩ := size_split bounded_sum hothers
    have hrest : SelfMatching (fun p e => p.matching e ctx) (sumOf us) :=
      ih _ (by rw [size]; exact hus) haddends.tail.fixed_sumOf rfl
    have hfirst : SelfMatching (fun p e => p.matching e ctx) t :=
      ih _ (by rw [size]; exact ht) (haddends.fixed t List.mem_cons_self) rfl
    rw [Expr.matching_eq]
    refine Reflects.mono ?_ (names_sum hothers haddends)
    exact reflects_matchCommutative hs (peels_sum ctx haddends) hfirst hrest
      (haddends.canonical t List.mem_cons_self).plain hothers
      ((sum_without_constant ctx he).trans (congrArg sumOf hothers))
  | product fs =>
    obtain ⟨f, gs, hothers⟩ :=
      List.exists_cons_of_ne_nil (he.canonical.constructed.others_factors_ne_nil rfl)
    rw [factors_product] at hothers
    have hmultiplicands : Multiplicands (f :: gs) := hothers ▸ he.multiplicands
    obtain ⟨hf, hgs⟩ := size_split bounded_product hothers
    have hrest : SelfMatching (fun p e => p.matching e ctx) (productOf gs) :=
      ih _ (by rw [size]; exact hgs) hmultiplicands.tail.fixed_productOf rfl
    have hfirst : SelfMatching (fun p e => p.matching e ctx) f :=
      ih _ (by rw [size]; exact hf) (hmultiplicands.fixed f List.mem_cons_self) rfl
    rw [Expr.matching_eq]
    refine Reflects.mono ?_ (names_product hothers hmultiplicands)
    exact reflects_matchCommutative hs (peels_product ctx hmultiplicands) hfirst hrest
      (hmultiplicands.canonical f List.mem_cons_self).plain hothers
      ((product_without_constant ctx he).trans (congrArg productOf hothers))
  | binary op l r =>
    have hl : SelfMatching (fun p e => p.matching e ctx) l := operand .left (by rw [size]; omega)
    have hr : SelfMatching (fun p e => p.matching e ctx) r := operand .right (by rw [size]; omega)
    by_cases hop : op = .power
    · subst hop
      exact (reflects_matchPower he hs hl hr).mono (names_binary _ l r)
    · rw [Expr.matching_eq, step_binary hop]
      dsimp only
      rw [if_pos rfl]
      exact ((hl s hs).andThen hs hr).tentatively.mono (names_binary op l r)
  | not a =>
    have ha : SelfMatching (fun p e => p.matching e ctx) a := operand .negated (by rw [size]; omega)
    rw [Expr.matching_eq]
    refine Reflects.mono (ha s hs).tentatively fun n hn => ?_
    rcases mem_names hn with heq | ⟨c, hc, hnc⟩
    · cases heq
    · cases hc with
      | negated => exact hnc
  | call f args => cases he.canonical
  | set ms =>
    rw [Expr.matching_eq, step, if_pos rfl]
    refine Reflects.mono (reflects_eachInOrder hs fun m hm => ?_).tentatively fun n hn => ?_
    · exact operand (.member hm) (by rw [size]; exact Nat.lt_succ_of_le (size_le_sizeList hm))
    · rcases mem_names hn with heq | ⟨c, hc, hnc⟩
      · cases heq
      · cases hc with
        | member hm => exact ⟨c, hm, hnc⟩

/-- A variable that occurs is one of the names. -/
theorem mem_names_of_dependsOn {e : Expr} (he : Expr.Canonical e) {n : String}
    (h : e.dependsOn (symbol n) = true) : n ∈ names e := by
  by_contra hn
  have hfree : Throughout (fun c => [symbol n].contains c = false) e := by
    intro c hc
    rw [List.contains_cons, List.contains_nil, Bool.or_false]
    refine Bool.eq_false_iff.mpr fun heq => hn ?_
    rwa [Expr.eq_of_beq (canonical_of_part he hc).plain rfl heq] at hc
  have hfalse : mentions [symbol n] e = false := (mentions_eq_false_iff he.plain).mpr hfree
  rw [dependsOn, dependsOnAny] at h
  exact absurd (hfalse.symm.trans h) Bool.false_ne_true

end Matching

namespace Expr

open Evaluator Matching MatchState

/-- **An expression that evaluation leaves as it is, part by part, matches itself**: each variable in it is
bound to itself, and nothing is bound to anything else. -/
theorem match?_self {e : Expr} {ctx : Context} (he : Canonical e)
    (hfixed : Throughout (fun c => c.evaluate ctx = c) e) :
    ∃ b, e.match? e ctx = some b ∧ (∀ p ∈ b.entries, ∃ n, p = (symbol n, symbol n)) ∧
      ∀ n, e.dependsOn (symbol n) = true → b.get? (symbol n) = some (symbol n) := by
  obtain ⟨t, hrun, hgrows, hbinds⟩ :=
    reflects_matching ((fixed_iff ctx).mpr ⟨he, hfixed⟩) ctx .empty identical_empty
  refine ⟨t.bindings, ?_, fun p hp => ?_, fun n hn => hbinds n (mem_names_of_dependsOn he hn)⟩
  · rw [match?, Attempt.bindings?]
    dsimp only at hrun
    rw [hrun]
    rfl
  · obtain ⟨n, hkey, hvalue⟩ := (identical_empty.grows hgrows).entries p hp
    exact ⟨n, Prod.ext hkey hvalue⟩

/-- `x * y < z ^ x + 3`, where `x` is bound when `z ^ x` is matched. -/
theorem match?_self_power :
    let e := binary .less (product [symbol "x", symbol "y"])
      (.sum [const 3, power (symbol "z") (symbol "x")])
    Canonical e ∧ Throughout (fun c => c.evaluate (.inert .standard) = c) e ∧
      ∃ b, e.match? e (.inert .standard) = some b ∧ b.get? (symbol "x") = some (symbol "x") ∧
        b.get? (symbol "y") = some (symbol "y") ∧ b.get? (symbol "z") = some (symbol "z") := by
  intro e
  have hproduct : Fixed (product [symbol "x", symbol "y"]) := by
    refine fixed_of (.product (forall_mem_pair (.var "x") (.var "y")) (by cbv)) (by cbv) ?_
    rintro c (_ | hc)
    exact forall_mem_pair (fixed_symbol "x") (fixed_symbol "y") c hc
  have hpower : Fixed (power (symbol "z") (symbol "x")) := by
    refine fixed_of (Canonical.power (.var "z") (.var "x")) (by cbv) ?_
    rintro c (_ | _)
    · exact fixed_symbol "z"
    · exact fixed_symbol "x"
  have hsum : Fixed (.sum [const 3, power (symbol "z") (symbol "x")]) := by
    refine fixed_of (.sum (forall_mem_pair (.const 3) hpower.canonical) (by cbv)) (by cbv) ?_
    rintro c (hc | _)
    exact forall_mem_pair (fixed_const 3) hpower c hc
  have he : Fixed e := by
    refine fixed_of (.binary (by decide) hproduct.canonical hsum.canonical) (by cbv) fun c hc => ?_
    cases (show Operand c (.binary .less _ _) from hc) with
    | left => exact hproduct
    | right => exact hsum
  obtain ⟨hcanon, hparts⟩ := (fixed_iff (.inert .standard)).mp he
  obtain ⟨b, hmatch, -, hvars⟩ := match?_self hcanon hparts
  exact ⟨hcanon, hparts, b, hmatch, hvars "x" (by decide), hvars "y" (by decide),
    hvars "z" (by decide)⟩

end Expr

end SymbolicAlgebra
