import SymbolicAlgebra.Proofs.Structure
import SymbolicAlgebra.Evaluation.Evaluator

/-!
# The steps of the evaluator as functions

The steps of the evaluator run in whatever monad the visit that they are given runs in. `pureStep`
says what one step computes when the visits are a plain function, and `SubVisit` which visits it
makes. An `Agreement` says what it means for a computation of a monad to give a value.

Results:
* `Agreement.step`: if the visits of a step give the values of a plain function, then the step gives
  what `pureStep` makes of them.
-/

namespace SymbolicAlgebra.Evaluator

/-! ## Plain steps -/

/-- `x * t` for a term `t`, with the product distributed over the terms of `x`. -/
def distributedTerm (visit : Expr → Expr) (x t : Expr) : Expr :=
  match x with
  | .sum us => Expr.collect ((us.map fun u => visit (Expr.productOf [t, u])).flatMap Expr.terms)
  | _ => visit (Expr.productOf [x, t])

/-- `x * a`, multiplied out over the terms of both. -/
def distributed (visit : Expr → Expr) (x a : Expr) : Expr :=
  if a.isSum || x.isSum then
    Expr.collect (a.terms.flatMap fun t => (distributedTerm visit x t).terms)
  else visit (Expr.productOf [a, x])

/-- The products that multiplying out visits. -/
def distributeVisits (x a : Expr) : List Expr :=
  if a.isSum || x.isSum then
    a.terms.flatMap fun t => x.terms.map fun u =>
      if x.isSum then Expr.productOf [t, u] else Expr.productOf [x, t]
  else [Expr.productOf [a, x]]

/-- The terms of a sum, each multiplied by a constant and visited, with like terms combined. -/
def scaledSum (visit : Expr → Expr) (scale : Rat) (base : Expr) : Expr :=
  Expr.collect (base.terms.flatMap fun t => (visit (Expr.productOf [.const scale, t])).terms)

/-- The bases once the sum `base` has taken over the constant and become `distributed`. -/
def Bases.replace (b : Bases) (base : Expr) (x : Rat) (distributed : Expr) : Bases :=
  match distributed with
  | .const r =>
    match Rational.pow? r x with
    | some value => ⟨value, b.exponents.erase base⟩
    | none => ⟨1, ((b.exponents.erase base).erase distributed).add distributed x⟩
  | _ => ⟨1, (b.exponents.erase base).add distributed x⟩

/-- The bases once their constant is multiplied into a sum, if there is one to take it. -/
def Bases.absorbed (visit : Expr → Expr) (b : Bases) : Bases :=
  if b.constant = 1 then b
  else
    match b.absorber? with
    | none => b
    | some (base, x, scale) => b.replace base x (scaledSum visit scale base)

/-- The bases of the visited factors. -/
def visitedBases (visit : Expr → Expr) (fs : List Expr) : Bases :=
  .ofFactors ((fs.map visit).flatMap Expr.factors)

def sumStep (visit : Expr → Expr) (ts : List Expr) : Expr :=
  Expr.collect ((ts.map visit).flatMap Expr.terms)

def productStep (visit : Expr → Expr) (fs : List Expr) : Expr :=
  if (visitedBases visit fs).constant = 0 then .zero
  else ((visitedBases visit fs).absorbed visit).product

def powerStep (visit : Expr → Expr) (b x : Expr) : Expr :=
  match visit b with
  | .product fs => visit (Expr.productOf (fs.map fun f => Expr.power f x))
  | .binary .power b' x' => simplePower b' (visit (Expr.productOf [visit x, x']))
  | l => simplePower l (visit x)

def binaryStep (visit : Expr → Expr) (op : BinaryOp) (l r : Expr) : Expr :=
  match decide? op (visit l) (visit r) with
  | some truth => .boolean truth
  | none => .binary op (visit l) (visit r)

def notStep (visit : Expr → Expr) (a : Expr) : Expr :=
  if (visit a).isTrue then .boolean false
  else if (visit a).isZero then .boolean true
  else .not (visit a)

/-- One step of a plain evaluator; calls are left alone. -/
def pureStep (visit : Expr → Expr) (e : Expr) : Expr :=
  match e with
  | .const _ | .var .. | .call .. => e
  | .sum ts => keepIfEqual e (sumStep visit ts)
  | .product fs => keepIfEqual e (productStep visit fs)
  | .binary .power b x => keepIfEqual e (powerStep visit b x)
  | .binary op l r => keepIfEqual e (binaryStep visit op l r)
  | .not a => keepIfEqual e (notStep visit a)
  | .set ms => Expr.setOf (ms.map visit)

/-- The visits that one step for an expression makes, given what the visits yield. -/
inductive SubVisit (visit : Expr → Expr) : Expr → Expr → Prop
  | term {t : Expr} {ts : List Expr} : t ∈ ts → SubVisit visit t (.sum ts)
  | factor {f : Expr} {fs : List Expr} : f ∈ fs → SubVisit visit f (.product fs)
  | scaledTerm {t base : Expr} {x scale : Rat} {fs : List Expr} :
    (visitedBases visit fs).absorber? = some (base, x, scale) → t ∈ base.terms →
      SubVisit visit (Expr.productOf [.const scale, t]) (.product fs)
  | left {op : BinaryOp} {l r : Expr} : SubVisit visit l (.binary op l r)
  | right {op : BinaryOp} {l r : Expr} : SubVisit visit r (.binary op l r)
  | distributed {b x : Expr} {fs : List Expr} : visit b = .product fs →
    SubVisit visit (Expr.productOf (fs.map fun f => Expr.power f x)) (Expr.power b x)
  | exponents {b x b' x' : Expr} : visit b = Expr.power b' x' →
    SubVisit visit (Expr.productOf [visit x, x']) (Expr.power b x)
  | operand {a : Expr} : SubVisit visit a (.not a)
  | member {m : Expr} {ms : List Expr} : m ∈ ms → SubVisit visit m (.set ms)

/-- What the absorber is: one of the bases, a sum with exponent `1` or `-1`, and the factor that its
terms take over. -/
theorem Bases.absorber?_eq_some {b : Bases} {base : Expr} {x scale : Rat}
    (h : b.absorber? = some (base, x, scale)) :
    (base, x) ∈ b.exponents.entries ∧ base.isSum = true ∧
      ((x = 1 ∧ scale = b.constant) ∨ (x = -1 ∧ b.constant ≠ 0 ∧ scale = b.constant⁻¹)) := by
  unfold absorber? at h
  split at h
  · rename_i base' x' hfind
    have hmem := List.mem_of_find?_eq_some hfind
    have hprop := List.find?_some hfind
    simp only [Bool.and_eq_true, Bool.or_eq_true, beq_iff_eq] at hprop
    obtain ⟨hx, hsum⟩ := hprop
    split at h
    · rename_i hneg
      obtain ⟨r, hr, heq⟩ := Option.map_eq_some_iff.mp h
      cases heq
      rw [Rational.inverse?] at hr
      split at hr
      · cases hr
      · rename_i h0
        cases hr
        refine ⟨hmem, hsum, Or.inr ⟨?_, h0, rfl⟩⟩
        rcases hx with rfl | hx
        · exact absurd hneg (by decide)
        · exact hx
    · rename_i hpos
      cases h
      refine ⟨hmem, hsum, Or.inl ⟨?_, rfl⟩⟩
      rcases hx with hx | rfl
      · exact hx
      · exact absurd (by decide) hpos
  · cases h

/-! ## Agreement -/

/-- What it means for a computation to give a value, closed under `pure` and `bind`. -/
structure Agreement (m : Type → Type) [Monad m] where
  Gives : {α : Type} → m α → α → Prop
  pure : ∀ {α : Type} (a : α), Gives (Pure.pure a) a
  bind : ∀ {α β : Type} {x : m α} {a : α} {f : α → m β} {b : β},
    Gives x a → Gives (f a) b → Gives (x >>= f) b

/-- In the identity monad a computation is its value. -/
def Agreement.identity : Agreement Id where
  Gives x a := x = a
  pure _ := rfl
  bind hx hf := by subst hx; exact hf

namespace Agreement

variable {m : Type → Type} [Monad m] (A : Agreement m)
variable {visit : Visit m} {v : Expr → Expr}

theorem map {α β : Type} {x : m α} {a : α} (f : α → β) (h : A.Gives x a) :
    A.Gives (do return f (← x)) (f a) :=
  A.bind h (A.pure (f a))

theorem visitList {ts : List Expr} (h : ∀ t ∈ ts, A.Gives (visit t) (v t)) :
    A.Gives (Evaluator.visitList visit ts) (ts.map v) := by
  induction ts with
  | nil => exact A.pure []
  | cons t ts ih =>
    exact A.bind (h t (by simp)) (A.map _ (ih fun u hu => h u (by simp [hu])))

theorem distributeTerm {x t : Expr} (h : ∀ u ∈ x.terms,
      let e := if x.isSum then Expr.productOf [t, u] else Expr.productOf [x, t]
      A.Gives (visit e) (v e)) :
    A.Gives (Evaluator.distributeTerm visit x t) (distributedTerm v x t) := by
  cases hs : x.isSum
  · rw [Expr.terms_eq_self hs] at h
    have hx := h x (by simp)
    simp only [hs] at hx
    cases x with
    | sum us => cases hs
    | _ => exact hx
  · obtain ⟨us, rfl⟩ := Expr.exists_of_isSum hs
    have hlist : A.Gives (Evaluator.visitList visit (us.map fun u => Expr.productOf [t, u]))
        ((us.map fun u => Expr.productOf [t, u]).map v) := A.visitList fun e he => by
      obtain ⟨u, hu, rfl⟩ := List.mem_map.mp he
      exact h u hu
    rw [List.map_map] at hlist
    rw [Evaluator.distributeTerm, distributedTerm]
    exact A.map _ hlist

theorem distributeOver {x : Expr} {ts : List Expr}
    (h : ∀ t ∈ ts, A.Gives (Evaluator.distributeTerm visit x t) (distributedTerm v x t)) :
    A.Gives (Evaluator.distributeOver visit x ts)
      (ts.flatMap fun t => (distributedTerm v x t).terms) := by
  induction ts with
  | nil => exact A.pure []
  | cons t ts ih =>
    exact A.bind (h t (by simp)) (A.map _ (ih fun u hu => h u (by simp [hu])))

/-- Multiplying out agrees with the plain operation where its visits do. -/
theorem distribute {x a : Expr} (h : ∀ e ∈ distributeVisits x a, A.Gives (visit e) (v e)) :
    A.Gives (Evaluator.distribute visit x a) (distributed v x a) := by
  unfold Evaluator.distribute distributed
  unfold distributeVisits at h
  split
  · rename_i hsum
    rw [if_pos hsum] at h
    refine A.map _ (A.distributeOver fun t ht => A.distributeTerm fun u hu => ?_)
    exact h _ (List.mem_flatMap.mpr ⟨t, ht, List.mem_map.mpr ⟨u, hu, rfl⟩⟩)
  · rename_i hsum
    rw [if_neg hsum] at h
    exact h _ (by simp)

theorem distribute_const {q : Rat} {base : Expr} (hbase : base.isSum = true)
    (h : ∀ t ∈ base.terms,
      A.Gives (visit (Expr.productOf [.const q, t])) (v (Expr.productOf [.const q, t]))) :
    A.Gives (Evaluator.distribute visit (.const q) base) (scaledSum v q base) := by
  have heq : distributed v (.const q) base = scaledSum v q base := by
    simp only [distributed, scaledSum, hbase, Bool.true_or, if_true, distributedTerm]
  rw [← heq]
  refine A.distribute fun e he => ?_
  rw [distributeVisits, hbase] at he
  obtain ⟨t, ht, he⟩ := List.mem_flatMap.mp he
  obtain ⟨u, -, rfl⟩ := List.mem_map.mp he
  exact h t ht

theorem absorbConstant {b : Bases} (h : ∀ base x scale, b.absorber? = some (base, x, scale) →
      ∀ t ∈ base.terms, A.Gives (visit (Expr.productOf [.const scale, t]))
        (v (Expr.productOf [.const scale, t]))) :
    A.Gives (b.absorbConstant visit) (b.absorbed v) := by
  unfold Bases.absorbConstant Bases.absorbed
  by_cases hc : b.constant = 1
  · rw [if_pos hc, if_pos hc]
    exact A.pure b
  · rw [if_neg hc, if_neg hc]
    cases heq : b.absorber? with
    | none => exact A.pure b
    | some found =>
      obtain ⟨base, x, scale⟩ := found
      refine A.bind (A.distribute_const (Bases.absorber?_eq_some heq).2.1 (h base x scale heq)) ?_
      change A.Gives _ (b.replace base x (scaledSum v scale base))
      generalize scaledSum v scale base = d
      unfold Bases.replace
      cases d with
      | const r =>
        dsimp only
        cases Rational.pow? r x with
        | some value => exact A.pure _
        | none => exact A.pure _
      | _ => exact A.pure _

theorem visitSum {ts : List Expr} (h : ∀ t ∈ ts, A.Gives (visit t) (v t)) :
    A.Gives (Evaluator.visitSum visit ts) (sumStep v ts) :=
  A.map _ (A.visitList h)

theorem visitProduct {fs : List Expr} (h : ∀ f ∈ fs, A.Gives (visit f) (v f))
    (hs : ∀ base x scale, (visitedBases v fs).absorber? = some (base, x, scale) →
      ∀ t ∈ base.terms, A.Gives (visit (Expr.productOf [.const scale, t]))
        (v (Expr.productOf [.const scale, t]))) :
    A.Gives (Evaluator.visitProduct visit fs) (productStep v fs) := by
  unfold Evaluator.visitProduct productStep
  refine A.bind (A.visitList h) ?_
  rw [← visitedBases]
  by_cases h0 : (visitedBases v fs).constant = 0
  · rw [if_pos h0]
    simp only [h0, if_true]
    exact A.pure _
  · rw [if_neg h0]
    simp only [h0, if_false]
    exact A.map _ (A.absorbConstant hs)

theorem visitPower {b x : Expr} (hb : A.Gives (visit b) (v b)) (hx : A.Gives (visit x) (v x))
    (hd : ∀ fs, v b = .product fs →
      A.Gives (visit (Expr.productOf (fs.map fun f => Expr.power f x)))
        (v (Expr.productOf (fs.map fun f => Expr.power f x))))
    (he : ∀ b' x', v b = Expr.power b' x' → A.Gives (visit (Expr.productOf [v x, x']))
      (v (Expr.productOf [v x, x']))) :
    A.Gives (Evaluator.visitPower visit b x) (powerStep v b x) := by
  unfold Evaluator.visitPower powerStep
  refine A.bind hb ?_
  cases hvb : v b with
  | product fs => exact hd fs hvb
  | binary op l r =>
    refine A.bind hx ?_
    unfold Evaluator.raise
    cases op with
    | power => exact A.map _ (he l r hvb)
    | _ => exact A.pure _
  | _ => exact A.bind hx (A.pure _)

theorem visitBinary {op : BinaryOp} {l r : Expr} (hop : op ≠ .substitute)
    (hl : A.Gives (visit l) (v l)) (hr : A.Gives (visit r) (v r)) :
    A.Gives (Evaluator.visitBinary visit op l r) (binaryStep v op l r) := by
  unfold Evaluator.visitBinary binaryStep
  refine A.bind hl (A.bind hr ?_)
  rw [if_neg hop]
  cases decide? op (v l) (v r) with
  | some truth => exact A.pure _
  | none => exact A.pure _

theorem visitNot {a : Expr} (h : A.Gives (visit a) (v a)) :
    A.Gives (Evaluator.visitNot visit a) (notStep v a) :=
  A.map _ h

/-- **A step agrees with the plain step where its visits do**, on plain expressions. -/
theorem step {apply : Expr → Function → List Expr → m Expr} {e : Expr} (he : e.plain = true)
    (h : ∀ e', SubVisit v e' e → A.Gives (visit e') (v e')) :
    A.Gives (Evaluator.step visit apply e) (pureStep v e) := by
  cases e with
  | const q => exact A.pure _
  | var n c => exact A.pure _
  | sum ts => exact A.map _ (A.visitSum fun t ht => h t (.term ht))
  | product fs =>
    exact A.map _ (A.visitProduct (fun f hf => h f (.factor hf))
      fun base x scale heq t ht => h _ (.scaledTerm heq ht))
  | binary op l r =>
    have hop := ((Expr.plain_binary op l r).mp he).1
    have hl := h l .left
    have hr := h r .right
    cases op with
    | power =>
      exact A.map _ (A.visitPower hl hr (fun fs heq => h _ (.distributed heq))
        fun b' x' heq => h _ (.exponents heq))
    | _ => exact A.map _ (A.visitBinary hop hl hr)
  | not a => exact A.map _ (A.visitNot (h a .operand))
  | call f args => cases he
  | set ms => exact A.map _ (A.visitList fun t ht => h t (.member ht))

end Agreement

end SymbolicAlgebra.Evaluator
