import SymbolicAlgebra.Proofs.Height

/-!
# Evaluation terminates

Every expression that a step visits is lower than the expression that the step is for, provided that
the visits so far returned nothing higher than what they were given (`SubVisit.lower`); and then the
step returns nothing higher either (`shrinks_step`). Both go together by induction on the height. So
the bound on the depth of the recursion is never reached by `evaluateTo` once it exceeds the height,
and `evaluated`, which is `evaluateTo` with just enough depth, satisfies the equations of the
evaluator without any bound.

Results:
* `evaluateTo_eq`: above the height the bound on the depth makes no difference.
* `evaluated_sum`, `evaluated_product`, …: the equations of `evaluated`.
* `canonical_evaluated`: the evaluated form is canonical.
* `evaluated_induction`: induction along the visits of an evaluation.
-/

namespace SymbolicAlgebra.Evaluator

open Expr

/-! ## What a visit must not raise -/

/-- The result `r` for `e` is a canonical expression that is no higher. A product that comes from
something else is lower, and so is what comes from a nested power with a constant inner exponent. The
height of what comes from a product depends on its visited factors only. -/
structure Lowers (visit : Expr → Expr) (e r : Expr) : Prop where
  canonical : Canonical r
  termHeight_le : r.termHeight ≤ e.termHeight
  height_le : r.height ≤ e.height
  becomes_product : e.isProduct = false → r.isProduct = true → r.termHeight + 2 ≤ e.height
  nested_power : ∀ b q x, e = Expr.power (Expr.power b (.const q)) x →
    r.termHeight + 1 ≤ e.termHeight
  of_product : ∀ fs, e = .product fs → ∀ N, (∀ f ∈ fs, (visit f).termHeight ≤ N + 1) →
    r.termHeight ≤ N + 1

/-- The visit of `e` lowers it. -/
abbrev Shrinks (visit : Expr → Expr) (e : Expr) : Prop :=
  Lowers visit e (visit e)

theorem Lowers.of_factors {v : Expr → Expr} {e : Expr} (h : Shrinks v e) {N : Nat}
    (hN : ∀ f ∈ e.factors, (v f).termHeight ≤ N + 1) : (v e).termHeight ≤ N + 1 := by
  cases hp : e.isProduct
  · rw [factors_eq_self hp] at hN
    exact hN e (by simp)
  · obtain ⟨fs, rfl⟩ := exists_of_isProduct hp
    exact h.of_product fs rfl N hN

theorem keepIfEqual_eq {e r : Expr} (he : Canonical e) (hr : Canonical r) :
    keepIfEqual e r = r := by
  rw [keepIfEqual]
  split
  · rename_i h
    exact (eq_of_beq hr.plain he.plain h).symm
  · rfl

/-- What a power of evaluated operands is: a constant, the base, or the power when nothing applies. -/
theorem simplePower_cases (b y : Expr) :
    (∃ q, simplePower b y = .const q) ∨ (y.isOne = true ∧ simplePower b y = b) ∨
      (simplePower b y = Expr.power b y ∧ b.isZero = false ∧ b.isOne = false ∧
        y.isZero = false ∧ y.isOne = false ∧
        ∀ p q, b = .const p → y = .const q → Rational.pow? p q = none) := by
  unfold simplePower
  split
  · exact Or.inl ⟨0, rfl⟩
  · split
    · exact Or.inl ⟨1, rfl⟩
    · split
      · exact Or.inl ⟨1, rfl⟩
      · split
        · rename_i h
          exact Or.inr (Or.inl ⟨h, rfl⟩)
        · rename_i hb0 hb1 hy0 hy1
          simp only [Bool.not_eq_true] at hb0 hb1 hy0 hy1
          split
          · split
            · exact Or.inl ⟨_, rfl⟩
            · rename_i hpow
              refine Or.inr (Or.inr ⟨rfl, hb0, hb1, hy0, hy1, ?_⟩)
              rintro p q ⟨⟩ ⟨⟩
              exact hpow
          · rename_i hne
            refine Or.inr (Or.inr ⟨rfl, hb0, hb1, hy0, hy1, ?_⟩)
            rintro p q rfl rfl
            exact absurd rfl (hne p q rfl)

theorem canonical_simplePower {b y : Expr} (hb : Canonical b) (hy : Canonical y) :
    Canonical (simplePower b y) := by
  obtain ⟨q, h⟩ | ⟨-, h⟩ | ⟨h, -⟩ := simplePower_cases b y
  · rw [h]
    exact .const q
  · rwa [h]
  · rw [h]
    exact hb.power hy

section Lower

variable {v : Expr → Expr} {e : Expr}

theorem lowers_const {r : Expr} (hpow : e.isPower = true → 1 ≤ e.termHeight) (q : Rat)
    (hr : r = .const q) : Lowers v e r := by
  subst hr
  refine ⟨.const q, Nat.zero_le _, ?_, fun _ h => (by cases h), ?_, fun _ _ _ _ => Nat.zero_le _⟩
  · rw [height_const]
    exact Nat.zero_le _
  · rintro b q x rfl
    rw [termHeight_const, zero_add]
    exact hpow rfl

/-- The hypothesis of the induction: lower expressions are not raised. -/
abbrev ShrinksBelow (v : Expr → Expr) (e : Expr) : Prop :=
  ∀ e', Canonical e' → e'.height < e.height → Shrinks v e'

theorem height_term_lt {t : Expr} {ts : List Expr} (ht : t ∈ ts) :
    t.termHeight + 2 ≤ (Expr.sum ts).height := by
  have := (@height_sum_le (termHeights ts) ts).mp (by rw [height]) t ht
  rw [height]
  omega

theorem height_factor_lt {f : Expr} {fs : List Expr} (hf : f ∈ fs) :
    f.factorHeight + 1 ≤ (Expr.product fs).height := by
  have := (@height_product_le (factorHeights fs) fs).mp (by rw [height]) f hf
  rw [height]
  omega

theorem height_member_lt {m : Expr} {ms : List Expr} (hm : m ∈ ms) :
    m.height < (Expr.set ms).height := by
  have := (@height_set_le (heights ms) ms).mp (by rw [height]) m hm
  rw [height]
  omega

theorem one_le_baseHeight (b : Expr) : b.height + 1 ≤ b.baseHeight := by
  rw [baseHeight]
  have hw : 1 ≤ b.weight := by
    unfold weight
    split <;> omega
  omega

theorem height_base_lt (b x : Expr) : b.height < (Expr.power b x).height := by
  have := one_le_baseHeight b
  rw [height_power]
  omega

theorem height_exponent_lt (b x : Expr) : x.height < (Expr.power b x).height := by
  have := one_le_baseHeight b
  have := height_le_termHeight x
  rw [height_power]
  omega

theorem height_operand_lt {op : BinaryOp} (l r : Expr) :
    l.height < (Expr.binary op l r).height ∧ r.height < (Expr.binary op l r).height := by
  by_cases hop : op = .power
  · subst hop
    exact ⟨height_base_lt l r, height_exponent_lt l r⟩
  · rw [height_binary hop]
    omega

/-! ## Products -/

/-- The visited factors of a product have low factors. -/
theorem factorHeight_visited {fs : List Expr} {N : Nat}
    (h : ∀ f ∈ fs, (v f).termHeight ≤ N + 1) :
    ∀ g ∈ (fs.map v).flatMap factors, g.factorHeight ≤ N := by
  intro g hg
  obtain ⟨r, hr, hgr⟩ := List.mem_flatMap.mp hg
  obtain ⟨f, hf, rfl⟩ := List.mem_map.mp hr
  exact Expr.termHeight_le.mp (h f hf) g hgr

theorem canonical_visited {fs : List Expr} (h : ∀ f ∈ fs, Canonical (v f)) :
    ∀ g ∈ (fs.map v).flatMap factors, Canonical g := by
  intro g hg
  obtain ⟨r, hr, hgr⟩ := List.mem_flatMap.mp hg
  obtain ⟨f, hf, rfl⟩ := List.mem_map.mp hr
  exact (h f hf).of_factors g hgr

theorem baseHeight_visitedBases {fs : List Expr} {N : Nat} (hc : ∀ f ∈ fs, Canonical (v f))
    (h : ∀ f ∈ fs, (v f).termHeight ≤ N + 1) :
    ∀ k ∈ Tally.keys (visitedBases v fs).exponents.entries, k.baseHeight ≤ N :=
  baseHeight_ofFactors (canonical_visited hc) (factorHeight_visited h)

/-- A term of the sum that takes over the constant of a product, scaled, is lower than the product. -/
theorem height_scaledTerm {fs : List Expr} {N : Nat} {base t : Expr} {x scale : Rat}
    (hc : ∀ f ∈ fs, Canonical (v f)) (h : ∀ f ∈ fs, (v f).termHeight ≤ N + 1)
    (habs : (visitedBases v fs).absorber? = some (base, x, scale)) (ht : t ∈ base.terms) :
    Canonical (productOf [.const scale, t]) ∧ (productOf [.const scale, t]).height < N := by
  obtain ⟨hmem, hsum, -⟩ := Bases.absorber?_eq_some habs
  have hkey : base ∈ Tally.keys (visitedBases v fs).exponents.entries := List.mem_map_of_mem hmem
  have hbase := Bases.canonical_ofFactors (canonical_visited hc) base hkey
  have hcanon : ∀ y ∈ [Expr.const scale, t], Canonical y :=
    List.forall_mem_cons.mpr ⟨.const scale, List.forall_mem_singleton.mpr (hbase.of_terms t ht)⟩
  refine ⟨canonical_productOf hcanon, ?_⟩
  have hN := baseHeight_visitedBases hc h base hkey
  obtain ⟨ts, rfl⟩ := exists_of_isSum hsum
  have hlt : t.termHeight + 2 ≤ (Expr.sum ts).height := height_term_lt ht
  have hle : (productOf [.const scale, t]).termHeight ≤ t.termHeight :=
    termHeight_productOf hcanon
      (List.forall_mem_cons.mpr ⟨Nat.zero_le _, List.forall_mem_singleton.mpr le_rfl⟩)
  have hheight := height_le_termHeight (productOf [.const scale, t])
  rw [baseHeight_eq rfl] at hN
  omega

/-! ## Powers -/

/-- A base that is no product but becomes one is lower afterwards, so that its power can be
distributed over the factors. -/
theorem height_distributedBase {b : Expr} {fs : List Expr} (h : Shrinks v b)
    (hb : v b = .product fs) : (Expr.product fs).height + 3 ≤ b.baseHeight := by
  cases hp : b.isProduct
  · have := h.becomes_product hp (by rw [hb]; rfl)
    rw [hb, termHeight_product] at this
    rw [baseHeight_eq hp]
    omega
  · have := h.height_le
    rw [hb] at this
    obtain ⟨gs, rfl⟩ := exists_of_isProduct hp
    rw [baseHeight_product]
    omega

theorem two_le_height_product {fs : List Expr} (h : Canonical (.product fs)) :
    2 ≤ (Expr.product fs).height := by
  obtain ⟨f, hf, hc⟩ : ∃ f ∈ fs, f.isConst = false := by
    by_contra hnone
    have hall : ∀ f ∈ fs, f.isConst = true := fun f hf => by
      cases hc : f.isConst
      · exact absurd ⟨f, hf, hc⟩ hnone
      · rfl
    obtain ⟨q, hq⟩ := exists_of_isConst (isConst_productOf hall)
    rw [← factors_product fs, h.productOf_factors] at hq
    cases hq
  have := height_factor_lt hf
  have := one_le_factorHeight hc
  omega

/-- The power of a factor is lower than the power of the product. -/
theorem height_power_factor {b x f : Expr} {fs : List Expr} (h : Shrinks v b)
    (hb : v b = .product fs) (hf : f ∈ fs) :
    Canonical f ∧ f.isProduct = false ∧ (Expr.power f x).height < (Expr.power b x).height := by
  have hcanon : Canonical (.product fs) := hb ▸ h.canonical
  have hflat := hcanon.flat_factors f hf
  refine ⟨hcanon.of_product f hf, hflat, ?_⟩
  have h₁ := height_distributedBase h hb
  have h₂ := height_factor_lt hf
  have h₃ := height_le_factorHeight f
  rw [height_power, height_power, baseHeight_eq hflat]
  omega

theorem canonical_powers {x : Expr} {fs : List Expr} (hfs : Canonical (.product fs))
    (hx : Canonical x) : ∀ g ∈ fs.map (fun f => Expr.power f x), Canonical g := by
  intro g hg
  obtain ⟨f, hf, rfl⟩ := List.mem_map.mp hg
  exact (hfs.of_product f hf).power hx

/-! ## Every visit is of a lower expression -/

theorem factor_shrinks {fs : List Expr} (hfs : Canonical (.product fs))
    (hv : ShrinksBelow v (.product fs)) : ∀ f ∈ fs, Shrinks v f := by
  intro f hf
  refine hv f (hfs.of_product f hf) ?_
  have := height_factor_lt hf
  have := height_le_factorHeight f
  omega

theorem termHeight_visitedFactor {fs : List Expr} (hfs : Canonical (.product fs))
    (hv : ShrinksBelow v (.product fs)) :
    ∀ f ∈ fs, (v f).termHeight ≤ factorHeights fs + 1 := by
  intro f hf
  refine (factor_shrinks hfs hv f hf).termHeight_le.trans (Expr.termHeight_le.mpr ?_)
  rw [factors_eq_self (hfs.flat_factors f hf)]
  exact List.forall_mem_singleton.mpr (factorHeights_le.mp le_rfl f hf)

/-- **Every expression that a step visits is lower.** -/
theorem SubVisit.lower {e' : Expr} (h : SubVisit v e' e) (he : Canonical e)
    (hv : ShrinksBelow v e) : Canonical e' ∧ e'.height < e.height := by
  cases h with
  | term ht =>
    have := height_term_lt ht
    have := height_le_termHeight e'
    exact ⟨he.of_sum e' ht, by omega⟩
  | factor hf =>
    have := height_factor_lt hf
    have := height_le_factorHeight e'
    exact ⟨he.of_product e' hf, by omega⟩
  | @scaledTerm t base x scale fs habs ht =>
    have h := height_scaledTerm (fun f hf => (factor_shrinks he hv f hf).canonical)
      (termHeight_visitedFactor he hv) habs ht
    refine ⟨h.1, h.2.trans ?_⟩
    rw [height]
    omega
  | left => exact ⟨he.of_binary.1, (height_operand_lt _ _).1⟩
  | right => exact ⟨he.of_binary.2, (height_operand_lt _ _).2⟩
  | @distributed b x fs hb =>
    have hsb := hv b he.of_binary.1 (height_base_lt b x)
    have hcanon : Canonical (.product fs) := hb ▸ hsb.canonical
    have hpowers := canonical_powers hcanon he.of_binary.2
    refine ⟨canonical_productOf hpowers, ?_⟩
    have hbase := height_distributedBase hsb hb
    have hle : (productOf (fs.map fun f => Expr.power f x)).termHeight ≤
        (Expr.product fs).height + x.termHeight + 2 := by
      refine termHeight_productOf hpowers fun g hg => ?_
      obtain ⟨f, hf, rfl⟩ := List.mem_map.mp hg
      have h₁ := height_factor_lt hf
      have h₂ := height_le_factorHeight f
      have h₃ := termHeight_le_height_add_two (Expr.power f x)
      rw [height_power, baseHeight_eq (hcanon.flat_factors f hf)] at h₃
      omega
    have := height_le_termHeight (productOf (fs.map fun f => Expr.power f x))
    rw [height_power]
    omega
  | @exponents b x b' x' hb =>
    have hsb := hv b he.of_binary.1 (height_base_lt b x)
    have hsx := hv x he.of_binary.2 (height_exponent_lt b x)
    have hl : Canonical (Expr.power b' x') := hb ▸ hsb.canonical
    have hcanon : ∀ y ∈ [v x, x'], Canonical y :=
      List.forall_mem_cons.mpr ⟨hsx.canonical, List.forall_mem_singleton.mpr hl.of_binary.2⟩
    refine ⟨canonical_productOf hcanon, ?_⟩
    have hle : (productOf [v x, x']).termHeight ≤ max x.termHeight x'.termHeight :=
      termHeight_productOf hcanon (List.forall_mem_cons.mpr
        ⟨hsx.termHeight_le.trans (le_max_left _ _),
          List.forall_mem_singleton.mpr (le_max_right _ _)⟩)
    have h₁ := height_le_termHeight (productOf [v x, x'])
    have h₂ := hsb.height_le
    have h₃ := one_le_baseHeight b
    have h₄ := one_le_baseHeight b'
    rw [hb, height_power] at h₂
    rw [height_power]
    omega
  | operand =>
    cases he with
    | not ha => exact ⟨ha, by rw [height]; omega⟩
  | member hm =>
    cases he with
    | set hms _ => exact ⟨hms e' hm, height_member_lt hm⟩

/-! ## No step raises the height -/

theorem lowers_sum {ts : List Expr} (he : Canonical (.sum ts)) (hv : ShrinksBelow v (.sum ts)) :
    Lowers v (.sum ts) (sumStep v ts) := by
  have hterm : ∀ t ∈ ts, Shrinks v t := fun t ht =>
    hv t (he.of_sum t ht) (SubVisit.lower (.term ht) he hv).2
  have hcanon : ∀ u ∈ (ts.map v).flatMap terms, Canonical u := by
    intro u hu
    obtain ⟨r, hr, hur⟩ := List.mem_flatMap.mp hu
    obtain ⟨t, ht, rfl⟩ := List.mem_map.mp hr
    exact (hterm t ht).canonical.of_terms u hur
  have hlow : ∀ u ∈ (ts.map v).flatMap terms, u.termHeight ≤ termHeights ts := by
    intro u hu
    obtain ⟨r, hr, hur⟩ := List.mem_flatMap.mp hu
    obtain ⟨t, ht, rfl⟩ := List.mem_map.mp hr
    exact (termHeight_of_mem_terms hur).trans
      ((hterm t ht).termHeight_le.trans (termHeights_le.mp le_rfl t ht))
  have hcollect := canonical_collect hcanon
  have hheight : (Expr.sum ts).height = termHeights ts + 2 := by rw [height]
  have hT : (Expr.sum ts).termHeight = (Expr.sum ts).height + 2 :=
    termHeight_eq_add_two rfl rfl (by rintro b q ⟨⟩)
  have hle := height_of_terms (termHeight_collect hcanon hlow)
  rw [← sumStep] at hcollect hle
  have h₁ := height_le_termHeight (sumStep v ts)
  have h₂ := termHeight_le_height_add_two (sumStep v ts)
  refine ⟨hcollect, ?_, ?_, fun _ hp => ?_, (by rintro b q x ⟨⟩), by rintro fs ⟨⟩⟩
  · rcases hle with ⟨-, hle⟩ | ⟨-, hle⟩ <;> omega
  · rcases hle with ⟨-, hle⟩ | ⟨-, hle⟩ <;> omega
  · rcases hle with ⟨hs, -⟩ | ⟨-, hle⟩
    · obtain ⟨us, hus⟩ := exists_of_isSum hs
      rw [hus] at hp
      cases hp
    · omega

/-- Scaling the terms of a sum does not make it a higher base. -/
theorem baseHeight_scaledSum {base : Expr} {q : Rat} (hbase : Canonical base)
    (hsum : base.isSum = true)
    (h : ∀ t ∈ base.terms, Shrinks v (productOf [.const q, t])) :
    Canonical (scaledSum v q base) ∧ (scaledSum v q base).baseHeight ≤ base.baseHeight := by
  refine ⟨canonical_scaledSum fun t ht => (h t ht).canonical, ?_⟩
  obtain ⟨ts, rfl⟩ := exists_of_isSum hsum
  have hlow : ∀ u ∈ ts.flatMap (fun t => (v (productOf [.const q, t])).terms),
      u.termHeight ≤ termHeights ts := by
    intro u hu
    obtain ⟨t, ht, hut⟩ := List.mem_flatMap.mp hu
    have hcanon : ∀ y ∈ [Expr.const q, t], Canonical y :=
      List.forall_mem_cons.mpr ⟨.const q, List.forall_mem_singleton.mpr (hbase.of_sum t ht)⟩
    refine (termHeight_of_mem_terms hut).trans ((h t ht).termHeight_le.trans ?_)
    exact termHeight_productOf hcanon (List.forall_mem_cons.mpr
      ⟨Nat.zero_le _, List.forall_mem_singleton.mpr (termHeights_le.mp le_rfl t ht)⟩)
  have hcanon : ∀ u ∈ ts.flatMap (fun t => (v (productOf [.const q, t])).terms), Canonical u := by
    intro u hu
    obtain ⟨t, ht, hut⟩ := List.mem_flatMap.mp hu
    exact (h t ht).canonical.of_terms u hut
  have hheight : (Expr.sum ts).baseHeight = termHeights ts + 3 := by
    rw [baseHeight_eq rfl, height]
  have hw := weight_le_three (scaledSum v q (.sum ts))
  have hle := height_le_termHeight (scaledSum v q (.sum ts))
  rcases height_of_terms (termHeight_collect hcanon hlow) with ⟨hs, hd⟩ | ⟨-, hd⟩
  · have hp : (scaledSum v q (.sum ts)).isProduct = false := by
      obtain ⟨us, hus⟩ := exists_of_isSum hs
      rw [scaledSum, terms_sum, hus]
      rfl
    rw [baseHeight_eq hp, hheight]
    exact Nat.succ_le_succ hd
  · change (scaledSum v q (.sum ts)).termHeight ≤ _ at hd
    rw [hheight, baseHeight]
    omega

theorem lowers_product {fs : List Expr} (he : Canonical (.product fs))
    (hv : ShrinksBelow v (.product fs)) : Lowers v (.product fs) (productStep v fs) := by
  have hfactor := factor_shrinks he hv
  have hbases := Bases.canonical_ofFactors (canonical_visited fun f hf => (hfactor f hf).canonical)
  rw [← visitedBases] at hbases
  -- the scaled sum that replaces the absorber is canonical and no higher
  have hscaled : ∀ base x scale, (visitedBases v fs).absorber? = some (base, x, scale) →
      Canonical (scaledSum v scale base) ∧
        (scaledSum v scale base).baseHeight ≤ base.baseHeight := by
    intro base x scale habs
    obtain ⟨hmem, hsum, -⟩ := Bases.absorber?_eq_some habs
    refine baseHeight_scaledSum (hbases base (List.mem_map_of_mem hmem)) hsum fun t ht => ?_
    have hlower := SubVisit.lower (.scaledTerm habs ht) he hv
    exact hv _ hlower.1 hlower.2
  have habsorbed : ((visitedBases v fs).absorbed v).Canonical ∧
      ∀ N, (∀ f ∈ fs, (v f).termHeight ≤ N + 1) →
        ∀ k ∈ Tally.keys ((visitedBases v fs).absorbed v).exponents.entries, k.baseHeight ≤ N := by
    have hold := fun N => @baseHeight_visitedBases v fs N fun f hf => (hfactor f hf).canonical
    unfold Bases.absorbed
    split
    · exact ⟨hbases, hold⟩
    · split
      · exact ⟨hbases, hold⟩
      · rename_i base x scale habs
        obtain ⟨hcanon, hheight⟩ := hscaled base x scale habs
        refine ⟨hbases.replace hcanon, fun N hN k hk => ?_⟩
        rcases Bases.mem_keys_replace hbases hcanon hk with rfl | hk
        · exact hheight.trans
            (hold N hN base (List.mem_map_of_mem (Bases.absorber?_eq_some habs).1))
        · exact hold N hN k hk
  have hcanon : Canonical (productStep v fs) := by
    rw [productStep]
    split
    · exact .const 0
    · exact habsorbed.1.product
  have hfactors : ∀ N, (∀ f ∈ fs, (v f).termHeight ≤ N + 1) →
      (productStep v fs).termHeight ≤ N + 1 := by
    intro N hN
    rw [productStep]
    split
    · exact Nat.zero_le _
    · exact termHeight_product_bases habsorbed.1 (habsorbed.2 N hN)
  have hle := hfactors (factorHeights fs) (termHeight_visitedFactor he hv)
  have hheight : (Expr.product fs).height = factorHeights fs + 1 := by rw [height]
  have hT := height_le_termHeight (productStep v fs)
  refine ⟨hcanon, ?_, ?_, fun hp => (by cases hp), (by rintro b q x ⟨⟩), ?_⟩
  · rw [termHeight_product]
    omega
  · omega
  · rintro gs ⟨⟩
    exact hfactors

/-- A power whose base becomes a product: the height comes from the powers of the factors. -/
theorem lowers_power_of_product {b x : Expr} {fs : List Expr} (he : Canonical (Expr.power b x))
    (hv : ShrinksBelow v (Expr.power b x)) (hb : v b = .product fs) :
    Lowers v (Expr.power b x) (v (productOf (fs.map fun f => Expr.power f x))) := by
  have hsb := hv b he.of_binary.1 (height_base_lt b x)
  have hcanon : Canonical (.product fs) := hb ▸ hsb.canonical
  have hpowers := canonical_powers hcanon he.of_binary.2
  have hlower := SubVisit.lower (.distributed hb) he hv
  have hse := hv _ hlower.1 hlower.2
  have hbase := height_distributedBase hsb hb
  have htwo := two_le_height_product hcanon
  have hfactor : ∀ g ∈ (productOf (fs.map fun f => Expr.power f x)).factors,
      (v g).termHeight ≤ (Expr.product fs).height + x.termHeight + 1 ∧
        (x.isConst = true → (v g).termHeight ≤ (Expr.product fs).height) := by
    intro g hg
    rcases mem_factors_productOf hpowers hg with hc | ⟨-, y, hy, hgy⟩
    · obtain ⟨q, rfl⟩ := exists_of_isConst hc
      have hlt : (Expr.const q).height < (Expr.power b x).height := by
        rw [height_const]
        exact Nat.zero_lt_of_lt (height_base_lt b x)
      have := (hv _ (.const q) hlt).termHeight_le
      rw [termHeight_const] at this
      exact ⟨by omega, fun _ => by omega⟩
    · obtain ⟨f, hf, rfl⟩ := List.mem_map.mp hy
      obtain rfl : g = Expr.power f x := List.mem_singleton.mp hgy
      obtain ⟨hfcanon, hflat, hlt⟩ := height_power_factor hsb hb hf
      have hsg := hv _ (hfcanon.power he.of_binary.2) hlt
      have h₁ := height_factor_lt hf
      have h₂ := height_le_factorHeight f
      have h₃ := hsg.termHeight_le
      have h₄ := baseHeight_eq hflat
      have h₅ : (Expr.power f x).termHeight = f.height + 2 ∧ x.isConst = true ∨
          (Expr.power f x).termHeight = f.height + x.termHeight + 3 ∧ x.isConst = false := by
        cases hx : x.isConst
        · rw [termHeight_power hx, h₄]
          exact Or.inr ⟨by omega, rfl⟩
        · obtain ⟨q, rfl⟩ := exists_of_isConst hx
          rw [termHeight_power_const, h₄]
          exact Or.inl ⟨rfl, rfl⟩
      by_cases hnested : ∃ b' q, f = Expr.power b' (.const q)
      · obtain ⟨b', q, rfl⟩ := hnested
        have h₆ := hsg.nested_power b' q x rfl
        rcases h₅ with ⟨h₅, hx⟩ | ⟨h₅, hx⟩ <;> exact ⟨by omega, fun hx' => by simp_all; try omega⟩
      · cases hfc : f.isConst
        · have h₆ : f.factorHeight = f.height + 1 := by
            have := termHeight_eq_add_two hfc hflat fun b' q h => hnested ⟨b', q, h⟩
            rw [termHeight_eq hfc hflat] at this
            omega
          rcases h₅ with ⟨h₅, hx⟩ | ⟨h₅, hx⟩ <;>
            exact ⟨by omega, fun hx' => by simp_all; try omega⟩
        · obtain ⟨q, rfl⟩ := exists_of_isConst hfc
          rw [height_const] at h₅
          rcases h₅ with ⟨h₅, hx⟩ | ⟨h₅, hx⟩ <;>
            exact ⟨by omega, fun hx' => by simp_all; try omega⟩
  have hle := hse.of_factors fun g hg => (hfactor g hg).1
  have hle' : x.isConst = true →
      (v (productOf (fs.map fun f => Expr.power f x))).termHeight ≤ (Expr.product fs).height := by
    intro hx
    have := @Lowers.of_factors v _ hse ((Expr.product fs).height - 1) fun g hg => by
      have := (hfactor g hg).2 hx
      omega
    omega
  have hT := height_le_termHeight (v (productOf (fs.map fun f => Expr.power f x)))
  have hpow := height_power b x
  have hte : (Expr.power b x).termHeight = b.baseHeight + 1 ∧ x.isConst = true ∨
      (Expr.power b x).termHeight = b.baseHeight + x.termHeight + 2 ∧ x.isConst = false := by
    cases hx : x.isConst
    · exact Or.inr ⟨termHeight_power hx, rfl⟩
    · obtain ⟨q, rfl⟩ := exists_of_isConst hx
      exact Or.inl ⟨termHeight_power_const b q, rfl⟩
  refine ⟨hse.canonical, ?_, ?_, fun _ _ => ?_, fun _ _ _ _ => ?_, by rintro fs ⟨⟩⟩ <;>
    rcases hte with ⟨hte, hx⟩ | ⟨hte, hx⟩
  all_goals first | (have h := hle' hx; omega) | omega

theorem termHeight_power_cases (b x : Expr) :
    ((Expr.power b x).termHeight = b.baseHeight + 1 ∧ x.termHeight = 0) ∨
      ((Expr.power b x).termHeight = b.baseHeight + x.termHeight + 2 ∧ 1 ≤ x.termHeight) := by
  cases hx : x.isConst
  · exact Or.inr ⟨termHeight_power hx, one_le_termHeight hx⟩
  · obtain ⟨q, rfl⟩ := exists_of_isConst hx
    exact Or.inl ⟨termHeight_power_const b q, rfl⟩

/-- The heights of a base that is itself a power with a constant exponent. -/
theorem height_nestedBase {b x b₀ x₀ : Expr} {q : Rat}
    (h : Expr.power b x = Expr.power (Expr.power b₀ (.const q)) x₀) :
    b.termHeight = b.height + 1 ∧ 1 ≤ b.height ∧ b.baseHeight = b.height + 1 := by
  obtain rfl : b = Expr.power b₀ (.const q) := by
    cases h
    rfl
  have h₁ := one_le_baseHeight b₀
  have h₂ : (Expr.power b₀ (.const q)).baseHeight = (Expr.power b₀ (.const q)).height + 1 :=
    baseHeight_eq rfl
  rw [h₂, termHeight_power_const, height_power, termHeight_const]
  omega

/-- A power of a power: the exponents are multiplied on top of the inner base. -/
theorem lowers_power_of_power {b x b' x' : Expr} (he : Canonical (Expr.power b x))
    (hv : ShrinksBelow v (Expr.power b x)) (hb : v b = Expr.power b' x') :
    Lowers v (Expr.power b x) (simplePower b' (v (productOf [v x, x']))) := by
  have hsb := hv b he.of_binary.1 (height_base_lt b x)
  have hsx := hv x he.of_binary.2 (height_exponent_lt b x)
  have hlower := SubVisit.lower (.exponents hb) he hv
  have hsy := hv _ hlower.1 hlower.2
  have hl : Canonical (Expr.power b' x') := hb ▸ hsb.canonical
  have hy : (v (productOf [v x, x'])).termHeight ≤ max x.termHeight x'.termHeight :=
    hsy.termHeight_le.trans (termHeight_productOf
      (List.forall_mem_cons.mpr ⟨hsx.canonical, List.forall_mem_singleton.mpr hl.of_binary.2⟩)
      (List.forall_mem_cons.mpr ⟨hsx.termHeight_le.trans (le_max_left _ _),
        List.forall_mem_singleton.mpr (le_max_right _ _)⟩))
  have hyc := hsy.canonical
  generalize v (productOf [v x, x']) = y at hy hyc
  have hcanon := canonical_simplePower hl.of_binary.1 hyc
  have hlh := hsb.height_le
  have hlt := hsb.termHeight_le
  rw [hb] at hlh hlt
  rw [height_power] at hlh
  have hK := one_le_baseHeight b
  have hK' := one_le_baseHeight b'
  have hpow := height_power b x
  have hte := termHeight_power_cases b x
  obtain ⟨q, hr⟩ | ⟨-, hr⟩ | ⟨hr, -⟩ := simplePower_cases b' y <;> rw [hr] at hcanon ⊢
  · exact lowers_const (fun _ => by omega) q rfl
  · have h₁ := termHeight_le_baseHeight b'
    refine ⟨hcanon, by omega, by omega, fun _ hp => ?_, fun _ _ _ _ => by omega, by rintro fs ⟨⟩⟩
    obtain ⟨fs, rfl⟩ := exists_of_isProduct hp
    rw [baseHeight_product] at hlh
    rw [termHeight_product]
    omega
  · have h₁ := height_power b' y
    have h₂ := termHeight_power_cases b' y
    have h₃ := termHeight_power_cases b' x'
    refine ⟨hcanon, by omega, by omega, fun _ hp => (by cases hp), fun b₀ q x₀ h => ?_,
      by rintro fs ⟨⟩⟩
    -- the inner exponent is constant, so the base counts one less as a term
    have h₄ := height_nestedBase h
    omega

/-- A power of anything else. -/
theorem lowers_power_of_other {b x : Expr} (he : Canonical (Expr.power b x))
    (hv : ShrinksBelow v (Expr.power b x)) (hp : (v b).isProduct = false)
    (hpow : (v b).isPower = false) : Lowers v (Expr.power b x) (simplePower (v b) (v x)) := by
  have hsb := hv b he.of_binary.1 (height_base_lt b x)
  have hsx := hv x he.of_binary.2 (height_exponent_lt b x)
  have hcanon := canonical_simplePower hsb.canonical hsx.canonical
  have hlh := hsb.height_le
  have hlt := hsb.termHeight_le
  have hxt := hsx.termHeight_le
  have hK := one_le_baseHeight b
  have hT := termHeight_le_height_add_two b
  have hheight := height_power b x
  have hte := termHeight_power_cases b x
  obtain ⟨q, hr⟩ | ⟨-, hr⟩ | ⟨hr, -⟩ := simplePower_cases (v b) (v x) <;> rw [hr] at hcanon ⊢
  · exact lowers_const (fun _ => by omega) q rfl
  · refine ⟨hcanon, by omega, by omega, fun _ h => ?_, fun b₀ q x₀ h => ?_, by rintro fs ⟨⟩⟩
    · rw [hp] at h
      cases h
    · have := height_nestedBase h
      omega
  · have h₁ := height_power (v b) (v x)
    have h₂ := termHeight_power_cases (v b) (v x)
    have h₃ := baseHeight_eq hp
    refine ⟨hcanon, by omega, by omega, fun _ h => (by cases h), fun b₀ q x₀ h => ?_,
      by rintro fs ⟨⟩⟩
    have h₄ := height_nestedBase h
    have h₅ : (v b).height + 1 ≤ b.height := by
      cases hc : (v b).isConst
      · have : (v b).termHeight = (v b).height + 2 := by
          refine termHeight_eq_add_two hc hp fun b₁ q₁ h => ?_
          rw [h] at hpow
          cases hpow
        omega
      · obtain ⟨q, hq⟩ := exists_of_isConst hc
        rw [hq, height_const]
        omega
    omega

theorem lowers_power {b x : Expr} (he : Canonical (Expr.power b x))
    (hv : ShrinksBelow v (Expr.power b x)) : Lowers v (Expr.power b x) (powerStep v b x) := by
  unfold powerStep
  split
  · rename_i fs hb
    exact lowers_power_of_product he hv hb
  · rename_i b' x' hb
    exact lowers_power_of_power he hv hb
  · rename_i hproduct hpower
    refine lowers_power_of_other he hv ?_ ?_
    · cases h : (v b).isProduct
      · rfl
      · obtain ⟨fs, hfs⟩ := exists_of_isProduct h
        exact absurd hfs (hproduct fs)
    · cases h : (v b).isPower
      · rfl
      · obtain ⟨b', x', h'⟩ := exists_of_isPower h
        exact absurd h' (hpower b' x')

/-! ### The other operators -/

theorem isProduct_of_isAtom (h : e.isAtom = true) : e.isProduct = false ∧ e.isPower = false := by
  simp only [isAtom, Bool.and_eq_true, Bool.not_eq_true'] at h
  exact ⟨h.1.2, h.2⟩

/-- Neither sums nor products nor powers: their height counts two more as a term. -/
theorem lowers_atom {r : Expr} (hatom : e.isAtom = true) (hc : e.isConst = false)
    (hr : Canonical r) (hp : r.isProduct = false) (hle : r.height ≤ e.height) :
    Lowers v e r := by
  obtain ⟨hproduct, hpower⟩ := isProduct_of_isAtom hatom
  refine ⟨hr, ?_, hle, fun _ h => ?_, fun b q x h => ?_, fun fs h => ?_⟩
  · have h₁ : e.termHeight = e.height + 2 := by
      refine termHeight_eq_add_two hc hproduct fun b q h => ?_
      rw [h] at hpower
      cases hpower
    have h₂ := termHeight_le_height_add_two r
    omega
  · rw [hp] at h
    cases h
  · rw [h] at hpower
    cases hpower
  · rw [h] at hproduct
    cases hproduct

theorem lowers_binary {op : BinaryOp} {l r : Expr} (hop : op ≠ .power)
    (he : Canonical (.binary op l r)) (hv : ShrinksBelow v (.binary op l r)) :
    Lowers v (.binary op l r) (binaryStep v op l r) := by
  have hl := hv l he.of_binary.1 (height_operand_lt l r).1
  have hr := hv r he.of_binary.2 (height_operand_lt l r).2
  have hsub : op ≠ .substitute := by
    cases he with
    | binary hop _ _ => exact hop
  have hatom : (Expr.binary op l r).isAtom = true := by
    cases op <;> first | exact absurd rfl hop | rfl
  unfold binaryStep
  split
  · rename_i truth _
    cases truth
    · exact lowers_atom hatom rfl (.const 0) rfl (Nat.zero_le _)
    · exact lowers_atom hatom rfl (.const 1) rfl (Nat.zero_le _)
  · refine lowers_atom hatom rfl (.binary hsub hl.canonical hr.canonical) rfl ?_
    rw [height_binary hop, height_binary hop]
    exact Nat.succ_le_succ (max_le_max hl.height_le hr.height_le)

theorem lowers_not {a : Expr} (he : Canonical (.not a)) (hv : ShrinksBelow v (.not a)) :
    Lowers v (.not a) (notStep v a) := by
  have ha : Shrinks v a := by
    cases he with
    | not ha => exact hv a ha (by rw [height]; omega)
  unfold notStep
  split
  · exact lowers_atom rfl rfl (.const 0) rfl (Nat.zero_le _)
  · split
    · exact lowers_atom rfl rfl (.const 1) rfl (Nat.zero_le _)
    · refine lowers_atom rfl rfl (.not ha.canonical) rfl ?_
      rw [height, height]
      exact Nat.succ_le_succ ha.height_le

theorem lowers_set {ms : List Expr} (he : Canonical (.set ms)) (hv : ShrinksBelow v (.set ms)) :
    Lowers v (.set ms) (Expr.setOf (ms.map v)) := by
  have hms : ∀ m ∈ ms, Shrinks v m := by
    cases he with
    | set hms _ => exact fun m hm => hv m (hms m hm) (height_member_lt hm)
  have hcanon : ∀ r ∈ ms.map v, Canonical r := by
    intro r hr
    obtain ⟨m, hm, rfl⟩ := List.mem_map.mp hr
    exact (hms m hm).canonical
  refine lowers_atom rfl rfl (canonical_setOf hcanon) rfl ?_
  have hheight : (Expr.set ms).height = heights ms + 1 := by rw [height]
  rw [hheight, Expr.setOf]
  refine height_set_le.mpr fun r hr => ?_
  obtain ⟨m, hm, rfl⟩ :=
    List.mem_map.mp (mem_sort.mp ((dropRepeats_sublist _).subset hr))
  exact (hms m hm).height_le.trans (heights_le.mp le_rfl m hm)

theorem Lowers.keepIfEqual {r : Expr} (he : Canonical e) (h : Lowers v e r) :
    Lowers v e (keepIfEqual e r) := by
  rwa [keepIfEqual_eq he h.canonical]

/-- **No step raises the height.** -/
theorem lowers_step (he : Canonical e) (hv : ShrinksBelow v e) : Lowers v e (pureStep v e) := by
  cases e with
  | const q => exact lowers_const (fun h => by cases h) q rfl
  | var n c =>
    exact ⟨he, le_rfl, le_rfl, fun _ h => (by cases h), (by rintro b q x ⟨⟩), by rintro fs ⟨⟩⟩
  | sum ts => exact (lowers_sum he hv).keepIfEqual he
  | product fs => exact (lowers_product he hv).keepIfEqual he
  | binary op l r =>
    by_cases hop : op = .power
    · subst hop
      exact (lowers_power he hv).keepIfEqual he
    · have hstep : pureStep v (.binary op l r) =
          Evaluator.keepIfEqual (.binary op l r) (binaryStep v op l r) := by
        cases op <;> first | exact absurd rfl hop | rfl
      rw [hstep]
      exact (lowers_binary hop he hv).keepIfEqual he
  | not a => exact (lowers_not he hv).keepIfEqual he
  | call f args => cases he
  | set ms => exact lowers_set he hv

end Lower

/-! ## Evaluation without a bound -/

/-- Evaluation down to a depth, without a memo table. -/
def evaluateTo : Nat → Expr → Expr
  | 0, e => e
  | n + 1, e => pureStep (evaluateTo n) e

/-- The evaluated form. -/
def evaluated (e : Expr) : Expr :=
  evaluateTo (e.height + 1) e

/-- A step depends on the visits that it makes only. -/
theorem pureStep_congr {v w : Expr → Expr} {e : Expr} (he : Canonical e)
    (h : ∀ e', SubVisit v e' e → w e' = v e') : pureStep w e = pureStep v e := by
  have hw := @Agreement.step Id _ .identity w w (fun e _ _ => e) e he.plain fun _ _ => rfl
  have hv := @Agreement.step Id _ .identity w v (fun e _ _ => e) e he.plain h
  exact hw.symm.trans hv

theorem evaluateTo_spec (e : Expr) (he : Canonical e) :
    (∀ n, e.height < n → evaluateTo n e = evaluated e) ∧ evaluated e = pureStep evaluated e ∧
      Shrinks evaluated e := by
  have ih : ∀ e', Canonical e' → e'.height < e.height →
      (∀ n, e'.height < n → evaluateTo n e' = evaluated e') ∧ Shrinks evaluated e' :=
    fun e' he' _ => ⟨(evaluateTo_spec e' he').1, (evaluateTo_spec e' he').2.2⟩
  have hbelow : ShrinksBelow evaluated e := fun e' he' hlt => (ih e' he' hlt).2
  have hstep : ∀ n, e.height ≤ n → evaluateTo (n + 1) e = pureStep evaluated e := by
    intro n hn
    refine pureStep_congr he fun e' hsub => ?_
    obtain ⟨he', hlt⟩ := hsub.lower he hbelow
    exact (ih e' he' hlt).1 n (Nat.lt_of_lt_of_le hlt hn)
  have heq : evaluated e = pureStep evaluated e := hstep e.height le_rfl
  refine ⟨fun n hn => ?_, heq, ?_⟩
  · obtain ⟨m, rfl⟩ := Nat.exists_eq_succ_of_ne_zero (Nat.ne_zero_of_lt hn)
    rw [heq]
    exact hstep m (Nat.le_of_lt_succ hn)
  · have hlowers := lowers_step he hbelow
    rwa [← heq] at hlowers
termination_by e.height

/-- **Above the height the bound on the depth makes no difference.** -/
theorem evaluateTo_eq {e : Expr} (he : Canonical e) {n : Nat} (hn : e.height < n) :
    evaluateTo n e = evaluated e :=
  (evaluateTo_spec e he).1 n hn

theorem shrinks_evaluated {e : Expr} (he : Canonical e) : Shrinks evaluated e :=
  (evaluateTo_spec e he).2.2

/-- **The evaluated form is canonical.** -/
theorem canonical_evaluated {e : Expr} (he : Canonical e) : Canonical (evaluated e) :=
  (shrinks_evaluated he).canonical

theorem SubVisit.lower_evaluated {e e' : Expr} (h : SubVisit evaluated e' e) (he : Canonical e) :
    Canonical e' ∧ e'.height < e.height :=
  h.lower he fun _ he' _ => shrinks_evaluated he'

/-- **Induction along the visits of an evaluation.** -/
theorem evaluated_induction {motive : Expr → Prop}
    (step : ∀ e, Canonical e → (∀ e', SubVisit evaluated e' e → motive e') → motive e) {e : Expr}
    (he : Canonical e) : motive e :=
  step e he fun _ h => evaluated_induction step (h.lower_evaluated he).1
termination_by e.height
decreasing_by exact (h.lower_evaluated he).2

/-! ### The equations of the evaluator -/

theorem evaluated_eq {e : Expr} (he : Canonical e) : evaluated e = pureStep evaluated e :=
  (evaluateTo_spec e he).2.1

@[simp] theorem evaluated_const (q : Rat) : evaluated (.const q) = .const q := rfl

@[simp] theorem evaluated_var (n : String) (c : Option Condition) :
    evaluated (.var n c) = .var n c := rfl

theorem evaluated_sum {ts : List Expr} (he : Canonical (.sum ts)) :
    evaluated (.sum ts) = collect ((ts.map evaluated).flatMap terms) := by
  have hcanon := (lowers_sum he fun _ he' _ => shrinks_evaluated he').canonical
  exact (evaluated_eq he).trans (keepIfEqual_eq he hcanon)

theorem evaluated_product {fs : List Expr} (he : Canonical (.product fs)) :
    evaluated (.product fs) = productStep evaluated fs := by
  have hcanon := (lowers_product he fun _ he' _ => shrinks_evaluated he').canonical
  exact (evaluated_eq he).trans (keepIfEqual_eq he hcanon)

theorem evaluated_power {b x : Expr} (he : Canonical (Expr.power b x)) :
    evaluated (Expr.power b x) = powerStep evaluated b x := by
  have hcanon := (lowers_power he fun _ he' _ => shrinks_evaluated he').canonical
  exact (evaluated_eq he).trans (keepIfEqual_eq he hcanon)

theorem evaluated_binary {op : BinaryOp} {l r : Expr} (hop : op ≠ .power)
    (he : Canonical (.binary op l r)) :
    evaluated (.binary op l r) = binaryStep evaluated op l r := by
  have hcanon := (lowers_binary hop he fun _ he' _ => shrinks_evaluated he').canonical
  have hstep : pureStep evaluated (.binary op l r) =
      keepIfEqual (.binary op l r) (binaryStep evaluated op l r) := by
    cases op <;> first | exact absurd rfl hop | rfl
  exact (evaluated_eq he).trans (hstep.trans (keepIfEqual_eq he hcanon))

theorem evaluated_not {a : Expr} (he : Canonical (.not a)) :
    evaluated (.not a) = notStep evaluated a := by
  have hcanon := (lowers_not he fun _ he' _ => shrinks_evaluated he').canonical
  exact (evaluated_eq he).trans (keepIfEqual_eq he hcanon)

theorem evaluated_set {ms : List Expr} (he : Canonical (.set ms)) :
    evaluated (.set ms) = Expr.setOf (ms.map evaluated) :=
  evaluated_eq he

end SymbolicAlgebra.Evaluator
