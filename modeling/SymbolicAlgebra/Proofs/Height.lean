import SymbolicAlgebra.Proofs.Collection

/-!
# Heights

A measure of expressions that falls from an expression to every expression that a step of the
evaluator visits, and that no step raises. Besides the height itself an expression has a height as a
factor and as a term, because evaluation moves factors between products and terms between sums. A
product weighs more as a base than other expressions, as a power of it is distributed over its
factors; the height of a power counts the exponent on top of the base, as the exponents of nested
powers are multiplied.

Results:
* `termHeight_collect`, `factorHeight_product`: collecting like terms or bases raises no height.
* `height_add_le`: the height is at most six times the size.
-/

namespace SymbolicAlgebra.Expr

/-- What a base adds to its height. -/
def weight : Expr → Nat
  | product _ => 3
  | _ => 1

/-- The height as a factor, given the height. -/
def factorHeightOf (h : Nat) : Expr → Nat
  | const _ => 0
  | binary .power _ (const _) => h
  | e => h + e.weight

/-- The height as a term, given the height. -/
def termHeightOf (h : Nat) : Expr → Nat
  | const _ => 0
  | product _ => h
  | e => factorHeightOf h e + 1

mutual

/-- The height of an expression. -/
def height : Expr → Nat
  | const _ => 0
  | var .. => 0
  | sum ts => termHeights ts + 2
  | product fs => factorHeights fs + 1
  | binary .power b x => height b + b.weight + termHeightOf (height x) x
  | binary _ l r => max (height l) (height r) + 1
  | not a => height a + 1
  | call _ args => heights args + 1
  | set ms => heights ms + 1

/-- The largest height as a term. -/
def termHeights : List Expr → Nat
  | [] => 0
  | t :: ts => max (termHeightOf (height t) t) (termHeights ts)

/-- The largest height as a factor. -/
def factorHeights : List Expr → Nat
  | [] => 0
  | f :: fs => max (factorHeightOf (height f) f) (factorHeights fs)

/-- The largest height. -/
def heights : List Expr → Nat
  | [] => 0
  | t :: ts => max (height t) (heights ts)

end

/-- The height as a term. -/
def termHeight (e : Expr) : Nat := termHeightOf e.height e

/-- The height as a factor. -/
def factorHeight (e : Expr) : Nat := factorHeightOf e.height e

/-- The height as the base of a power with a constant exponent. -/
def baseHeight (e : Expr) : Nat := e.height + e.weight

/-! ## Unfolding -/

@[simp] theorem height_const (q : Rat) : (const q).height = 0 := by simp [height]

@[simp] theorem termHeight_const (q : Rat) : (const q).termHeight = 0 := rfl

@[simp] theorem factorHeight_const (q : Rat) : (const q).factorHeight = 0 := rfl

@[simp] theorem termHeight_product (fs : List Expr) :
    (product fs).termHeight = (product fs).height := rfl

theorem height_power (b x : Expr) : (power b x).height = b.baseHeight + x.termHeight := by
  simp [power, height, baseHeight, termHeight]

theorem factorHeight_power_const (b : Expr) (q : Rat) :
    (power b (const q)).factorHeight = b.baseHeight := by
  rw [factorHeight, height_power]
  rfl

theorem factorHeight_power {b x : Expr} (hx : x.isConst = false) :
    (power b x).factorHeight = b.baseHeight + x.termHeight + 1 := by
  rw [factorHeight, height_power, power]
  unfold factorHeightOf
  split
  · rename_i h
    cases h
  · rename_i h
    cases h
    cases hx
  · rfl

theorem termHeights_le {N : Nat} : ∀ {ts : List Expr},
    termHeights ts ≤ N ↔ ∀ t ∈ ts, t.termHeight ≤ N
  | [] => by simp [termHeights]
  | t :: ts => by simp [termHeights, termHeight, @termHeights_le N ts]

theorem factorHeights_le {N : Nat} : ∀ {fs : List Expr},
    factorHeights fs ≤ N ↔ ∀ f ∈ fs, f.factorHeight ≤ N
  | [] => by simp [factorHeights]
  | f :: fs => by simp [factorHeights, factorHeight, @factorHeights_le N fs]

theorem heights_le {N : Nat} : ∀ {ts : List Expr}, heights ts ≤ N ↔ ∀ t ∈ ts, t.height ≤ N
  | [] => by simp [heights]
  | t :: ts => by simp [heights, @heights_le N ts]

theorem height_sum_le {N : Nat} {ts : List Expr} :
    (sum ts).height ≤ N + 2 ↔ ∀ t ∈ ts, t.termHeight ≤ N := by
  rw [height, Nat.add_le_add_iff_right, termHeights_le]

theorem height_product_le {N : Nat} {fs : List Expr} :
    (product fs).height ≤ N + 1 ↔ ∀ f ∈ fs, f.factorHeight ≤ N := by
  rw [height, Nat.add_le_add_iff_right, factorHeights_le]

theorem one_le_height_product (fs : List Expr) : 1 ≤ (product fs).height := by
  rw [height]
  omega

theorem height_set_le {N : Nat} {ms : List Expr} :
    (set ms).height ≤ N + 1 ↔ ∀ m ∈ ms, m.height ≤ N := by
  rw [height, Nat.add_le_add_iff_right, heights_le]

theorem height_binary {op : BinaryOp} (hop : op ≠ .power) (l r : Expr) :
    (binary op l r).height = max l.height r.height + 1 := by
  cases op with
  | power => exact absurd rfl hop
  | _ => simp [height]

/-! ## Relations between the heights -/

theorem termHeight_eq {e : Expr} (hc : e.isConst = false) (hp : e.isProduct = false) :
    e.termHeight = e.factorHeight + 1 := by
  cases e with
  | const q => cases hc
  | product fs => cases hp
  | _ => rfl

theorem weight_eq {e : Expr} (hp : e.isProduct = false) : e.weight = 1 := by
  cases e with
  | product fs => cases hp
  | _ => rfl

theorem factorHeight_le_baseHeight (e : Expr) : e.factorHeight ≤ e.baseHeight := by
  unfold factorHeight factorHeightOf baseHeight
  split <;> omega

theorem height_le_factorHeight (e : Expr) : e.height ≤ e.factorHeight := by
  unfold factorHeight factorHeightOf
  split
  · rw [height_const]
  · exact le_refl _
  · omega

theorem height_le_termHeight (e : Expr) : e.height ≤ e.termHeight := by
  cases hc : e.isConst
  · cases hp : e.isProduct
    · rw [termHeight_eq hc hp]
      exact Nat.le_succ_of_le (height_le_factorHeight e)
    · obtain ⟨fs, rfl⟩ := exists_of_isProduct hp
      exact le_refl _
  · obtain ⟨q, rfl⟩ := exists_of_isConst hc
    exact le_refl _

theorem baseHeight_eq {e : Expr} (hp : e.isProduct = false) : e.baseHeight = e.height + 1 := by
  rw [baseHeight, weight_eq hp]

theorem baseHeight_product (fs : List Expr) :
    (product fs).baseHeight = (product fs).height + 3 :=
  rfl

theorem termHeight_le_height_add_two (e : Expr) : e.termHeight ≤ e.height + 2 := by
  cases hc : e.isConst
  · cases hp : e.isProduct
    · have h := factorHeight_le_baseHeight e
      rw [baseHeight_eq hp] at h
      rw [termHeight_eq hc hp]
      omega
    · obtain ⟨fs, rfl⟩ := exists_of_isProduct hp
      rw [termHeight_product]
      omega
  · obtain ⟨q, rfl⟩ := exists_of_isConst hc
    rw [termHeight_const]
    omega

theorem one_le_termHeight {e : Expr} (hc : e.isConst = false) : 1 ≤ e.termHeight := by
  cases hp : e.isProduct
  · rw [termHeight_eq hc hp]
    omega
  · obtain ⟨fs, rfl⟩ := exists_of_isProduct hp
    exact one_le_height_product fs

/-- The height as a term is one above the largest height of a factor. -/
theorem termHeight_le {e : Expr} {N : Nat} :
    e.termHeight ≤ N + 1 ↔ ∀ f ∈ e.factors, f.factorHeight ≤ N := by
  cases hp : e.isProduct
  · rw [factors_eq_self hp, List.forall_mem_singleton]
    cases hc : e.isConst
    · rw [termHeight_eq hc hp, Nat.add_le_add_iff_right]
    · obtain ⟨q, rfl⟩ := exists_of_isConst hc
      simp
  · obtain ⟨fs, rfl⟩ := exists_of_isProduct hp
    exact height_product_le

theorem termHeight_le_baseHeight (e : Expr) : e.termHeight ≤ e.baseHeight + 1 := by
  cases hc : e.isConst
  · cases hp : e.isProduct
    · rw [termHeight_eq hc hp]
      exact Nat.succ_le_succ (factorHeight_le_baseHeight e)
    · obtain ⟨fs, rfl⟩ := exists_of_isProduct hp
      rw [termHeight_product, baseHeight_product]
      omega
  · obtain ⟨q, rfl⟩ := exists_of_isConst hc
    exact Nat.zero_le _

theorem one_le_factorHeight {e : Expr} (hc : e.isConst = false) : 1 ≤ e.factorHeight := by
  unfold factorHeight factorHeightOf
  split
  · cases hc
  · rename_i b q
    have := height_power b (const q)
    rw [power, baseHeight] at this
    have hw : 1 ≤ b.weight := by
      unfold weight
      split <;> omega
    omega
  · have hw : 1 ≤ e.weight := by
      unfold weight
      split <;> omega
    omega

theorem termHeight_power_const (b : Expr) (q : Rat) :
    (power b (const q)).termHeight = b.baseHeight + 1 := by
  rw [termHeight_eq rfl rfl, factorHeight_power_const]

theorem termHeight_power {b x : Expr} (hx : x.isConst = false) :
    (power b x).termHeight = b.baseHeight + x.termHeight + 2 := by
  rw [termHeight_eq rfl rfl, factorHeight_power hx]

/-- As a term, anything but a constant, a product or a power with a constant exponent counts two
more. -/
theorem termHeight_eq_add_two {e : Expr} (hc : e.isConst = false) (hp : e.isProduct = false)
    (hx : ∀ b q, e ≠ power b (const q)) : e.termHeight = e.height + 2 := by
  rw [termHeight_eq hc hp, factorHeight]
  unfold factorHeightOf
  split
  · cases hc
  · exact absurd rfl (hx _ _)
  · rw [weight_eq hp]

theorem termHeight_of_mem_terms {t e : Expr} (h : t ∈ e.terms) : t.termHeight ≤ e.termHeight := by
  cases hs : e.isSum
  · rw [terms_eq_self hs] at h
    rw [List.mem_singleton.mp h]
  · obtain ⟨ts, rfl⟩ := exists_of_isSum hs
    have hle := (@height_sum_le (termHeights ts) ts).mp (by rw [height]) t h
    have hsum : (sum ts).termHeight = termHeights ts + 4 := by
      rw [termHeight_eq rfl rfl, factorHeight]
      rw [height]
      rfl
    omega

/-! ## Sums -/

/-- Taking out the constant factor leaves the height as a term. -/
theorem termHeight_scaled {q : Rat} {r : Expr} (hr : Monic r) (h0 : q ≠ 0) :
    (scaled q r).termHeight = r.termHeight := by
  by_cases h1 : q = 1
  · rw [scaled, if_pos h1]
  · have hperm := factors_scaled hr h0 h1
    have hiff (N : Nat) : (scaled q r).termHeight ≤ N + 1 ↔ r.termHeight ≤ N + 1 := by
      rw [termHeight_le, termHeight_le]
      constructor
      · exact fun h f hf => h f (hperm.mem_iff.mpr (List.mem_append_left _ hf))
      · intro h f hf
        rcases List.mem_append.mp (hperm.mem_iff.mp hf) with hf | hf
        · exact h f hf
        · rw [List.mem_singleton.mp hf]
          exact Nat.zero_le N
    have hc : (scaled q r).isConst = false := by
      cases hc : (scaled q r).isConst
      · rfl
      · obtain ⟨p, hp⟩ := exists_of_isConst hc
        have hlen := hperm.length_eq
        rw [hp, factors_const, List.length_append] at hlen
        exact absurd (List.length_eq_zero_iff.mp (Nat.add_right_cancel hlen).symm)
          hr.factors_ne_nil
    have h₁ := one_le_termHeight hc
    have h₂ := one_le_termHeight hr.notConst
    have h₃ := (hiff (r.termHeight - 1)).mpr (by omega)
    have h₄ := (hiff ((scaled q r).termHeight - 1)).mp (by omega)
    omega

theorem termHeight_monicPart {t : Expr} (ht : Canonical t) (hc : t.isConst = false) :
    (splitCoefficient t).2.termHeight = t.termHeight := by
  obtain ⟨hmonic, h0, heq⟩ := scaled_split ht hc
  conv_rhs => rw [← heq]
  rw [termHeight_scaled hmonic h0]

/-- **Collecting like terms raises no height.** -/
theorem termHeight_collect {N : Nat} {ts : List Expr} (hts : ∀ t ∈ ts, Canonical t)
    (h : ∀ t ∈ ts, t.termHeight ≤ N) : ∀ t ∈ (collect ts).terms, t.termHeight ≤ N := by
  intro t ht
  rcases mem_terms_collect hts ht with hc | ⟨-, ⟨k, q⟩, hp, htp⟩
  · obtain ⟨q, rfl⟩ := exists_of_isConst hc
    exact Nat.zero_le N
  · have hmonic := monic_likeTerms hts hp
    obtain ⟨hkey, -, h0⟩ := (mem_likeTerms hts).mp hp
    obtain ⟨p, hmem, rfl⟩ := List.mem_map.mp hkey
    obtain ⟨u, hu, rfl⟩ := List.mem_map.mp hmem
    have hu' := mem_others.mp hu
    calc t.termHeight ≤ (scaled q (splitCoefficient u).2).termHeight := termHeight_of_mem_terms htp
      _ = (splitCoefficient u).2.termHeight := termHeight_scaled hmonic h0
      _ = u.termHeight := termHeight_monicPart (hts u hu'.1) hu'.2
      _ ≤ N := h u hu'.1

/-- A canonical expression with low terms is a low sum or a single low term. -/
theorem height_of_terms {N : Nat} {e : Expr} (h : ∀ t ∈ e.terms, t.termHeight ≤ N) :
    (e.isSum = true ∧ e.height ≤ N + 2) ∨ (e.isSum = false ∧ e.termHeight ≤ N) := by
  cases hs : e.isSum
  · rw [terms_eq_self hs] at h
    exact Or.inr ⟨rfl, h e (by simp)⟩
  · obtain ⟨ts, rfl⟩ := exists_of_isSum hs
    exact Or.inl ⟨rfl, height_sum_le.mpr h⟩

/-! ## Products -/

theorem factorHeight_productOf {N : Nat} {xs : List Expr} (hxs : ∀ x ∈ xs, Canonical x)
    (h : ∀ x ∈ xs, ∀ f ∈ x.factors, f.factorHeight ≤ N) :
    ∀ f ∈ (productOf xs).factors, f.factorHeight ≤ N := by
  intro f hf
  rcases mem_factors_productOf hxs hf with hc | ⟨-, x, hx, hfx⟩
  · obtain ⟨q, rfl⟩ := exists_of_isConst hc
    exact Nat.zero_le N
  · exact h x hx f hfx

theorem isConst_of_termHeight {e : Expr} (h : e.termHeight = 0) : e.isConst = true := by
  cases hc : e.isConst
  · have := one_le_termHeight hc
    omega
  · rfl

theorem isConst_productOf {xs : List Expr} (h : ∀ x ∈ xs, x.isConst = true) :
    (productOf xs).isConst = true := by
  have ho : others (xs.flatMap factors) = [] := by
    rw [others, List.filter_eq_nil_iff]
    intro f hf
    obtain ⟨x, hx, hfx⟩ := List.mem_flatMap.mp hf
    obtain ⟨q, rfl⟩ := exists_of_isConst (h x hx)
    rw [List.mem_singleton.mp hfx]
    simp [isConst]
  rw [productOf_eq]
  split
  · rfl
  · rw [arranged, ho]
    split <;> rfl

/-- A product is at most as high as a term as its operands. -/
theorem termHeight_productOf {N : Nat} {xs : List Expr} (hxs : ∀ x ∈ xs, Canonical x)
    (h : ∀ x ∈ xs, x.termHeight ≤ N) : (productOf xs).termHeight ≤ N := by
  cases N with
  | zero =>
    obtain ⟨q, hq⟩ := exists_of_isConst (isConst_productOf fun x hx =>
      isConst_of_termHeight (Nat.le_zero.mp (h x hx)))
    rw [hq]
    exact le_refl _
  | succ N =>
    exact termHeight_le.mpr (factorHeight_productOf hxs fun x hx => termHeight_le.mp (h x hx))

end SymbolicAlgebra.Expr

namespace SymbolicAlgebra.Evaluator

open Expr

theorem baseHeight_splitExponent {f : Expr} (hc : f.isConst = false) :
    (splitExponent f).1.baseHeight ≤ f.factorHeight := by
  unfold splitExponent
  split
  · rename_i b x
    exact (factorHeight_power_const b x).ge
  · rename_i hne
    have : f.factorHeight = f.baseHeight := by
      unfold factorHeight factorHeightOf
      split
      · cases hc
      · exact absurd rfl (hne _ _)
      · rfl
    exact this.ge

theorem factorHeight_raised {b : Expr} {x : Rat} :
    ∀ f ∈ (raised b x).factors, f.factorHeight ≤ b.baseHeight := by
  rw [raised]
  split
  · intro f hf
    cases hp : b.isProduct
    · rw [factors_eq_self hp] at hf
      rw [List.mem_singleton.mp hf]
      exact factorHeight_le_baseHeight b
    · obtain ⟨fs, rfl⟩ := exists_of_isProduct hp
      have hle := (@height_product_le (factorHeights fs) fs).mp (by rw [height]) f hf
      have hheight : (Expr.product fs).height = factorHeights fs + 1 := by rw [height]
      rw [baseHeight_product]
      omega
  · intro f hf
    rw [List.mem_singleton.mp hf, factorHeight_power_const]

/-- The bases are at most as high as the factors that they were taken from. -/
theorem baseHeight_ofFactors {N : Nat} {fs : List Expr} (hfs : ∀ f ∈ fs, Expr.Canonical f)
    (h : ∀ f ∈ fs, f.factorHeight ≤ N) :
    ∀ k ∈ Tally.keys (Bases.ofFactors fs).exponents.entries, k.baseHeight ≤ N := by
  intro k hk
  rw [Bases.ofFactors_eq] at hk
  have hk := (Tally.mem_keys_ofList (canonical_keys_exponentsOf hfs)).mp hk
  obtain ⟨p, hp, rfl⟩ := List.mem_map.mp hk
  obtain ⟨f, hf, rfl⟩ := List.mem_map.mp hp
  have hf' := mem_others.mp hf
  exact (baseHeight_splitExponent hf'.2).trans (h f hf'.1)

/-- **The product of low bases is a low term.** -/
theorem termHeight_product_bases {N : Nat} {b : Bases} (hb : b.Canonical)
    (h : ∀ k ∈ Tally.keys b.exponents.entries, k.baseHeight ≤ N) :
    b.product.termHeight ≤ N + 1 := by
  rw [Bases.product_eq, termHeight_le]
  refine factorHeight_productOf (List.forall_mem_cons.mpr ⟨.const _, hb.powers⟩) ?_
  refine List.forall_mem_cons.mpr ⟨?_, ?_⟩
  · intro f hf
    rw [List.mem_singleton.mp hf]
    exact Nat.zero_le N
  · intro x hx f hf
    obtain ⟨p, hp, rfl⟩ := List.mem_map.mp hx
    exact (factorHeight_raised f hf).trans
      (h p.1 (List.mem_map_of_mem (List.mem_filter.mp hp).1))

end SymbolicAlgebra.Evaluator

namespace SymbolicAlgebra.Expr

/-! ## The height is bounded by the size -/

theorem weight_le_three (e : Expr) : e.weight ≤ 3 := by
  unfold weight
  split <;> omega

theorem factorHeight_le_height_add_three (e : Expr) : e.factorHeight ≤ e.height + 3 := by
  have h₁ := factorHeight_le_baseHeight e
  have h₂ := weight_le_three e
  rw [baseHeight] at h₁
  omega

/-- **The height is at most six times the size.** -/
theorem height_add_le (e : Expr) : e.height + 4 ≤ 6 * e.size := by
  have items {xs : List Expr} (ih : ∀ x ∈ xs, x.height + 4 ≤ 6 * x.size) :
      ∀ x ∈ xs, x.height + 4 ≤ 6 * sizeList xs := fun x hx =>
    (ih x hx).trans (Nat.mul_le_mul_left 6 (size_le_sizeList hx))
  induction e using inductionOn with
  | const q => simp [height, size]
  | var n c => simp [height, size]
  | sum ts ih =>
    have hle : (Expr.sum ts).height ≤ 6 * sizeList ts + 2 := height_sum_le.mpr fun t ht => by
      have h₁ := items ih t ht
      have h₂ := termHeight_le_height_add_two t
      omega
    rw [size]
    omega
  | product fs ih =>
    have hle : (Expr.product fs).height ≤ 6 * sizeList fs + 1 := height_product_le.mpr fun f hf => by
      have h₁ := items ih f hf
      have h₂ := factorHeight_le_height_add_three f
      omega
    rw [size]
    omega
  | binary op l r ihl ihr =>
    rw [size]
    by_cases hop : op = .power
    · subst hop
      have h₁ := height_power l r
      rw [power, baseHeight] at h₁
      have h₂ := termHeight_le_height_add_two r
      have h₃ := weight_le_three l
      omega
    · rw [height_binary hop]
      omega
  | not a ih =>
    rw [size, height]
    omega
  | call f args ih =>
    have hle : heights args ≤ 6 * sizeList args := heights_le.mpr fun t ht => by
      have := items ih t ht
      omega
    rw [size, height]
    omega
  | set ms ih =>
    have hle : heights ms ≤ 6 * sizeList ms := heights_le.mpr fun t ht => by
      have := items ih t ht
      omega
    rw [size, height]
    omega

end SymbolicAlgebra.Expr
