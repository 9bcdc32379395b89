import SymbolicAlgebra.Proofs.NormalForm
import SymbolicAlgebra.Expr.Traversal

/-!
# The constructors respect equality

Operands that are equal item by item (`==`) give equal sums, products and sets, in whatever order the
operands come and whatever functions are called in them: sorting only compares, and equal items
compare alike. So a node that is built anew from equal parts is equal (`rebuild_beq`), and what is
computed from the parts of a node is the same for all nodes that are equal to it.

Results:
* `sumOf_beq`, `productOf_beq`, `setOf_beq`, `rebuild_beq`: equal operands give equal nodes.
* `mapChildrenM_eq`: visiting the parts of a node is visiting the list of its parts.
-/

namespace SymbolicAlgebra.Expr

/-! ## Lists that are equal item by item -/

/-- Item by item equality, for the library's lemmas about related lists. -/
theorem beqList_iff : ∀ {xs ys : List Expr},
    beqList xs ys = true ↔ List.Forall₂ (fun x y => (x == y) = true) xs ys
  | [], [] => by simp [beqList]
  | [], _ :: _ | _ :: _, [] => by simp [beqList]
  | x :: xs, y :: ys => by
    rw [List.forall₂_cons, beqList, Bool.and_eq_true, beqList_iff]
    rfl

theorem beqList_append {xs xs' ys ys' : List Expr} (h : beqList xs xs' = true)
    (h' : beqList ys ys' = true) : beqList (xs ++ ys) (xs' ++ ys') = true := by
  rw [beqList_iff] at h h' ⊢
  exact List.rel_append h h'

theorem beqList_reverse {xs ys : List Expr} (h : beqList xs ys = true) :
    beqList xs.reverse ys.reverse = true := by
  rw [beqList_iff] at h ⊢
  exact List.forall₂_reverse_iff.mpr h

theorem beqList_flatMap {f : Expr → List Expr}
    (hf : ∀ x y, (x == y) = true → beqList (f x) (f y) = true) {xs ys : List Expr}
    (h : beqList xs ys = true) : beqList (xs.flatMap f) (ys.flatMap f) = true := by
  rw [beqList_iff] at h ⊢
  exact List.rel_flatMap h fun x y hxy => beqList_iff.mp (hf x y hxy)

theorem terms_beq (x y : Expr) (h : (x == y) = true) : beqList x.terms y.terms = true := by
  have hsingle : beqList [x] [y] = true := by
    rw [beqList, show beq x y = true from h]
    rfl
  cases x <;> cases y <;> first | exact hsingle | exact h | cases h

theorem factors_beq (x y : Expr) (h : (x == y) = true) : beqList x.factors y.factors = true := by
  have hsingle : beqList [x] [y] = true := by
    rw [beqList, show beq x y = true from h]
    rfl
  cases x <;> cases y <;> first | exact hsingle | exact h | cases h

/-! ## Sorting -/

theorem before_congr {x x' y y' : Expr} (hx : (x == x') = true) (hy : (y == y') = true) :
    before x y = before x' y' := by
  rw [before, before, Std.TransCmp.congr_left (compare_of_beq hx),
    Std.TransCmp.congr_right (compare_of_beq hy)]

theorem insertDescending_beq {x x' : Expr} (hx : (x == x') = true) {ys ys' : List Expr}
    (h : beqList ys ys' = true) :
    beqList (insertDescending x ys) (insertDescending x' ys') = true := by
  rw [beqList_iff] at h ⊢
  induction h with
  | nil => exact .cons hx .nil
  | cons hy hys ih =>
    rw [insertDescending, insertDescending, before_congr hx hy]
    split
    · exact .cons hy ih
    · exact .cons hx (.cons hy hys)

theorem sort_beq {xs ys : List Expr} (h : beqList xs ys = true) :
    beqList (sort xs) (sort ys) = true := by
  refine beqList_reverse (beqList_iff.mpr ?_)
  refine List.rel_foldl (fun acc acc' hacc x x' hx => ?_) List.Forall₂.nil (beqList_iff.mp h)
  exact beqList_iff.mp (insertDescending_beq hx (beqList_iff.mpr hacc))

/-! ## The constructors -/

theorem arranged_beq {neutral c : Rat} {xs ys : List Expr} (h : beqList xs ys = true) :
    beqList (arranged neutral c xs) (arranged neutral c ys) = true := by
  have hothers := (operands_of_beqList h).2
  rw [arranged, arranged]
  split
  · exact sort_beq hothers
  · exact sort_beq (beqList_append hothers (beqList_refl fun x _ => beq_refl x))

theorem ofTerms_beq {xs ys : List Expr} (h : beqList xs ys = true) :
    (ofTerms xs == ofTerms ys) = true := by
  have hall := h
  cases beqList_iff.mp h with
  | nil => rfl
  | cons hx hxs =>
    cases hxs with
    | nil => exact hx
    | cons _ _ => exact hall

theorem ofFactors_beq {xs ys : List Expr} (h : beqList xs ys = true) :
    (ofFactors xs == ofFactors ys) = true := by
  have hall := h
  cases beqList_iff.mp h with
  | nil => rfl
  | cons hx hxs =>
    cases hxs with
    | nil => exact hx
    | cons _ _ => exact hall

theorem sumOf_beq {xs ys : List Expr} (h : beqList xs ys = true) :
    (sumOf xs == sumOf ys) = true := by
  have hterms := beqList_flatMap terms_beq h
  rw [sumOf_eq, sumOf_eq, (operands_of_beqList hterms).1]
  exact ofTerms_beq (arranged_beq hterms)

theorem productOf_beq {xs ys : List Expr} (h : beqList xs ys = true) :
    (productOf xs == productOf ys) = true := by
  have hfactors := beqList_flatMap factors_beq h
  rw [productOf_eq, productOf_eq, (operands_of_beqList hfactors).1]
  split
  · rfl
  · exact ofFactors_beq (arranged_beq hfactors)

theorem dropRepeats_beq {xs ys : List Expr} (h : beqList xs ys = true) :
    beqList (dropRepeats xs) (dropRepeats ys) = true := by
  rw [beqList_iff] at h ⊢
  fun_induction dropRepeats xs generalizing ys with
  | case1 x y xs heq ih =>
    obtain _ | ⟨hx, _ | ⟨hy, hxs⟩⟩ := h
    rw [dropRepeats, if_pos (by rwa [← BEq.congr_left hx, ← BEq.congr_right hy])]
    exact ih (.cons hx hxs)
  | case2 x y xs hne ih =>
    obtain _ | ⟨hx, _ | ⟨hy, hxs⟩⟩ := h
    rw [dropRepeats, if_neg (by rwa [← BEq.congr_left hx, ← BEq.congr_right hy])]
    exact .cons hx (ih (.cons hy hxs))
  | case3 xs hshort =>
    obtain _ | ⟨hx, _ | ⟨hy, hxs⟩⟩ := h
    · simp [dropRepeats]
    · simpa [dropRepeats] using hx
    · exact absurd rfl (hshort _ _ _)

theorem setOf_beq {xs ys : List Expr} (h : beqList xs ys = true) :
    (setOf xs == setOf ys) = true :=
  dropRepeats_beq (sort_beq h)

/-! ## Parts -/

/-- The operands of a node of any kind. -/
def parts : Expr → List Expr
  | const _ | var .. => []
  | sum ts => ts
  | product fs => fs
  | binary _ l r => [l, r]
  | not a => [a]
  | call _ args => args
  | set ms => ms

/-- The node with other parts. -/
def rebuild : Expr → List Expr → Expr
  | sum _, ps => sumOf ps
  | product _, ps => productOf ps
  | binary op _ _, [l, r] => binary op l r
  | not _, [a] => not a
  | call f _, ps => call f ps
  | set _, ps => setOf ps
  | e, _ => e

theorem mapChildrenM_eq {m : Type → Type} [Monad m] [LawfulMonad m] (visit : Expr → m Expr)
    (e : Expr) : e.mapChildrenM visit = (e.rebuild ·) <$> mapListM visit e.parts := by
  cases e <;> simp [mapChildrenM, parts, rebuild, mapListM]

theorem size_eq_sizeList_parts (e : Expr) : e.size = sizeList e.parts + 1 := by
  cases e <;> simp [size, parts, sizeList]

theorem size_lt_of_mem_parts {e p : Expr} (h : p ∈ e.parts) : p.size < e.size := by
  have := size_le_sizeList h
  rw [size_eq_sizeList_parts e]
  omega

/-- Induction over expressions, with the hypothesis for all parts. -/
@[elab_as_elim]
theorem inductionOnParts {motive : Expr → Prop} (e : Expr)
    (node : ∀ e, (∀ p ∈ e.parts, motive p) → motive e) : motive e :=
  node e fun p _ => inductionOnParts p node
termination_by e.size
decreasing_by exact size_lt_of_mem_parts ‹_›

theorem parts_beq {a b : Expr} (h : (a == b) = true) : beqList a.parts b.parts = true := by
  change beq a b = true at h
  cases a <;> cases b <;> simp only [beq, Bool.and_eq_true, Bool.false_eq_true] at h
  case const.const | var.var => rfl
  case sum.sum | product.product | set.set => exact h
  case call.call => exact h.2
  case not.not => simp [parts, beqList, h]
  case binary.binary => simp [parts, beqList, h]

/-- Equal expressions are of one size. -/
theorem size_beq {a b : Expr} (h : (a == b) = true) : a.size = b.size := by
  have hlist : ∀ {xs ys : List Expr}, List.Forall₂ (fun x y => (x == y) = true) xs ys →
      (∀ x ∈ xs, x.size < a.size) → sizeList xs = sizeList ys := by
    intro xs ys hxs hlt
    induction hxs with
    | nil => rfl
    | @cons x y xs ys hxy _ ih =>
      have hx := hlt x (by simp)
      rw [sizeList, sizeList, size_beq hxy, ih fun z hz => hlt z (by simp [hz])]
  rw [size_eq_sizeList_parts a, size_eq_sizeList_parts b,
    hlist (beqList_iff.mp (parts_beq h)) fun x hx => size_lt_of_mem_parts hx]
termination_by a.size

/-- **Equal nodes with equal new parts are equal.** -/
theorem rebuild_beq {a b : Expr} {ps qs : List Expr} (h : (a == b) = true)
    (hps : beqList ps qs = true) : (a.rebuild ps == b.rebuild qs) = true := by
  have hall := h
  change beq a b = true at h
  cases a <;> cases b <;> simp only [beq, Bool.and_eq_true, Bool.false_eq_true] at h
  case const.const | var.var => exact hall
  case sum.sum => exact sumOf_beq hps
  case product.product => exact productOf_beq hps
  case set.set => exact setOf_beq hps
  case call.call f _ g _ =>
    change ((f == g) && beqList ps qs) = true
    rw [h.1, hps]
    rfl
  case not.not =>
    obtain _ | ⟨hp, _ | ⟨_, _⟩⟩ := beqList_iff.mp hps
    · exact hall
    · exact hp
    · exact hall
  case binary.binary op _ _ op' _ _ =>
    obtain _ | ⟨hp, _ | ⟨hp', _ | ⟨_, _⟩⟩⟩ := beqList_iff.mp hps
    · exact hall
    · exact hall
    · change ((op == op') && beq _ _ && beq _ _) = true
      rw [h.1.1, show beq _ _ = true from hp, show beq _ _ = true from hp']
      rfl
    · exact hall

end SymbolicAlgebra.Expr
