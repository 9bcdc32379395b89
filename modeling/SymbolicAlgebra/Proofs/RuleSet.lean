import Std.Data.String.ToNat
import SymbolicAlgebra.Proofs.Matching
import SymbolicAlgebra.Proofs.Transparency
import SymbolicAlgebra.Reduction.RuleSet

/-!
# Filing rules by shape loses none

A rule set turns an expression away from all rules below a shape that it does not match, so a rule
is lost as soon as one shape on its path rejects an expression that its pattern matches. A rule may
stand below a shape of another kind than its own pattern: `_1 + _2` admits every pattern, and so does
`_1^_2`.

`Fits p e` says what a shape asks of an expression: that its outermost node is the one of `p`, where
sums and products of at least one part, powers, variables and sets ask nothing, because the matcher
sees any expression as one of them. It is what the shape of `p` matches (`isSome_match?_shape`), it
is necessary for `p` itself to match (`fits_of_match?`), and it is transitive, so a shape that admits
a pattern matches all that the pattern matches.

Results:
* `Filed.reductAccepted?_eq`: a set in which every rule fits the shapes above it gives the first
  result of its rules in the order of the tree, as if there were no shapes.
* `ofRules_complete`: a set holds as many rules as were added, and it reduces an expression
  if and only if one of them does, to a result of one of them.
-/

namespace SymbolicAlgebra

/-! ## Attempts that succeed -/

namespace Attempt

variable {ok : Expr → Expr → Prop} {a b : Attempt} {s : MatchState}

/-- The attempt succeeds in a state. -/
def Succeeds (a : Attempt) (s : MatchState) : Prop := (a.run s).1 = true

theorem isSome_bindings? : (a.bindings? s).isSome ↔ a.Succeeds s := by
  change (if (a.run s).1 then some (a.run s).2.bindings else none).isSome ↔ _
  unfold Succeeds
  cases (a.run s).1 <;> simp

theorem succeeds_tentatively : (tentatively a).Succeeds s ↔ a.Succeeds s := by
  unfold Succeeds
  rw [run_tentatively]
  split <;> simp_all

theorem succeeds_andThen : (a.andThen b).Succeeds s ↔ a.Succeeds s ∧ b.Succeeds (a.run s).2 := by
  unfold Succeeds
  rw [run_andThen]
  split <;> simp_all

theorem Succeeds.orElse (h : a.Succeeds s) : (a.orElse b).Succeeds s := by
  unfold Succeeds
  rw [run_orElse, if_pos (show (a.run s).1 = true from h)]

/-- The second attempt is run in the same state, because a clean first one restores it. -/
theorem Clean.succeeds_orElse (ha : Clean ok a) (hs : s.Consistent) (hb : b.Succeeds s) :
    (a.orElse b).Succeeds s := by
  by_cases h : a.Succeeds s
  · exact h.orElse
  · unfold Succeeds at h ⊢
    rw [run_orElse, if_neg (show ¬(a.run s).1 = true from h), ha.restores s hs (eq_false_of_ne_true h)]
    exact hb

theorem succeeds_anyM {α : Type} {attempt : α → Attempt} {x : α} : ∀ {xs : List α},
    (∀ y ∈ xs, Clean ok (attempt y)) → s.Consistent → x ∈ xs → (attempt x).Succeeds s →
      Attempt.Succeeds (xs.anyM attempt) s
  | y :: ys, hclean, hs, hx, h => by
    rw [anyM_cons]
    rcases List.mem_cons.mp hx with rfl | hx
    · exact h.orElse
    · exact (hclean y List.mem_cons_self).succeeds_orElse hs
        (succeeds_anyM (fun z hz => hclean z (List.mem_cons_of_mem y hz)) hs hx h)

end Attempt

/-! ## Fresh variables match everything -/

namespace MatchState

/-- Different plain variables, none of which is bound. -/
structure Unbound (s : MatchState) (vs : List Expr) : Prop where
  symbols : ∀ v ∈ vs, ∃ n, v = .symbol n
  distinct : vs.Pairwise fun k l => (k == l) = false
  absent : ∀ v ∈ vs, s.bindings.get? v = none

variable {s : MatchState} {v : Expr} {vs ws : List Expr}

theorem Unbound.perm (h : s.Unbound vs) (hperm : vs.Perm ws) : s.Unbound ws where
  symbols w hw := h.symbols w (hperm.mem_iff.mpr hw)
  distinct := hperm.pairwise h.distinct fun hne => BEq.comm.trans hne
  absent w hw := h.absent w (hperm.mem_iff.mpr hw)

/-- Binding one of the variables leaves the others unbound. -/
theorem Unbound.add (h : s.Unbound (v :: vs)) (value : Expr) : (s.add v value).Unbound vs where
  symbols w hw := h.symbols w (List.mem_cons_of_mem v hw)
  distinct := (List.pairwise_cons.mp h.distinct).2
  absent w hw := by
    have hne : (v == w) = false := (List.pairwise_cons.mp h.distinct).1 w hw
    have hnone : Bindings.get? ⟨s.bindings.entries⟩ w = none :=
      h.absent w (List.mem_cons_of_mem v hw)
    change Bindings.get? ⟨s.bindings.entries ++ [(v, value)]⟩ w = none
    rw [get?_append, hnone, Option.none_or]
    simp [Bindings.get?, hne]

theorem Unbound.constants (h : s.Unbound vs) : Expr.constants vs = [] := by
  rw [List.eq_nil_iff_forall_not_mem]
  intro q hq
  obtain ⟨n, hn⟩ := h.symbols _ (Expr.mem_constants.mp hq)
  cases hn

theorem Unbound.terms (h : s.Unbound vs) : vs.flatMap Expr.terms = vs := by
  refine Expr.flatMap_terms_eq_self fun v hv => ?_
  obtain ⟨n, rfl⟩ := h.symbols v hv
  rfl

/-- The sum of several variables is a node over them in some order. -/
theorem Unbound.sumOf_eq (h : s.Unbound vs) (hlength : 2 ≤ vs.length) :
    Expr.sumOf vs = .sum (Expr.sort vs) := by
  rw [Expr.sumOf_eq, h.terms, h.constants, Expr.arranged, if_pos List.sum_nil,
    Expr.others_eq_self h.constants]
  exact Expr.ofTerms_of_two_le (by rwa [(Expr.sort_perm vs).length_eq])

theorem Unbound.productOf_eq (h : s.Unbound vs) (hlength : 2 ≤ vs.length) :
    Expr.productOf vs = .product (Expr.sort vs) := by
  refine Expr.productOf_eq_product h.constants (fun v hv => ?_) hlength
  obtain ⟨n, rfl⟩ := h.symbols v hv
  rfl

end MatchState

namespace Matching

open Attempt MatchState

variable {ctx : Context} {s : MatchState} {v e : Expr} {vs : List Expr}

/-- An unbound variable takes the subject. -/
theorem run_matching_unbound (h : s.Unbound (v :: vs)) (e : Expr) :
    (v.matching e ctx).run s = (true, s.add v e) := by
  obtain ⟨n, rfl⟩ := h.symbols v List.mem_cons_self
  have habsent := h.absent _ List.mem_cons_self
  rw [Expr.matching_eq]
  change (Attempt.bind (.symbol n) e).run s = _
  rw [run_bind, habsent]

theorem succeeds_matching_unbound (h : s.Unbound (v :: vs)) (e : Expr) :
    (v.matching e ctx).Succeeds s := by
  unfold Succeeds
  rw [run_matching_unbound h]

theorem succeeds_eachInOrder : ∀ {vs : List Expr} {s : MatchState} (es : List Expr),
    s.Unbound vs → (eachInOrder (fun p e => p.matching e ctx) vs es).Succeeds s
  | [], _, _, _ => rfl
  | _ :: _, _, [], _ => rfl
  | v :: vs, s, e :: es, h => by
    rw [eachInOrder, succeeds_andThen, run_matching_unbound h]
    exact ⟨succeeds_matching_unbound h e, succeeds_eachInOrder es (h.add e)⟩

/-- An unbound variable can take the neutral element and leave the whole subject to the rest. -/
theorem succeeds_matchPart (op : Operation) {remaining : Expr} (hs : s.Consistent)
    (h : s.Unbound (v :: vs))
    (hrest : ∀ t : MatchState, t.Consistent → t.Unbound vs →
      (remaining.matching e ctx).Succeeds t) :
    (matchPart op ctx (fun p e => p.matching e ctx) v remaining e).Succeeds s := by
  obtain ⟨n, rfl⟩ := h.symbols v List.mem_cons_self
  have habsent := h.absent _ List.mem_cons_self
  have hclean (p e : Expr) := (p.clean_matching e ctx).adds
  unfold Succeeds Expr.symbol
  rw [run_matchPart_var, show s.bindings.get? (.var n none) = none from habsent]
  refine @Clean.succeeds_orElse Accepts _ _ _ (clean_anySubset (fun _ _ => ?_) _) hs ?_
  · exact ((hclean _ _).andThen (hclean _ _)).tentatively
  · rw [succeeds_tentatively, succeeds_andThen]
    refine ⟨succeeds_matching_unbound h _, ?_⟩
    change Succeeds _ (((Expr.symbol n).matching op.identity ctx).run s).2
    rw [run_matching_unbound h]
    exact hrest _ (consistent_add hs _ habsent) (h.add _)

theorem succeeds_matchCommutative (op : Operation) (hs : s.Consistent) (h : s.Unbound (v :: vs))
    (hrest : ∀ t : MatchState, t.Consistent → t.Unbound vs →
      ((op.combine vs).matching e ctx).Succeeds t) :
    (matchCommutative op ctx (fun p e => p.matching e ctx) (v :: vs) e).Succeeds s := by
  have hparts : (v :: vs).partition Expr.isConst = ([], v :: vs) := by
    refine Prod.ext ?_ ?_
    · rw [List.partition_eq_filter_filter, List.filter_eq_nil_iff]
      intro w hw
      obtain ⟨n, rfl⟩ := h.symbols w hw
      simp [Expr.isConst, Expr.symbol]
    · rw [partition_isConst, Expr.others_eq_self h.constants]
  unfold matchCommutative
  rw [hparts]
  dsimp only
  rw [if_neg (show ¬(v :: vs).isEmpty = true by simp), picks, anyM_cons]
  exact (succeeds_matchPart op hs h hrest).orElse

/-- A combination of `vs` either is their only member or is matched as a node over a permutation. -/
theorem succeeds_combination (op : Operation) (matched : List Expr → Expr → Attempt)
    (hone : ∀ v : Expr, v.isVar = true → op.combine [v] = v)
    (hnode : ∀ {s : MatchState} {vs : List Expr} (e : Expr), s.Unbound vs → 2 ≤ vs.length →
      (op.combine vs).matching e ctx = matched (Expr.sort vs) e)
    (hmatched : ∀ {s : MatchState} {v e : Expr} {vs : List Expr}, s.Consistent →
      s.Unbound (v :: vs) →
      (∀ t : MatchState, t.Consistent → t.Unbound vs →
        ((op.combine vs).matching e ctx).Succeeds t) →
      (matched (v :: vs) e).Succeeds s) :
    ∀ (n : Nat) {vs : List Expr} {s : MatchState} (e : Expr), vs.length = n + 1 →
      s.Consistent → s.Unbound vs → ((op.combine vs).matching e ctx).Succeeds s
  | 0, vs, s, e, hlength, _, h => by
    obtain ⟨v, rfl⟩ := List.length_eq_one_iff.mp hlength
    obtain ⟨n, rfl⟩ := h.symbols v List.mem_cons_self
    rw [hone _ rfl]
    exact succeeds_matching_unbound h e
  | n + 1, vs, s, e, hlength, hs, h => by
    rw [hnode e h (by omega)]
    have hsorted := h.perm (Expr.sort_perm vs).symm
    have hsort : (Expr.sort vs).length = n + 1 + 1 := by rw [(Expr.sort_perm vs).length_eq, hlength]
    match hvs : Expr.sort vs, hsort with
    | w :: ws, hws =>
      rw [hvs] at hsorted
      exact hmatched hs hsorted fun t ht hws' =>
        succeeds_combination op matched hone hnode hmatched n e (Nat.succ.inj hws) ht hws'

theorem succeeds_sumOf (e : Expr) (hs : s.Consistent) (h : s.Unbound vs) (hvs : vs ≠ []) :
    ((Expr.sumOf vs).matching e ctx).Succeeds s := by
  obtain ⟨n, hn⟩ := Nat.exists_eq_succ_of_ne_zero fun h0 => hvs (List.length_eq_zero_iff.mp h0)
  refine succeeds_combination .sum (matchCommutative .sum ctx fun p e => p.matching e ctx)
    ?_ ?_ (succeeds_matchCommutative .sum) n e hn hs h
  · intro v hv
    cases v with
    | var n c => rfl
    | _ => cases hv
  · intro s vs e h hlength
    change (Expr.sumOf vs).matching e ctx = _
    rw [h.sumOf_eq hlength, Expr.matching_eq]
    rfl

theorem succeeds_matchProduct (hs : s.Consistent) (h : s.Unbound (v :: vs))
    (hrest : ∀ t : MatchState, t.Consistent → t.Unbound vs →
      ((Expr.productOf vs).matching e ctx).Succeeds t) :
    (matchProduct ctx (fun p e => p.matching e ctx) (v :: vs) e).Succeeds s := by
  unfold matchProduct
  split
  · rw [anyM_cons]
    exact (succeeds_tentatively.mpr (succeeds_matching_unbound h _)).orElse
  · exact succeeds_matchCommutative .product hs h hrest

theorem succeeds_productOf (e : Expr) (hs : s.Consistent) (h : s.Unbound vs) (hvs : vs ≠ []) :
    ((Expr.productOf vs).matching e ctx).Succeeds s := by
  obtain ⟨n, hn⟩ := Nat.exists_eq_succ_of_ne_zero fun h0 => hvs (List.length_eq_zero_iff.mp h0)
  refine succeeds_combination .product (matchProduct ctx fun p e => p.matching e ctx)
    ?_ ?_ succeeds_matchProduct n e hn hs h
  · intro v hv
    cases v with
    | var n c => rfl
    | _ => cases hv
  · intro s vs e h hlength
    change (Expr.productOf vs).matching e ctx = _
    rw [h.productOf_eq hlength, Expr.matching_eq]
    rfl

end Matching

/-- What a rule gives if it changes the expression and is accepted. -/
def Rule.reductAccepted? (r : Rule) (accept : Expr → Bool) (ctx : Context) (e : Expr) :
    Option Expr :=
  (r.reduct? e ctx).filter fun result => result != e && accept result

theorem Rule.reductAccepted?_eq_some {r : Rule} {accept : Expr → Bool} {ctx : Context}
    {e result : Expr} : r.reductAccepted? accept ctx e = some result ↔
      r.reduct? e ctx = some result ∧ (result != e) = true ∧ accept result = true := by
  rw [reductAccepted?, Option.filter_eq_some_iff, Bool.and_eq_true]

/-! ## What shapes match -/

namespace RuleSet

open Attempt MatchState Matching

/-- The outermost node of a pattern is one that the matcher can see in the expression. -/
def Fits : Expr → Expr → Prop
  | .const q, e => Expr.const q == e
  | .sum [], e => Expr.zero == e
  | .product [], e => Expr.one == e
  | .binary op _ _, e => op = .power ∨ ∃ l r, e = .binary op l r
  | .not _, e => ∃ a, e = .not a
  | .call f ps, e => ∃ g es, e = .call g es ∧ (f == g) = true ∧ ps.length = es.length
  | .var _ _, _ | .sum (_ :: _), _ | .product (_ :: _), _ | .set _, _ => True

theorem length_freshFor (items : List Expr) : (freshFor items).length = items.length := by
  simp [freshFor]

theorem unbound_freshFor (items : List Expr) : MatchState.empty.Unbound (freshFor items) where
  symbols v hv := by
    obtain ⟨⟨_, i⟩, -, rfl⟩ := List.mem_map.mp hv
    exact ⟨_, rfl⟩
  distinct := by
    have hindex : (items.zipIdx.map Prod.snd).Pairwise (· ≠ ·) := by
      rw [List.zipIdx_map_snd]
      exact List.nodup_range'
    refine List.pairwise_map.mpr ((List.pairwise_map.mp hindex).imp fun {a b} hne => ?_)
    rw [← Bool.not_eq_true]
    intro heq
    have hname : "_" ++ toString (a.2 + 1) = "_" ++ toString (b.2 + 1) := by
      simpa [Expr.symbol, BEq.beq, Expr.beq] using heq
    have := Nat.repr_inj.mp ((String.append_right_inj "_").mp hname)
    exact hne (Nat.succ.inj this)
  absent _ _ := rfl

variable {ctx : Context} {p q e s : Expr}

theorem isSome_match? : (p.match? e ctx).isSome ↔ (p.matching e ctx).Succeeds .empty :=
  isSome_bindings?

/-- A pattern matches nothing that its outermost node does not fit. -/
theorem fits_of_match? (h : (p.match? e ctx).isSome) : Fits p e := by
  rw [isSome_match?, Expr.matching_eq] at h
  unfold Succeeds at h
  cases p with
  | const q => exact h
  | var n c => trivial
  | sum ts =>
    cases ts with
    | nil => exact BEq.symm h
    | cons t ts => trivial
  | product fs =>
    cases fs with
    | cons f fs => trivial
    | nil =>
      change ((matchProduct ctx _ [] e).run .empty).1 = true at h
      unfold matchProduct at h
      split at h
      · cases h
      · exact BEq.symm h
  | binary op l r =>
    by_cases hop : op = .power
    · exact .inl hop
    rw [step_binary hop] at h
    split at h
    · next op' l' r' =>
      split at h
      · next heq => exact .inr ⟨l', r', by rw [heq]⟩
      · cases h
    · cases h
  | not a =>
    cases e with
    | not b => exact ⟨b, rfl⟩
    | _ => cases h
  | call f ps =>
    cases e with
    | call g es =>
      change ((if (f == g && ps.length == es.length) = true then _ else _ : Attempt).run _).1 = true at h
      split at h
      · next heq =>
        rw [Bool.and_eq_true, beq_iff_eq (a := ps.length)] at heq
        exact ⟨g, es, rfl, heq⟩
      · cases h
    | _ => cases h
  | set ms => trivial

theorem Fits.trans {p q e : Expr} (hpq : Fits p q) (hqe : Fits q e) : Fits p e := by
  have const_trans {c : Rat} (hpq : (Expr.const c == q) = true) : (Expr.const c == e) = true := by
    cases q with
    | const d => exact BEq.trans hpq hqe
    | _ => cases hpq
  cases p with
  | const c => exact const_trans hpq
  | var n c => trivial
  | sum ts =>
    cases ts with
    | nil => exact const_trans hpq
    | cons t ts => trivial
  | product fs =>
    cases fs with
    | nil => exact const_trans hpq
    | cons f fs => trivial
  | binary op l r =>
    obtain hop | ⟨l', r', rfl⟩ := hpq
    · exact .inl hop
    · exact hqe
  | not a =>
    obtain ⟨b, rfl⟩ := hpq
    exact hqe
  | call f ps =>
    obtain ⟨g, qs, rfl, hfg, hlength⟩ := hpq
    obtain ⟨k, es, rfl, hgk, hlength'⟩ := hqe
    exact ⟨k, es, rfl, (Expr.function_congr hfg k).trans hgk, hlength.trans hlength'⟩
  | set ms => trivial

/-! ### Shapes -/

theorem isSome_match?_const (c : Rat) : ((Expr.const c).match? e ctx).isSome ↔ Expr.const c == e :=
  isSome_match?

theorem unbound_pair : MatchState.empty.Unbound [.symbol "_1", .symbol "_2"] where
  symbols v hv := by
    simp only [List.mem_cons, List.not_mem_nil, or_false] at hv
    obtain rfl | rfl := hv
    · exact ⟨_, rfl⟩
    · exact ⟨_, rfl⟩
  distinct := by decide
  absent _ _ := rfl

theorem isSome_match?_power :
    ((Expr.binary .power (.symbol "_1") (.symbol "_2")).match? e ctx).isSome := by
  rw [isSome_match?, Expr.matching_eq]
  have hclean (p e : Expr) := p.clean_matching e ctx
  obtain ⟨ways, hways, hadds, way, hway, heq⟩ :=
    exists_powerWays hclean (.symbol "_1") (.symbol "_2") e
  have hunbound := unbound_pair.perm (List.Perm.swap _ _ _)
  refine (congrArg (Succeeds · .empty) hways).mpr (succeeds_anyM
    (fun way hway => (hadds way hway).tentatively) consistent_empty hway ?_)
  rw [succeeds_tentatively, heq, succeeds_andThen, run_matching_unbound hunbound]
  exact ⟨succeeds_matching_unbound hunbound _, succeeds_matching_unbound (hunbound.add _) _⟩

theorem isSome_match?_binary {op : BinaryOp} (hop : op ≠ .power) (l r : Expr) :
    ((Expr.binary op (.symbol "_1") (.symbol "_2")).match? (.binary op l r) ctx).isSome := by
  rw [isSome_match?, Expr.matching_eq, step_binary hop]
  dsimp only
  rw [if_pos rfl, succeeds_tentatively, succeeds_andThen, run_matching_unbound unbound_pair]
  exact ⟨succeeds_matching_unbound unbound_pair _,
    succeeds_matching_unbound (unbound_pair.add _) _⟩

theorem isSome_match?_call {f g : Function} {ps es : List Expr} (hfg : (f == g) = true)
    (hlength : ps.length = es.length) :
    ((Expr.call f (freshFor ps)).match? (.call g es) ctx).isSome := by
  rw [isSome_match?, Expr.matching_eq]
  change Succeeds (if (f == g && (freshFor ps).length == es.length) = true then _ else _) _
  rw [length_freshFor, if_pos (by rw [hfg, hlength]; simp), succeeds_tentatively]
  exact succeeds_eachInOrder _ ((unbound_freshFor ps).perm (List.reverse_perm _).symm)

/-- The shape of a pattern matches just what the pattern's outermost node fits. -/
theorem isSome_match?_shape (h : shapeOf p = some s) : (s.match? e ctx).isSome ↔ Fits p e := by
  have fresh_ne_nil (t : Expr) (ts : List Expr) : freshFor (t :: ts) ≠ [] :=
    List.ne_nil_of_length_pos (by simp [length_freshFor])
  cases p with
  | const c => cases h
  | var n c => cases h
  | sum ts =>
    obtain rfl := Option.some.inj h
    cases ts with
    | nil => exact isSome_match?_const 0
    | cons t ts =>
      refine iff_of_true (isSome_match?.mpr ?_) trivial
      exact succeeds_sumOf e consistent_empty (unbound_freshFor _) (fresh_ne_nil t ts)
  | product fs =>
    obtain rfl := Option.some.inj h
    cases fs with
    | nil => exact isSome_match?_const 1
    | cons f fs =>
      refine iff_of_true (isSome_match?.mpr ?_) trivial
      exact succeeds_productOf e consistent_empty (unbound_freshFor _) (fresh_ne_nil f fs)
  | binary op l r =>
    obtain rfl := Option.some.inj h
    by_cases hop : op = .power
    · subst hop
      exact iff_of_true isSome_match?_power (.inl rfl)
    · refine ⟨fits_of_match?, ?_⟩
      rintro (h | ⟨l', r', rfl⟩)
      · exact absurd h hop
      · exact isSome_match?_binary hop l' r'
  | not a =>
    obtain rfl := Option.some.inj h
    refine ⟨fits_of_match?, ?_⟩
    rintro ⟨b, rfl⟩
    rw [isSome_match?, Expr.matching_eq]
    change Succeeds (tentatively _) _
    exact succeeds_tentatively.mpr (succeeds_matching_unbound unbound_pair b)
  | call f ps =>
    obtain rfl := Option.some.inj h
    constructor
    · intro h
      obtain ⟨g, es, rfl, hfg, hlength⟩ := fits_of_match? h
      exact ⟨g, es, rfl, hfg, (length_freshFor ps).symm.trans hlength⟩
    · rintro ⟨g, es, rfl, hfg, hlength⟩
      exact isSome_match?_call hfg hlength
  | set ms => cases h

/-! ## The rules of a set -/

mutual

/-- The rules in the order in which they are tried. -/
def members : RuleSet → List Rule
  | node _ children rules => membersList children ++ rules

/-- The rules of a list of sets. -/
def membersList : List RuleSet → List Rule
  | [] => []
  | c :: cs => members c ++ membersList cs

end

mutual

theorem size_eq : ∀ s : RuleSet, s.size = s.members.length
  | node _ children rules => by
    rw [size, members, List.length_append, sizeList_eq children, Nat.add_comm]

theorem sizeList_eq : ∀ cs : List RuleSet, sizeList cs = (membersList cs).length
  | [] => rfl
  | c :: cs => by rw [sizeList, membersList, List.length_append, size_eq c, sizeList_eq cs]

end

theorem membersList_append (cs ds : List RuleSet) :
    membersList (cs ++ ds) = membersList cs ++ membersList ds := by
  induction cs with
  | nil => rfl
  | cons c cs ih => rw [List.cons_append, membersList, membersList, ih, List.append_assoc]

/-- Every shape fits what the patterns below it fit. -/
inductive Filed : RuleSet → Prop
  | intro {own : Option Expr} {children : List RuleSet} {rules : List Rule}
    (hshape : ∀ s, own = some s → ∃ p, shapeOf p = some s ∧
      ∀ r ∈ (node own children rules).members, ∀ e, Fits r.pattern e → Fits p e)
    (hchildren : ∀ c ∈ children, Filed c) : Filed (node own children rules)

theorem Filed.children {own : Option Expr} {children : List RuleSet} {rules : List Rule}
    (h : Filed (node own children rules)) : ∀ c ∈ children, Filed c := by
  cases h with
  | intro _ hchildren => exact hchildren

/-! ### Adding a rule -/

variable {r : Rule} {own : Option Expr} {children : List RuleSet} {rules : List Rule}

/-- A rule is filed beside the rules of a set or below the shape of its own pattern. -/
theorem fileUnder_cases (own : Option Expr) (r : Rule) :
    fileUnder own r = .inr r ∨
      ∃ s, shapeOf r.pattern = some s ∧ fileUnder own r = .inl (node (some s) [] [r]) := by
  unfold fileUnder
  cases h : shapeOf r.pattern with
  | none => exact .inl rfl
  | some s =>
    dsimp only
    split
    · exact .inl rfl
    · exact .inr ⟨s, rfl, rfl⟩

mutual

/-- Adding a rule keeps all rules and adds just this one. -/
theorem members_add (r : Rule) (ctx : Context) : ∀ s : RuleSet,
    (add r ctx s).members.Perm (r :: s.members)
  | node own children rules => by
    rw [add]
    split
    · next added hadded => exact (members_addToFirst r ctx hadded).append_right rules
    · obtain hfile | ⟨s, -, hfile⟩ := fileUnder_cases own r
      · simp only [hfile, members]
        rw [← List.append_assoc]
        exact List.perm_append_comm
      · simp only [hfile, members, membersList_append, membersList, List.nil_append,
          List.append_nil, List.append_assoc]
        exact List.perm_middle

theorem members_addToFirst (r : Rule) (ctx : Context) : ∀ {cs added : List RuleSet},
    addToFirst r ctx cs = some added → (membersList added).Perm (r :: membersList cs)
  | c :: cs, added, h => by
    rw [addToFirst] at h
    split at h
    · obtain rfl := Option.some.inj h
      exact (members_add r ctx c).append_right _
    · obtain ⟨rest, hrest, rfl⟩ := Option.map_eq_some_iff.mp h
      exact ((members_addToFirst r ctx hrest).append_left _).trans List.perm_middle

end

/-- After a rule is added, what is new to check about the shape is that it admits the rule. -/
theorem Filed.rebuild {own : Option Expr} {children added : List RuleSet} {rules rules' : List Rule}
    (h : Filed (node own children rules)) (hr : (node own children rules).admits r.pattern ctx = true)
    (hmembers : (node own added rules').members.Perm (r :: (node own children rules).members))
    (hadded : ∀ c ∈ added, Filed c) : Filed (node own added rules') := by
  refine .intro (fun s hs => ?_) hadded
  cases h with
  | intro hshape _ =>
    obtain ⟨p, hp, hfits⟩ := hshape s hs
    refine ⟨p, hp, fun q hq e hqe => ?_⟩
    rcases List.mem_cons.mp (hmembers.mem_iff.mp hq) with rfl | hq
    · have hadmits : (s.match? q.pattern ctx).isSome := by
        rw [admits, shape, hs] at hr
        exact hr
      exact ((isSome_match?_shape hp).mp hadmits).trans hqe
    · exact hfits q hq e hqe

theorem filed_fresh (h : shapeOf r.pattern = some s) : Filed (node (some s) [] [r]) := by
  refine .intro (fun t ht => ?_) (fun c hc => absurd hc List.not_mem_nil)
  obtain rfl := Option.some.inj ht
  refine ⟨r.pattern, h, fun q hq e hqe => ?_⟩
  obtain rfl := List.mem_singleton.mp hq
  exact hqe

mutual

/-- **Adding a rule that the set admits keeps every shape above what its rules fit.** -/
theorem Filed.add {r : Rule} {ctx : Context} : ∀ {s : RuleSet}, Filed s →
    s.admits r.pattern ctx = true → Filed (add r ctx s)
  | node own children rules, h, hr => by
    have hmembers := members_add r ctx (node own children rules)
    rw [RuleSet.add] at hmembers ⊢
    cases hfirst : addToFirst r ctx children with
    | some added =>
      rw [hfirst] at hmembers
      exact h.rebuild hr hmembers (filed_addToFirst h.children hfirst)
    | none =>
      rw [hfirst] at hmembers
      obtain hfile | ⟨s, hs, hfile⟩ := fileUnder_cases own r
      · simp only [hfile] at hmembers ⊢
        exact h.rebuild hr hmembers h.children
      · simp only [hfile] at hmembers ⊢
        refine h.rebuild hr hmembers fun c hc => ?_
        rcases List.mem_append.mp hc with hc | hc
        · exact h.children c hc
        · rw [List.mem_singleton.mp hc]
          exact filed_fresh hs

theorem filed_addToFirst {r : Rule} {ctx : Context} : ∀ {cs added : List RuleSet},
    (∀ c ∈ cs, Filed c) → addToFirst r ctx cs = some added → ∀ c ∈ added, Filed c
  | c :: cs, added, hcs, h => by
    rw [addToFirst] at h
    obtain ⟨hc, hcs⟩ := List.forall_mem_cons.mp hcs
    split at h
    · next hadmits =>
      obtain rfl := Option.some.inj h
      exact List.forall_mem_cons.mpr ⟨hc.add hadmits, hcs⟩
    · obtain ⟨rest, hrest, rfl⟩ := Option.map_eq_some_iff.mp h
      exact List.forall_mem_cons.mpr ⟨hc, filed_addToFirst hcs hrest⟩

end

theorem shape_add (r : Rule) (ctx : Context) (s : RuleSet) : (add r ctx s).shape = s.shape := by
  cases s with
  | node own children rules =>
    rw [add]
    split
    · rfl
    · split <;> rfl

/-- A set without a shape admits everything, so rules can be added to it one after the other. -/
theorem filed_foldl (ctx : Context) : ∀ (rules : List Rule) {s : RuleSet}, Filed s → s.shape = none →
    Filed (rules.foldl (fun s r => add r ctx s) s) ∧
      (rules.foldl (fun s r => add r ctx s) s).members.Perm (rules ++ s.members)
  | [], s, h, _ => ⟨h, List.Perm.refl _⟩
  | r :: rules, s, h, hshape => by
    have hadmits : s.admits r.pattern ctx = true := by rw [admits, hshape]; rfl
    obtain ⟨hfiled, hmembers⟩ :=
      filed_foldl ctx rules (h.add hadmits) ((shape_add r ctx s).trans hshape)
    refine ⟨hfiled, hmembers.trans ?_⟩
    exact ((members_add r ctx s).append_left rules).trans List.perm_middle

theorem filed_ofRules (rules : List Rule) (ctx : Context) : Filed (ofRules rules ctx) :=
  (filed_foldl ctx rules (s := .empty) (.intro (fun _ h => nomatch h) (fun _ h => nomatch h)) rfl).1

theorem members_ofRules (rules : List Rule) (ctx : Context) :
    (ofRules rules ctx).members.Perm rules := by
  have hmembers := (filed_foldl ctx rules (s := .empty)
    (.intro (fun _ h => nomatch h) (fun _ h => nomatch h)) rfl).2
  rwa [show RuleSet.empty.members = [] from rfl, List.append_nil] at hmembers

/-! ### Reducing by a set -/

variable {accept : Expr → Bool}

/-- Below a shape that the expression does not match no rule reduces it. -/
theorem reductAccepted?_of_not_fits {r : Rule} (h : ¬Fits r.pattern e) :
    r.reductAccepted? accept ctx e = none := by
  have hmatch : r.pattern.match? e ctx = none :=
    Option.not_isSome_iff_eq_none.mp fun hsome => h (fits_of_match? hsome)
  rw [Rule.reductAccepted?, Rule.reduct?, hmatch]
  rfl

mutual

/-- **A set gives the first result of its rules**, as if there were no shapes. -/
theorem Filed.reductAccepted?_eq : ∀ {s : RuleSet}, Filed s →
    s.reductAccepted? accept ctx e = s.members.findSome? (·.reductAccepted? accept ctx e)
  | node own children rules, h => by
    have hchildren := firstReduct?_eq h.children
    rw [RuleSet.reductAccepted?]
    split
    · rw [hchildren, members, List.findSome?_append]
      cases (membersList children).findSome? _ <;> rfl
    · next hshape =>
      obtain ⟨hshapes, -⟩ := h
      cases own with
      | none => exact absurd rfl hshape
      | some s =>
        obtain ⟨p, hp, hfits⟩ := hshapes s rfl
        refine (List.findSome?_eq_none_iff.mpr fun r hr => ?_).symm
        refine reductAccepted?_of_not_fits fun hfit => hshape ?_
        exact (isSome_match?_shape hp).mpr (hfits r hr e hfit)

theorem firstReduct?_eq : ∀ {cs : List RuleSet}, (∀ c ∈ cs, Filed c) →
    firstReduct? accept ctx e cs = (membersList cs).findSome? (·.reductAccepted? accept ctx e)
  | [], _ => rfl
  | c :: cs, h => by
    obtain ⟨hc, hcs⟩ := List.forall_mem_cons.mp h
    rw [firstReduct?, hc.reductAccepted?_eq, firstReduct?_eq hcs, membersList,
      List.findSome?_append]
    cases (members c).findSome? _ <;> rfl

end

/-- What a set gives is what one of the rules gives that were added. -/
theorem exists_of_reductAccepted? {rules : List Rule} {result : Expr}
    (h : (ofRules rules ctx).reductAccepted? accept ctx e = some result) :
    ∃ r ∈ rules, r.reductAccepted? accept ctx e = some result := by
  rw [(filed_ofRules rules ctx).reductAccepted?_eq] at h
  obtain ⟨r, hr, hresult⟩ := List.exists_of_findSome?_eq_some h
  exact ⟨r, (members_ofRules rules ctx).mem_iff.mp hr, hresult⟩

/-- A set gives something for whatever one of its rules reduces. -/
theorem isSome_reductAccepted? {rules : List Rule} {r : Rule} {result : Expr} (hr : r ∈ rules)
    (h : r.reductAccepted? accept ctx e = some result) :
    ((ofRules rules ctx).reductAccepted? accept ctx e).isSome := by
  rw [(filed_ofRules rules ctx).reductAccepted?_eq, List.findSome?_isSome_iff]
  exact ⟨r, (members_ofRules rules ctx).mem_iff.mpr hr, by rw [h]; rfl⟩

/-- **Filing rules loses none**: the set holds as many rules as were added, it reduces just what one
of them reduces to something else that is accepted, and what it gives is what one of them gives. -/
theorem ofRules_complete (rules : List Rule) (accept : Expr → Bool) (ctx : Context) (e : Expr) :
    (ofRules rules ctx).size = rules.length ∧
    ((∃ result, (ofRules rules ctx).reductAccepted? accept ctx e = some result) ↔
      ∃ r ∈ rules, ∃ result, r.reduct? e ctx = some result ∧ (result != e) = true ∧
        accept result = true) ∧
    ∀ result, (ofRules rules ctx).reductAccepted? accept ctx e = some result →
      ∃ r ∈ rules, r.reduct? e ctx = some result ∧ (result != e) = true ∧
        accept result = true := by
  have hsound (result : Expr)
      (h : (ofRules rules ctx).reductAccepted? accept ctx e = some result) :
      ∃ r ∈ rules, r.reduct? e ctx = some result ∧ (result != e) = true ∧
        accept result = true := by
    obtain ⟨r, hr, hresult⟩ := exists_of_reductAccepted? h
    exact ⟨r, hr, Rule.reductAccepted?_eq_some.mp hresult⟩
  refine ⟨?_, ⟨?_, ?_⟩, hsound⟩
  · rw [size_eq, (members_ofRules rules ctx).length_eq]
  · rintro ⟨result, h⟩
    obtain ⟨r, hr, hresult⟩ := hsound result h
    exact ⟨r, hr, result, hresult⟩
  · rintro ⟨r, hr, result, h⟩
    exact Option.isSome_iff_exists.mp
      (isSome_reductAccepted? hr (Rule.reductAccepted?_eq_some.mpr h))

/-- A rule for negations, filed below the shape of a sum because sums match negations, is found. -/
theorem ofRules_complete_not :
    let rules : List Rule :=
      [⟨.sum [.symbol "x", .symbol "y"], .one, [.zero]⟩, .plain (.not (.symbol "x")) .one]
    let e : Expr := .not (.symbol "a")
    ∃ result, (ofRules rules (.inert .standard)).reductAccepted? (fun _ => true) (.inert .standard) e =
        some result ∧
      ∃ r ∈ rules, r.reduct? e (.inert .standard) = some result ∧ (result != e) = true ∧
        (fun _ => true) result = true := by
  intro rules e
  obtain ⟨-, hfound, hsound⟩ := ofRules_complete rules (fun _ => true) (.inert .standard) e
  have hreduct : (Rule.plain (.not (.symbol "x")) .one).reduct? e (.inert .standard) = some .one := by
    have hmatch : (Expr.not (.symbol "x")).match? e (.inert .standard) =
        some ⟨[(.symbol "x", .symbol "a")]⟩ := by
      with_unfolding_all rfl
    rw [Rule.reduct?, Rule.plain, hmatch]
    dsimp only
    rw [if_pos (show Rule.accepts _ _ _ = true from rfl)]
    exact congrArg some (Expr.evaluate_eq (.const 1) (.inert .standard))
  obtain ⟨result, hresult⟩ :=
    hfound.mpr ⟨_, List.mem_cons_of_mem _ List.mem_cons_self, .one, hreduct, rfl, rfl⟩
  exact ⟨result, hresult, hsound result hresult⟩

end RuleSet

end SymbolicAlgebra
