import Mathlib.Logic.Relation
import SymbolicAlgebra.Proofs.Congruence
import SymbolicAlgebra.Proofs.Memo
import SymbolicAlgebra.Unfolding

/-!
# Unfolding finds exactly the cycles

An unfolding is a search in the graph in which an expression leads to its parts, and a defined
variable to its expression (`visits`). The memo table holds what is on the current path in flight.
Three facts carry the search: every result in the table is an unfolding, what a visit puts in flight
it takes back, also when it fails, and everything in flight leads to the expression that is visited
next (`Leaves`). So an expression met in flight leads back to itself. Parts are smaller than the whole,
so a way back goes through a definition, and a variable on it reaches itself (`Circular`). There are
finitely many expressions to meet, and each is in flight at most once, so the depth suffices.

Results:
* `unfold_spec`: an unfolding fails iff a variable that is reached from the expression reaches itself;
  otherwise it gives what unfolding without a table gives. Nothing stays in flight, and every kept
  result is the unfolding of its key.
-/

namespace SymbolicAlgebra.Unfolding

open Expr Relation

/-! ## Visits -/

/-- What the unfolding of an expression visits: the expression of a defined variable, the parts of
anything else. -/
def visits (definitions : Definitions) : Expr → List Expr
  | .var n _ => (lookup? definitions n).toList
  | e => e.parts

/-- What the results of the visits make of an expression. -/
def assemble : Expr → List Expr → Expr
  | .var .., [r] => r
  | e, rs => e.rebuild rs

variable {definitions : Definitions}

theorem step_eq {m : Type → Type} [Monad m] [LawfulMonad m] (visit : Expr → m Expr) (e : Expr) :
    step definitions visit e = (assemble e ·) <$> mapListM visit (visits definitions e) := by
  cases e with
  | var n c =>
    rw [step, visits]
    cases lookup? definitions n <;> simp [mapListM, assemble, rebuild]
  | _ => simp only [step, visits, assemble, mapChildrenM_eq]

theorem visits_beq {a b : Expr} (h : (a == b) = true) :
    beqList (visits definitions a) (visits definitions b) = true := by
  have hall := h
  change beq a b = true at h
  cases a <;> cases b <;> simp only [beq, Bool.false_eq_true, beq_iff_eq] at h
  case var.var =>
    rw [visits, visits, h]
    exact beqList_refl fun x _ => beq_refl x
  all_goals exact parts_beq hall

theorem assemble_beq {a b : Expr} {rs rs' : List Expr} (h : (a == b) = true)
    (hrs : beqList rs rs' = true) : (assemble a rs == assemble b rs') = true := by
  have hall := h
  change beq a b = true at h
  cases a <;> cases b <;> simp only [beq, Bool.false_eq_true] at h
  case var.var =>
    obtain _ | ⟨hr, _ | ⟨_, _⟩⟩ := beqList_iff.mp hrs
    · exact hall
    · exact hr
    · exact hall
  all_goals exact rebuild_beq hall hrs

/-! ## Ways -/

variable (definitions) in
/-- The unfolding of `a` visits `b`. -/
abbrev Visits (a b : Expr) : Prop :=
  b ∈ visits definitions a

variable (definitions) in
/-- Some visits lead from `a` to an expression that is equal to `b`. -/
def Leads (a b : Expr) : Prop :=
  ∃ b', TransGen (Visits definitions) a b' ∧ (b' == b) = true

variable (definitions) in
/-- A variable that is reached from `f` through parts and definitions is defined, and is reached again
from its own definition. -/
def Circular (f : Expr) : Prop :=
  ∃ n c c' value, ReflTransGen (Visits definitions) f (.var n c) ∧
    lookup? definitions n = some value ∧ ReflTransGen (Visits definitions) value (.var n c')

theorem exists_visit_of_beq {a a' b : Expr} (hab : (a == b) = true)
    (h : Visits definitions a a') : ∃ b', Visits definitions b b' ∧ (a' == b') = true := by
  obtain ⟨i, hi, rfl⟩ := List.getElem_of_mem h
  have hlists : List.Forall₂ _ (visits definitions a) (visits definitions b) :=
    beqList_iff.mp (visits_beq hab)
  have hi' := hlists.length_eq ▸ hi
  exact ⟨_, List.getElem_mem hi', hlists.get hi hi'⟩

theorem exists_way_of_beq {a a' b : Expr} (hab : (a == b) = true)
    (h : ReflTransGen (Visits definitions) a a') :
    ∃ b', ReflTransGen (Visits definitions) b b' ∧ (a' == b') = true := by
  induction h with
  | refl => exact ⟨b, .refl, hab⟩
  | tail _ hvisit ih =>
    obtain ⟨b', hb', heq⟩ := ih
    obtain ⟨b'', hb'', heq'⟩ := exists_visit_of_beq heq hvisit
    exact ⟨b'', hb'.tail hb'', heq'⟩

/-- A visit prolongs a way, also from an expression that is equal to its end. -/
theorem Leads.visit {a b c : Expr} (h : Leads definitions a b) (hvisit : Visits definitions b c) :
    Leads definitions a c := by
  obtain ⟨b', hway, heq⟩ := h
  obtain ⟨c', hc', heq'⟩ := exists_visit_of_beq (BEq.symm heq) hvisit
  exact ⟨c', hway.tail hc', BEq.symm heq'⟩

theorem leads_of_visit {a b c : Expr} (hab : (a == b) = true) (hvisit : Visits definitions a c) :
    Leads definitions b c := by
  obtain ⟨c', hc', heq⟩ := exists_visit_of_beq hab hvisit
  exact ⟨c', .single hc', BEq.symm heq⟩

/-- A way goes to something smaller, unless it goes through a definition. -/
theorem size_lt_or_defined {a b : Expr} (h : TransGen (Visits definitions) a b) :
    b.size < a.size ∨ ∃ n c value, ReflTransGen (Visits definitions) a (.var n c) ∧
      lookup? definitions n = some value ∧ ReflTransGen (Visits definitions) value b := by
  have hvisit {x y : Expr} (hxy : Visits definitions x y) :
      y.size < x.size ∨ ∃ n c, x = .var n c ∧ lookup? definitions n = some y := by
    cases x with
    | var n c => exact .inr ⟨n, c, rfl, Option.mem_toList.mp hxy⟩
    | _ => exact .inl (size_lt_of_mem_parts hxy)
  induction h with
  | single h =>
    rcases hvisit h with hlt | ⟨n, c, rfl, hn⟩
    · exact .inl hlt
    · exact .inr ⟨n, c, _, .refl, hn, .refl⟩
  | tail hway h ih =>
    rcases ih with hlt | ⟨n, c, value, hn, hvalue, hway'⟩
    · rcases hvisit h with hlt' | ⟨n, c, rfl, hn⟩
      · exact .inl (hlt'.trans hlt)
      · exact .inr ⟨n, c, _, hway.to_reflTransGen, hn, .refl⟩
    · exact .inr ⟨n, c, value, hn, hvalue, hway'.tail h⟩

/-- An expression on the way that leads back to itself has a variable on its way that does. -/
theorem circular_of_leads {f e : Expr} (hf : ReflTransGen (Visits definitions) f e)
    (h : Leads definitions e e) : Circular definitions f := by
  obtain ⟨e', hway, heq⟩ := h
  rcases size_lt_or_defined hway with hlt | ⟨n, c, value, hn, hvalue, hback⟩
  · exact absurd (size_beq heq) hlt.ne
  · obtain ⟨x, hx, hvar⟩ := exists_way_of_beq (BEq.symm heq) hn
    obtain ⟨c', rfl⟩ : ∃ c', x = .var n c' := by
      change beq (.var n c) x = true at hvar
      cases x <;> simp only [beq, Bool.false_eq_true, beq_iff_eq] at hvar
      case var m c' => exact ⟨c', by rw [hvar]⟩
    exact ⟨n, c, c', value, hf.trans hn, hvalue, hback.trans hx⟩

/-! ## Unfolding without a table -/

variable (definitions) in
/-- The unfolding of an expression without a memo table, if it ends within a depth. -/
def unfoldingTo : Nat → Expr → Option Expr
  | 0, _ => none
  | depth + 1, e => step definitions (unfoldingTo depth) e

theorem mapListM_eq_some {visit : Expr → Option Expr} : ∀ {es rs : List Expr},
    mapListM visit es = some rs ↔ List.Forall₂ (fun e r => visit e = some r) es rs
  | [], rs => by
    rw [List.forall₂_nil_left_iff, mapListM]
    exact ⟨fun h => (Option.some.inj h).symm, fun h => h ▸ rfl⟩
  | e :: es, rs => by
    rw [List.forall₂_cons_left_iff, mapListM]
    simp only [Option.bind_eq_bind, Option.bind_eq_some_iff, mapListM_eq_some]
    constructor
    · rintro ⟨r, hr, rs', hrs, heq⟩
      exact ⟨r, rs', hr, hrs, (Option.some.inj heq).symm⟩
    · rintro ⟨r, rs', hr, hrs, rfl⟩
      exact ⟨r, hr, rs', hrs, rfl⟩

theorem unfoldingTo_succ_eq_some {depth : Nat} {e r : Expr} :
    unfoldingTo definitions (depth + 1) e = some r ↔
      ∃ rs, List.Forall₂ (fun e r => unfoldingTo definitions depth e = some r)
        (visits definitions e) rs ∧ assemble e rs = r := by
  rw [unfoldingTo, step_eq]
  simp only [Option.map_eq_map, Option.map_eq_some_iff, mapListM_eq_some]

/-- More depth makes no difference to an unfolding that ends. -/
theorem unfoldingTo_mono {depth depth' : Nat} (hle : depth ≤ depth') {e r : Expr}
    (h : unfoldingTo definitions depth e = some r) : unfoldingTo definitions depth' e = some r := by
  induction depth generalizing depth' e r with
  | zero => cases h
  | succ depth ih =>
    obtain ⟨k, rfl⟩ := Nat.exists_eq_add_of_le hle
    rw [Nat.add_right_comm]
    obtain ⟨rs, hrs, rfl⟩ := unfoldingTo_succ_eq_some.mp h
    exact unfoldingTo_succ_eq_some.mpr
      ⟨rs, hrs.imp fun _ _ => ih (Nat.le_add_right _ _), rfl⟩

/-- Equal expressions have equal unfoldings. -/
theorem unfoldingTo_beq {depth : Nat} {a b r : Expr} (hab : (a == b) = true)
    (h : unfoldingTo definitions depth a = some r) :
    ∃ r', unfoldingTo definitions depth b = some r' ∧ (r == r') = true := by
  induction depth generalizing a b r with
  | zero => cases h
  | succ depth ih =>
    obtain ⟨rs, hrs, rfl⟩ := unfoldingTo_succ_eq_some.mp h
    have hlist : ∀ {xs ys rs : List Expr}, List.Forall₂ (fun x y => (x == y) = true) xs ys →
        List.Forall₂ (fun x r => unfoldingTo definitions depth x = some r) xs rs →
          ∃ rs', List.Forall₂ (fun y r => unfoldingTo definitions depth y = some r) ys rs' ∧
            List.Forall₂ (fun r r' => (r == r') = true) rs rs' := by
      intro xs ys rs hxs hrs
      induction hxs generalizing rs with
      | nil => exact ⟨[], .nil, by cases hrs; exact .nil⟩
      | cons hxy _ ihxs =>
        obtain _ | ⟨hr, hrs⟩ := hrs
        obtain ⟨r', hr', heq⟩ := ih hxy hr
        obtain ⟨rs', hrs', heqs⟩ := ihxs hrs
        exact ⟨r' :: rs', .cons hr' hrs', .cons heq heqs⟩
    obtain ⟨rs', hrs', heqs⟩ := hlist (beqList_iff.mp (visits_beq hab)) hrs
    exact ⟨_, unfoldingTo_succ_eq_some.mpr ⟨rs', hrs', rfl⟩,
      assemble_beq hab (beqList_iff.mpr heqs)⟩

/-- What an unfolding visits ends at a lower depth. -/
theorem exists_unfoldingTo_of_visit {depth : Nat} {a b r : Expr} (hvisit : Visits definitions a b)
    (h : unfoldingTo definitions (depth + 1) a = some r) :
    ∃ r', unfoldingTo definitions depth b = some r' := by
  obtain ⟨rs, hrs, -⟩ := unfoldingTo_succ_eq_some.mp h
  obtain ⟨i, hi, rfl⟩ := List.getElem_of_mem hvisit
  exact ⟨_, hrs.get hi (hrs.length_eq ▸ hi)⟩

theorem exists_unfoldingTo_of_way {depth : Nat} {a b r : Expr}
    (hway : ReflTransGen (Visits definitions) a b) (h : unfoldingTo definitions depth a = some r) :
    ∃ r', unfoldingTo definitions depth b = some r' := by
  induction hway with
  | refl => exact ⟨r, h⟩
  | tail _ hvisit ih =>
    obtain ⟨r', hr'⟩ := ih
    cases depth with
    | zero => cases hr'
    | succ depth =>
      obtain ⟨r'', hr''⟩ := exists_unfoldingTo_of_visit hvisit hr'
      exact ⟨r'', unfoldingTo_mono (Nat.le_succ _) hr''⟩

/-- **What runs in a circle is never unfolded.** The unfolding of the variable in the circle would
contain itself at a lower depth. -/
theorem unfoldingTo_eq_none {f : Expr} (h : Circular definitions f) (depth : Nat) :
    unfoldingTo definitions depth f = none := by
  obtain ⟨n, c, c', value, hf, hvalue, hback⟩ := h
  have hvar : ∀ depth c, unfoldingTo definitions depth (.var n c) = none := by
    intro depth
    induction depth with
    | zero => exact fun _ => rfl
    | succ depth ih =>
      refine fun c => Option.eq_none_iff_forall_ne_some.mpr fun r hr => ?_
      have hvisit : Visits definitions (.var n c) value := Option.mem_toList.mpr hvalue
      obtain ⟨r', hr'⟩ := exists_unfoldingTo_of_visit hvisit hr
      obtain ⟨r'', hr''⟩ := exists_unfoldingTo_of_way hback hr'
      rw [ih c'] at hr''
      cases hr''
  refine Option.eq_none_iff_forall_ne_some.mpr fun r hr => ?_
  obtain ⟨r', hr'⟩ := exists_unfoldingTo_of_way hf hr
  rw [hvar] at hr'
  cases hr'

variable (definitions) in
/-- `r` is equal to the unfolding of `e` without a table, from some depth on. -/
def Unfolds (e r : Expr) : Prop :=
  ∃ r' depth, (r == r') = true ∧ ∀ d, depth ≤ d → unfoldingTo definitions d e = some r'

theorem Unfolds.of_beq {a b r : Expr} (hab : (a == b) = true) (h : Unfolds definitions a r) :
    Unfolds definitions b r := by
  obtain ⟨r', depth, heq, hr'⟩ := h
  obtain ⟨r'', hr'', heq'⟩ := unfoldingTo_beq hab (hr' depth le_rfl)
  exact ⟨r'', depth, BEq.trans heq heq', fun d hd => unfoldingTo_mono hd hr''⟩

/-- The unfoldings of the visits make the unfolding of the expression. -/
theorem Unfolds.assemble {e : Expr} {rs : List Expr}
    (h : List.Forall₂ (Unfolds definitions) (visits definitions e) rs) :
    Unfolds definitions e (assemble e rs) := by
  have hlist : ∀ {es rs : List Expr}, List.Forall₂ (Unfolds definitions) es rs →
      ∃ rs' depth, List.Forall₂ (fun r r' => (r == r') = true) rs rs' ∧ ∀ d, depth ≤ d →
        List.Forall₂ (fun e r => unfoldingTo definitions d e = some r) es rs' := by
    intro es rs h
    induction h with
    | nil => exact ⟨[], 0, .nil, fun _ _ => .nil⟩
    | cons h _ ih =>
      obtain ⟨r', depth, heq, hr'⟩ := h
      obtain ⟨rs', depth', heqs, hrs'⟩ := ih
      exact ⟨r' :: rs', max depth depth', .cons heq heqs, fun d hd =>
        .cons (hr' d (le_of_max_le_left hd)) (hrs' d (le_of_max_le_right hd))⟩
  obtain ⟨rs', depth, heqs, hrs'⟩ := hlist h
  refine ⟨_, depth + 1, assemble_beq (beq_refl e) (beqList_iff.mpr heqs), fun d hd => ?_⟩
  obtain ⟨k, rfl⟩ := Nat.exists_eq_add_of_le hd
  rw [Nat.add_right_comm]
  exact unfoldingTo_succ_eq_some.mpr ⟨rs', hrs' _ (Nat.le_add_right _ _), rfl⟩

/-! ## The expressions to meet -/

mutual

/-- All nodes of an expression. -/
def nodes : Expr → List Expr
  | .const q => [.const q]
  | .var n c => [.var n c]
  | .sum ts => .sum ts :: nodesList ts
  | .product fs => .product fs :: nodesList fs
  | .binary op l r => .binary op l r :: (nodes l ++ nodes r)
  | .not a => .not a :: nodes a
  | .call f args => .call f args :: nodesList args
  | .set ms => .set ms :: nodesList ms

/-- All nodes of the items of a list. -/
def nodesList : List Expr → List Expr
  | [] => []
  | t :: ts => nodes t ++ nodesList ts

end

theorem nodes_eq (e : Expr) : nodes e = e :: nodesList e.parts := by
  cases e <;> simp [nodes, parts, nodesList]

theorem mem_nodesList {x : Expr} : ∀ {es : List Expr}, x ∈ nodesList es ↔ ∃ e ∈ es, x ∈ nodes e
  | [] => by simp [nodesList]
  | e :: es => by simp [nodesList, @mem_nodesList x es]

theorem mem_nodes_self (e : Expr) : e ∈ nodes e := by
  rw [nodes_eq]
  exact List.mem_cons_self

/-- With a node its parts are nodes. -/
theorem mem_nodes_of_mem_parts {e x p : Expr} (hx : x ∈ nodes e) (hp : p ∈ x.parts) :
    p ∈ nodes e := by
  rw [nodes_eq] at hx ⊢
  refine List.mem_cons_of_mem _ (mem_nodesList.mpr ?_)
  rcases List.mem_cons.mp hx with rfl | hx
  · exact ⟨p, hp, mem_nodes_self p⟩
  · obtain ⟨q, hq, hx⟩ := mem_nodesList.mp hx
    have := size_lt_of_mem_parts hq
    exact ⟨q, hq, mem_nodes_of_mem_parts hx hp⟩
termination_by e.size

mutual

theorem length_nodes : ∀ e : Expr, (nodes e).length = e.size
  | .const _ | .var .. => rfl
  | .sum ts | .product ts | .call _ ts | .set ts => by
    simp [nodes, size, length_nodesList ts]
  | .binary _ l r => by simp [nodes, size, length_nodes l, length_nodes r]
  | .not a => by simp [nodes, size, length_nodes a]

theorem length_nodesList : ∀ es : List Expr, (nodesList es).length = sizeList es
  | [] => rfl
  | e :: es => by simp [nodesList, sizeList, length_nodes e, length_nodesList es]

end

/-- Every expression that the unfolding of `f` can meet. -/
def allNodes (definitions : Definitions) (f : Expr) : List Expr :=
  nodesList (f :: definitions.map Prod.snd)

theorem length_allNodes (f : Expr) :
    (allNodes definitions f).length + 1 = depthFor definitions f := by
  have hfold : ∀ (ds : Definitions) (k : Nat),
      ds.foldl (fun n d => n + d.2.size) k = k + sizeList (ds.map Prod.snd) := by
    intro ds
    induction ds with
    | nil => exact fun _ => rfl
    | cons d ds ih =>
      intro k
      rw [List.foldl_cons, ih, List.map_cons, sizeList, Nat.add_assoc]
  rw [allNodes, length_nodesList, sizeList, ← hfold]
  rfl

theorem mem_of_lookup? {n : String} {value : Expr} (h : lookup? definitions n = some value) :
    value ∈ definitions.map Prod.snd := by
  obtain ⟨d, hd, rfl⟩ := Option.map_eq_some_iff.mp h
  exact List.mem_map_of_mem (List.mem_reverse.mp (List.mem_of_find?_eq_some hd))

/-- What is reached is among all nodes. -/
theorem mem_allNodes {f e : Expr} (h : ReflTransGen (Visits definitions) f e) :
    e ∈ allNodes definitions f := by
  induction h with
  | refl => exact mem_nodesList.mpr ⟨f, List.mem_cons_self, mem_nodes_self f⟩
  | @tail b c _ hvisit ih =>
    cases b with
    | var n d =>
      have hvalue := mem_of_lookup? (Option.mem_toList.mp hvisit)
      exact mem_nodesList.mpr ⟨c, List.mem_cons_of_mem _ hvalue, mem_nodes_self c⟩
    | _ =>
      obtain ⟨root, hroot, hmem⟩ := mem_nodesList.mp ih
      exact mem_nodesList.mpr ⟨root, hroot, mem_nodes_of_mem_parts hmem hvisit⟩

variable (definitions) in
/-- The expressions that may still be put in flight. -/
def openCount (f : Expr) (m : Memo) : Nat :=
  (allNodes definitions f).countP fun e => !m.inFlight e

theorem openCount_start {f e : Expr} {m : Memo} (he : e ∈ allNodes definitions f)
    (hm : m.inFlight e = false) :
    openCount definitions f (m.start e) < openCount definitions f m := by
  have hlt : ∀ {xs : List Expr}, e ∈ xs → xs.countP (fun a => !(m.start e).inFlight a) <
      xs.countP fun a => !m.inFlight a := by
    intro xs hxs
    obtain ⟨xs, ys, rfl⟩ := List.append_of_mem hxs
    have hle (zs : List Expr) : zs.countP (fun a => !(m.start e).inFlight a) ≤
        zs.countP fun a => !m.inFlight a :=
      List.countP_mono_left fun a _ h => by
        rw [Memo.inFlight_start, Bool.not_or, Bool.and_eq_true] at h
        exact h.2
    have h₁ := hle xs
    have h₂ := hle ys
    have hself : (m.start e).inFlight e = true := by
      rw [Memo.inFlight_start, show (e == e) = true from beq_refl e, Bool.true_or]
    rw [List.countP_append, List.countP_append, List.countP_cons, List.countP_cons, hself, hm]
    simp only [Bool.not_true, Bool.not_false, Bool.false_eq_true, if_false, if_true]
    omega
  exact hlt he

theorem openCount_congr {f : Expr} {m m' : Memo} (h : ∀ e, m'.inFlight e = m.inFlight e) :
    openCount definitions f m' = openCount definitions f m := by
  simp only [openCount, h]

/-! ## Running a computation -/

/-- The outcome of a computation from a table, and the table afterwards. -/
def exec {α : Type} (x : Unfold α) (m : Memo) : Result α × Memo :=
  x.run.run m

theorem exec_bind {α β : Type} (x : Unfold α) (g : α → Unfold β) (m : Memo) :
    exec (x >>= g) m = match exec x m with
      | (.ok a, m') => exec (g a) m'
      | (.error err, m') => (.error err, m') := by
  have h : exec (x >>= g) m = (ExceptT.bindCont g (exec x m).1).run (exec x m).2 := rfl
  rw [h]
  rcases exec x m with ⟨_ | a, m'⟩ <;> rfl

theorem exec_tryCatch {α : Type} (x : Unfold α) (g : AlgebraError → Unfold α) (m : Memo) :
    exec (tryCatch x g) m = match exec x m with
      | (.ok a, m') => (.ok a, m')
      | (.error err, m') => exec (g err) m' := by
  rcases h : exec x m with ⟨_ | _, m'⟩
  all_goals
    change StateT.run x m = _ at h
    simp only [exec, tryCatch, tryCatchThe, MonadExceptOf.tryCatch, ExceptT.tryCatch, ExceptT.run_mk,
      StateT.run_bind, h]
    rfl

theorem exec_memoized (compute : Expr → Unfold Expr) (e : Expr) (m : Memo) :
    exec (memoized compute e) m = match m.find? e with
      | some (.done r) => (.ok r, m)
      | some .inFlight => (.error (.cycle e), m)
      | none => match exec (compute e) (m.start e) with
        | (.ok r, m') => (.ok r, m'.finish e r)
        | (.error cause, m') => (.error cause, m'.abandon e) := by
  have hget : exec get m = (.ok m, m) := rfl
  have hmodify (g : Memo → Memo) (m : Memo) : exec (modify g) m = (.ok (), g m) := rfl
  rw [memoized, exec_bind, hget]
  dsimp only
  rcases m.find? e with _ | _ | r
  · simp only [exec_bind, exec_tryCatch, hmodify]
    rcases exec (compute e) (m.start e) with ⟨cause | r, m'⟩ <;> rfl
  · rfl
  · rfl

/-! ## The search -/

variable (definitions) in
/-- Every result in the table is the unfolding of its key. -/
def Kept (m : Memo) : Prop :=
  ∀ e r, m.find? e = some (.done r) → Unfolds definitions e r

theorem Kept.start {m : Memo} (hm : Kept definitions m) (e : Expr) :
    Kept definitions (m.start e) := fun a r h => by
  rw [Memo.find?_start] at h
  split at h
  · cases h
  · exact hm a r h

theorem Kept.finish {m : Memo} (hm : Kept definitions m) {e r : Expr}
    (h : Unfolds definitions e r) : Kept definitions (m.finish e r) := fun a r' ha => by
  rw [Memo.find?_finish] at ha
  split at ha
  · cases ha
    exact h.of_beq ‹_›
  · exact hm a r' ha

theorem Kept.abandon {m : Memo} (hm : Kept definitions m) (e : Expr) :
    Kept definitions (m.abandon e) := fun a r h => by
  rw [Memo.find?_abandon] at h
  split at h
  · cases h
  · exact hm a r h

variable (definitions) in
/-- What a computation within the unfolding of `f` leaves: a table that keeps unfoldings and has the
same in flight as before, and a value with the property `P` or a cycle that is reached from `f`. -/
structure Leaves {α : Type} (f : Expr) (m : Memo) (P : α → Prop) (p : Result α × Memo) : Prop where
  kept : Kept definitions p.2
  inFlight : ∀ e, p.2.inFlight e = m.inFlight e
  value : ∀ a, p.1 = .ok a → P a
  error : ∀ err, p.1 = .error err → ∃ x, err = .cycle x ∧
    ReflTransGen (Visits definitions) f x ∧ Leads definitions x x

variable {α β : Type} {f : Expr} {m : Memo}

theorem Leaves.pure {P : α → Prop} {a : α} (hm : Kept definitions m) (ha : P a) :
    Leaves definitions f m P (exec (Pure.pure a) m) where
  kept := hm
  inFlight _ := rfl
  value _ h := Except.ok.inj h ▸ ha
  error _ h := nomatch h

theorem Leaves.bind {P : α → Prop} {Q : β → Prop} {x : Unfold α} {g : α → Unfold β}
    (hx : Leaves definitions f m P (exec x m))
    (hg : ∀ a m', Kept definitions m' → (∀ e, m'.inFlight e = m.inFlight e) → P a →
      Leaves definitions f m' Q (exec (g a) m')) :
    Leaves definitions f m Q (exec (x >>= g) m) := by
  rw [exec_bind]
  rcases h : exec x m with ⟨err | a, m'⟩ <;> rw [h] at hx
  · exact ⟨hx.kept, hx.inFlight, fun _ h => (nomatch h), fun err' h => hx.error err' (by
      rw [← Except.error.inj h])⟩
  · have hrest := hg a m' hx.kept hx.inFlight (hx.value a rfl)
    exact ⟨hrest.kept, fun e => (hrest.inFlight e).trans (hx.inFlight e), hrest.value, hrest.error⟩

/-- Visiting a list of expressions, if every single visit is fine. -/
theorem Leaves.mapListM {visit : Expr → Unfold Expr} {es : List Expr} (hm : Kept definitions m)
    (h : ∀ e ∈ es, ∀ m', Kept definitions m' → (∀ e, m'.inFlight e = m.inFlight e) →
      Leaves definitions f m' (Unfolds definitions e) (exec (visit e) m')) :
    Leaves definitions f m (List.Forall₂ (Unfolds definitions) es)
      (exec (mapListM visit es) m) := by
  induction es generalizing m with
  | nil => exact .pure hm .nil
  | cons e es ih =>
    rw [Expr.mapListM]
    refine .bind (h e (by simp) m hm fun _ => rfl) fun r m' hm' hflight hr => ?_
    refine .bind (ih hm' fun e he m'' hm'' hflight' => ?_) fun rs m'' hm'' _ hrs =>
      .pure hm'' (.cons hr hrs)
    exact h e (by simp [he]) m'' hm'' fun e => (hflight' e).trans (hflight e)

/-- A visit of `e` leaves what its computation leaves from a table with `e` in flight, if `e` itself is
in flight only where it leads back to itself. -/
theorem Leaves.memoized {compute : Expr → Unfold Expr} {e : Expr} (hm : Kept definitions m)
    (hflight : m.inFlight e = true →
      ReflTransGen (Visits definitions) f e ∧ Leads definitions e e)
    (h : m.inFlight e = false → Leaves definitions f (m.start e) (Unfolds definitions e)
      (exec (compute e) (m.start e))) :
    Leaves definitions f m (Unfolds definitions e) (exec (memoized compute e) m) := by
  rw [exec_memoized]
  split
  case h_1 r hr =>
    exact ⟨hm, fun _ => rfl, fun _ h => Except.ok.inj h ▸ hm e r hr, fun _ h => by cases h⟩
  case h_2 hfind =>
    have hcycle := hflight (Memo.inFlight_iff.mpr hfind)
    exact ⟨hm, fun _ => rfl, fun _ h => (by cases h), fun err h =>
      ⟨e, (Except.error.inj h).symm, hcycle⟩⟩
  case h_3 hnone =>
    have hnot (a : Expr) (ha : (e == a) = true) : m.inFlight a = false := by
      rw [Memo.inFlight, ← m.find?_beq ha, hnone]
    have hback (m' : Memo) (hm' : ∀ a, m'.inFlight a = (m.start e).inFlight a) (a : Expr) :
        (!(e == a) && m'.inFlight a) = m.inFlight a := by
      rw [hm', Memo.inFlight_start]
      cases hea : e == a with
      | false => rfl
      | true => exact (hnot a hea).symm
    have hcompute := h (hnot e (beq_refl e))
    rcases hrun : exec (compute e) (m.start e) with ⟨err | r, m'⟩
    all_goals rw [hrun] at hcompute
    · exact ⟨hcompute.kept.abandon e,
        fun a => (m'.inFlight_abandon e a).trans (hback m' hcompute.inFlight a),
        fun _ h => (by cases h), fun err' h => hcompute.error err' (Except.error.inj h ▸ rfl)⟩
    · have hr := hcompute.value r rfl
      exact ⟨hcompute.kept.finish hr,
        fun a => (m'.inFlight_finish e r a).trans (hback m' hcompute.inFlight a),
        fun _ h => Except.ok.inj h ▸ hr, fun _ h => by cases h⟩

/-- **A visit within the unfolding of `f`** leaves the unfolding of what it visits, or a cycle. It may
start where everything in flight leads to, with a depth for all that may still be put in flight. -/
theorem leaves_visitTo (depth : Nat) : ∀ {e : Expr} {m : Memo}, Kept definitions m →
    ReflTransGen (Visits definitions) f e → (∀ s, m.inFlight s = true → Leads definitions s e) →
      openCount definitions f m < depth →
        Leaves definitions f m (Unfolds definitions e) (exec (visitTo definitions depth e) m) := by
  induction depth with
  | zero => exact fun _ _ _ h => absurd h (Nat.not_lt_zero _)
  | succ depth ih =>
    intro e m hm he hleads hdepth
    rw [visitTo]
    refine .memoized hm (fun hflight => ⟨he, hleads e hflight⟩) fun hnot => ?_
    have hopen := openCount_start (mem_allNodes he) hnot
    rw [step_eq, map_eq_pure_bind]
    refine .bind (.mapListM (hm.start e) fun e' he' m' hm' hflight => ?_)
      fun rs m' hm' _ hrs => .pure hm' (Unfolds.assemble hrs)
    refine ih hm' (he.tail he') (fun s hs => ?_) ?_
    · rw [hflight, Memo.inFlight_start, Bool.or_eq_true] at hs
      exact hs.elim (fun h => leads_of_visit h he') fun h => (hleads s h).visit he'
    · rw [openCount_congr hflight]
      omega

theorem leaves_unfold (definitions : Definitions) (f : Expr) :
    Leaves definitions f .empty (Unfolds definitions f) (unfold definitions f) := by
  refine leaves_visitTo _ (fun e r h => ?_) .refl (fun s h => ?_) ?_
  · rw [Memo.find?_empty] at h
    cases h
  · rw [Memo.inFlight_iff, Memo.find?_empty] at h
    cases h
  · rw [openCount, ← length_allNodes]
    exact Nat.lt_succ_of_le List.countP_le_length

/-- **Unfolding finds exactly the cycles.** It ends within its depth: with a cycle iff a variable that
is reached from `f` reaches itself, and else with what unfolding without a table gives from some depth
on. The expression that is reported for a cycle is reached from `f` and leads back to itself.
Afterwards nothing is in flight, and every kept result is the unfolding of its key, also after a
failure. -/
theorem unfold_spec (definitions : Definitions) (f : Expr) :
    ((∃ x, (unfold definitions f).1 = .error (.cycle x)) ↔ Circular definitions f) ∧
    (∀ err, (unfold definitions f).1 = .error err → ∃ x, err = .cycle x ∧
      ReflTransGen (Visits definitions) f x ∧ Leads definitions x x) ∧
    (¬ Circular definitions f → ∃ r r' depth, (unfold definitions f).1 = .ok r ∧ (r == r') = true ∧
      ∀ d, depth ≤ d → unfoldingTo definitions d f = some r') ∧
    ∀ e, (unfold definitions f).2.find? e ≠ some .inFlight ∧
      ∀ r, (unfold definitions f).2.find? e = some (.done r) → ∃ r' depth, (r == r') = true ∧
        ∀ d, depth ≤ d → unfoldingTo definitions d e = some r' := by
  have h := leaves_unfold definitions f
  have hcircular : ∀ err, (unfold definitions f).1 = .error err → Circular definitions f :=
    fun err herr => by
      obtain ⟨x, -, hx, hback⟩ := h.error err herr
      exact circular_of_leads hx hback
  refine ⟨⟨fun ⟨x, hx⟩ => hcircular _ hx, fun hf => ?_⟩, h.error, fun hf => ?_,
    fun e => ⟨fun he => ?_, h.kept e⟩⟩
  · rcases hresult : (unfold definitions f).1 with err | r
    · obtain ⟨x, rfl, -⟩ := h.error err hresult
      exact ⟨x, rfl⟩
    · obtain ⟨r', depth, -, hr'⟩ := h.value r hresult
      have hnone := unfoldingTo_eq_none hf depth
      rw [hr' depth le_rfl] at hnone
      cases hnone
  · rcases hresult : (unfold definitions f).1 with err | r
    · exact absurd (hcircular err hresult) hf
    · obtain ⟨r', depth, heq, hr'⟩ := h.value r hresult
      exact ⟨r, r', depth, rfl, heq, hr'⟩
  · have hflight := h.inFlight e
    rw [Memo.inFlight_iff.mpr he, eq_comm, Memo.inFlight_iff, Memo.find?_empty] at hflight
    cases hflight

/-- A chain of two names and a circle of two names. -/
theorem unfold_spec_two_names :
    (∃ r, (unfold [("x", .not (.symbol "y"))] (.symbol "x")).1 = .ok r ∧
      (r == .not (.symbol "y")) = true) ∧
    ∃ e, (unfold [("x", .symbol "y"), ("y", .symbol "x")] (.symbol "x")).1 = .error (.cycle e) := by
  constructor
  · have hunfolding : unfoldingTo [("x", .not (.symbol "y"))] 3 (.symbol "x") =
        some (.not (.symbol "y")) := rfl
    have hnot : ¬ Circular [("x", .not (.symbol "y"))] (.symbol "x") := fun h => by
      rw [unfoldingTo_eq_none h] at hunfolding
      cases hunfolding
    obtain ⟨r, r', depth, hr, heq, hr'⟩ := (unfold_spec _ _).2.2.1 hnot
    have hsame := (hr' (max depth 3) (le_max_left _ _)).symm.trans
      (unfoldingTo_mono (le_max_right _ _) hunfolding)
    exact ⟨r, hr, Option.some.inj hsame ▸ heq⟩
  · have hback : Visits [("x", .symbol "y"), ("y", .symbol "x")] (.symbol "y") (.var "x" none) := by
      exact List.mem_singleton.mpr rfl
    exact (unfold_spec _ _).1.mpr ⟨"x", none, none, .symbol "y", .refl, rfl, .single hback⟩

end SymbolicAlgebra.Unfolding
