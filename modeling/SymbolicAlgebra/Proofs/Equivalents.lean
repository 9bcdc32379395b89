import SymbolicAlgebra.Proofs.Transparency
import SymbolicAlgebra.Simplification.Equivalence

/-!
# The enumeration of equivalent forms

`enumerate` is a search that goes depth first, with one list of found forms for all branches. A form
is looked at with the number of steps that are left when it is met for the first time. So all that
is certain of a found form is that it was met at the limit or that its successors are found as well
(`Settled`), and one that was met at the limit is not taken up again by a shorter chain. Where no
form lies both on the limit of one chain and within that of another, nothing is missed.

Results:
* `equivalents_eq_cons`, `distinct_equivalents`, `within_of_mem_equivalents`: the list starts with
  the expression, holds every form once, and only forms in reach.
* `settled_of_mem_equivalents`: what is certain of a found form.
* `equivalents_complete`: the list holds exactly the forms in reach, where no shorter chain leads to
  a form at the limit.
* `equivalents_shortcut`: what is missed where one does.
-/

namespace SymbolicAlgebra.Equivalence

/-! ## Chains of steps -/

/-- Some rule makes `y` of `x`. -/
def Step (rules : List Rule) (ctx : Context) (x y : Expr) : Prop :=
  ∃ r ∈ rules, r.reduct? x ctx = some y

/-- The forms on a chain of steps from `x`, the last one first. -/
inductive Trail (rules : List Rule) (ctx : Context) (x : Expr) : List Expr → Prop where
  | start : Trail rules ctx x [x]
  | step {y z : Expr} {t : List Expr} (h : Trail rules ctx x (y :: t)) (hstep : Step rules ctx y z) :
      Trail rules ctx x (z :: y :: t)

/-- `y` is reached from `x` by a chain of at most `n` steps. -/
def Within (rules : List Rule) (ctx : Context) (n : Nat) (x y : Expr) : Prop :=
  ∃ t, Trail rules ctx x (y :: t) ∧ t.length ≤ n

/-- No two members read the same. -/
def Distinct (l : List Expr) : Prop :=
  l.Pairwise fun a b => (a == b) = false

/-- `y` is reached from `x` by a chain of exactly `n` steps on which no form comes twice. -/
def AtLimit (rules : List Rule) (ctx : Context) (n : Nat) (x y : Expr) : Prop :=
  ∃ t, Trail rules ctx x (y :: t) ∧ Distinct (y :: t) ∧ t.length = n

/-- `y` lies at the limit or all of its successors are found. -/
def Settled (rules : List Rule) (ctx : Context) (depth : Nat) (x : Expr) (found : List Expr)
    (y : Expr) : Prop :=
  AtLimit rules ctx depth x y ∨ ∀ z, Step rules ctx y z → found.contains z = true

variable {rules : List Rule} {ctx : Context} {depth : Nat} {x y z : Expr} {found found' : List Expr}

theorem Settled.mono (h : Settled rules ctx depth x found y) (hle : found <+: found') :
    Settled rules ctx depth x found' y :=
  h.imp_right fun hfound z hz => by
    obtain ⟨w, hw, heq⟩ := List.contains_iff_exists_mem_beq.mp (hfound z hz)
    exact List.contains_iff_exists_mem_beq.mpr ⟨w, hle.subset hw, heq⟩

theorem Distinct.append_singleton (h : Distinct found) (hnew : found.contains z = false) :
    Distinct (found ++ [z]) := by
  refine List.pairwise_append.mpr ⟨h, List.pairwise_singleton _ _, fun a ha b hb => ?_⟩
  obtain rfl := List.mem_singleton.mp hb
  by_contra hne
  have heq : (b == a) = true := BEq.symm (Bool.of_not_eq_false hne)
  exact Bool.false_ne_true (hnew.symm.trans (List.contains_iff_exists_mem_beq.mpr ⟨a, ha, heq⟩))

/-- A chain goes on with a form that is not among those found. -/
theorem Distinct.cons_of_subset {t : List Expr} (h : Distinct t) (ht : t ⊆ found)
    (hnew : found.contains z = false) : Distinct (z :: t) := by
  refine List.pairwise_cons.mpr ⟨fun a ha => ?_, h⟩
  by_contra hne
  exact Bool.false_ne_true (hnew.symm.trans
    (List.contains_iff_exists_mem_beq.mpr ⟨a, ht ha, Bool.of_not_eq_false hne⟩))

/-! ## The search -/

/-- What a part of the search does to the list of found forms. -/
structure Extends (rules : List Rule) (ctx : Context) (depth : Nat) (x : Expr)
    (found found' : List Expr) : Prop where
  /-- Forms are added at the end. -/
  isPrefix : found <+: found'
  distinct : Distinct found → Distinct found'
  within : ∀ y ∈ found', y ∈ found ∨ Within rules ctx depth x y
  settled : ∀ y ∈ found', y ∈ found ∨ Settled rules ctx depth x found' y

theorem Extends.refl (found : List Expr) : Extends rules ctx depth x found found where
  isPrefix := List.prefix_rfl
  distinct := id
  within := fun _ h => .inl h
  settled := fun _ h => .inl h

theorem Extends.trans {found'' : List Expr} (h : Extends rules ctx depth x found found')
    (h' : Extends rules ctx depth x found' found'') : Extends rules ctx depth x found found'' where
  isPrefix := h.isPrefix.trans h'.isPrefix
  distinct := h'.distinct ∘ h.distinct
  within := fun y hy => (h'.within y hy).elim (h.within y) .inr
  settled := fun y hy => (h'.settled y hy).elim
    (fun hy' => (h.settled y hy').imp_right fun hset => hset.mono h'.isPrefix) .inr

theorem Extends.contains (h : Extends rules ctx depth x found found')
    (hz : found.contains z = true) : found'.contains z = true := by
  obtain ⟨w, hw, heq⟩ := List.contains_iff_exists_mem_beq.mp hz
  exact List.contains_iff_exists_mem_beq.mpr ⟨w, h.isPrefix.subset hw, heq⟩

/-- A form is entered, and the search goes on from there. -/
theorem Extends.enter (hnew : found.contains z = false) (hwithin : Within rules ctx depth x z)
    (h : Extends rules ctx depth x (found ++ [z]) found')
    (hsettled : Settled rules ctx depth x found' z) :
    Extends rules ctx depth x found found' := by
  have hmem : ∀ {P : Expr → Prop}, P z → ∀ y ∈ found', (y ∈ found ++ [z] ∨ P y) →
      y ∈ found ∨ P y := by
    intro P hz y _ hy
    rcases hy with hy | hy
    · rcases List.mem_append.mp hy with hy | hy
      · exact .inl hy
      · rw [List.mem_singleton.mp hy]
        exact .inr hz
    · exact .inr hy
  exact {
    isPrefix := (List.prefix_append _ _).trans h.isPrefix
    distinct := fun hd => h.distinct (hd.append_singleton hnew)
    within := fun y hy => hmem hwithin y hy (h.within y hy)
    settled := fun y hy => hmem hsettled y hy (h.settled y hy) }

/-- One rule of the loop over the rules: its result is searched, unless the rule changes nothing. -/
def follow (rules : List Rule) (ctx : Context) (n : Nat) (z : Expr) (found : List Expr)
    (rule : Rule) : List Expr :=
  match rule.reduct? z ctx with
  | some y => if y == z then found else enumerate rules ctx n y found
  | none => found

theorem enumerate_succ (rules : List Rule) (ctx : Context) (n : Nat) (z : Expr)
    (found : List Expr) : enumerate rules ctx (n + 1) z found =
      if found.contains z then found
      else rules.foldl (follow rules ctx n z) (found ++ [z]) := rfl

theorem enumerate_of_contains (h : found.contains z = true) (rules : List Rule) (ctx : Context)
    (n : Nat) : enumerate rules ctx n z found = found := by
  cases n with
  | zero => rw [enumerate, if_pos h]
  | succ n => rw [enumerate_succ, if_pos h]

/-- The search from `z` with `n` steps left finds `z`. -/
structure Searches (rules : List Rule) (ctx : Context) (depth : Nat) (x : Expr) (n : Nat)
    (z : Expr) (found : List Expr) : Prop where
  isExtension : Extends rules ctx depth x found (enumerate rules ctx n z found)
  contains : (enumerate rules ctx n z found).contains z = true

theorem Searches.of_contains {n : Nat} (h : found.contains z = true) :
    Searches rules ctx depth x n z found := by
  have heq := enumerate_of_contains h rules ctx n
  exact ⟨heq.symm ▸ .refl found, heq.symm ▸ h⟩

theorem contains_append_singleton (found : List Expr) (z : Expr) :
    (found ++ [z]).contains z = true :=
  List.contains_iff_exists_mem_beq.mpr ⟨z, List.mem_append_right _ List.mem_cons_self, BEq.rfl⟩

/-- The loop over the rules finds what they make of `z`, once `z` and the chain `t` before it are
entered. -/
theorem foldl_follow {n : Nat} {t : List Expr}
    (hsearch : ∀ {y : Expr} {found : List Expr}, Step rules ctx z y → z :: t ⊆ found →
      Searches rules ctx depth x n y found) {rs : List Rule} (hrs : rs ⊆ rules)
    (hz : z :: t ⊆ found) :
    Extends rules ctx depth x found (rs.foldl (follow rules ctx n z) found) ∧
      ∀ r ∈ rs, ∀ y, r.reduct? z ctx = some y →
        (rs.foldl (follow rules ctx n z) found).contains y = true := by
  induction rs generalizing found with
  | nil => exact ⟨.refl _, fun _ hr => absurd hr List.not_mem_nil⟩
  | cons r rs ih =>
    have hone : Extends rules ctx depth x found (follow rules ctx n z found r) ∧
        ∀ y, r.reduct? z ctx = some y → (follow rules ctx n z found r).contains y = true := by
      unfold follow
      cases hr : r.reduct? z ctx with
      | none => exact ⟨.refl _, fun _ h => absurd h (Option.some_ne_none _).symm⟩
      | some y =>
        simp only [Option.some.injEq, forall_eq']
        by_cases hyz : (y == z) = true
        · rw [if_pos hyz]
          exact ⟨.refl _, List.contains_iff_exists_mem_beq.mpr ⟨z, hz List.mem_cons_self, hyz⟩⟩
        · rw [if_neg hyz]
          have h := hsearch ⟨r, hrs List.mem_cons_self, hr⟩ hz
          exact ⟨h.isExtension, h.contains⟩
    obtain ⟨hrest, hfound⟩ := ih (fun s hs => hrs (List.mem_cons_of_mem r hs))
      (List.Subset.trans hz hone.1.isPrefix.subset)
    refine ⟨hone.1.trans hrest, fun s hs y hy => ?_⟩
    rcases List.mem_cons.mp hs with rfl | hs
    · exact hrest.contains (hone.2 y hy)
    · exact hfound s hs y hy

/-- **The search from the end of a chain**, with the steps left that the chain leaves. -/
theorem searches {n : Nat} {t : List Expr} (ht : Trail rules ctx x (z :: t))
    (hn : t.length + n = depth) (hdistinct : Distinct t) (hsub : t ⊆ found) :
    Searches rules ctx depth x n z found := by
  induction n generalizing z t found with
  | zero =>
    by_cases hz : found.contains z = true
    · exact .of_contains hz
    have hnew : found.contains z = false := Bool.of_not_eq_true hz
    have hlimit : AtLimit rules ctx depth x z := ⟨t, ht, hdistinct.cons_of_subset hsub hnew, hn⟩
    have heq : enumerate rules ctx 0 z found = found ++ [z] := by rw [enumerate, if_neg hz]
    constructor
    · rw [heq]
      exact .enter hnew ⟨t, ht, hn.le⟩ (.refl _) (.inl hlimit)
    · rw [heq]
      exact contains_append_singleton found z
  | succ n ih =>
    by_cases hz : found.contains z = true
    · exact .of_contains hz
    have hnew : found.contains z = false := Bool.of_not_eq_true hz
    have hentered : z :: t ⊆ found ++ [z] := by
      refine List.cons_subset.mpr ⟨List.mem_append_right _ List.mem_cons_self, ?_⟩
      exact fun w hw => List.mem_append_left _ (hsub hw)
    have hsearch {y : Expr} {found : List Expr} (hstep : Step rules ctx z y) (hin : z :: t ⊆ found) :
        Searches rules ctx depth x n y found :=
      ih (.step ht hstep) (by rw [List.length_cons]; omega) (hdistinct.cons_of_subset hsub hnew) hin
    obtain ⟨hloop, hfound⟩ := foldl_follow hsearch (List.Subset.refl rules) hentered
    have heq : enumerate rules ctx (n + 1) z found =
        rules.foldl (follow rules ctx n z) (found ++ [z]) := by rw [enumerate_succ, if_neg hz]
    constructor
    · rw [heq]
      exact .enter hnew ⟨t, ht, by omega⟩ hloop (.inr fun y ⟨r, hr, hy⟩ => hfound r hr y hy)
    · rw [heq]
      exact hloop.contains (contains_append_singleton found z)

/-! ## The list of equivalent forms -/

theorem extends_equivalents (rules : List Rule) (ctx : Context) (depth : Nat) (x : Expr) :
    Extends rules ctx depth x [] (x.equivalents rules depth ctx) :=
  (searches .start (Nat.zero_add depth) List.Pairwise.nil (List.nil_subset [])).isExtension

/-- The expression itself comes first. -/
theorem equivalents_eq_cons (rules : List Rule) (ctx : Context) (depth : Nat) (x : Expr) :
    ∃ others, x.equivalents rules depth ctx = x :: others := by
  cases depth with
  | zero => exact ⟨[], rfl⟩
  | succ n =>
    have hsearch {y : Expr} {found : List Expr} (hstep : Step rules ctx x y) (hin : [x] ⊆ found) :
        Searches rules ctx (n + 1) x n y found :=
      searches (.step .start hstep) (by rw [List.length_singleton, Nat.add_comm])
        (List.pairwise_singleton _ _) hin
    obtain ⟨hloop, _⟩ := foldl_follow hsearch (List.Subset.refl rules) (List.Subset.refl [x])
    obtain ⟨others, hothers⟩ := hloop.isPrefix
    exact ⟨others, hothers.symm⟩

/-- Every form is listed once. -/
theorem distinct_equivalents (rules : List Rule) (ctx : Context) (depth : Nat) (x : Expr) :
    Distinct (x.equivalents rules depth ctx) :=
  (extends_equivalents rules ctx depth x).distinct List.Pairwise.nil

/-- Only forms in reach are listed. -/
theorem within_of_mem_equivalents (h : y ∈ x.equivalents rules depth ctx) :
    Within rules ctx depth x y :=
  ((extends_equivalents rules ctx depth x).within y h).resolve_left List.not_mem_nil

/-- What is listed lies at the limit, or its successors are listed. -/
theorem settled_of_mem_equivalents (h : y ∈ x.equivalents rules depth ctx) :
    Settled rules ctx depth x (x.equivalents rules depth ctx) y :=
  ((extends_equivalents rules ctx depth x).settled y h).resolve_left List.not_mem_nil

/-- **The list of equivalent forms is complete where no chain is cut short**: it starts with the
expression, no two of its forms read the same, and it holds the forms that are reached in at most
`depth` steps, if no form is at the limit and also reached by fewer steps, and forms in reach that
read the same are the same. -/
theorem equivalents_complete (rules : List Rule) (ctx : Context) (depth : Nat) (x : Expr)
    (hsame : ∀ y z, Within rules ctx depth x y → Within rules ctx depth x z →
      (y == z) = true → y = z)
    (hlimit : ∀ n < depth, ∀ y, Within rules ctx n x y → ¬ AtLimit rules ctx depth x y) :
    (∃ others, x.equivalents rules depth ctx = x :: others) ∧
      Distinct (x.equivalents rules depth ctx) ∧
      ∀ y, y ∈ x.equivalents rules depth ctx ↔ Within rules ctx depth x y := by
  refine ⟨equivalents_eq_cons rules ctx depth x, distinct_equivalents rules ctx depth x,
    fun y => ⟨within_of_mem_equivalents, ?_⟩⟩
  rintro ⟨t, ht, hn⟩
  -- along the chain: each form before the last one is listed and not at the limit
  induction t generalizing y with
  | nil =>
    cases ht with
    | start =>
      obtain ⟨others, hothers⟩ := equivalents_eq_cons rules ctx depth x
      rw [hothers]
      exact List.mem_cons_self
  | cons w t ih =>
    cases ht with
    | step hw hstep =>
      rw [List.length_cons] at hn
      have hlisted := ih w hw (by omega)
      have hsettled := (settled_of_mem_equivalents hlisted).resolve_left
        (hlimit t.length (by omega) w ⟨t, hw, Nat.le_refl _⟩)
      obtain ⟨v, hv, heq⟩ := List.contains_iff_exists_mem_beq.mp (hsettled y hstep)
      have hyv : y = v := hsame y v ⟨w :: t, .step hw hstep, by rw [List.length_cons]; omega⟩
        (within_of_mem_equivalents hv) heq
      rw [hyv]
      exact hv

/-! ## Rules between numbers -/

/-- The rule that makes `b` of `a`. -/
def edge (a b : Rat) : Rule := .plain (.const a) (.const b)

/-- The rules between the numbers of a graph. -/
def edges (graph : List (Rat × Rat)) : List Rule := graph.map fun (a, b) => edge a b

theorem reduct?_edge (a b q : Rat) (ctx : Context) :
    (edge a b).reduct? (.const q) ctx = if a = q then some (.const b) else none := by
  have hmatch : (Expr.const a).match? (.const q) ctx = if a = q then some .empty else none := by
    have hrun : (Expr.const a).match? (.const q) ctx =
        if (Expr.const a == .const q) = true then some .empty else none := rfl
    have hbeq : (Expr.const a == .const q) = true ↔ a = q := beq_iff_eq (a := a) (b := q)
    simp only [hrun, hbeq]
  have hvalue : ((Expr.const b).instantiate .empty).evaluate ctx = .const b :=
    (Expr.evaluate_eq (.const b) ctx).trans (Evaluator.evaluated_const b)
  rw [Rule.reduct?, show (edge a b).pattern = .const a from rfl, hmatch]
  by_cases h : a = q
  · rw [if_pos h, if_pos h]
    exact congrArg some hvalue
  · rw [if_neg h, if_neg h]

theorem step_edges {graph : List (Rat × Rat)} {q : Rat} :
    Step (edges graph) ctx (.const q) y ↔ ∃ b, (q, b) ∈ graph ∧ y = .const b := by
  constructor
  · rintro ⟨r, hr, hy⟩
    obtain ⟨⟨a, b⟩, hmem, rfl⟩ := List.mem_map.mp hr
    rw [reduct?_edge] at hy
    by_cases h : a = q
    · rw [if_pos h] at hy
      exact ⟨b, h ▸ hmem, (Option.some.inj hy).symm⟩
    · rw [if_neg h] at hy
      exact absurd hy (Option.some_ne_none y).symm
  · rintro ⟨b, hmem, rfl⟩
    exact ⟨edge q b, List.mem_map.mpr ⟨_, hmem, rfl⟩, by rw [reduct?_edge, if_pos rfl]⟩

/-- Where every rule leads from one level to the next, a chain is as long as its end is high. -/
theorem Trail.level {graph : List (Rat × Rat)} {level : Rat → Nat}
    (hlevel : ∀ e ∈ graph, level e.2 = level e.1 + 1) {q : Rat} (hq : level q = 0) {l : List Expr}
    (h : Trail (edges graph) ctx (.const q) l) :
    ∀ y t, l = y :: t → ∃ p, y = .const p ∧ level p = t.length := by
  induction h with
  | start =>
    intro y t hl
    obtain ⟨rfl, rfl⟩ := List.cons.inj hl
    exact ⟨q, rfl, hq⟩
  | @step w z u _ hstep ih =>
    intro y t hl
    obtain ⟨rfl, rfl⟩ := List.cons.inj hl
    obtain ⟨p, rfl, hp⟩ := ih w u rfl
    obtain ⟨b, hmem, rfl⟩ := step_edges.mp hstep
    exact ⟨b, rfl, by rw [hlevel _ hmem, hp, List.length_cons]⟩

/-- Two chains of the same length lead from `0` to `3`, and one step more leads to `4`. -/
def diamond : List (Rat × Rat) := [(0, 1), (0, 2), (1, 3), (2, 3), (3, 4)]

/-- The number of steps to a number of the diamond. -/
def diamondLevel (q : Rat) : Nat := if q = 0 then 0 else if q ≤ 2 then 1 else if q ≤ 3 then 2 else 3

theorem equivalents_complete_diamond :
    (∀ y z, Within (edges diamond) (.inert .standard) 3 (.const 0) y →
      Within (edges diamond) (.inert .standard) 3 (.const 0) z → (y == z) = true → y = z) ∧
    (∀ n < 3, ∀ y, Within (edges diamond) (.inert .standard) n (.const 0) y →
      ¬ AtLimit (edges diamond) (.inert .standard) 3 (.const 0) y) ∧
    (.const 4 ∈ (Expr.const 0).equivalents (edges diamond) 3 (.inert .standard) ↔
      Within (edges diamond) (.inert .standard) 3 (.const 0) (.const 4)) := by
  have hlevel : ∀ e ∈ diamond, diamondLevel e.2 = diamondLevel e.1 + 1 := by decide
  have hsame : ∀ y z, Within (edges diamond) (.inert .standard) 3 (.const 0) y →
      Within (edges diamond) (.inert .standard) 3 (.const 0) z → (y == z) = true → y = z := by
    rintro y z ⟨t, ht, _⟩ ⟨u, hu, _⟩ hyz
    obtain ⟨p, rfl, _⟩ := ht.level hlevel rfl y t rfl
    obtain ⟨q, rfl, _⟩ := hu.level hlevel rfl z u rfl
    exact congrArg Expr.const (beq_iff_eq.mp hyz)
  have hlimit : ∀ n < 3, ∀ y, Within (edges diamond) (.inert .standard) n (.const 0) y →
      ¬ AtLimit (edges diamond) (.inert .standard) 3 (.const 0) y := by
    rintro n hn y ⟨t, ht, htn⟩ ⟨u, hu, _, hu3⟩
    obtain ⟨p, rfl, hp⟩ := ht.level hlevel rfl y t rfl
    obtain ⟨q, hq, hq3⟩ := hu.level hlevel rfl _ u rfl
    obtain rfl := Expr.const.inj hq
    omega
  exact ⟨hsame, hlimit, (equivalents_complete _ _ _ _ hsame hlimit).2.2 (.const 4)⟩

/-- A chain of two steps from `0` to `2` and a shortcut. -/
def shortcut : List (Rat × Rat) := [(0, 1), (1, 2), (0, 2), (2, 3)]

/-- The form at the end of the longer chain is not taken up again by the shortcut, and what would
follow is missed. -/
theorem equivalents_shortcut (ctx : Context) :
    (Expr.const 0).equivalents (edges shortcut) 2 ctx = [.const 0, .const 1, .const 2] ∧
      Within (edges shortcut) ctx 2 (.const 0) (.const 3) := by
  constructor
  · have hbeq : ∀ p q : Rat, (Expr.const p == .const q) = decide (p = q) := fun _ _ => rfl
    simp [Expr.equivalents, enumerate, edges, shortcut, reduct?_edge, hbeq]
  · refine ⟨[.const 2, .const 0], .step (.step .start ?_) ?_, Nat.le_refl 2⟩
    · exact step_edges.mpr ⟨2, by decide, rfl⟩
    · exact step_edges.mpr ⟨3, by decide, rfl⟩

end SymbolicAlgebra.Equivalence
