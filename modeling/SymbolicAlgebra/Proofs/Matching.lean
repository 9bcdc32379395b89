import SymbolicAlgebra.Matching
import SymbolicAlgebra.Proofs.Canonical

/-!
# What a match leaves behind

A match is a search that binds variables as it goes. Nothing rolls it back from outside: a failed
match leaves the state as it was because each step that may bind something and still fail runs under
`tentatively`. That a roll back removes the right bindings rests on the state being `Consistent`: the
history lists the bound keys in order, each once.

An attempt `Adds` if it only appends bindings, and is `Clean` if it also leaves the state alone when
it fails. `tentatively` makes a clean attempt of one that adds; the searches keep attempts clean; one
step of matching is clean when the matches of the parts are, and the induction on the depth carries
this over to the whole match.

Results:
* `matching_eq`: the size of the pattern is depth enough, so a match is one step over the matches of
  smaller patterns.
* `Reachable.matching_restores_or_extends`: in every state that binding, matching and attempts lead to, a
  failed match restores the state, and a successful one appends the bindings of new variables, which
  accept their values.
-/

namespace SymbolicAlgebra

/-! ## The depth of a match -/

namespace Expr

theorem sizeList_eq_sum (xs : List Expr) : sizeList xs = (xs.map size).sum := by
  induction xs with
  | nil => rfl
  | cons x xs ih => rw [sizeList, ih, List.map_cons, List.sum_cons]

theorem sizeList_perm {xs ys : List Expr} (h : xs.Perm ys) : sizeList xs = sizeList ys := by
  rw [sizeList_eq_sum, sizeList_eq_sum, (h.map size).sum_eq]

theorem sizeList_append (xs ys : List Expr) :
    sizeList (xs ++ ys) = sizeList xs + sizeList ys := by
  simp [sizeList_eq_sum]

theorem sizeList_flatMap_le {view : Expr → List Expr} (h : ∀ e : Expr, sizeList (view e) ≤ e.size)
    (xs : List Expr) : sizeList (xs.flatMap view) ≤ sizeList xs := by
  induction xs with
  | nil => simp [sizeList]
  | cons x xs ih =>
    rw [List.flatMap_cons, sizeList_append, sizeList]
    exact Nat.add_le_add (h x) ih

/-- A constant for all constants takes no more room than they do. -/
theorem sizeList_arranged_le {neutral c : Rat} {xs : List Expr}
    (h : constants xs = [] → c = neutral) : sizeList (arranged neutral c xs) ≤ sizeList xs := by
  have hparts := sizeList_perm (others_constants_perm xs)
  rw [sizeList_append] at hparts
  rw [arranged, sizeList_perm (sort_perm _)]
  split
  · omega
  · next hc =>
    have hone : 1 ≤ sizeList ((constants xs).map const) := by
      obtain ⟨q, qs, hq⟩ := List.exists_cons_of_ne_nil fun h0 => hc (h h0)
      simp [hq, sizeList, size]
    rw [sizeList_append]
    simpa [sizeList, size] using by omega

theorem size_sumOf_le (xs : List Expr) : (sumOf xs).size ≤ sizeList xs + 1 := by
  have hterms : sizeList (arranged 0 (constants (xs.flatMap terms)).sum (xs.flatMap terms)) ≤
      sizeList xs :=
    (sizeList_arranged_le fun h => by rw [h]; rfl).trans (sizeList_flatMap_le sizeList_terms_le xs)
  rw [sumOf_eq]
  unfold ofTerms
  split
  · simp [zero, size]
  · next h => simpa [h, sizeList] using Nat.le_succ_of_le hterms
  · next h => simpa [size] using hterms

theorem size_productOf_le (xs : List Expr) : (productOf xs).size ≤ sizeList xs + 1 := by
  have hfactors :
      sizeList (arranged 1 (constants (xs.flatMap factors)).prod (xs.flatMap factors)) ≤
        sizeList xs :=
    (sizeList_arranged_le fun h => by rw [h]; rfl).trans
      (sizeList_flatMap_le sizeList_factors_le xs)
  rw [productOf_eq]
  split
  · simp [zero, size]
  unfold ofFactors
  split
  · simp [one, size]
  · next h => simpa [h, sizeList] using Nat.le_succ_of_le hfactors
  · next h => simpa [size] using hfactors

end Expr

namespace Matching

open Attempt

theorem perm_of_mem_picks {α : Type} {x : α} : ∀ {xs others : List α},
    (x, others) ∈ picks xs → (x :: others).Perm xs
  | y :: ys, others, h => by
    rw [picks, List.mem_cons] at h
    obtain h | h := h
    · cases h
      exact List.Perm.refl _
    · obtain ⟨⟨z, zs⟩, hz, heq⟩ := List.mem_map.mp h
      cases heq
      exact (List.Perm.swap y x zs).trans ((perm_of_mem_picks hz).cons y)

theorem anyM_congr {α : Type} {f g : α → Attempt} : ∀ {xs : List α}, (∀ x ∈ xs, f x = g x) →
    xs.anyM f = xs.anyM g
  | [], _ => rfl
  | x :: xs, h => by
    rw [List.anyM, List.anyM, h x List.mem_cons_self,
      anyM_congr fun y hy => h y (List.mem_cons_of_mem x hy)]

/-- The parts of a pattern that are no constants. -/
theorem partition_isConst (pattern : List Expr) :
    (pattern.partition Expr.isConst).2 = Expr.others pattern := by
  rw [List.partition_eq_filter_filter]
  rfl

/-- An operation whose combinations are no larger than a node over the parts. -/
def Operation.Bounded (op : Operation) : Prop :=
  ∀ xs, (op.combine xs).size ≤ Expr.sizeList xs + 1

theorem bounded_sum : Operation.sum.Bounded := Expr.size_sumOf_le

theorem bounded_product : Operation.product.Bounded := Expr.size_productOf_le

section Congr

variable {ctx : Context} {recur recur' : Matcher} {bound : Nat}
  (h : ∀ p : Expr, p.size < bound → recur p = recur' p)
include h

theorem eachInOrder_congr : ∀ {ps : List Expr} (es : List Expr), Expr.sizeList ps < bound →
    eachInOrder recur ps es = eachInOrder recur' ps es
  | [], _, _ => rfl
  | _ :: _, [], _ => rfl
  | p :: ps, e :: es, hps => by
    have := Expr.size_pos p
    rw [Expr.sizeList] at hps
    rw [eachInOrder, eachInOrder, h p (by omega), eachInOrder_congr es (by omega)]

theorem matchPart_congr (op : Operation) {p remaining : Expr} (hp : p.size < bound)
    (hremaining : remaining.size < bound) (subject : Expr) :
    matchPart op ctx recur p remaining subject = matchPart op ctx recur' p remaining subject := by
  unfold matchPart
  rw [h p hp, h remaining hremaining]

theorem matchCommutative_congr {op : Operation} (hop : op.Bounded) {pattern : List Expr}
    (hpattern : Expr.sizeList pattern < bound) (subject : Expr) :
    matchCommutative op ctx recur pattern subject =
      matchCommutative op ctx recur' pattern subject := by
  unfold matchCommutative
  dsimp only
  split
  · rfl
  refine anyM_congr fun ⟨p, others⟩ hpick => ?_
  rw [partition_isConst] at hpick
  have hsize := Expr.sizeList_perm (perm_of_mem_picks hpick)
  have hrest := Expr.sizeList_perm (Expr.others_constants_perm pattern)
  rw [Expr.sizeList_append] at hrest
  have hothers := hop others
  have := Expr.size_pos p
  rw [Expr.sizeList] at hsize
  exact matchPart_congr h op (show p.size < _ by omega) (show (op.combine others).size < _ by omega) _

theorem matchProduct_congr {pattern : List Expr} (hpattern : Expr.sizeList pattern < bound)
    (subject : Expr) :
    matchProduct ctx recur pattern subject = matchProduct ctx recur' pattern subject := by
  unfold matchProduct
  split
  · refine anyM_congr fun p hp => ?_
    rw [h p (Nat.lt_of_le_of_lt (Expr.size_le_sizeList hp) hpattern)]
  · exact matchCommutative_congr h bounded_product hpattern subject

theorem step_congr {pattern : Expr} (hpattern : pattern.size ≤ bound) (subject : Expr) :
    step ctx recur pattern subject = step ctx recur' pattern subject := by
  unfold step
  split
  · rfl
  · rfl
  · exact matchCommutative_congr h bounded_sum hpattern _
  · exact matchProduct_congr h hpattern _
  · rw [Expr.size] at hpattern
    unfold matchPower
    rw [h _ (by omega), h _ (by omega)]
  · rw [Expr.size] at hpattern
    rw [h _ (by omega), h _ (by omega)]
  · rw [h _ hpattern]
  · rw [eachInOrder_congr h _ ((Expr.sizeList_perm (List.reverse_perm _)).trans_lt hpattern)]
  · rw [eachInOrder_congr h _ hpattern]
  · rfl

end Congr

/-- Any depth from the size of the pattern on is the same. -/
theorem matchTo_of_size_le {ctx : Context} : ∀ {depth depth' : Nat} {pattern : Expr},
    pattern.size ≤ depth → pattern.size ≤ depth' → matchTo ctx depth pattern = matchTo ctx depth' pattern
  | 0, _, pattern, h, _ => absurd h (Nat.not_le.mpr pattern.size_pos)
  | _, 0, pattern, _, h => absurd h (Nat.not_le.mpr pattern.size_pos)
  | depth + 1, depth' + 1, pattern, h, h' => by
    have hsmaller (p : Expr) (hp : p.size < pattern.size) :
        matchTo ctx depth p = matchTo ctx depth' p :=
      matchTo_of_size_le (by omega) (by omega)
    funext subject
    exact step_congr hsmaller le_rfl subject

end Matching

/-- **A match is one step over the matches of smaller patterns**: the depth is never used up. -/
theorem Expr.matching_eq (pattern subject : Expr) (ctx : Context) :
    pattern.matching subject ctx =
      Matching.step ctx (fun p e => p.matching e ctx) pattern subject := by
  have hsmaller (p : Expr) (hp : p.size < pattern.size) :
      Matching.matchTo ctx pattern.size p = fun e => p.matching e ctx :=
    Matching.matchTo_of_size_le hp.le (Nat.le_succ _)
  exact Matching.step_congr hsmaller le_rfl subject

/-! ## States and what is added to them -/

namespace MatchState

/-- The history lists the keys of the bindings in order, each once. -/
structure Consistent (s : MatchState) : Prop where
  keys : s.bindings.keys = s.history
  distinct : s.history.Pairwise fun k l => (k == l) = false

/-- `t` is `s` with further bindings, all of which satisfy `ok`. -/
structure Grows (ok : Expr → Expr → Prop) (s t : MatchState) : Prop where
  consistent : t.Consistent
  entries : ∃ added, t.bindings.entries = s.bindings.entries ++ added ∧ ∀ b ∈ added, ok b.1 b.2

theorem consistent_empty : empty.Consistent := ⟨rfl, List.Pairwise.nil⟩

variable {ok ok' : Expr → Expr → Prop} {s t u : MatchState}

theorem Grows.refl (hs : s.Consistent) : Grows ok s s := ⟨hs, [], by simp⟩

theorem Grows.trans (hst : Grows ok s t) (htu : Grows ok t u) : Grows ok s u := by
  obtain ⟨-, xs, hxs, hok⟩ := hst
  obtain ⟨hu, ys, hys, hok'⟩ := htu
  refine ⟨hu, xs ++ ys, by rw [hys, hxs, List.append_assoc], fun b hb => ?_⟩
  rcases List.mem_append.mp hb with hb | hb
  · exact hok b hb
  · exact hok' b hb

theorem Grows.mono (h : Grows ok s t) (himp : ∀ k v, ok k v → ok' k v) : Grows ok' s t := by
  obtain ⟨ht, added, hadded, hok⟩ := h
  exact ⟨ht, added, hadded, fun b hb => himp _ _ (hok b hb)⟩

/-! ### Looking up -/

theorem get?_eq_none_iff {b : Bindings} {key : Expr} :
    b.get? key = none ↔ ∀ k ∈ b.keys, (k == key) = false := by
  simp [Bindings.get?, Bindings.keys]

theorem consistent_add (hs : s.Consistent) {key : Expr} (value : Expr)
    (hnew : s.bindings.get? key = none) : (s.add key value).Consistent := by
  constructor
  · simp [add, Bindings.keys, ← hs.keys]
  · refine List.pairwise_append.mpr ⟨hs.distinct, List.pairwise_singleton _ _, ?_⟩
    intro k hk l hl
    rw [List.mem_singleton.mp hl]
    exact get?_eq_none_iff.mp hnew k (hs.keys ▸ hk)

theorem Grows.add (hs : s.Consistent) {key value : Expr} (hnew : s.bindings.get? key = none)
    (hok : ok key value) : Grows ok s (s.add key value) :=
  ⟨consistent_add hs value hnew, [(key, value)], rfl, by simpa using hok⟩

/-! ### Rolling back -/

theorem foldl_erase_append {kept : List (Expr × Expr)} :
    ∀ {added : List (Expr × Expr)},
      ((kept ++ added).map Prod.fst).Pairwise (fun k l => (k == l) = false) →
        (added.map Prod.fst).foldl Bindings.erase ⟨kept ++ added⟩ = ⟨kept⟩
  | [], _ => by simp
  | (key, value) :: added, h => by
    have herase : Bindings.erase ⟨kept ++ (key, value) :: added⟩ key = ⟨kept ++ added⟩ := by
      rw [List.map_append, List.map_cons, List.pairwise_append, List.pairwise_cons] at h
      have hkept : ∀ b ∈ kept, (b.1 == key) = false := fun b hb =>
        h.2.2 b.1 (List.mem_map_of_mem hb) key List.mem_cons_self
      have hadded : ∀ b ∈ added, (b.1 == key) = false := fun b hb =>
        (BEq.comm).trans (h.2.1.1 b.1 (List.mem_map_of_mem hb))
      simp only [Bindings.erase, Bindings.mk.injEq, List.filter_append, List.filter_cons, beq_self_eq_true,
        Bool.not_true, Bool.false_eq_true, if_false]
      rw [List.filter_eq_self.mpr fun b hb => by simp [hkept b hb],
        List.filter_eq_self.mpr fun b hb => by simp [hadded b hb]]
    rw [List.map_cons, List.foldl_cons, herase]
    refine foldl_erase_append (h.sublist (List.Sublist.map _ ?_))
    exact List.Sublist.append_left (List.sublist_cons_self _ _) _

/-- **Rolling back to a state gives that state**, however many bindings were added since. -/
theorem Grows.rollBack (hs : s.Consistent) (h : Grows ok s t) :
    t.rollBack s.history.length = s := by
  obtain ⟨ht, added, hadded, -⟩ := h
  have hist : t.history = s.history ++ added.map Prod.fst := by
    rw [← ht.keys, ← hs.keys, Bindings.keys, hadded, List.map_append, Bindings.keys]
  have hdistinct := ht.distinct
  rw [← ht.keys, Bindings.keys, hadded] at hdistinct
  obtain ⟨⟨es⟩, history⟩ := t
  obtain rfl : es = s.bindings.entries ++ added := hadded
  obtain rfl : history = s.history ++ added.map Prod.fst := hist
  simp only [MatchState.rollBack, List.drop_left, List.take_left, foldl_erase_append hdistinct]

end MatchState

/-! ## Attempts -/

namespace Attempt

open MatchState

variable {ok ok' : Expr → Expr → Prop} {a b : Attempt}

/-- The attempt only appends bindings that satisfy `ok`. -/
def Adds (ok : Expr → Expr → Prop) (a : Attempt) : Prop :=
  ∀ s : MatchState, s.Consistent → Grows ok s (a.run s).2

/-- The attempt only appends bindings, and where it fails it leaves the state as it was. -/
structure Clean (ok : Expr → Expr → Prop) (a : Attempt) : Prop where
  adds : a.Adds ok
  restores : ∀ s : MatchState, s.Consistent → (a.run s).1 = false → (a.run s).2 = s

/-! ### Single steps -/

theorem clean_pure (found : Bool) : Clean ok (pure found) :=
  ⟨fun _ hs => Grows.refl hs, fun _ _ _ => rfl⟩

/-- Running one step after another. -/
theorem run_seq {α : Type} (first : StateM MatchState α) (next : α → Attempt) (s : MatchState) :
    (first >>= next).run s = (next (first.run s).1).run (first.run s).2 := rfl

theorem run_bind (key value : Expr) (s : MatchState) :
    (Attempt.bind key value).run s = match s.bindings.get? key with
      | some bound => (bound == value, s)
      | none => (true, s.add key value) := by
  unfold Attempt.bind
  rw [run_seq]
  show StateT.run (match s.bindings.get? key with | some bound => _ | none => _) s = _
  cases s.bindings.get? key <;> rfl

theorem clean_bind {key value : Expr} (hok : ok key value) : Clean ok (Attempt.bind key value) := by
  constructor
  · intro s hs
    rw [run_bind]
    split
    · exact Grows.refl hs
    · exact Grows.add hs ‹_› hok
  · intro s _ h
    rw [run_bind] at h ⊢
    split at h
    · rfl
    · cases h

theorem run_andThen (s : MatchState) :
    (a.andThen b).run s = if (a.run s).1 then b.run (a.run s).2 else (false, (a.run s).2) := by
  unfold andThen
  rw [run_seq]
  split <;> rfl

theorem Adds.andThen (ha : Adds ok a) (hb : Adds ok b) : Adds ok (a.andThen b) := by
  intro s hs
  rw [run_andThen]
  split
  · exact (ha s hs).trans (hb _ (ha s hs).consistent)
  · exact ha s hs

theorem run_tentatively (s : MatchState) :
    (tentatively a).run s =
      if (a.run s).1 then (true, (a.run s).2) else (false, (a.run s).2.rollBack s.history.length) := by
  unfold tentatively
  simp only [run_seq]
  show StateT.run (if (a.run s).1 then _ else _) (a.run s).2 = _
  split <;> rfl

/-- **An attempt that adds becomes clean** when its bindings are taken back on failure. -/
theorem Adds.tentatively (ha : Adds ok a) : Clean ok (tentatively a) := by
  constructor
  · intro s hs
    rw [run_tentatively]
    split
    · exact ha s hs
    · simpa only [(ha s hs).rollBack hs] using Grows.refl hs
  · intro s hs h
    rw [run_tentatively] at h ⊢
    split at h
    · cases h
    · rw [if_neg ‹_›]
      exact (ha s hs).rollBack hs

/-! ### Searches -/

theorem run_orElse (s : MatchState) :
    (a.orElse b).run s = if (a.run s).1 then (true, (a.run s).2) else b.run (a.run s).2 := by
  unfold orElse
  rw [run_seq]
  split <;> rfl

theorem Clean.orElse (ha : Clean ok a) (hb : Clean ok b) : Clean ok (a.orElse b) := by
  constructor
  · intro s hs
    rw [run_orElse]
    split
    · exact ha.adds s hs
    · rw [ha.restores s hs (eq_false_of_ne_true ‹_›)]
      exact hb.adds s hs
  · intro s hs h
    rw [run_orElse] at h ⊢
    split at h
    · cases h
    · rw [ha.restores s hs (eq_false_of_ne_true ‹_›)] at h ⊢
      rw [if_neg ‹_›]
      exact hb.restores s hs h

theorem anyM_cons {α : Type} (attempt : α → Attempt) (x : α) (xs : List α) :
    (x :: xs).anyM attempt = (attempt x).orElse (xs.anyM attempt) := by
  rw [List.anyM, orElse]
  congr 1
  funext found
  cases found <;> rfl

/-- What holds of failing at once and of trying one attempt after another holds of a search. -/
theorem anyM_induction {α : Type} {P : Attempt → Prop} (hfail : P (pure false))
    (horElse : ∀ {a b : Attempt}, P a → P b → P (a.orElse b)) {attempt : α → Attempt} :
    ∀ {xs : List α}, (∀ x ∈ xs, P (attempt x)) → P (xs.anyM attempt)
  | [], _ => hfail
  | x :: xs, h => by
    rw [anyM_cons]
    exact horElse (h x List.mem_cons_self)
      (anyM_induction hfail horElse fun y hy => h y (List.mem_cons_of_mem x hy))

theorem clean_anyM {α : Type} {attempt : α → Attempt} {xs : List α}
    (h : ∀ x ∈ xs, Clean ok (attempt x)) : Clean ok (xs.anyM attempt) :=
  anyM_induction (clean_pure false) Clean.orElse h

/-- An attempt that depends on what is bound. -/
theorem clean_get {next : MatchState → Attempt} (h : ∀ s, Clean ok (next s)) :
    Clean ok (get >>= next) :=
  ⟨fun s hs => (h s).adds s hs, fun s hs => (h s).restores s hs⟩

end Attempt

/-! ## One step of matching -/

namespace Matching

open Attempt

/-- What becomes of a variable depends on whether it is bound. -/
theorem run_matchPart_var {ctx : Context} {recur : Matcher} (op : Operation) (n : String)
    (c : Option Condition) (remaining subject : Expr) (s : MatchState) :
    (matchPart op ctx recur (.var n c) remaining subject).run s =
      match s.bindings.get? (.var n c) with
      | some bound =>
        (tentatively (recur remaining ((op.residue subject bound).evaluate ctx))).run s
      | none =>
        (orElse (anySubset (fun chosen others => tentatively (andThen
            (recur (.var n c) (op.combine chosen)) (recur remaining (op.combine others))))
          (op.parts subject)) (tentatively (andThen (recur (.var n c) op.identity)
            (recur remaining subject)))).run s := by
  unfold matchPart
  dsimp only
  rw [if_pos (show (Expr.var n c).isVar = true from rfl), run_seq]
  change StateT.run (match s.bindings.get? (.var n c) with | some bound => _ | none => _) s = _
  cases s.bindings.get? (.var n c) <;> rfl

theorem step_binary {ctx : Context} {recur : Matcher} {op : BinaryOp} (hop : op ≠ .power)
    (l r e : Expr) :
    step ctx recur (.binary op l r) e = match e with
      | .binary op' l' r' =>
        if op = op' then tentatively (andThen (recur l l') (recur r r')) else return false
      | _ => return false := by
  cases op <;> first | exact absurd rfl hop | (cases e <;> rfl)

section Search

variable {α : Type} {attempt : List α → List α → Attempt} {items : List α} {P : Attempt → Prop}
  (hfail : P (pure false)) (horElse : ∀ {a b : Attempt}, P a → P b → P (a.orElse b))
  (h : ∀ chosen others, (chosen ++ others).Perm items → P (attempt chosen others))
include hfail horElse h

/-- A choice of items and the others together are all items. -/
theorem anyChoice_induction : ∀ (count : Nat) (rest chosen others : List α),
    (chosen.reverse ++ (others.reverse ++ rest)).Perm items →
      P (anyChoice attempt count rest chosen others)
  | 0, rest, chosen, others, hperm => by
    rw [anyChoice]
    exact h _ _ hperm
  | _ + 1, [], _, _, _ => hfail
  | count + 1, x :: rest, chosen, others, hperm => by
    rw [anyChoice]
    refine horElse (anyChoice_induction count rest _ _ (List.Perm.trans ?_ hperm))
      (anyChoice_induction (count + 1) rest _ _ (List.Perm.trans ?_ hperm))
    · rw [List.reverse_cons, List.append_assoc, List.singleton_append]
      exact List.Perm.append_left _ List.perm_middle.symm
    · rw [List.reverse_cons, List.append_assoc]
      exact List.Perm.refl _

/-- What holds of all attempts on a part of the items and the others holds of the search. -/
theorem anySubset_induction : P (anySubset attempt items) :=
  anyM_induction hfail horElse fun count _ =>
    anyChoice_induction hfail horElse h (count + 1) items [] [] (List.Perm.refl _)

omit hfail horElse h in
theorem clean_anySubset {ok : Expr → Expr → Prop}
    (h : ∀ chosen others, Clean ok (attempt chosen others)) (items : List α) :
    Clean ok (anySubset attempt items) :=
  anySubset_induction (clean_pure false) Clean.orElse fun chosen others _ => h chosen others

end Search

section Step

/- What a variable may be bound to is all that matters of `ok`: nothing else is ever bound. -/
variable {ok : Expr → Expr → Prop}
  (hvar : ∀ n c value, (c.all fun c => c.accepts value) = true → ok (.var n c) value)
  {ctx : Context} {recur : Matcher} (h : ∀ p e, Clean ok (recur p e))

include h

theorem adds_eachInOrder : ∀ ps es, Adds ok (eachInOrder recur ps es)
  | [], _ => (clean_pure true).adds
  | _ :: _, [] => (clean_pure true).adds
  | p :: ps, e :: es => (h p e).adds.andThen (adds_eachInOrder ps es)

theorem clean_matchPart (op : Operation) (p remaining subject : Expr) :
    Clean ok (matchPart op ctx recur p remaining subject) := by
  have split (chosen others : Expr) :
      Clean ok (tentatively (andThen (recur p chosen) (recur remaining others))) :=
    ((h p chosen).adds.andThen (h remaining others).adds).tentatively
  unfold matchPart
  split
  · refine clean_get fun s => ?_
    split
    · exact (h _ _).adds.tentatively
    · exact (clean_anySubset (fun _ _ => split _ _) _).orElse (split _ _)
  · exact clean_anyM fun _ _ => split _ _

theorem clean_matchCommutative (op : Operation) (pattern : List Expr) (subject : Expr) :
    Clean ok (matchCommutative op ctx recur pattern subject) := by
  unfold matchCommutative
  dsimp only
  split
  · exact clean_pure _
  · exact clean_anyM fun _ _ => clean_matchPart h op _ _ _

theorem clean_matchProduct (pattern : List Expr) (subject : Expr) :
    Clean ok (matchProduct ctx recur pattern subject) := by
  unfold matchProduct
  split
  · exact clean_anyM fun p _ => (h p .zero).adds.tentatively
  · exact clean_matchCommutative h .product pattern subject

/-- A power is matched by trying ways one after the other, which only add bindings; one of them is to
take the subject as a first power of itself. -/
theorem exists_powerWays (base exponent subject : Expr) :
    ∃ ways : List (Unit → Attempt),
      matchPower ctx recur base exponent subject = ways.anyM (fun way => tentatively (way ())) ∧
      (∀ way ∈ ways, (way ()).Adds ok) ∧
      ∃ way ∈ ways, way () = andThen (recur exponent .one) (recur base subject) := by
  refine ⟨_, rfl, fun way hway => ?_,
    fun _ => andThen (recur exponent .one) (recur base subject), ?_, rfl⟩
  · simp only [List.mem_cons, List.not_mem_nil, or_false] at hway
    obtain rfl | rfl | rfl | rfl | rfl | rfl := hway
    · refine (clean_get fun s => ?_).adds
      split
      · exact h _ _
      · exact clean_pure false
    · dsimp only
      split
      · exact (h _ _).adds
      · exact (clean_pure false).adds
    · dsimp only
      split
      · exact (h _ _).adds
      · exact (clean_pure false).adds
    · dsimp only
      split
      · exact (h _ _).adds.andThen (h _ _).adds
      · exact (clean_pure false).adds
    · exact (h _ _).adds.andThen (h _ _).adds
    · exact (h _ _).adds
  · simp only [List.mem_cons, true_or, or_true]

theorem clean_matchPower (base exponent subject : Expr) :
    Clean ok (matchPower ctx recur base exponent subject) := by
  obtain ⟨ways, hways, hadds, -⟩ := exists_powerWays h base exponent subject
  rw [hways]
  exact clean_anyM fun way hway => (hadds way hway).tentatively

include hvar

/-- **A step is clean when the matches of the parts are.** -/
theorem clean_step (pattern subject : Expr) : Clean ok (step ctx recur pattern subject) := by
  unfold step
  split
  · split
    · next hall => exact clean_bind (hvar _ _ _ hall)
    · exact clean_pure false
  · exact clean_pure _
  · exact clean_matchCommutative h .sum _ _
  · exact clean_matchProduct h _ _
  · exact clean_matchPower h _ _ _
  · split
    · exact ((h _ _).adds.andThen (h _ _).adds).tentatively
    · exact clean_pure false
  · exact (h _ _).adds.tentatively
  · split
    · exact (adds_eachInOrder h _ _).tentatively
    · exact clean_pure false
  · split
    · exact (adds_eachInOrder h _ _).tentatively
    · exact clean_pure false
  · exact clean_pure false

end Step

/-- **Matching is clean**, by induction on the depth. -/
theorem clean_matchTo {ok : Expr → Expr → Prop}
    (hvar : ∀ n c value, (c.all fun c => c.accepts value) = true → ok (.var n c) value)
    (ctx : Context) : ∀ (depth : Nat) (pattern subject : Expr),
      Clean ok (matchTo ctx depth pattern subject)
  | 0, _, _ => clean_pure false
  | depth + 1, pattern, subject => clean_step hvar (clean_matchTo hvar ctx depth) pattern subject

/-- A variable with a condition has a value that the condition accepts. -/
def Accepts (key value : Expr) : Prop :=
  ∀ n c, key = .var n (some c) → c.accepts value = true

end Matching

theorem Expr.clean_matching (pattern subject : Expr) (ctx : Context) :
    (pattern.matching subject ctx).Clean Matching.Accepts :=
  Matching.clean_matchTo (fun n c value hall m d hkey => by cases hkey; exact hall) ctx _ pattern subject

/-! ## Every state that can be reached -/

namespace MatchState

/-- What calls make of a state one after the other: to bind a key, to match, and to run attempts
that consist of such calls themselves. -/
inductive Calls : MatchState → MatchState → Prop
  | refl (s : MatchState) : Calls s s
  | bind {s t : MatchState} (key value : Expr) :
    Calls s t → Calls s ((Attempt.bind key value).run t).2
  | matching {s t : MatchState} (pattern subject : Expr) (ctx : Context) :
    Calls s t → Calls s ((pattern.matching subject ctx).run t).2
  | tentatively {s t : MatchState} (attempt : Attempt) :
    Calls s t → Calls t (attempt.run t).2 → Calls s ((Attempt.tentatively attempt).run t).2

/-- The states that calls lead to from no bindings or from a list of arrows. -/
inductive Reachable : MatchState → Prop
  | empty {t : MatchState} : Calls empty t → Reachable t
  | prematch {arrows : List Expr} {s t : MatchState} :
    ofPrematch arrows = .ok s → Calls s t → Reachable t

theorem Calls.grows {s t : MatchState} (h : Calls s t) (hs : s.Consistent) :
    Grows (fun _ _ => True) s t := by
  induction h with
  | refl => exact Grows.refl hs
  | bind key value _ ih =>
    have ht := ih hs
    exact ht.trans ((Attempt.clean_bind trivial).adds _ ht.consistent)
  | matching pattern subject ctx _ ih =>
    have ht := ih hs
    have hmatch := (pattern.clean_matching subject ctx).adds _ ht.consistent
    exact ht.trans (hmatch.mono fun _ _ _ => trivial)
  | tentatively attempt _ _ ih ihAttempt =>
    have ht := ih hs
    have hattempt := ihAttempt ht.consistent
    rw [Attempt.run_tentatively]
    split
    · exact ht.trans hattempt
    · simpa only [hattempt.rollBack ht.consistent] using ht

theorem consistent_bindArrow {arrow : Expr} {s t : MatchState} (hs : s.Consistent)
    (h : s.bindArrow arrow = .ok t) : t.Consistent := by
  unfold bindArrow at h
  split at h
  · cases h
  · next l r _ =>
    have hgrows : Grows (fun _ _ => True) s ((Attempt.bind l r).run s).2 :=
      (Attempt.clean_bind trivial).adds s hs
    split at h
    · next extended hrun =>
      rw [hrun] at hgrows
      cases h
      exact hgrows.consistent
    · cases h

theorem consistent_foldlM_bindArrow {t : MatchState} : ∀ {arrows : List Expr} {s : MatchState},
    s.Consistent → arrows.foldlM bindArrow s = .ok t → t.Consistent
  | [], s, hs, h => by
    cases h
    exact hs
  | arrow :: arrows, s, hs, h => by
    rw [List.foldlM_cons] at h
    cases hnext : s.bindArrow arrow with
    | error e =>
      rw [hnext] at h
      cases h
    | ok next =>
      rw [hnext] at h
      exact consistent_foldlM_bindArrow (consistent_bindArrow hs hnext) h

theorem Reachable.consistent {s : MatchState} (h : s.Reachable) : s.Consistent := by
  cases h with
  | empty hcalls => exact (hcalls.grows consistent_empty).consistent
  | prematch hstart hcalls => exact (hcalls.grows (consistent_foldlM_bindArrow consistent_empty hstart)).consistent

/-- `t` is `s` after the keys `added` were bound: earlier bindings stay, the history grows by just
the keys that `s` does not bind and `t` does, each once, and those that are variables with a
condition have values that it accepts. -/
structure Extends (s t : MatchState) (added : List Expr) : Prop where
  keeps : ∀ key value, s.bindings.get? key = some value → t.bindings.get? key = some value
  history : t.history = s.history ++ added
  new : ∀ key, (∃ k ∈ added, (k == key) = true) ↔
    s.bindings.contains key = false ∧ t.bindings.contains key = true
  once : added.Pairwise fun k l => (k == l) = false
  accepts : ∀ n c, .var n (some c) ∈ added →
    ∃ value, t.bindings.get? (.var n (some c)) = some value ∧ c.accepts value = true

theorem contains_iff {b : Bindings} {key : Expr} :
    b.contains key = true ↔ ∃ k ∈ b.keys, (k == key) = true := by
  rw [Bindings.contains, Option.isSome_iff_ne_none, Ne, get?_eq_none_iff]
  simp

theorem get?_append {es added : List (Expr × Expr)} {key : Expr} :
    Bindings.get? ⟨es ++ added⟩ key = (Bindings.get? ⟨es⟩ key).or (Bindings.get? ⟨added⟩ key) := by
  simp only [Bindings.get?, List.find?_append]
  cases es.find? fun b => b.1 == key <;> rfl

theorem get?_of_mem {key value : Expr} : ∀ {es : List (Expr × Expr)},
    (es.map Prod.fst).Pairwise (fun k l => (k == l) = false) → (key, value) ∈ es →
      Bindings.get? ⟨es⟩ key = some value
  | (k, v) :: es, h, hmem => by
    rw [List.map_cons, List.pairwise_cons] at h
    rw [List.mem_cons] at hmem
    obtain hhead | htail := hmem
    · cases hhead
      simp [Bindings.get?]
    · have hne : (k == key) = false := h.1 key (List.mem_map_of_mem htail)
      have := get?_of_mem h.2 htail
      simpa [Bindings.get?, hne] using this

theorem Grows.extends {s t : MatchState} (hs : s.Consistent) (h : Grows Matching.Accepts s t) :
    ∃ added, Extends s t added := by
  obtain ⟨ht, added, hadded, hok⟩ := h
  have hkeys : t.bindings.keys = s.bindings.keys ++ added.map Prod.fst := by
    rw [Bindings.keys, hadded, List.map_append, Bindings.keys]
  have hdistinct := ht.distinct
  rw [← ht.keys, hkeys, List.pairwise_append] at hdistinct
  have hget (key : Expr) :
      t.bindings.get? key = (s.bindings.get? key).or (Bindings.get? ⟨added⟩ key) := by
    rw [← get?_append, ← hadded]
  refine ⟨added.map Prod.fst, ?_, ?_, ?_, hdistinct.2.1, ?_⟩
  · intro key value h
    rw [hget, h, Option.some_or]
  · rw [← ht.keys, hkeys, hs.keys]
  · intro key
    rw [← Bool.not_eq_true, contains_iff, contains_iff, hkeys]
    constructor
    · rintro ⟨k, hk, hkey⟩
      refine ⟨?_, k, List.mem_append_right _ hk, hkey⟩
      rintro ⟨l, hl, hlkey⟩
      have : (l == k) = true := BEq.trans hlkey (BEq.symm hkey)
      rw [hdistinct.2.2 l hl k hk] at this
      cases this
    · rintro ⟨hnot, k, hk, hkey⟩
      rcases List.mem_append.mp hk with hk | hk
      · exact absurd ⟨k, hk, hkey⟩ hnot
      · exact ⟨k, hk, hkey⟩
  · intro n c hmem
    obtain ⟨⟨key, value⟩, hb, hkey⟩ := List.mem_map.mp hmem
    obtain rfl : key = .var n (some c) := hkey
    have hnone : s.bindings.get? (.var n (some c)) = none :=
      get?_eq_none_iff.mpr fun k hk => hdistinct.2.2 k hk _ hmem
    refine ⟨value, ?_, hok _ hb n c rfl⟩
    rw [hget, hnone, Option.none_or]
    exact get?_of_mem hdistinct.2.1 hb

/-- **A failed match leaves no trace, and a successful one only adds.** -/
theorem Reachable.matching_restores_or_extends {s : MatchState} (hs : s.Reachable) (pattern subject : Expr)
    (ctx : Context) :
    match (pattern.matching subject ctx).run s with
    | (false, t) => t = s
    | (true, t) => ∃ added, Extends s t added := by
  have hclean := pattern.clean_matching subject ctx
  split
  · next t hrun =>
    have hrestores := hclean.restores s hs.consistent
    rw [hrun] at hrestores
    exact hrestores rfl
  · next t hrun =>
    have hgrows := hclean.adds s hs.consistent
    rw [hrun] at hgrows
    exact hgrows.extends hs.consistent

/-- With `z` bound, the pattern `x = x` binds `x` to `1` before it fails against `1 = 2`. -/
theorem matching_restores_bound :
    let bound : MatchState := ⟨⟨[(Expr.symbol "z", .const 3)]⟩, [Expr.symbol "z"]⟩
    bound.Reachable ∧
      ((Expr.binary .equal (.symbol "x") (.symbol "x")).matching
        (.binary .equal (.const 1) (.const 2)) (.inert .standard)).run bound = (false, bound) := by
  intro bound
  have hreachable : bound.Reachable :=
    .empty (.bind (Expr.symbol "z") (.const 3) (.refl empty))
  have hmatch := hreachable.matching_restores_or_extends
    (.binary .equal (.symbol "x") (.symbol "x")) (.binary .equal (.const 1) (.const 2))
    (.inert .standard)
  have hfails : (((Expr.binary .equal (.symbol "x") (.symbol "x")).matching
      (.binary .equal (.const 1) (.const 2)) (.inert .standard)).run bound).1 = false := by
    decide
  refine ⟨hreachable, ?_⟩
  split at hmatch
  · next t hrun => rw [hrun, hmatch]
  · next t hrun =>
    rw [hrun] at hfails
    cases hfails

end MatchState

end SymbolicAlgebra
