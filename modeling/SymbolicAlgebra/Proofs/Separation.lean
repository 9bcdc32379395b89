import SymbolicAlgebra.Proofs.Tally

/-!
# What the order tells apart

A tally keeps one amount for all keys that compare equal. Two keys compare equal iff they are alike,
that is, equal up to the kinds of called functions (`compare_eq_iff_alike`). So a tally adds up the
amounts of equal keys only, as long as functions of one name and arity are of one kind; a call of a
built-in function and the call of a user function of the same name and arity are merged, though they
are not equal (`compare_native_user`).

Results:
* `compare_separates`: the order agrees with equality, and tallies merge equal keys only, where
  functions of one name and arity are of one kind.
-/

namespace SymbolicAlgebra.Tally

open Expr (Constructed SameKinds alike callsList)

/-- The total of the amounts whose keys equal `k`. -/
def amountOf (k : Expr) (xs : List (Expr × Rat)) : Rat :=
  ((xs.filter fun p => p.1 == k).map Prod.snd).sum

theorem amountOf_cons (k : Expr) (p : Expr × Rat) (xs : List (Expr × Rat)) :
    amountOf k (p :: xs) = (if p.1 == k then p.2 else 0) + amountOf k xs := by
  rw [amountOf, List.filter_cons]
  split
  · rw [List.map_cons, List.sum_cons, amountOf]
  · rw [zero_add, amountOf]

theorem amountOf_congr {k l : Expr} (h : (k == l) = true) (xs : List (Expr × Rat)) :
    amountOf k xs = amountOf l xs := by
  simp only [amountOf, BEq.congr_right h]

theorem amountOf_perm {xs ys : List (Expr × Rat)} (h : xs.Perm ys) (k : Expr) :
    amountOf k xs = amountOf k ys :=
  ((h.filter _).map _).sum_eq

theorem amountOf_eq_zero {k : Expr} {xs : List (Expr × Rat)}
    (h : ∀ p ∈ xs, (p.1 == k) = false) : amountOf k xs = 0 := by
  rw [amountOf, List.filter_eq_nil_iff.mpr fun p hp => Bool.eq_false_iff.mp (h p hp), List.map_nil,
    List.sum_nil]

/-- Equal keys with the same amounts. -/
theorem amountOf_of_forall₂ {xs ys : List (Expr × Rat)}
    (h : List.Forall₂ (fun p q => (p.1 == q.1) = true ∧ p.2 = q.2) xs ys) (k : Expr) :
    amountOf k xs = amountOf k ys := by
  induction h with
  | nil => rfl
  | cons hpq _ ih => rw [amountOf_cons, amountOf_cons, BEq.congr_left hpq.1, hpq.2, ih]

theorem total_eq_amountOf {k : Expr} {xs : List (Expr × Rat)}
    (h : ∀ p ∈ xs, Expr.compare k p.1 = .eq ↔ (p.1 == k) = true) : total k xs = amountOf k xs := by
  induction xs with
  | nil => rfl
  | cons p xs ih =>
    have hp := h p (by simp)
    rw [total_cons, amountOf_cons, ih fun q hq => h q (by simp [hq])]
    simp only [hp]

/-- Each key has an entry that compares equal. -/
theorem exists_entry_addTo (key : Expr) (q : Rat) : ∀ xs : List (Expr × Rat),
    ∃ p ∈ addTo key q xs, Expr.compare key p.1 = .eq
  | [] => ⟨(key, q), by simp [addTo], Expr.compare_self key⟩
  | (l, r) :: rest => by
    rw [addTo]
    split
    · exact ⟨(key, q), by simp, Expr.compare_self key⟩
    · rename_i heq
      exact ⟨(l, r + q), List.mem_cons_self, heq⟩
    · obtain ⟨p, hp, heq⟩ := exists_entry_addTo key q rest
      exact ⟨p, List.mem_cons_of_mem _ hp, heq⟩

/-- An addition takes no key away. -/
theorem exists_entry_addTo_of_mem {k key : Expr} {q : Rat} : ∀ {xs : List (Expr × Rat)},
    (∃ p ∈ xs, Expr.compare k p.1 = .eq) → ∃ p ∈ addTo key q xs, Expr.compare k p.1 = .eq
  | (l, r) :: rest, ⟨p, hp, heq⟩ => by
    rw [addTo]
    split
    · exact ⟨p, List.mem_cons_of_mem _ hp, heq⟩
    · rcases List.mem_cons.mp hp with rfl | hp
      · exact ⟨(l, r + q), List.mem_cons_self, heq⟩
      · exact ⟨p, List.mem_cons_of_mem _ hp, heq⟩
    · rcases List.mem_cons.mp hp with rfl | hp
      · exact ⟨(l, r), List.mem_cons_self, heq⟩
      · obtain ⟨p', hp', heq'⟩ := exists_entry_addTo_of_mem ⟨p, hp, heq⟩
        exact ⟨p', List.mem_cons_of_mem _ hp', heq'⟩

theorem exists_entry_foldl {k : Expr} (xs : List (Expr × Rat)) : ∀ t : Tally,
    (∃ p ∈ t.entries, Expr.compare k p.1 = .eq) ∨ k ∈ keys xs →
      ∃ p ∈ (xs.foldl (fun t p => t.add p.1 p.2) t).entries, Expr.compare k p.1 = .eq := by
  induction xs with
  | nil => exact fun t h => h.resolve_right List.not_mem_nil
  | cons x xs ih =>
    intro t h
    refine ih _ ?_
    rcases h with h | h
    · exact Or.inl (exists_entry_addTo_of_mem h)
    · rcases List.mem_cons.mp h with rfl | h
      · exact Or.inl (exists_entry_addTo x.1 x.2 t.entries)
      · exact Or.inr h

/-- **The order tells apart what equality tells apart**, up to the kinds of called functions. Of the
constructed keys of a tally, two compare equal iff they are alike. Where functions of one name and
arity are of one kind, they compare equal iff they are equal, and the tally has one entry for each class
of equal keys, with the total of the amounts for just these. -/
theorem compare_separates {xs : List (Expr × Rat)} (hxs : ∀ k ∈ keys xs, Constructed k) :
    (∀ k ∈ keys xs, ∀ l ∈ keys xs, Expr.compare k l = .eq ↔ alike k l = true) ∧
    (SameKinds (callsList (keys xs)) (callsList (keys xs)) →
      (∀ k ∈ keys xs, ∀ l ∈ keys xs, Expr.compare k l = .eq ↔ (k == l) = true) ∧
      (∀ k q, (k, q) ∈ (ofList xs).entries → k ∈ keys xs ∧ q = amountOf k xs) ∧
      (∀ k ∈ keys xs, ∃ p ∈ (ofList xs).entries, (k == p.1) = true) ∧
      (ofList xs).entries.Pairwise fun p q => (p.1 == q.1) = false) := by
  refine ⟨fun k hk l hl => Expr.compare_eq_iff_alike (hxs k hk) (hxs l hl), fun hkinds => ?_⟩
  have hiff : ∀ k ∈ keys xs, ∀ l ∈ keys xs, Expr.compare k l = .eq ↔ (k == l) = true :=
    fun k hk l hl => Expr.compare_eq_iff_beq (hxs k hk) (hxs l hl)
      (hkinds.mono (Expr.calls_subset hk) (Expr.calls_subset hl))
  refine ⟨hiff, fun k q hmem => ?_, fun k hk => ?_, (ascending_ofList xs).imp fun {p q} hlt => ?_⟩
  · have hk : k ∈ keys xs := mem_keys_of_ofList (List.mem_map_of_mem hmem)
    refine ⟨hk, ?_⟩
    rw [← total_of_ascending (ascending_ofList xs) hmem, total_ofList]
    refine total_eq_amountOf fun p hp => ?_
    rw [hiff k hk p.1 (List.mem_map_of_mem hp), BEq.comm]
  · obtain ⟨p, hp, heq⟩ := exists_entry_foldl xs empty (Or.inr hk)
    exact ⟨p, hp, (hiff k hk p.1 (mem_keys_of_ofList (List.mem_map_of_mem hp))).mp heq⟩
  · rw [Bool.eq_false_iff]
    intro heq
    rw [Expr.compare_of_beq heq] at hlt
    cases hlt

/-- A call of the built-in sine. -/
def builtinSine : Expr := .call (.native (.elementary .sin)) [.symbol "x"]

/-- A call of a user function that is named like the sine. -/
def userSine : Expr := .undefinedCall "Sin" [.symbol "x"]

/-- **Calls of functions of different kinds compare equal without being equal**, and a tally merges
them. -/
theorem compare_native_user :
    Expr.compare builtinSine userSine = .eq ∧ (builtinSine == userSine) = false ∧
      (ofList [(builtinSine, 1), (userSine, 1)]).entries = [(builtinSine, 2)] := by
  have heq : Expr.compare userSine builtinSine = .eq := Expr.compare_of_alike (by decide)
  refine ⟨Expr.compare_of_alike (by decide), by decide, ?_⟩
  simp only [ofList, List.foldl, add, empty, addTo, heq]
  norm_num

/-- A tally of the sine and its argument, in which all calls are of one function. -/
theorem compare_separates_sine :
    (Expr.compare builtinSine (.symbol "x") = .eq ↔ (builtinSine == .symbol "x") = true) ∧
    ∀ q, (builtinSine, q) ∈
      (ofList [(builtinSine, 1), (.symbol "x", 2), (builtinSine, 3)]).entries → q = 4 := by
  have hsine : Constructed builtinSine := .call _ (by simp [Expr.symbol, Constructed.var])
  have hx : Constructed (.symbol "x") := .var _ _
  have hxs : ∀ k ∈ keys [(builtinSine, 1), (.symbol "x", 2), (builtinSine, 3)], Constructed k := by
    simp [hsine, hx]
  have hkinds : SameKinds (callsList (keys [(builtinSine, 1), (.symbol "x", 2), (builtinSine, 3)]))
      (callsList (keys [(builtinSine, 1), (.symbol "x", 2), (builtinSine, 3)])) := by
    simp [SameKinds, builtinSine, Expr.calls, Expr.callsList, Expr.symbol]
  obtain ⟨hcompare, hentries, -⟩ := (compare_separates hxs).2 hkinds
  refine ⟨hcompare _ (by simp) _ (by simp), fun q hq => ?_⟩
  rw [(hentries _ q hq).2]
  have hself : (builtinSine == builtinSine) = true := Expr.beq_refl _
  have hother : (Expr.symbol "x" == builtinSine) = false := by decide
  simp only [amountOf_cons, hself, hother, if_true, Bool.false_eq_true, if_false]
  norm_num [amountOf]

end SymbolicAlgebra.Tally
