import SymbolicAlgebra.Proofs.Elimination

/-!
# Elimination in the solver

A system of the solver whose coefficients are constants is a system of rows (`systemOf`), and the
steps of the solver are those of elimination: the evaluated coefficients are the exact ones
(`addScaled_encode`), and an unknown is eliminated with any row that has it as its pivot variable.

Results:
* `rowReduceBy_systemOf`: after row reduction every unknown leads at most one row.
* `backSubstitute_systemOf`: back substitution then clears the other rows of the leading unknowns.
* `rowForBy?_systemOf`: afterwards the first row with an unknown determines it.
* `findPivot?_valid`: the search for the best pivot row finds a row with the pivot variable.
-/

namespace SymbolicAlgebra

open Expr Evaluator LinearSystem

variable {m n : Nat} {names : Fin n → String}

/-! ## Rows -/

/-- The linear combinations of a system of rows. -/
def systemOf (names : Fin n → String) (R : Fin m → Row n) : LinearSystem :=
  List.ofFn fun i => encode names (R i)

theorem getElem?_systemOf (R : Fin m → Row n) (i : Fin m) :
    (systemOf names R)[(i : Nat)]? = some (encode names (R i)) := by
  rw [systemOf, List.getElem?_ofFn, dif_pos i.isLt]

/-- A step that maps rows by their positions. -/
theorem map_zipIdx_systemOf {R S : Fin m → Row n}
    {g : LinearCombination × Nat → LinearCombination}
    (h : ∀ i : Fin m, g (encode names (R i), i) = encode names (S i)) :
    (systemOf names R).zipIdx.map g = systemOf names S := by
  refine List.ext_getElem (by simp [systemOf]) fun i h₁ h₂ => ?_
  have hi : i < m := by simpa [systemOf] using h₂
  simpa [systemOf] using h ⟨i, hi⟩

/-- A step that cancels `j` from chosen rows. -/
theorem map_zipIdx_cancel {R : Fin m → Row n} {p : Fin m} {j : Fin n} {chosen : Fin m → Bool}
    {keep : LinearCombination → Bool} {g : LinearCombination → LinearCombination}
    (hkeep : ∀ i, keep (encode names (R i)) = !chosen i)
    (hg : ∀ i, chosen i = true → g (encode names (R i)) = encode names (Row.cancel (R p) j (R i))) :
    ((systemOf names R).zipIdx.map fun (row, i) => if i = p || keep row then row else g row) =
      systemOf names (cancelRows R p j chosen) := by
  refine map_zipIdx_systemOf fun i => ?_
  dsimp only
  rw [cancelRows, hkeep]
  by_cases hip : i = p
  · rw [if_pos (by simp [hip]), if_neg fun h => h.1 hip]
  · have hval : (i : Nat) ≠ p := fun h => hip (Fin.ext h)
    cases hi : chosen i with
    | true => rw [if_neg (by simp [hval]), if_pos ⟨hip, rfl⟩, hg i hi]
    | false => rw [if_pos (by simp), if_neg fun h => Bool.noConfusion h.2]

/-- Whether a basis element with its coefficient can be the pivot. -/
def leads (p : Expr × Expr) : Bool :=
  !p.2.isZero && !p.1.isOne

theorem pivotVariable?_encode (r : Row n) :
    (encode names r).pivotVariable? = r.lead.map fun j => symbol (names j) := by
  have hlast : [(Expr.one, Expr.const r.2)].find? leads = none := by
    refine List.find?_eq_none.mpr fun e he => ?_
    obtain rfl := List.mem_singleton.mp he
    simp [leads, Expr.one, isOne]
  have hpivot (c : LinearCombination) : c.pivot? = c.terms.find? leads := rfl
  rw [LinearCombination.pivotVariable?, hpivot, encode, List.find?_append, hlast, Option.or_none,
    List.find?_map, Row.lead, Option.map_map]
  refine congrArg (Option.map _) (congrArg (List.find? · _) (funext fun j => ?_))
  simp [leads, isZero, symbol, isOne, bne]

section Unknowns

variable (hnames : Function.Injective names)

include hnames

theorem hasPivot_encode (r : Row n) (j : Fin n) :
    (encode names r).hasPivot (symbol (names j)) = true ↔ r.lead = some j := by
  rw [LinearCombination.hasPivot, pivotVariable?_encode]
  cases r.lead with
  | none => exact ⟨(by cases ·), (by cases ·)⟩
  | some i => exact (symbol_beq hnames i j).trans ⟨congrArg some, Option.some.inj⟩

/-- **The coefficients of a scaled sum are the exact ones.** -/
theorem addScaled_encode (r p : Row n) {f : Expr} {c : Rat} (hf : Computes f c) (ctx : Context) :
    (encode names r).addScaled f (encode names p) ctx = encode names (r + c • p) := by
  have hsum : ∀ a b : Rat, (sumOf [.const a, productOf [.const b, f]]).evaluate ctx =
      .const (a + c * b) := fun a b => by
    rw [((Computes.const a).sumOf ((Computes.const b).productOf hf)).evaluate, mul_comm b]
  refine congrArg LinearCombination.mk (List.map_append.trans ?_)
  rw [List.map_map, List.map_singleton]
  dsimp only
  rw [coefficient_encode_one, hsum]
  refine congrArg (· ++ [(Expr.one, Expr.const (r.2 + c * p.2))])
    (List.map_congr_left fun j _ => ?_)
  rw [Function.comp_apply, coefficient_encode hnames, hsum]
  rfl

theorem cancel_encode {p : Row n} {j : Fin n} (h : p.1 j ≠ 0) (r : Row n) (ctx : Context) :
    LinearSystem.cancel (encode names p) (symbol (names j)) ctx (encode names r) =
      encode names (Row.cancel p j r) := by
  rw [LinearSystem.cancel, coefficient_encode hnames, coefficient_encode hnames]
  exact addScaled_encode hnames r p
    ((Computes.const _).divide (Computes.const _).negate (neg_ne_zero.mpr h)) ctx

/-! ## Row reduction -/

/-- The pivot row cancels `j` from the other rows that lead with it; to set the coefficient to zero
changes nothing then. -/
theorem eliminateAt_systemOf {R : Fin m → Row n} {p : Fin m} {j : Fin n}
    (hp : (R p).lead = some j) (ctx : Context) :
    eliminateAt (systemOf names R) p (encode names (R p)) (symbol (names j)) ctx =
      systemOf names (cancelRows R p j fun i => (R i).lead == some j) := by
  have h0 := Row.ne_zero_of_lead hp
  refine @map_zipIdx_cancel m n names R p j _ (fun row => !row.hasPivot (symbol (names j)))
    (fun row => (cancel (encode names (R p)) (symbol (names j)) ctx row).set
      (symbol (names j)) .zero) (fun i => ?_) fun i _ => ?_
  · have hpivot := hasPivot_encode hnames (R i) j
    rw [Bool.eq_iff_iff.mpr (hpivot.trans beq_iff_eq.symm)]
  · have hset : Function.update (Row.cancel (R p) j (R i)).1 j 0 = (Row.cancel (R p) j (R i)).1 :=
      Function.update_eq_self_iff.mpr (Row.cancel_self h0 (R i)).symm
    rw [cancel_encode hnames h0, Expr.zero, set_encode hnames, hset]

end Unknowns

namespace LinearSystem

/-- The search finds a row with the given pivot variable, if there is one. -/
structure PivotSearch.Valid (search : PivotSearch) : Prop where
  found : ∀ {system x p}, search system x = some p →
    ∃ row, system[p]? = some row ∧ row.hasPivot x = true
  none : ∀ {system x}, search system x = none → ∀ row ∈ system, row.hasPivot x = false

/-- A better row is one of the two. -/
theorem fst_better (best : Option (Nat × Int)) (i : Nat) (row : LinearCombination) :
    ∃ k s, better best i row = some (k, s) ∧ (k = i ∨ best = some (k, s)) := by
  rcases best with - | ⟨k, s⟩
  · exact ⟨i, _, rfl, Or.inl rfl⟩
  · rw [better]
    split
    · exact ⟨i, _, rfl, Or.inl rfl⟩
    · exact ⟨k, s, rfl, Or.inr rfl⟩

/-- **The search for the best pivot row finds a row with the pivot variable.** -/
theorem findPivot?_valid : PivotSearch.Valid findPivot? := by
  -- the best row so far was the best one before, or is one of the rows in between
  have hfold : ∀ (x : Expr) (rows : List (LinearCombination × Nat)) (best : Option (Nat × Int)),
      (∀ k s, rows.foldl (fun best (row, i) =>
        if row.hasPivot x then better best i row else best) best = some (k, s) →
        best = some (k, s) ∨ ∃ row, (row, k) ∈ rows ∧ row.hasPivot x = true) ∧
      (rows.foldl (fun best (row, i) =>
        if row.hasPivot x then better best i row else best) best = none →
        best = none ∧ ∀ row k, (row, k) ∈ rows → row.hasPivot x = false) := by
    intro x rows
    induction rows with
    | nil => exact fun best => ⟨fun k s h => Or.inl h, fun h => ⟨h, by simp⟩⟩
    | cons head rows ih =>
      obtain ⟨row, i⟩ := head
      intro best
      rw [List.foldl_cons]
      dsimp only
      by_cases hrow : row.hasPivot x = true
      · rw [if_pos hrow]
        obtain ⟨k', s', hbetter, hk'⟩ := fst_better best i row
        obtain ⟨hsome, hnone⟩ := ih (better best i row)
        refine ⟨fun k s h => ?_, fun h => absurd ((hnone h).1.symm.trans hbetter) (by simp)⟩
        rcases hsome k s h with h | ⟨row', hmem, h⟩
        · obtain ⟨rfl, rfl⟩ := Prod.mk.inj (Option.some.inj (hbetter.symm.trans h))
          rcases hk' with rfl | hbest
          · exact Or.inr ⟨row, List.mem_cons_self, hrow⟩
          · exact Or.inl hbest
        · exact Or.inr ⟨row', List.mem_cons_of_mem _ hmem, h⟩
      · rw [if_neg hrow]
        obtain ⟨hsome, hnone⟩ := ih best
        refine ⟨fun k s h => ?_, fun h => ⟨(hnone h).1, fun row' k hmem => ?_⟩⟩
        · rcases hsome k s h with h | ⟨row', hmem, h⟩
          · exact Or.inl h
          · exact Or.inr ⟨row', List.mem_cons_of_mem _ hmem, h⟩
        · rcases List.mem_cons.mp hmem with heq | hmem
          · obtain ⟨rfl, rfl⟩ := Prod.mk.inj heq
            exact Bool.not_eq_true _ ▸ hrow
          · exact (hnone h).2 row' k hmem
  constructor
  · intro system x p h
    obtain ⟨⟨k, s⟩, hbest, rfl⟩ := Option.map_eq_some_iff.mp h
    rcases (hfold x system.zipIdx none).1 k s hbest with h | ⟨row, hmem, hrow⟩
    · cases h
    · exact ⟨row, List.mem_zipIdx_iff_getElem?.mp hmem, hrow⟩
  · intro system x h row hrow
    obtain ⟨i, hi⟩ := List.getElem?_of_mem hrow
    exact ((hfold x system.zipIdx none).2 (Option.map_eq_none_iff.mp h)).2 row i
      (List.mem_zipIdx_iff_getElem?.mpr hi)

end LinearSystem

section Reduction

variable (hnames : Function.Injective names) {search : PivotSearch}

include hnames

/-- A valid search finds a row that leads with the unknown, if there is one. -/
theorem search_systemOf (hsearch : search.Valid) (R : Fin m → Row n) (j : Fin n) :
    (∃ p : Fin m, search (systemOf names R) (symbol (names j)) = some ↑p ∧
      (R p).lead = some j) ∨
    (search (systemOf names R) (symbol (names j)) = none ∧ ∀ i, (R i).lead ≠ some j) := by
  cases h : search (systemOf names R) (symbol (names j)) with
  | some p =>
    obtain ⟨row, hget, hpivot⟩ := hsearch.found h
    have hp : p < m := by
      have := (List.getElem?_eq_some_iff.mp hget).1
      simpa [systemOf] using this
    have hrow : row = encode names (R ⟨p, hp⟩) :=
      Option.some.inj (hget.symm.trans (getElem?_systemOf R ⟨p, hp⟩))
    exact Or.inl ⟨⟨p, hp⟩, rfl, (hasPivot_encode hnames _ _).mp (hrow ▸ hpivot)⟩
  | none =>
    refine Or.inr ⟨rfl, fun i hlead => ?_⟩
    have hfalse := hsearch.none h (encode names (R i))
      (List.mem_of_getElem? (getElem?_systemOf R i))
    rw [(hasPivot_encode hnames _ _).mpr hlead] at hfalse
    cases hfalse

/-- **One step of row reduction**: afterwards at most one row leads with the unknown, and the
unknowns before are as they were. -/
theorem eliminateBy_systemOf (hsearch : search.Valid) (R : Fin m → Row n) (j : Fin n)
    (ctx : Context) :
    ∃ S, SameSolutions R S ∧ LeadsOnce S j ∧ (∀ l < j, LeadsOnce R l → LeadsOnce S l) ∧
      eliminateBy search ctx (systemOf names R) (symbol (names j)) = systemOf names S := by
  rw [eliminateBy]
  rcases search_systemOf hnames hsearch R j with ⟨p, hfound, hp⟩ | ⟨hnone, hlead⟩
  · obtain ⟨honce, hbefore⟩ := leadsOnce_cancelRows hp
    refine ⟨_, sameSolutions_cancelRows R p j _, honce, hbefore, ?_⟩
    rw [hfound]
    dsimp only
    rw [getElem?_systemOf]
    exact eliminateAt_systemOf hnames hp ctx
  · refine ⟨R, .refl R, fun i _ hi => absurd hi (hlead i), fun _ _ h => h, ?_⟩
    rw [hnone]

/-- **Row reduction**: afterwards every unknown leads at most one row. -/
theorem rowReduceBy_systemOf (hsearch : search.Valid) (R : Fin m → Row n) (ctx : Context) :
    ∃ S, SameSolutions R S ∧ (∀ j, LeadsOnce S j) ∧
      rowReduceBy search (systemOf names R) (unknowns names) ctx = systemOf names S := by
  -- the unknowns are eliminated in order, so that what was achieved for `done` is kept
  have hfold : ∀ (js done : List (Fin n)) (R : Fin m → Row n),
      (done ++ js).Pairwise (· < ·) → (∀ l ∈ done, LeadsOnce R l) →
      ∃ S, SameSolutions R S ∧ (∀ l ∈ done ++ js, LeadsOnce S l) ∧
        (js.map fun j => symbol (names j)).foldl (eliminateBy search ctx) (systemOf names R) =
          systemOf names S := by
    intro js
    induction js with
    | nil => exact fun done R _ honce => ⟨R, .refl R, by simpa using honce, rfl⟩
    | cons j js ih =>
      intro done R hsorted honce
      obtain ⟨T, hsame, hj, hbefore, hstep⟩ := eliminateBy_systemOf hnames hsearch R j ctx
      have hT : ∀ l ∈ done ++ [j], LeadsOnce T l := by
        intro l hl
        rcases List.mem_append.mp hl with hl | hl
        · exact hbefore l ((List.pairwise_append.mp hsorted).2.2 l hl j List.mem_cons_self)
            (honce l hl)
        · rwa [List.mem_singleton.mp hl]
      obtain ⟨S, hsame', honce', hfold⟩ := ih (done ++ [j]) T (by simpa using hsorted) hT
      refine ⟨S, hsame.trans hsame', by simpa using honce', ?_⟩
      rw [List.map_cons, List.foldl_cons, hstep, hfold]
  obtain ⟨S, hsame, honce, hS⟩ := hfold (List.finRange n) [] R (List.pairwise_lt_finRange n)
    fun l hl => absurd hl List.not_mem_nil
  exact ⟨S, hsame, fun j => honce j (List.mem_finRange j), hS⟩

/-! ## Back substitution -/

/-- A step of back substitution cancels the leading unknown of row `p` from the other rows. -/
theorem substituteBackFrom_systemOf {R : Fin m → Row n} {p : Fin m} {j : Fin n}
    (hp : (R p).lead = some j) (ctx : Context) :
    substituteBackFrom (unknowns names) ctx (systemOf names R) p =
      systemOf names (cancelRows R p j fun i => (R i).1 j != 0) := by
  have hmem : (unknowns names).contains (symbol (names j)) = true := by
    rw [List.contains_eq_any_beq]
    exact List.any_eq_true.mpr ⟨symbol (names j), List.mem_map.mpr ⟨j, List.mem_finRange j, rfl⟩,
      (symbol_beq hnames j j).mpr rfl⟩
  rw [substituteBackFrom, getElem?_systemOf]
  dsimp only
  rw [pivotVariable?_encode, hp]
  dsimp only [Option.map_some]
  rw [if_pos hmem]
  refine @map_zipIdx_cancel m n names R p j _
    (fun row => (row.coefficient (symbol (names j))).isZero)
    (LinearSystem.cancel (encode names (R p)) (symbol (names j)) ctx) (fun i => ?_)
    fun i _ => cancel_encode hnames (Row.ne_zero_of_lead hp) (R i) ctx
  rw [coefficient_encode hnames, isZero, bne, Bool.not_not]

omit hnames in
/-- It does nothing for a row without leading unknown. -/
theorem substituteBackFrom_of_none {R : Fin m → Row n} {p : Fin m} (hp : (R p).lead = none)
    (ctx : Context) :
    substituteBackFrom (unknowns names) ctx (systemOf names R) p = systemOf names R := by
  rw [substituteBackFrom, getElem?_systemOf]
  dsimp only
  rw [pivotVariable?_encode, hp]
  rfl

/-- **Back substitution**: if every unknown leads at most one row, then the leading unknowns stay, and
all other rows are cleared of them. -/
theorem backSubstitute_systemOf {R : Fin m → Row n} (honce : ∀ j, LeadsOnce R j) (ctx : Context) :
    ∃ S, SameSolutions R S ∧ (∀ i, (S i).lead = (R i).lead) ∧ Cleared S (List.finRange m) ∧
      (systemOf names R).backSubstitute (unknowns names) ctx = systemOf names S := by
  have hfold : ∀ (ps done : List (Fin m)) (R : Fin m → Row n), Cleared R done →
      ∃ S, SameSolutions R S ∧ (∀ i, (S i).lead = (R i).lead) ∧ Cleared S (done ++ ps) ∧
        (ps.map Fin.val).foldl (substituteBackFrom (unknowns names) ctx) (systemOf names R) =
          systemOf names S := by
    intro ps
    induction ps with
    | nil => exact fun done R h => ⟨R, .refl R, fun _ => rfl, by rwa [List.append_nil], rfl⟩
    | cons p ps ih =>
      intro done R h
      rw [List.map_cons, List.foldl_cons]
      cases hp : (R p).lead with
      | none =>
        obtain ⟨S, hsame, hlead, hcleared, hS⟩ := ih (done ++ [p]) R (h.skip hp)
        rw [substituteBackFrom_of_none hp]
        exact ⟨S, hsame, hlead, by simpa using hcleared, hS⟩
      | some j =>
        obtain ⟨S, hsame, hlead, hcleared, hS⟩ := ih (done ++ [p]) _ (h.step hp)
        refine ⟨S, (sameSolutions_cancelRows R p j _).trans hsame, fun i => ?_,
          by simpa using hcleared, ?_⟩
        · rw [hlead, lead_cancelRows (h.once j) hp]
        · rw [substituteBackFrom_systemOf hnames hp, hS]
  have hrange : List.range (systemOf names R).length = (List.finRange m).map Fin.val := by
    rw [systemOf, List.length_ofFn, List.map_coe_finRange_eq_range]
  rw [backSubstitute, hrange]
  exact hfold (List.finRange m) [] R ⟨honce, fun p hp => absurd hp List.not_mem_nil⟩

/-! ## The determining rows -/

/-- The first row with an unknown in it. -/
def firstWith (R : Fin m → Row n) (j : Fin n) : Option (Fin m) :=
  (List.finRange m).find? fun i => (R i).1 j != 0

omit hnames in
theorem firstWith_eq_some {R : Fin m → Row n} {i : Fin m} {j : Fin n} :
    firstWith R j = some i ↔ (R i).1 j ≠ 0 ∧ ∀ i' < i, (R i').1 j = 0 := by
  rw [firstWith, ← Fin.find?_eq_find?_finRange, Fin.find?_eq_some_iff]
  simp

omit hnames in
theorem firstWith_eq_none {R : Fin m → Row n} {j : Fin n} :
    firstWith R j = none ↔ ∀ i, (R i).1 j = 0 := by
  simp [firstWith]

omit hnames in
/-- In a cleared system the row that leads with an unknown is the first one with it. -/
theorem Cleared.firstWith_of_lead {R : Fin m → Row n} (h : Cleared R (List.finRange m)) {p : Fin m}
    {j : Fin n} (hp : (R p).lead = some j) : firstWith R j = some p := by
  refine find?_finRange fun i => ?_
  constructor
  · intro hi
    by_contra hip
    exact bne_iff_ne.mp hi (h.column p (List.mem_finRange p) j hp i hip)
  · rintro rfl
    exact bne_iff_ne.mpr (Row.ne_zero_of_lead hp)

/-- **In a cleared system the first row with an unknown determines it**, whichever search is used. -/
theorem rowForBy?_systemOf (hsearch : search.Valid) {R : Fin m → Row n}
    (h : Cleared R (List.finRange m)) (j : Fin n) :
    (systemOf names R).rowForBy? search (symbol (names j)) =
      (firstWith R j).map fun i => encode names (R i) := by
  rcases search_systemOf hnames hsearch R j with ⟨p, hfound, hp⟩ | ⟨hnone, -⟩
  · rw [rowForBy?, hfound, Option.bind_some, getElem?_systemOf, h.firstWith_of_lead hp]
    rfl
  · rw [rowForBy?, hnone, Option.bind_none, systemOf, List.ofFn_eq_map, List.find?_map, firstWith]
    refine congrArg (Option.map _) (congrArg (List.find? · _) (funext fun i => ?_))
    rw [Function.comp_apply, coefficient_encode hnames, isZero]
    rfl

end Reduction

end SymbolicAlgebra
