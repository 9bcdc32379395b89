import SymbolicAlgebra.Proofs.Compilation
import SymbolicAlgebra.Proofs.Instances
import SymbolicAlgebra.Proofs.Unfolding

/-!
# Inlined bodies and substituted bodies

A call of a user function is compiled by compiling its arguments and then its body, with the parameters
bound to the code of the arguments. Evaluation puts the arguments into the body instead. For a body over
the parameters the two accept the same calls but for two things that a substitution loses: an argument
that the body does not use, and what stands beside a factor that becomes `0`.

Results:
* `Compiles.of_scoped`: an environment matters only through the variables of the expression.
* `Compiles.of_instance`: a body compiles over its parameters if its instance compiles, apart from the
  products that vanish.
* `isOk_compile_call_iff`: where the instance of the body compiles, the call compiles iff the arguments
  and the vanishing products of the body do.
* `call_not_compiled`: calls that do not compile though the instance of the body does.
-/

namespace SymbolicAlgebra.Numeric.Compiler

open Expr Unfolding

variable {libraries : List Library} {known known' params : List Expr} {e : Expr}

/-! ## Nodes and scopes -/

/-- An expression compiles if all its nodes do what they need to. -/
theorem compiles_iff_nodes : Compiles libraries known e ↔
    ∀ x ∈ nodes e, Admits libraries known x := by
  induction e using inductionOnParts with
  | _ e ih =>
    rw [compiles_iff_parts, nodes_eq, List.forall_mem_cons, forall₂_congr ih]
    refine and_congr_right fun _ => ⟨fun h x hx => ?_, fun h p hp x hx => ?_⟩
    · obtain ⟨p, hp, hxp⟩ := mem_nodesList.mp hx
      exact h p hp x hxp
    · exact h x (mem_nodesList.mpr ⟨p, hp, hx⟩)

theorem mem_nodes_of_part {p x : Expr} (hp : p ∈ e.parts) (hx : x ∈ nodes p) : x ∈ nodes e := by
  rw [nodes_eq]
  exact List.mem_cons_of_mem _ (mem_nodesList.mpr ⟨p, hp, hx⟩)

/-- Every variable of the expression is one of a list. -/
def Scoped (known : List Expr) (e : Expr) : Prop :=
  ∀ n c, .var n c ∈ nodes e → ∃ k ∈ known, (k == .var n c) = true

theorem Scoped.of_mem_parts (h : Scoped known e) {p : Expr} (hp : p ∈ e.parts) : Scoped known p :=
  fun n c hvar => h n c (mem_nodes_of_part hp hvar)

/-- What compiles in one environment compiles in any other that has its variables. -/
theorem Compiles.of_scoped (h : Compiles libraries known e) (hscope : Scoped known' e) :
    Compiles libraries known' e := by
  rw [compiles_iff_nodes] at h ⊢
  intro x hx
  cases x with
  | var n c => exact hscope n c hx
  | _ => exact h _ hx

theorem Compiles.of_mem_nodes {x : Expr} (h : Compiles libraries known e) (hx : x ∈ nodes e) :
    Compiles libraries known x := by
  induction e using inductionOnParts with
  | _ e ih =>
    rw [nodes_eq, List.mem_cons] at hx
    rcases hx with rfl | hx
    · exact h
    · obtain ⟨p, hp, hxp⟩ := mem_nodesList.mp hx
      exact ih p hp ((compiles_iff_parts.mp h).2 p hp) hxp

/-! ## Operands of sums and products -/

variable {xs : List Expr}

theorem Compiles.of_ofTerms (h : Compiles libraries known (ofTerms xs)) :
    ∀ x ∈ xs, Compiles libraries known x := by
  match xs, h with
  | [], _ => exact nofun
  | [_], h => exact List.forall_mem_singleton.mpr h
  | _ :: _ :: _, h => exact (compiles_iff_parts.mp h).2

theorem Compiles.of_ofFactors (h : Compiles libraries known (ofFactors xs)) :
    ∀ x ∈ xs, Compiles libraries known x := by
  match xs, h with
  | [], _ => exact nofun
  | [_], h => exact List.forall_mem_singleton.mpr h
  | _ :: _ :: _, h => exact (compiles_iff_parts.mp h).2

/-- Constants compile, and all other operands are among the arranged ones. -/
theorem Compiles.of_arranged {neutral c : Rat}
    (h : ∀ x ∈ arranged neutral c xs, Compiles libraries known x) :
    ∀ x ∈ xs, Compiles libraries known x := by
  intro x hx
  cases hconst : x.isConst with
  | true =>
    obtain ⟨q, rfl⟩ := exists_of_isConst hconst
    exact .const q
  | false =>
    refine h x ?_
    rw [arranged, mem_sort]
    split
    · exact mem_others.mpr ⟨hx, hconst⟩
    · exact List.mem_append_left _ (mem_others.mpr ⟨hx, hconst⟩)

theorem Compiles.of_sumOf (h : Compiles libraries known (sumOf xs)) :
    ∀ x ∈ xs, Compiles libraries known x := by
  rw [sumOf_eq] at h
  have hterms := Compiles.of_arranged h.of_ofTerms
  intro x hx
  have hx' (t : Expr) (ht : t ∈ x.terms) := hterms t (List.mem_flatMap.mpr ⟨x, hx, ht⟩)
  cases x with
  | sum ts => exact .sum hx'
  | _ => exact hx' _ List.mem_cons_self

/-- A product that vanishes says nothing about its factors. -/
theorem Compiles.of_productOf (h0 : (productOf xs).isZero = false)
    (h : Compiles libraries known (productOf xs)) : ∀ x ∈ xs, Compiles libraries known x := by
  rw [productOf_eq] at h h0
  split at h
  · next hprod =>
    rw [if_pos hprod] at h0
    cases h0
  · have hfactors := Compiles.of_arranged h.of_ofFactors
    intro x hx
    have hx' (f : Expr) (hf : f ∈ x.factors) := hfactors f (List.mem_flatMap.mpr ⟨x, hx, hf⟩)
    cases x with
    | product fs => exact .product hx'
    | _ => exact hx' _ List.mem_cons_self

/-! ## Instances -/

/-- **An expression over the parameters compiles if its instance does**, apart from the products that
vanish in the instance. -/
theorem Compiles.of_instance {b : Bindings} (hb : b.OfVariables) (hscope : Scoped params e)
    (hzero : ∀ fs, .product fs ∈ nodes e → (substituteWith true b (.product fs)).isZero = true →
      Compiles libraries params (.product fs))
    (h : Compiles libraries known (substituteWith true b e)) : Compiles libraries params e := by
  induction e using inductionOnParts with
  | _ e ih =>
    have hpart (p : Expr) (hp : p ∈ e.parts)
        (hinstance : Compiles libraries known (substituteWith true b p)) :
        Compiles libraries params p :=
      ih p hp (hscope.of_mem_parts hp) (fun fs hfs => hzero fs (mem_nodes_of_part hp hfs)) hinstance
    cases e with
    | const q => exact .const q
    | var n c =>
      obtain ⟨k, hk, hkey⟩ := hscope n c (mem_nodes_self _)
      exact .var hk hkey
    | sum ts =>
      rw [substituteWith_sum hb] at h
      exact .sum fun t ht => hpart t ht (h.of_sumOf _ (List.mem_map_of_mem ht))
    | product fs =>
      cases h0 : (substituteWith true b (.product fs)).isZero with
      | true => exact hzero fs (mem_nodes_self _) h0
      | false =>
        rw [substituteWith_product hb] at h h0
        exact .product fun f hf => hpart f hf (h.of_productOf h0 _ (List.mem_map_of_mem hf))
    | binary op l r =>
      rw [substituteWith_binary hb, compiles_iff_parts] at h
      exact .binary h.1 (hpart l (by simp [parts]) (h.2 _ (by simp [parts])))
        (hpart r (by simp [parts]) (h.2 _ (by simp [parts])))
    | not a =>
      rw [substituteWith_not hb, compiles_iff_parts] at h
      exact .not (hpart a (by simp [parts]) (h.2 _ (by simp [parts])))
    | call f args =>
      rw [substituteWith_call hb, compiles_iff_parts] at h
      have hcode := h.1
      rw [Admits, List.length_map] at hcode
      exact .call hcode fun a ha => hpart a ha (h.2 _ (List.mem_map_of_mem ha))
    | set ms =>
      rw [substituteWith_set hb, compiles_iff_parts] at h
      exact h.1.elim

/-! ## Calls -/

/-- A call of a user function without a routine compiles if the arguments and the body do. -/
theorem compiles_call_user_iff {name : String} {params args : List Expr} {body : Expr}
    (hlength : args.length = params.length)
    (hroutine : ∀ l ∈ libraries, l.get? name args.length = none) :
    Compiles libraries known (.call (.user name params (some body)) args) ↔
      Compiles libraries params body ∧ ∀ a ∈ args, Compiles libraries known a := by
  have hnone : libraries.findSome? (fun l => l.get? name args.length) = none :=
    List.findSome?_eq_none_iff.mpr hroutine
  have hcode : HasCode libraries (.user name params (some body)) args.length ↔
      Compiles libraries params body := by
    rw [hasCode_iff, Function.name, hnone, Option.isSome_none,
      or_iff_right Bool.false_ne_true]
    dsimp only
    rw [List.take_of_length_le hlength.ge]
  rw [compiles_iff_parts]
  exact and_congr_left' hcode

/-- **Inlining against substitution.** Let the body of a user function mention only its parameters, and
let no library have a routine for the function. Where the body with the arguments in place of the
parameters compiles, the call compiles iff every argument does, also one that the body does not use, and
every product of the body that vanishes at the arguments compiles over the parameters. -/
theorem isOk_compile_call_iff {name : String} {params args inputs : List Expr} {body : Expr}
    {libraries : List Library} (hparams : ∀ p ∈ params, p.isVar = true)
    (hlength : args.length = params.length)
    (hroutine : ∀ l ∈ libraries, l.get? name args.length = none)
    (hscope : Scoped params body)
    (hinstance : (Numeric.compile (body.instantiate (.ofList (params.zip args))) inputs
      libraries).isOk = true) :
    (Numeric.compile (.call (.user name params (some body)) args) inputs libraries).isOk = true ↔
      (∀ a ∈ args, (Numeric.compile a inputs libraries).isOk = true) ∧
      ∀ fs, .product fs ∈ nodes body →
        (instantiate (.product fs) (.ofList (params.zip args))).isZero = true →
          (Numeric.compile (.product fs) params libraries).isOk = true := by
  simp only [isOk_compile_iff_inputs] at hinstance ⊢
  rw [compiles_call_user_iff hlength hroutine, and_comm]
  refine and_congr_right fun _ => ⟨fun h fs hfs _ => h.of_mem_nodes hfs, fun hzero => ?_⟩
  unfold instantiate at hinstance hzero
  split at hinstance
  · exact hinstance.of_scoped hscope
  · next hne =>
    simp only [if_neg hne] at hzero
    refine Compiles.of_instance (Bindings.ofVariables_ofList fun p hp => ?_) hscope hzero hinstance
    exact hparams p.1 (List.of_mem_zip hp).1

/-- An amplitude times the sine of a phase. -/
def wave : Expr :=
  .product [.symbol "u", .call (.native (.elementary .sin)) [.symbol "v"]]

/-- A wave without amplitude: its only product vanishes, and compiles over the parameters. -/
theorem isOk_compile_call_wave :
    (Numeric.compile (wave.instantiate (.ofList ([.symbol "u", .symbol "v"].zip
      [.zero, .symbol "x"]))) [.symbol "x"] [.standard]).isOk = true ∧
    (Numeric.compile (.call (.user "Wave" [.symbol "u", .symbol "v"] (some wave))
      [.zero, .symbol "x"]) [.symbol "x"] [.standard]).isOk = true := by
  have hvanishes : wave.instantiate (.ofList ([.symbol "u", .symbol "v"].zip
      [.zero, .symbol "x"])) = .const 0 := productOf_zero_cons _
  have hinstance : (Numeric.compile (wave.instantiate (.ofList ([.symbol "u", .symbol "v"].zip
      [.zero, .symbol "x"]))) [.symbol "x"] [.standard]).isOk = true := by
    rw [hvanishes]
    rfl
  have hscope : Scoped [.symbol "u", .symbol "v"] wave := fun n c hvar => by
    have hcases : n = "u" ∧ c = none ∨ n = "v" ∧ c = none := by
      simpa [wave, nodes, nodesList, symbol] using hvar
    rcases hcases with ⟨rfl, -⟩ | ⟨rfl, -⟩
    · exact ⟨.symbol "u", List.mem_cons_self, rfl⟩
    · exact ⟨.symbol "v", List.mem_cons_of_mem _ List.mem_cons_self, rfl⟩
  have hproduct (fs : List Expr) (hfs : .product fs ∈ nodes wave) : .product fs = wave := by
    simpa [wave, nodes, nodesList, symbol] using hfs
  have hiff := @isOk_compile_call_iff "Wave" [.symbol "u", .symbol "v"] [.zero, .symbol "x"]
    [.symbol "x"] wave [.standard] (by decide) rfl (by decide) hscope hinstance
  exact ⟨hinstance, hiff.mpr ⟨by decide +kernel, fun fs hfs _ => by
    rw [hproduct fs hfs]
    decide +kernel⟩⟩

/-- A call of a user function does not compile, and the body at its arguments does. -/
structure Rejected (libraries : List Library) (inputs : List Expr) (name : String)
    (params : List Expr) (body : Expr) (args : List Expr) : Prop where
  no_routine : ∀ l ∈ libraries, l.get? name args.length = none
  length_eq : args.length = params.length
  instance_compiles : (Numeric.compile (body.instantiate (.ofList (params.zip args))) inputs
    libraries).isOk = true
  call_fails : (Numeric.compile (.call (.user name params (some body)) args) inputs
    libraries).isOk = false

/-- An argument that is not used, a factor beside `0`, a variable that is no parameter, and a parameter
that is no variable: the instance of the body compiles, the call does not. -/
theorem call_not_compiled :
    Rejected [.standard] [.symbol "x"] "First" [.symbol "u", .symbol "v"] (.symbol "u")
      [.symbol "x", .undefinedCall "g" [.symbol "x"]] ∧
    Rejected [.standard] [.symbol "x"] "Scaled" [.symbol "u", .symbol "v"]
      (.product [.symbol "u", .undefinedCall "g" [.symbol "v"]]) [.zero, .symbol "x"] ∧
    Rejected [.standard] [.symbol "x", .symbol "a"] "Raised" [.symbol "u"]
      (.power (.symbol "u") (.symbol "a")) [.symbol "x"] ∧
    Rejected [.standard] [.symbol "x"] "Named" [.undefinedCall "g" [.symbol "v"]]
      (.undefinedCall "g" [.symbol "v"]) [.symbol "x"] := by
  have hvanishes : instantiate (.product [.symbol "u", .undefinedCall "g" [.symbol "v"]])
      (.ofList ([.symbol "u", .symbol "v"].zip [.zero, .symbol "x"])) = .const 0 :=
    productOf_zero_cons _
  refine ⟨⟨by decide, rfl, by decide +kernel, by decide +kernel⟩,
    ⟨by decide, rfl, ?_, by decide +kernel⟩,
    ⟨by decide, rfl, by decide +kernel, by decide +kernel⟩,
    ⟨by decide, rfl, by decide +kernel, by decide +kernel⟩⟩
  rw [hvanishes]
  rfl

end SymbolicAlgebra.Numeric.Compiler
