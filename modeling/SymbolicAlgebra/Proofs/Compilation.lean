import SymbolicAlgebra.Numeric.Code
import SymbolicAlgebra.Proofs.Congruence

/-!
# What compiles

Compiling resolves names, and fails at a variable without a slot, at a call without code and at what has
no numeric value. `Compiles` says when it does not fail, and mentions neither code nor errors: the
environment comes in only through its variables. A call needs code for its function and, whether the
function looks at them or not, code for all its arguments. The body of a user function has its own
environment, with the parameters and nothing else.

Bodies are no parts of the expression that calls them, so the induction goes over expressions together
with the bodies of the functions in them (`inductionOnBodies`).

Results:
* `compiles_iff_parts`: what compiles, node by node.
* `isOk_compile_iff`, `isOk_compile_iff_inputs`: the compiler succeeds exactly where `Compiles` holds.
-/

namespace SymbolicAlgebra

namespace Expr

/-- Induction over expressions that also goes into the bodies of called functions. -/
@[elab_as_elim]
theorem inductionOnBodies {motive : Expr → Prop} (e : Expr)
    (const : ∀ q, motive (.const q))
    (var : ∀ n c, motive (.var n c))
    (sum : ∀ ts, (∀ t ∈ ts, motive t) → motive (.sum ts))
    (product : ∀ fs, (∀ f ∈ fs, motive f) → motive (.product fs))
    (binary : ∀ op l r, motive l → motive r → motive (.binary op l r))
    (not : ∀ a, motive a → motive (.not a))
    (call : ∀ f args, (∀ a ∈ args, motive a) → (∀ body ∈ f.body?, motive body) →
      motive (.call f args))
    (set : ∀ ms, (∀ m ∈ ms, motive m) → motive (.set ms)) : motive e := by
  -- `size` does not count bodies, `sizeOf` does
  have ih : ∀ x : Expr, sizeOf x < sizeOf e → motive x := fun x _ =>
    inductionOnBodies x const var sum product binary not call set
  have ihList : ∀ xs : List Expr, sizeOf xs < sizeOf e → ∀ x ∈ xs, motive x := fun xs h x hx =>
    ih x (Nat.lt_trans (List.sizeOf_lt_of_mem hx) h)
  cases e with
  | const q => exact const q
  | var n c => exact var n c
  | sum ts => exact sum ts (ihList ts (by simp))
  | product fs => exact product fs (ihList fs (by simp))
  | binary op l r => exact binary op l r (ih l (by simp; omega)) (ih r (by simp))
  | not a => exact not a (ih a (by simp))
  | call f args =>
    refine call f args (ihList args (by simp)) fun body hbody => ih body ?_
    cases f with
    | user name params definition =>
      obtain rfl : definition = some body := hbody
      simp
      omega
    | _ => cases hbody
  | set ms => exact set ms (ihList ms (by simp))
termination_by sizeOf e

end Expr

namespace Numeric.Compiler

open Expr

/-! ## What compiles -/

mutual

/-- An expression that compiles in an environment for the variables `known`. -/
inductive Compiles (libraries : List Library) : List Expr → Expr → Prop
  | const {known : List Expr} (q : Rat) : Compiles libraries known (.const q)
  | var {known : List Expr} {n : String} {c : Option Condition} {k : Expr} : k ∈ known →
      (k == .var n c) = true → Compiles libraries known (.var n c)
  | sum {known ts : List Expr} : (∀ t ∈ ts, Compiles libraries known t) →
      Compiles libraries known (.sum ts)
  | product {known fs : List Expr} : (∀ f ∈ fs, Compiles libraries known f) →
      Compiles libraries known (.product fs)
  | binary {known : List Expr} {op : BinaryOp} {l r : Expr} : (operation? op).isSome = true →
      Compiles libraries known l → Compiles libraries known r →
      Compiles libraries known (.binary op l r)
  | not {known : List Expr} {a : Expr} : Compiles libraries known a →
      Compiles libraries known (.not a)
  | call {known args : List Expr} {f : Function} : HasCode libraries f args.length →
      (∀ a ∈ args, Compiles libraries known a) → Compiles libraries known (.call f args)

/-- A function that has code for a number of arguments: a routine, a selection, a table, or a body that
compiles over the parameters. -/
inductive HasCode (libraries : List Library) : Function → Nat → Prop
  | routine {f : Function} {count : Nat} {r : Routine} :
      libraries.findSome? (fun l => l.get? f.name count) = some r → HasCode libraries f count
  | ifThenElse : HasCode libraries .ifThenElse 3
  | table {name : String} {points : List (Float × Float)} : HasCode libraries (.table name points) 1
  | user {name : String} {params : List Expr} {body : Expr} {count : Nat} :
      Compiles libraries (params.take count) body →
      HasCode libraries (.user name params (some body)) count

end

/-- What a node itself needs to compile, apart from its parts. -/
def Admits (libraries : List Library) (known : List Expr) : Expr → Prop
  | .var n c => ∃ k ∈ known, (k == .var n c) = true
  | .binary op _ _ => (operation? op).isSome = true
  | .call f args => HasCode libraries f args.length
  | .set _ => False
  | _ => True

variable {libraries : List Library} {known : List Expr} {e : Expr}

theorem compiles_iff_parts : Compiles libraries known e ↔
    Admits libraries known e ∧ ∀ p ∈ e.parts, Compiles libraries known p := by
  constructor
  · intro h
    cases h with
    | const q => exact ⟨trivial, nofun⟩
    | var hk hkey => exact ⟨⟨_, hk, hkey⟩, nofun⟩
    | sum h | product h => exact ⟨trivial, h⟩
    | binary hop hl hr => exact ⟨hop, forall_mem_pair hl hr⟩
    | not h => exact ⟨trivial, List.forall_mem_singleton.mpr h⟩
    | call hf h => exact ⟨hf, h⟩
  · rintro ⟨hnode, hparts⟩
    cases e with
    | const q => exact .const q
    | var n c =>
      obtain ⟨k, hk, hkey⟩ := hnode
      exact .var hk hkey
    | sum ts => exact .sum hparts
    | product fs => exact .product hparts
    | binary op l r => exact .binary hnode (hparts l (by simp [parts])) (hparts r (by simp [parts]))
    | not a => exact .not (hparts a (by simp [parts]))
    | call f args => exact .call hnode hparts
    | set ms => exact hnode.elim

/-- Where no library has a routine, the kind of function decides. -/
theorem hasCode_iff {f : Function} {count : Nat} : HasCode libraries f count ↔
    (libraries.findSome? fun l => l.get? f.name count).isSome = true ∨ match f with
      | .ifThenElse => count = 3
      | .table .. => count = 1
      | .user _ params (some body) => Compiles libraries (params.take count) body
      | _ => False := by
  constructor
  · intro h
    cases h with
    | routine h => exact .inl (Option.isSome_of_eq_some h)
    | ifThenElse | table => exact .inr rfl
    | user h => exact .inr h
  · rintro (h | h)
    · obtain ⟨r, hr⟩ := Option.isSome_iff_exists.mp h
      exact .routine hr
    · split at h
      · exact h ▸ .ifThenElse
      · exact h ▸ .table
      · exact .user h
      · exact h.elim

/-! ## Success of a computation -/

section Results

variable {α β : Type} {x : Result α}

theorem exists_of_bind_eq_ok {g : α → Result β} {b : β} (h : x >>= g = .ok b) :
    ∃ a, x = .ok a ∧ g a = .ok b := by
  cases x with
  | error err => cases h
  | ok a => exact ⟨a, rfl, h⟩

theorem isOk_bind_pure (g : α → β) : (x >>= fun a => pure (g a)).isOk = x.isOk := by
  cases x <;> rfl

theorem isOk_bind_bind_pure {γ : Type} {y : Result β} (g : α → β → γ) :
    (x >>= fun a => y >>= fun b => pure (g a b)).isOk = (x.isOk && y.isOk) := by
  cases x <;> cases y <;> rfl

end Results

/-! ## The compiler node by node -/

theorem isSome_find?_iff {env : Environment} : (env.find? e).isSome = true ↔
    ∃ k ∈ env.map Prod.fst, (k == e) = true := by
  simp [Environment.find?]

theorem isOk_compileAll_iff {es : List Expr} {env : Environment} :
    (compileAll libraries es env).isOk = true ↔
      ∀ e ∈ es, (compile libraries e env).isOk = true := by
  induction es with
  | nil =>
    rw [compileAll]
    exact ⟨fun _ => nofun, fun _ => rfl⟩
  | cons e es ih =>
    rw [compileAll, isOk_bind_bind_pure, Bool.and_eq_true, ih, List.forall_mem_cons]

theorem length_of_compileAll {es : List Expr} {env : Environment} {codes : List Code}
    (h : compileAll libraries es env = .ok codes) : codes.length = es.length := by
  induction es generalizing codes with
  | nil =>
    rw [compileAll] at h
    cases h
    rfl
  | cons e es ih =>
    rw [compileAll] at h
    obtain ⟨first, -, h⟩ := exists_of_bind_eq_ok h
    obtain ⟨rest, hrest, h⟩ := exists_of_bind_eq_ok h
    cases h
    rw [List.length_cons, ih hrest, List.length_cons]

/-- A power with a constant exponent is no exception: the exponent compiles. -/
theorem isOk_binary_iff {op : BinaryOp} {l r : Expr} {env : Environment} :
    (compile libraries (.binary op l r) env).isOk = true ↔ (operation? op).isSome = true ∧
      (compile libraries l env).isOk = true ∧ (compile libraries r env).isOk = true := by
  rw [compile.eq_def]
  split
  case h_5 b n heq =>
    cases heq
    rw [isOk_bind_pure, compile]
    exact ⟨fun hl => ⟨rfl, hl, rfl⟩, fun h => h.2.1⟩
  case h_6 heq =>
    cases heq
    cases operation? op with
    | none => exact ⟨nofun, nofun⟩
    | some operation =>
      dsimp only
      rw [isOk_bind_bind_pure, Bool.and_eq_true]
      exact ⟨fun h => ⟨rfl, h⟩, fun h => h.2⟩
  all_goals contradiction

/-- The selection and the table take a fixed number of arguments. -/
theorem isOk_fixed_iff {args : Result (List Code)} {count fixed : Nat} {cause : NotCompilable}
    {g : List Code → Result Code} (hcount : ∀ codes, args = .ok codes → codes.length = count)
    (hg : ∀ codes, codes.length = fixed → (g codes).isOk = true) :
    (if (count != fixed) = true then fail cause else args >>= g).isOk = true ↔
      count = fixed ∧ args.isOk = true := by
  split
  · next hne => exact ⟨nofun, fun h => absurd h.1 (bne_iff_ne.mp hne)⟩
  · next heq =>
    obtain rfl : count = fixed := by simpa using heq
    cases args with
    | error err => exact ⟨nofun, nofun⟩
    | ok codes => exact ⟨fun _ => ⟨rfl, rfl⟩, fun _ => hg codes (hcount codes rfl)⟩

theorem isOk_applyCode_iff {f : Function} {args : Result (List Code)} {count : Nat}
    (hcount : ∀ codes, args = .ok codes → codes.length = count)
    (hroutine : libraries.findSome? (fun l => l.get? f.name count) = none)
    (hbody : ∀ body ∈ f.body?, ∀ env, (compile libraries body env).isOk = true ↔
      Compiles libraries (env.map Prod.fst) body) :
    (applyCode libraries f e count args).isOk = true ↔
      HasCode libraries f count ∧ args.isOk = true := by
  rw [hasCode_iff, hroutine, Option.isSome_none, or_iff_right Bool.false_ne_true]
  cases f with
  | native f => exact ⟨nofun, nofun⟩
  | ifThenElse =>
    rw [applyCode]
    exact isOk_fixed_iff hcount fun
      | [_, _, _], _ => rfl
  | table name points =>
    rw [applyCode]
    exact isOk_fixed_iff hcount fun
      | [_], _ => rfl
  | user name params body =>
    rw [applyCode]
    cases body with
    | none => exact ⟨nofun, nofun⟩
    | some body =>
      rw [compileBody]
      cases args with
      | error err => exact ⟨nofun, nofun⟩
      | ok codes =>
        have hkeys : (params.zip codes).map Prod.fst = params.take count := by
          rw [← hcount codes rfl, List.zip_eq_zip_take_min, List.map_fst_zip (by simp),
            Nat.min_comm, ← List.take_eq_take_min]
        dsimp only
        rw [← hkeys, ← hbody body rfl]
        exact ⟨fun h => ⟨h, rfl⟩, fun h => h.1⟩

/-! ## Success of the compiler -/

/-- **The compiler succeeds exactly where `Compiles` holds.** -/
theorem isOk_compile_iff {env : Environment} :
    (compile libraries e env).isOk = true ↔ Compiles libraries (env.map Prod.fst) e := by
  induction e using inductionOnBodies generalizing env with
  | const q =>
    rw [compile]
    exact ⟨fun _ => .const q, fun _ => rfl⟩
  | var n c =>
    rw [compiles_iff_parts, compile]
    refine Iff.trans ?_ (isSome_find?_iff.trans (and_iff_left (List.forall_mem_nil _)).symm)
    cases env.find? (.var n c) with
    | none => exact iff_of_false Bool.false_ne_true Bool.false_ne_true
    | some code => exact iff_of_true rfl rfl
  | sum ts ih =>
    rw [compiles_iff_parts, compile, isOk_bind_pure, isOk_compileAll_iff]
    exact (forall₂_congr fun t ht => ih t ht).trans (and_iff_right trivial).symm
  | product fs ih =>
    rw [compiles_iff_parts, compile, isOk_bind_pure, isOk_compileAll_iff]
    exact (forall₂_congr fun f hf => ih f hf).trans (and_iff_right trivial).symm
  | binary op l r ihl ihr =>
    rw [compiles_iff_parts, isOk_binary_iff, ihl, ihr]
    simp [parts, Admits]
  | not a ih =>
    rw [compiles_iff_parts, compile, isOk_bind_pure, ih]
    simp [parts, Admits]
  | call f args ihargs ihbody =>
    have hargs : (compileAll libraries args env).isOk = true ↔
        ∀ a ∈ args, Compiles libraries (env.map Prod.fst) a := by
      rw [isOk_compileAll_iff]
      exact forall₂_congr fun a ha => ihargs a ha
    rw [compiles_iff_parts, parts, ← hargs, compile]
    split
    · next r hroutine =>
      rw [isOk_bind_pure]
      exact (and_iff_right (HasCode.routine hroutine)).symm
    · next hroutine =>
      exact isOk_applyCode_iff (fun _ => length_of_compileAll) hroutine fun body hbody _ =>
        ihbody body hbody
  | set ms _ =>
    rw [compiles_iff_parts]
    exact iff_of_false Bool.false_ne_true And.left

/-- The same for a function of variables. -/
theorem isOk_compile_iff_inputs {inputs : List Expr} :
    (Numeric.compile e inputs libraries).isOk = true ↔ Compiles libraries inputs e := by
  rw [Numeric.compile, isOk_bind_pure, isOk_compile_iff, List.map_map]
  exact iff_of_eq (congrArg (Compiles libraries · e) (List.zipIdx_map_fst 0 inputs))

end Numeric.Compiler

end SymbolicAlgebra
