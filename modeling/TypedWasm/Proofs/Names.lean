import Mathlib.Data.List.Basic
import TypedWasm.Compile

/-!
# Names

A name of the source holds no `$`, so it differs from every name the generator makes up: mangled
methods, helpers, the scratch local and the temporaries.
-/

namespace TypedWasm

open List

variable (index : Nat) {method cls : String}

/-- A name without `$`. -/
def Dollarless (name : String) : Prop := '$' ∉ name.toList

instance (name : String) : Decidable (Dollarless name) := inferInstanceAs (Decidable (_ ∉ _))

theorem toList_mangled (cls method : String) :
    (mangled cls method).toList = cls.toList ++ '$' :: method.toList := by
  simp [mangled, String.toList_append]

theorem not_dollarless_mangled (cls method : String) : ¬ Dollarless (mangled cls method) := by
  simp [Dollarless, toList_mangled]

theorem Program.not_dollarless_of_mem {program : Program} {name : String}
    (hname : name ∈ program.methodNames) : ¬ Dollarless name := by
  obtain ⟨cls, -, hmem⟩ := mem_flatMap.1 hname
  obtain ⟨method, -, rfl⟩ := mem_map.1 hmem
  exact not_dollarless_mangled _ _

theorem not_dollarless_helper (helper : Helper) : ¬ Dollarless helper.name := by
  cases helper <;> decide

theorem not_dollarless_scratch : ¬ Dollarless scratchLocal := by decide

theorem toList_tempName :
    (Lowering.tempName index).toList = '$' :: 't' :: (toString index).toList := by
  simp [Lowering.tempName, String.toList_append]

theorem not_dollarless_tempName : ¬ Dollarless (Lowering.tempName index) := by
  simp [Dollarless, toList_tempName]

theorem scratchLocal_ne_tempName : scratchLocal ≠ Lowering.tempName index := by
  intro h
  have hlists := congrArg String.toList h
  rw [toList_tempName] at hlists
  simp [scratchLocal] at hlists

theorem toString_nat_injective {i j : Nat} (h : toString i = toString j) : i = j := by
  have hdigits : Nat.toDigits 10 i = Nat.toDigits 10 j := by
    simpa [Nat.toList_repr] using congrArg String.toList h
  simpa [Nat.ofDigitChars_ten_toDigits] using congrArg (Nat.ofDigitChars 10 · 0) hdigits

theorem tempName_injective {i j : Nat} (h : Lowering.tempName i = Lowering.tempName j) : i = j :=
  toString_nat_injective ((String.append_right_inj "$t").1 h)

theorem mangled_injective {cls' method' : String} (hcls : Dollarless cls)
    (hmethod : Dollarless method) (h : mangled cls' method' = mangled cls method) :
    cls' = cls ∧ method' = method := by
  have hlists := congrArg String.toList h.symm
  rw [toList_mangled, toList_mangled, append_cons_inj_of_notMem hcls hmethod] at hlists
  exact ⟨(String.toList_inj.1 hlists.1).symm, (String.toList_inj.1 hlists.2.2).symm⟩

theorem mangled_ne_helper (hcls : Dollarless cls) (hne : cls ≠ "") (helper : Helper) :
    mangled cls method ≠ helper.name := by
  intro h
  have hlists := congrArg String.toList h
  rw [toList_mangled] at hlists
  have hhead : ∃ rest, helper.name.toList = '$' :: rest := by
    cases helper <;> exact ⟨_, rfl⟩
  obtain ⟨rest, hrest⟩ := hhead
  rw [hrest] at hlists
  cases hlist : cls.toList with
  | nil => exact hne (by simpa using hlist)
  | cons head tail =>
    rw [hlist, cons_append, List.cons.injEq] at hlists
    exact hcls (by rw [hlist, hlists.1]; exact mem_cons_self)

mutual

def Expr.identifiers : Expr → List String
  | .literal .. => []
  | .id _ name => [name]
  | .binary _ _ left right => left.identifiers ++ right.identifiers
  | .unary _ _ operand => operand.identifiers
  | .call _ name args => name :: Expr.allIdentifiers args
  | .builtin1 _ _ arg => arg.identifiers
  | .builtin2 _ _ left right => left.identifiers ++ right.identifiers
  | .construct _ cls args => cls :: Expr.allIdentifiers args
  | .methodCall _ object method args => method :: (object.identifiers ++ Expr.allIdentifiers args)
  | .lookup _ object field => field :: object.identifiers
  | .index _ object key => object.identifiers ++ key.identifiers
  | .list _ elements => Expr.allIdentifiers elements
  | .tuple _ elements => Expr.allIdentifiers elements
  | .dict _ entries => Expr.entryIdentifiers entries

def Expr.allIdentifiers : List Expr → List String
  | [] => []
  | first :: rest => first.identifiers ++ Expr.allIdentifiers rest

def Expr.entryIdentifiers : List (Expr × Expr) → List String
  | [] => []
  | (key, value) :: rest => key.identifiers ++ (value.identifiers ++ Expr.entryIdentifiers rest)

end

def Target.identifiers : Target → List String
  | .id name => [name]
  | .lookup object field => field :: object.identifiers
  | .index object key => object.identifiers ++ key.identifiers

mutual

def Stmt.identifiers : Stmt → List String
  | .ret value => value.identifiers
  | .assign pattern value =>
    pattern.slots.flatMap (fun slot => slot.target.identifiers) ++ value.identifiers
  | .expr value => value.identifiers
  | .cond test thenBody elseBody =>
    test.identifiers ++ (Stmt.allIdentifiers thenBody ++ Stmt.allIdentifiers elseBody)
  | .loop test body => test.identifiers ++ Stmt.allIdentifiers body
  | .pass => []

def Stmt.allIdentifiers : List Stmt → List String
  | [] => []
  | first :: rest => first.identifiers ++ Stmt.allIdentifiers rest

end

def FunDef.identifiers (fn : FunDef) : List String :=
  fn.name :: (fn.parameters.map (·.name) ++ fn.inits.map (·.name) ++ Stmt.allIdentifiers fn.body)

def ClassDef.identifiers (cls : ClassDef) : List String :=
  cls.name :: (cls.fields.map (·.name) ++ cls.methods.flatMap FunDef.identifiers)

namespace Program

/-- The names a unit declares and uses. -/
def identifiers (program : Program) : List String :=
  program.inits.map (·.name) ++ program.funs.flatMap FunDef.identifiers ++
    program.classes.flatMap ClassDef.identifiers ++ Stmt.allIdentifiers program.stmts

/-- A unit whose names hold no `$`. -/
def PlainNames (program : Program) : Prop := ∀ name ∈ program.identifiers, Dollarless name

instance (program : Program) : Decidable program.PlainNames :=
  inferInstanceAs (Decidable (∀ name ∈ _, Dollarless name))

namespace PlainNames

variable {program : Program} (h : program.PlainNames) {fn : FunDef}

include h

theorem of_fun (hfn : fn ∈ program.funs) : ∀ name ∈ fn.identifiers, Dollarless name := by
  intro name hname
  refine h name (mem_append_left _ (mem_append_left _ (mem_append_right _ ?_)))
  exact mem_flatMap.2 ⟨fn, hfn, hname⟩

theorem fun_name (hfn : fn ∈ program.funs) : Dollarless fn.name :=
  h.of_fun hfn fn.name mem_cons_self

theorem of_stmts : ∀ name ∈ Stmt.allIdentifiers program.stmts, Dollarless name :=
  fun name hname => h name (mem_append_right _ hname)

end PlainNames

end Program

end TypedWasm
