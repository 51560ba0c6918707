import TypedWasm.Proofs.Heap.Statements
import TypedWasm.Proofs.Numbers.Lowered

/-!
# The two representations of numbers

A formula is run with numbers that are words and with numbers that are heap objects. Each run
computes its value under its own division, so the runs agree wherever the two divisions do.
-/

namespace TypedWasm

open Heap Machine

/-- The configuration with another representation of numbers. -/
def Config.withNumbers (config : Config) (numberRepr : NumberRepr) : Config :=
  { config with numberRepr }

namespace Numbers

variable {config : Config} {e : Expr} {x : Evaluated}

theorem formula_run (config : Config) (hcheck : config.check = .ok ())
    (hpages : config.minMemoryPages.toNat < 65536) {ty : Ty} (h : Formula ty e)
    (hx : e.evaluate (divisionOf config.bigNumbers) = some x) {needed : Nat}
    (hneeded : config.heapStart.toNat + taken config.bigNumbers x.bytes = needed)
    (hroom : needed ≤ heapEnd) : ∃ effect, e.run? config = some effect ∧
      (effect.1 = .error .outOfFuel ∨
      (∃ trap, effect.1 = .error trap ∧
        OutOfMemory config.bigNumbers config.pageLimit needed trap) ∨
      ∃ word, effect.1 = .ok word ∧ Shows config.bigNumbers x.value effect.2 word) := by
  subst hneeded
  have hlowers : ∀ context : Lowering.Context, context.config = config →
      Lowers config.bigNumbers context (Lowering.expr e) (taken config.bigNumbers x.bytes)
        (Shows config.bigNumbers x.value) := by
    rintro context rfl
    exact formula_lowers h hx
  obtain ⟨u, hcompile⟩ := Expr.exists_compile fun context hcontext => by
    obtain ⟨code, later, hrun, -⟩ := hlowers context hcontext {}
    exact ⟨code, later, hrun⟩
  obtain ⟨m, hstart, -⟩ := exists_start hcheck hpages
  refine ⟨m.runMain u, Expr.run?_eq_some hcompile hstart, ?_⟩
  have hrun := Delivers.runMain hcompile (fun context code later hcontext hcode => by
    obtain ⟨code', later', hcode', -, hdelivers⟩ := hlowers context hcontext {}
    cases hcode.symm.trans hcode'
    exact hdelivers) (heapAt_start hcheck hpages hstart).1 hroom
  rw [(limit_start hstart).1] at hrun
  rcases hrun with hfuel | hmemory | ⟨word, hword, -, -, hshows⟩
  · exact .inl hfuel
  · exact .inr (.inl hmemory)
  · exact .inr (.inr ⟨word, hword, hshows⟩)

/-- Both runs of an expression end, in related words, or one is out of fuel, or the heap up to what
the big integers need is not there. -/
def BothReturn (config : Config) (e : Expr) (bytes : Nat) (related : Word → Machine → Word → Prop) :
    Prop :=
  ∃ native big, e.run? (config.withNumbers .native) = some native ∧
    e.run? (config.withNumbers .bigint) = some big ∧
    (native.1 = .error .outOfFuel ∨ big.1 = .error .outOfFuel ∨
      (∃ trap, big.1 = .error trap ∧
        OutOfMemory true config.pageLimit (config.heapStart.toNat + bytes) trap) ∨
      ∃ word result, native.1 = .ok word ∧ big.1 = .ok result ∧ related word big.2 result)

theorem formula_both (hcheck : config.check = .ok ()) (hpages : config.minMemoryPages.toNat < 65536)
    {ty : Ty} (h : Formula ty e) {y : Evaluated} (hx : e.evaluate .truncating = some x)
    (hy : e.evaluate .flooring = some y) (hroom : config.heapStart.toNat + y.bytes ≤ heapEnd) :
    BothReturn config e y.bytes fun word m result =>
      Shows false x.value m word ∧ Shows true y.value m result := by
  obtain ⟨m, hstart, -⟩ := exists_start hcheck hpages
  have hlow := (heapAt_start hcheck hpages hstart).2
  rw [(limit_start hstart).1] at hlow
  obtain ⟨native, hnative, hends⟩ : ∃ native, e.run? (config.withNumbers .native) = some native ∧
      _ :=
    formula_run (config.withNumbers .native) hcheck hpages h hx rfl
      (Nat.le_trans (Nat.le_add_right _ _) hroom)
  obtain ⟨big, hbig, hends'⟩ : ∃ big, e.run? (config.withNumbers .bigint) = some big ∧ _ :=
    formula_run (config.withNumbers .bigint) hcheck hpages h hy rfl hroom
  refine ⟨native, big, hnative, hbig, ?_⟩
  rcases hends with hfuel | ⟨trap, -, htrap⟩ | ⟨word, hword, hshows⟩
  · exact .inl hfuel
  · -- Plain words take no memory, and the heap starts below the limit.
    have hover : 65536 * config.pageLimit < config.heapStart.toNat + 0 := htrap.unhosted.2
    omega
  · rcases hends' with hfuel | hmemory | ⟨result, hresult, hshows'⟩
    · exact .inr (.inl hfuel)
    · exact .inr (.inr (.inl hmemory))
    · exact .inr (.inr (.inr ⟨word, result, hword, hresult, hshows.plain _, hshows'⟩))

theorem BothReturn.imp {bytes : Nat} {related related' : Word → Machine → Word → Prop}
    (h : BothReturn config e bytes related)
    (himp : ∀ word m result, related word m result → related' word m result) :
    BothReturn config e bytes related' := by
  obtain ⟨native, big, hnative, hbig, hends⟩ := h
  refine ⟨native, big, hnative, hbig, hends.imp_right (.imp_right (.imp_right ?_))⟩
  rintro ⟨word, result, hword, hresult, hrelated⟩
  exact ⟨word, result, hword, hresult, himp _ _ _ hrelated⟩

end Numbers

open Numbers in
/-- **The representations agree.** Where the value of a formula is exact, its run on plain words and
its run on big integers give the same number or truth value. Where a quotient has operands of
opposite signs and leaves a remainder, they differ by one. -/
theorem number_representations_agree {config : Config} (hcheck : config.check = .ok ())
    (hpages : config.minMemoryPages.toNat < 65536) :
    (∀ ty e x, Formula ty e → e.evaluate .exact = some x →
      config.heapStart.toNat + x.bytes ≤ heapEnd → BothReturn config e x.bytes fun word m result =>
        (ty = .number → m.readBigint result = .ok word.toInt) ∧ (ty = .bool → result = word)) ∧
    ∀ left right a b leftBytes rightBytes, Formula .number left → Formula .number right →
      left.evaluate .exact = some ⟨.number a, leftBytes⟩ →
      right.evaluate .exact = some ⟨.number b, rightBytes⟩ → a * b < 0 → a.fmod b ≠ 0 →
      config.heapStart.toNat + (leftBytes + rightBytes + numberBytes (a.fdiv b)) ≤ heapEnd →
      BothReturn config (.binary .number .idiv left right)
        (leftBytes + rightBytes + numberBytes (a.fdiv b)) fun word m result =>
          word.toInt = a.tdiv b ∧ m.readBigint result = .ok (a.fdiv b) ∧
            a.tdiv b = a.fdiv b + 1 := by
  constructor
  · intro ty e x h hx hroom
    have htruncating := Expr.evaluate_congr Division.exact_extends_truncating hx
    have hflooring := Expr.evaluate_congr Division.exact_extends_flooring hx
    refine (formula_both hcheck hpages h htruncating hflooring hroom).imp ?_
    rintro word m result ⟨hword, hresult⟩
    have hty := h.value_ty hx
    constructor
    · rintro rfl
      obtain ⟨value, hvalue⟩ := Quantity.ty_eq_number hty
      rw [hvalue] at hword hresult
      exact hresult.trans (congrArg Except.ok (Eq.symm hword))
    · rintro rfl
      obtain ⟨value, hvalue⟩ := Quantity.ty_eq_bool hty
      rw [hvalue] at hword hresult
      exact hresult.trans hword.symm
  · intro left right a b leftBytes rightBytes hl hr hleft hright hsigns hrest hroom
    have hne : b ≠ 0 := by
      rintro rfl
      simp at hsigns
    obtain ⟨hfits, hfits'⟩ := Division.fits_quotients (hl.fits_of_evaluate hleft) hsigns hrest
    have htruncated :=
      Expr.evaluate_idiv (Expr.evaluate_congr Division.exact_extends_truncating hleft)
      (Expr.evaluate_congr Division.exact_extends_truncating hright) (decide_eq_true hne) hfits
    have hfloored := Expr.evaluate_idiv (Expr.evaluate_congr Division.exact_extends_flooring hleft)
      (Expr.evaluate_congr Division.exact_extends_flooring hright) (decide_eq_true hne) hfits'
    refine (formula_both hcheck hpages (.arithmetic (by decide) hl hr) htruncated hfloored
      hroom).imp ?_
    rintro word m result ⟨hword, hresult⟩
    exact ⟨hword, hresult, Division.tdiv_eq_fdiv_add_one hsigns hrest⟩

namespace Numbers

def minusSeven : Expr := .unary .number .neg (.literal .number (.num 7))

def tripled (divisor : Int) : Expr :=
  .binary .bool .lte
    (.binary .number .mul (.binary .number .idiv minusSeven (.literal .number (.num divisor)))
      (.literal .number (.num 3)))
    minusSeven

def halved : Expr := .binary .number .idiv minusSeven (.literal .number (.num 2))

theorem minusSeven_agrees : BothReturn {} (tripled (-2)) 72 (fun word _ result => result = word) ∧
    outcome? (Config.withNumbers {} .bigint) (tripled (-2)).statement = some (.ok 0, []) ∧
    BothReturn {} halved 36 (fun word m result => word.toInt = -3 ∧
      m.readBigint result = .ok (-4)) ∧
    outcome? (Config.withNumbers {} .bigint) halved.statement = some (.ok 65564, []) := by
  have hagree := @number_representations_agree {} rfl (by decide)
  have hseven : Formula .number minusSeven := .neg (.number 7)
  refine ⟨?_, by decide +kernel, ?_, by decide +kernel⟩
  · have hformula : Formula .bool (tripled (-2)) :=
      .comparison (by decide)
        (.arithmetic (by decide) (.arithmetic (by decide) hseven (.number (-2))) (.number 3)) hseven
    have hvalue : (tripled (-2)).evaluate .exact = some ⟨.truth false, 72⟩ := by decide
    exact (hagree.1 _ _ _ hformula hvalue (by decide)).imp fun _ _ _ h => h.2 rfl
  · refine (hagree.2 minusSeven (.literal .number (.num 2)) (-7) 2 20 8 hseven (.number 2)
      (by decide) (by decide) (by decide) (by decide) (by decide)).imp ?_
    rintro word m result ⟨hword, hresult, -⟩
    exact ⟨hword, hresult⟩

end Numbers

end TypedWasm
