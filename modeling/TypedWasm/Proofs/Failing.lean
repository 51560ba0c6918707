import TypedWasm.Lowering.Basic

/-!
# Steps that may fail

How a chain of steps that succeeded is taken apart. A step is an `Except` computation or a step of
lowering; a chain succeeds exactly when each of its steps does.
-/

namespace TypedWasm

namespace Failing

variable {ε ε' α β : Type}

theorem bind_eq_ok_iff {step : Except ε α} {next : α → Except ε β} {result : β} :
    (step >>= next) = .ok result ↔ ∃ value, step = .ok value ∧ next value = .ok result := by
  cases step with
  | error fault => simp [bind, Except.bind]
  | ok value => simp [bind, Except.bind]

theorem pure_eq_ok_iff {value result : α} :
    (pure value : Except ε α) = .ok result ↔ value = result := by
  simp [pure, Except.pure]

@[simp] theorem mapError_ok (change : ε → ε') (value : α) :
    (Except.ok value : Except ε α).mapError change = .ok value := rfl

@[simp] theorem mapError_error (change : ε → ε') (failure : ε) :
    (Except.error failure : Except ε α).mapError change = .error (change failure) := rfl

theorem mapError_eq_ok_iff {step : Except ε α} {change : ε → ε'} {value : α} :
    step.mapError change = .ok value ↔ step = .ok value := by
  cases step <;> simp

theorem mapM_cons_eq_ok_iff {f : α → Except ε β} {first : α} {rest : List α} {results : List β} :
    (first :: rest).mapM f = .ok results ↔
      ∃ value values, f first = .ok value ∧ rest.mapM f = .ok values ∧
        results = value :: values := by
  simp only [List.mapM_cons, bind_eq_ok_iff, pure_eq_ok_iff]
  constructor
  · rintro ⟨value, hvalue, values, hvalues, rfl⟩
    exact ⟨value, values, hvalue, hvalues, rfl⟩
  · rintro ⟨value, values, hvalue, hvalues, rfl⟩
    exact ⟨value, hvalue, values, hvalues, rfl⟩

theorem forM_eq_ok_iff {f : α → Except ε Unit} {items : List α} :
    items.forM f = .ok () ↔ ∀ item ∈ items, f item = .ok () := by
  induction items with
  | nil => exact ⟨fun _ _ h => absurd h List.not_mem_nil, fun _ => rfl⟩
  | cons first rest ih =>
    have hcons : (first :: rest).forM f = f first >>= fun _ => rest.forM f := rfl
    rw [hcons, bind_eq_ok_iff, List.forall_mem_cons, ← ih]
    exact ⟨fun ⟨_, hfirst, hrest⟩ => ⟨hfirst, hrest⟩, fun ⟨hfirst, hrest⟩ => ⟨(), hfirst, hrest⟩⟩

end Failing

namespace Lower

open Lowering

variable {α β : Type} {context : Context} {progress progress' : Progress}

def run (step : Lower α) (context : Context) (progress : Progress) : Except Failure α × Progress :=
  step context progress

theorem run_bind (step : Lower α) (next : α → Lower β) :
    (step >>= next).run context progress =
      match step.run context progress with
      | (.ok value, between) => (next value).run context between
      | (.error failure, between) => (.error failure, between) := rfl

@[simp] theorem bind_eq_ok_iff {step : Lower α} {next : α → Lower β} {result : β} :
    (step >>= next).run context progress = (.ok result, progress') ↔
      ∃ value between, step.run context progress = (.ok value, between) ∧
        (next value).run context between = (.ok result, progress') := by
  rw [run_bind]
  rcases step.run context progress with ⟨_ | value, between⟩
  · simp
  · constructor
    · intro h
      exact ⟨value, between, rfl, h⟩
    · rintro ⟨_, _, ⟨rfl, rfl⟩, h⟩
      exact h

@[simp] theorem pure_eq_ok_iff {value result : α} :
    (Pure.pure value : Lower α).run context progress = (.ok result, progress') ↔
      value = result ∧ progress = progress' := by
  simp [Pure.pure, Lower.pure, run]

@[simp] theorem fail_eq_ok_iff {fault : Fault} {result : α} :
    (Lower.fail fault : Lower α).run context progress = (.ok result, progress') ↔ False := by
  simp [Lower.fail, run]

@[simp] theorem context_eq_ok_iff {found : Context} :
    Lower.context.run context progress = (.ok found, progress') ↔
      context = found ∧ progress = progress' := by
  simp [Lower.context, run]

@[simp] theorem ofResult_eq_ok_iff {result : Except Failure α} {value : α} :
    (Lower.ofResult result).run context progress = (.ok value, progress') ↔
      result = .ok value ∧ progress = progress' := by
  simp [Lower.ofResult, run]

@[simp] theorem ofLookup_eq_ok_iff {result : Except Fault α} {value : α} :
    (Lower.ofLookup result).run context progress = (.ok value, progress') ↔
      result = .ok value ∧ progress = progress' := by
  simp [Lower.ofLookup, Failing.mapError_eq_ok_iff]

@[simp] theorem ofChecked_eq_ok_iff {result : Checked α} {value : α} :
    (Lower.ofChecked result).run context progress = (.ok value, progress') ↔
      result = .ok value ∧ progress = progress' := by
  simp [Lower.ofChecked, Failing.mapError_eq_ok_iff]

end Lower

end TypedWasm
