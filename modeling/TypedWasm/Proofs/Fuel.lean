import TypedWasm.Proofs.Renamed.Runs

/-!
# Fuel is only a cutoff

A run that ends for any reason but a lack of fuel ends alike with more fuel, and what was added is
left over. So a run that lacks fuel lacks it with less as well.
-/

namespace TypedWasm

open Exec Machine

def Machine.refilled (m : Machine) (extra : Nat) : Machine := { m with fuel := m.fuel + extra }

theorem Machine.call_refilled (m : Machine) (name : String) (args : List Word) (extra : Nat)
    (hends : (m.call name args).1 ≠ .error .outOfFuel) :
    (m.refilled extra).call name args =
      ((m.call name args).1, (m.call name args).2.refilled extra) := by
  have hwithin : ∀ callee : Callee, callee.Within fun _ => True := fun callee => by
    cases callee <;> trivial
  have hlink : LinkedBy (.refilled extra) (fun _ => True) m.functions m.functions :=
    .of_same id (fun _ _ => rfl) fun _ _ _ _ callee _ => hwithin callee
  have hsame : (m.refilled extra).function? name = m.function? name := rfl
  rw [call_eq] at hends
  rw [call_eq, call_eq, hsame]
  cases hfn : m.function? name with
  | none => rfl
  | some fn =>
    rw [hfn] at hends
    dsimp only at hends ⊢
    have hreturns : (Mode.refilled extra).returns (Exec.call exec m fn args).1 = true := by
      rcases hr : (Exec.call exec m fn args).1 with trap | word
      · exact bne_iff_ne.2 fun he => hends (hr.trans (congrArg Except.error he))
      · rfl
    obtain ⟨fuel, rfl, hmore⟩ := Renamed.call_repeats (Renamed.runs_repeat hlink (m.fuel + 1)).1
      ⟨rfl, rfl, .refl_of fn.body (fun callee _ => hwithin callee) 0⟩ args rfl (Nat.lt_succ_self _)
        rfl hreturns
    refine hmore.trans (Prod.ext rfl ?_)
    rw [← (call_follows exec_keeps m fn args).functions]
    rfl

/-- **Fuel is only a cutoff.** A call that does not lack fuel ends alike with more of it, the
further fuel being left over. A call that lacks fuel lacks it with less as well. -/
theorem fuel_only_cuts (m : Machine) (name : String) (args : List Word) :
    (∀ outcome after, m.call name args = (outcome, after) → outcome ≠ .error .outOfFuel →
      ∀ extra, { m with fuel := m.fuel + extra }.call name args =
        (outcome, { after with fuel := after.fuel + extra })) ∧
      ((m.call name args).1 = .error .outOfFuel →
        ∀ fuel ≤ m.fuel, ({ m with fuel }.call name args).1 = .error .outOfFuel) := by
  constructor
  · intro outcome after hcall hends extra
    have hmore := m.call_refilled name args extra
    rw [hcall] at hmore
    exact hmore hends
  · intro hlacks fuel hle
    obtain ⟨extra, hextra⟩ := Nat.exists_eq_add_of_le hle
    have hm : ({ m with fuel } : Machine).refilled extra = m := by
      rw [Machine.refilled, ← hextra]
    by_contra hends
    have hmore := Machine.call_refilled { m with fuel } name args extra hends
    rw [hm] at hmore
    rw [hmore] at hlacks
    exact hends hlacks

namespace Fuel

/-- Counts its parameter down to zero in a loop. -/
def counting : Func where
  name := "count"
  params := ["n"]
  body := [.loop [.localGet "n", .const 1, .numeric .sub, .localTee "n", .brIf 0], .localGet "n"]

def counter : Machine := { memory := { pages := 1 }, functions := [counting], fuel := 20 }

/-- Three rounds need seventeen units, so twenty are enough and ten are not. -/
theorem counter_outlasts : ({ counter with fuel := 25 }.call "count" [3]).1 = .ok 0 ∧
      ({ counter with fuel := 25 }.call "count" [3]).2.fuel = 8 ∧
      ({ counter with fuel := 7 }.call "count" [3]).1 = .error .outOfFuel := by
  have hends : (counter.call "count" [3]).1 = .ok 0 := by decide +kernel
  have hleft : (counter.call "count" [3]).2.fuel = 3 := by decide +kernel
  have hlacks : ({ counter with fuel := 10 }.call "count" [3]).1 = .error .outOfFuel := by
    decide +kernel
  have hmore := (fuel_only_cuts counter "count" [3]).1 _ _ rfl nofun 5
  refine ⟨(congrArg Prod.fst hmore).trans hends, ?_,
    (fuel_only_cuts { counter with fuel := 10 } "count" [3]).2 hlacks 7 (by decide)⟩
  exact (congrArg (·.2.fuel) hmore).trans (congrArg (· + 5) hleft)

end Fuel

end TypedWasm
