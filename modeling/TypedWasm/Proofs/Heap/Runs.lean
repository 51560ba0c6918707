import TypedWasm.Proofs.Exact.Runs

/-!
# Runs that end as expected

A run that stays within its fuel and its memory ends in a state with a given property. Which traps
are exceptions besides running out of fuel is a parameter.
-/

namespace TypedWasm.Exec

/-- A run that reaches its end in an expected state, or runs out of fuel, or stops for an excused
reason. -/
inductive Reaches (excused : Trap → Prop) (expected : State → Prop) (result : Result) : Prop where
  | cut (h : result.1 = .trap .outOfFuel)
  | excuse {trap : Trap} (h : result.1 = .trap trap) (hexcused : excused trap)
  | done {s : State} (h : result = (.next, s)) (hexpected : expected s)

namespace Reaches

variable {s : State} {code : Code} {rest : Code}

variable {excused excused' : Trap → Prop} {expected expected' : State → Prop} {result : Result}

theorem mono (h : Reaches excused expected result) (hexcused : ∀ trap, excused trap → excused' trap)
    (hexpected : ∀ s, expected s → expected' s) : Reaches excused' expected' result := by
  cases h with
  | cut h => exact .cut h
  | excuse h htrap => exact .excuse h (hexcused _ htrap)
  | done h hs => exact .done h (hexpected _ hs)

theorem append {first : Code} (h : Reaches excused expected (exec first s))
    (hrest : ∀ t, expected t → Reaches excused expected' (exec rest t)) :
    Reaches excused expected' (exec (first ++ rest) s) := by
  rw [exec_append]
  cases h with
  | cut h =>
    rw [andThen_of_trap h]
    exact .cut h
  | excuse h htrap =>
    rw [andThen_of_trap h]
    exact .excuse h htrap
  | done h ht =>
    rw [h]
    exact hrest _ ht

theorem nil (h : expected s) : Reaches excused expected (exec [] s) := .done rfl h

theorem of_ends {t : State} {flow : Flow} (h : Ends code s flow t)
    (hend : ∀ fuel, Reaches excused expected (flow, refuel t fuel)) :
    Reaches excused expected (exec code s) := by
  rcases h.cut_or with hcut | ⟨fuel, hexec⟩
  · exact .cut hcut
  · rw [hexec]
    exact hend fuel

variable {m m' : Machine} {frame frame' : Frame} {stack stack' : List Word}

section

variable (h : Exec.straight code ⟨m, frame, stack⟩ = some ⟨m', frame', stack'⟩)
include h

theorem straightLine (hexpected : ∀ fuel, expected
      ⟨m'.equip m.functions fuel, frame', stack'⟩) (hatomic : ∀ i ∈ code, i.isAtomic = true := by
      simp [InstrOf.isAtomic, Instr.constU, Instr.add, Instr.sub, Instr.mul]) :
    Reaches excused expected (exec code ⟨m, frame, stack⟩) := by
  have hkept : m'.functions = m.functions := functions_straight h
  refine .of_ends (.straight h hatomic) fun fuel => .done rfl ?_
  have hend := hexpected fuel
  rwa [← hkept] at hend

theorem straight (hrest : ∀ fuel, Reaches excused expected (exec rest
      ⟨m'.equip m.functions fuel, frame', stack'⟩)) (hatomic : ∀ i ∈ code, i.isAtomic = true := by
      simp [InstrOf.isAtomic, Instr.constU, Instr.add, Instr.sub, Instr.mul]) :
    Reaches excused expected (exec (code ++ rest) ⟨m, frame, stack⟩) := by
  have hfirst : Reaches excused (fun t => Reaches excused expected (exec rest t))
      (exec code ⟨m, frame, stack⟩) := straightLine h hrest hatomic
  exact hfirst.append fun _ ht => ht

end

theorem single {instr : Instr} (h : Reaches excused expected (step exec looped instr s.burn)) :
    Reaches excused expected (exec [instr] s) := by
  rw [exec_cons]
  by_cases hfuel : s.machine.fuel = 0
  · rw [if_pos hfuel]
    exact .cut rfl
  · rwa [if_neg hfuel, andThen_nil]

theorem cond {yields : Bool} {thenBody elseBody : Code} {word : Word}
    (h : ∀ fuel, Reaches excused expected (exec (if word ≠ 0 then thenBody else elseBody)
      ⟨m.equip m.functions fuel, frame, stack⟩)) :
    Reaches excused expected (exec [.cond yields thenBody elseBody] ⟨m, frame, word :: stack⟩) := by
  refine .single ?_
  show Reaches excused expected (leaveBody (·) (exec (if word ≠ 0 then thenBody else elseBody)
    ⟨m.equip m.functions (m.fuel - 1), frame, stack⟩))
  have hbody := h (m.fuel - 1)
  rw [leaveBody_of_not_branch]
  · exact hbody
  · intro depth hbranch
    cases hbody with
    | cut h => cases h.symm.trans hbranch
    | excuse h _ => cases h.symm.trans hbranch
    | done h _ =>
      rw [h] at hbranch
      cases hbranch

theorem host {intrinsic : Intrinsic} (args : List Word) (harity : intrinsic.arity = args.length)
    (hvalue : ∀ word m', m.host intrinsic args = (.ok word, m') → ∀ fuel, expected
      ⟨m'.equip m.functions fuel, frame, word :: stack⟩)
    (htrap : ∀ trap m', m.host intrinsic args = (.error trap, m') → excused trap) :
    Reaches excused expected
      (exec [.callIntrinsic intrinsic] ⟨m, frame, args.reverse ++ stack⟩) := by
  refine .single ?_
  show Reaches excused expected (callHost intrinsic
    ⟨m.equip m.functions (m.fuel - 1), frame, args.reverse ++ stack⟩)
  rw [callHost, harity]
  simp only [popArgs?_reverse_append, Machine.host_equip]
  rcases hhost : m.host intrinsic args with ⟨trap | word, m'⟩
  · exact .excuse rfl (htrap trap m' hhost)
  · exact .done rfl (hvalue word m' hhost _)

end Reaches

end TypedWasm.Exec
