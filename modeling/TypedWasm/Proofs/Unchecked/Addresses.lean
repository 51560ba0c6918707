import TypedWasm.Proofs.Balance
import TypedWasm.Proofs.Exact.Runs

/-!
# Element addresses with and without index checks

With checks the address of a list element comes from a call, without them from five instructions in
place. A call that does not end at a check gives the same address and takes more fuel.
-/

namespace TypedWasm

open Exec HelperBody

/-- The address of a list element, computed in place. -/
def Unchecked.inlineAddress : Code :=
  [.constU wordSize, .mul, .add, .constU Block.headerSize, .add]

/-- Whether a trap is one that index checks and resource limits have no part in. -/
def Trap.isSettled : Trap → Bool
  | .unreachable | .divideByZero | .integerOverflow | .keyError _ | .unpackError _ _ => true
  | _ => false

/-- Whether a listing ends without a trap, or at a settled one. -/
def Flow.isSettled : Flow → Bool
  | .trap reason => reason.isSettled
  | _ => true

/-- Whether a call returns, or ends at a settled trap. -/
def Trap.settles : Except Trap Word → Bool
  | .ok _ => true
  | .error reason => reason.isSettled

namespace Unchecked

variable {s : State} {functions : List Func}

def elementAddress (list index : Word) : Word :=
  list + index * Word.ofUInt32 wordSize + Word.ofUInt32 Block.headerSize

/-- What the checked call gives: it compares the index with the size of the list. -/
def checkedAddress (m : Machine) (list index : Word) : Except Trap Word := do
  let size ← m.loadWord list Block.sizeOffset
  if Word.ofBool (index < 0) ||| Word.ofBool (index ≥ size) ≠ 0 then .error (.indexError index size)
  else .ok (elementAddress list index)

section ElementAddress

variable {m : Machine} {list index : Word}

theorem checkedAddress_of_settles (h : Trap.settles (checkedAddress m list index) = true) :
    checkedAddress m list index = .ok (elementAddress list index) := by
  rw [checkedAddress] at h ⊢
  cases hload : m.loadWord list Block.sizeOffset with
  | error trap =>
    rw [hload] at h
    rw [Machine.loadWord] at hload
    split at hload <;> cases hload
    cases h
  | ok size =>
    rw [hload] at h
    refine if_neg fun houtside => ?_
    rw [show (Except.ok size >>= _) = _ from if_pos houtside] at h
    cases h

/-- **The checked call** takes its time, and changes nothing. -/
theorem elementAddress_answers (m : Machine) (list index : Word) :
    Answers m listElementAddress [list, index] (checkedAddress m list index) m := by
  rw [checkedAddress]
  generalize hcall : Frame.ofCall listElementAddress [list, index] = frame
  have hl : frame.get? "list" = some list := hcall ▸ rfl
  have hi : frame.get? "index" = some index := hcall ▸ rfl
  have hstart :
      Ends [.localGet "index", .const 0, .numeric .ltS, .localGet "index", .localGet "list"]
      ⟨m, frame, []⟩ .next ⟨m, frame, [list, index, Word.ofBool (index < 0)]⟩ :=
    .straight (by simp only [Exec.straight, step, State.push, hl, hi, numeric])
  cases hload : m.loadWord list Block.sizeOffset with
  | error trap =>
    have hstops : Ends [.load Block.sizeOffset] ⟨m, frame, [list, index, Word.ofBool (index < 0)]⟩
        (.trap trap) ⟨m, frame, [list, index, Word.ofBool (index < 0)]⟩ := by
      refine .leave fun fuel => ?_
      simp only [step, refuel, State.equip, Machine.loadWord_equip, hload]
    subst hcall
    exact .ofTrap (hstart.append (hstops.stop (by simp) (listElementAddress.body.drop 6)))
  | ok size =>
    have htest : Ends [.load Block.sizeOffset, .numeric .geS, .numeric .or]
        ⟨m, frame, [list, index, Word.ofBool (index < 0)]⟩ .next
        ⟨m, frame, [Word.ofBool (index < 0) ||| Word.ofBool (index ≥ size)]⟩ :=
      .straight (by simp only [Exec.straight, step, hload, numeric])
    show Answers m _ _ (if Word.ofBool (index < 0) ||| Word.ofBool (index ≥ size) ≠ 0 then _ else _)
      m
    split
    · next houtside =>
      have hreport := Ends.reports [.localGet "index", .localGet "list", .load Block.sizeOffset]
        houtside (show Exec.straight _ ⟨m, frame, []⟩ = some ⟨m, frame, [size, index]⟩ by
          simp only [Exec.straight, step, State.push, hl, hi, hload])
        rfl (show m.host .indexError _ = _ from rfl)
      subst hcall
      exact .ofTrap (hstart.append (htest.append
        (hreport.stop (by simp) (listElementAddress.body.drop 9))))
    · next hinside =>
      have haddress : list + Word.ofUInt32 Block.headerSize + index * Word.ofUInt32 wordSize =
          elementAddress list index := by
        rw [elementAddress, Int32.add_assoc, Int32.add_comm (Word.ofUInt32 _), ← Int32.add_assoc]
      have hcomputed : Ends [.localGet "list", .constU Block.headerSize, .add, .localGet "index",
          .constU wordSize, .mul, .add] ⟨m, frame, []⟩ .next ⟨m, frame,
            [elementAddress list index]⟩ :=
        .straight (by simp only [Instr.constU, Instr.add, Instr.mul, Exec.straight, step,
          State.push, hl, hi, numeric, haddress])
      subst hcall
      exact .ofBody
        (hstart.append (htest.append ((Ends.skip _ (not_not.1 hinside)).append hcomputed)))
        (.inl rfl) rfl

/-- If the checked call settles it gives the address that is otherwise computed in place, changes
nothing but fuel, and takes more of it. -/
theorem call_elementAddress
    (hsettled : Trap.settles (call exec m listElementAddress [list, index]).1 = true) :
    ∃ fuel, fuel + 5 ≤ m.fuel ∧ call exec m listElementAddress [list, index] =
      (.ok (elementAddress list index), m.equip m.functions fuel) := by
  obtain ⟨cost, hends, hshort⟩ := elementAddress_answers m list index
  rcases Nat.lt_or_ge m.fuel cost with hless | hge
  · obtain ⟨cut, hcut⟩ := hshort m.fuel hless
    rw [show call exec m _ _ = _ from hcut] at hsettled
    cases hsettled
  · obtain ⟨left, hleft⟩ := Nat.exists_eq_add_of_le hge
    have hrun := hends left
    rw [← hleft] at hrun
    rw [show call exec m _ _ = _ from hrun] at hsettled ⊢
    have hok := checkedAddress_of_settles hsettled
    rw [hok]
    -- The first five instructions alone take as much as the address in place.
    have hcost : 5 ≤ cost := by
      rcases exec_straight (by decide) (show straight (listElementAddress.body.take 5)
        ⟨m, .ofCall listElementAddress [list, index], []⟩ = some _ from rfl) m.functions cost
        (listElementAddress.body.drop 5) with ⟨-, hcut⟩ | ⟨_, hlength, -⟩
      · have hbody := hends 0
        change (exec listElementAddress.body ⟨{ m with fuel := cost + 0 }, .ofCall _ _, []⟩).1 = _
          at hcut
        rw [hok, call, show exec _ _ = (.trap .outOfFuel, _) from Prod.ext hcut rfl] at hbody
        cases hbody
      · exact hlength ▸ Nat.le_add_left _ _
    exact ⟨left, by omega, rfl⟩

end ElementAddress

theorem settled_of_andThen {result : Result} {next : State → Result}
    (h : (andThen result next).1.isSettled = true) : result.1.isSettled = true := by
  obtain ⟨_ | _ | _ | _, t⟩ := result
  · rfl
  · rfl
  · rfl
  · exact h

theorem callNamed_elementAddress
    (haddress : ∀ fn, functions.find? (·.name == Helper.listElementAddress.name) = some fn →
      fn = listElementAddress) (hs : s.machine.functions = functions)
    (hsettled : (callNamed exec Helper.listElementAddress.name s).1.isSettled = true) :
    ∃ list index below fuel, s.stack = index :: list :: below ∧ fuel + 5 ≤ s.machine.fuel ∧
      callNamed exec Helper.listElementAddress.name s =
        (.next, State.equip { s with stack := elementAddress list index :: below }
          functions fuel) := by
  rw [callNamed] at hsettled ⊢
  split at hsettled
  · cases hsettled
  · next fn hfind =>
    obtain rfl := haddress fn (by rw [← hs]; exact hfind)
    obtain ⟨m, locals, stack⟩ := s
    rcases stack with _ | ⟨index, _ | ⟨list, below⟩⟩
    · cases hsettled
    · cases hsettled
    · have hargs : popArgs? (index :: list :: below)
          listElementAddress.params.length = some ([list, index], below) := by
        simp [popArgs?, listElementAddress]
      simp only [hargs] at hsettled
      have hcall : Trap.settles (call exec m listElementAddress [list, index]).1 =
          true := by
        rcases hc : call exec m listElementAddress [list, index] with ⟨_ | _, _⟩
        · rw [hc] at hsettled
          exact hsettled
        · rfl
      obtain ⟨fuel, hfuel, hvalue⟩ := call_elementAddress hcall
      refine ⟨list, index, below, fuel, rfl, hfuel, ?_⟩
      simp only [hargs, hvalue, afterCall, ← hs]
      rfl

end Unchecked

end TypedWasm
