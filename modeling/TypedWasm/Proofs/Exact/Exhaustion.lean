import TypedWasm.Proofs.Heap.Allocation
import TypedWasm.Session

/-!
# Failed allocations

The generated code stores the new head before it asks for the pages below it, so after an allocation
that fails every later one fails as well, however small. The host asks first: where it fails, the
machine is as before.
-/

namespace TypedWasm

open Exec Memory Word

namespace Allocation

/-- The stored head needs more pages than there are and than the limit allows. -/
structure Overrun (m : Machine) (head : Nat) : Prop where
  word : m.heapHead = Word.ofNat head
  room : 1 ≤ m.pages
  counted : m.pages ≤ 65536
  full : max m.memory.pages m.maxPages < pagesBelow head

/-- The machine after a failed allocation: the head is moved, and nothing else. -/
def overrun (m : Machine) (head : Nat) : Machine :=
  { m with memory := m.memory.setWord 0 (Word.ofNat head) }

variable {m : Machine} {frame : Frame} {head : Nat} {size : UInt32} {code : Code}

theorem headInside (hroom : 1 ≤ m.pages) : 4 ≤ m.memory.size :=
  Nat.le_trans (by decide) (Nat.mul_le_mul_left 65536 hroom)

theorem Requests.fails (h : Requests code frame size) (hhead : m.heapHead = Word.ofNat head)
    (hroom : 1 ≤ m.pages) (hcounted : m.pages ≤ 65536) (hend : head + size.toNat ≤ heapEnd)
    (hfull : max m.memory.pages m.maxPages < pagesBelow (head + size.toNat)) (stack : List Word) :
    Ends code ⟨m, frame, stack⟩ (.trap .unreachable)
        ⟨overrun m (head + size.toNat), frame, Word.ofNat head :: stack⟩ ∧
      Overrun (overrun m (head + size.toNat)) (head + size.toNat) := by
  obtain ⟨instr, hpushes, rfl⟩ := h.eq_bump
  have hbump := bump_outcome hpushes hhead (headInside hroom) hend
    (Nat.lt_of_le_of_lt hcounted (by decide)) stack
  rw [if_neg (Nat.not_le.2 hfull)] at hbump
  exact ⟨hbump, word_setWord (by decide) _, hroom, hcounted, hfull⟩

/-- Requests made one after another, each from the machine that the one before left, all fail. -/
def AllFail : List UInt32 → Machine → Prop
  | [], _ => True
  | size :: rest, m => ∀ code frame stack, Requests code frame size →
    ∃ m' stack', Ends code ⟨m, frame, stack⟩ (.trap .unreachable) ⟨m', frame, stack'⟩ ∧
      AllFail rest m'

theorem Overrun.allFail (h : Overrun m head) (sizes : List UInt32)
    (hend : head + (sizes.map UInt32.toNat).sum ≤ heapEnd) : AllFail sizes m := by
  induction sizes generalizing m head with
  | nil => trivial
  | cons size rest ih =>
    rw [List.map_cons, List.sum_cons] at hend
    intro code frame stack hrequest
    have hfull := Nat.lt_of_lt_of_le h.full (pagesBelow_mono (Nat.le_add_right head size.toNat))
    obtain ⟨hends, hover⟩ := hrequest.fails h.word h.room h.counted (by omega) hfull stack
    exact ⟨_, _, hends, ih hover (by omega)⟩

/-- The host fails where there are not enough pages, and leaves the machine as it is. -/
theorem allocateBigint_full (hhead : m.heapHead = Word.ofNat head) (value : Int)
    (hend : head + 4 * (Lowering.bigintWords value).length ≤ heapEnd)
    (hfull : max m.memory.pages m.maxPages <
      pagesBelow (head + 4 * (Lowering.bigintWords value).length)) :
    ∃ trap, m.allocateBigint value = (.error trap, m) := by
  rw [Machine.allocateBigint_eq hhead value hend]
  split
  · exact ⟨_, rfl⟩
  · rw [if_neg (Nat.not_le.2 hfull)]
    exact ⟨_, rfl⟩

end Allocation

/-- **What a failed allocation leaves behind.** The head is moved although the run stopped, no later
allocation succeeds, by the code or by the host, and a host that asks for as many bytes in place of
the code leaves the machine as it was. -/
theorem failed_allocation_exhausts {m : Machine} {frame : Frame} {head : Nat} {size : UInt32}
    {code : Code} (stack : List Word) (hcode : Allocation.Requests code frame size)
    (hhead : m.heapHead = Word.ofNat head) (hroom : 1 ≤ m.pages) (hinside : head ≤ 65536 * m.pages)
    (hend : head + size.toNat ≤ 2 ^ 32 - 65536) (hpages : m.pages ≤ 65536)
    (htraps : ∃ trap t, Ends code ⟨m, frame, stack⟩ (.trap trap) t) :
    let m' := { m with memory := m.memory.setWord 0 (Word.ofNat (head + size.toNat)) }
    Ends code ⟨m, frame, stack⟩ (.trap .unreachable) ⟨m', frame, Word.ofNat head :: stack⟩ ∧
      m'.heapHead = Word.ofNat (head + size.toNat) ∧ m'.heapHead ≠ m.heapHead ∧
      (∀ sizes, head + size.toNat + (sizes.map UInt32.toNat).sum ≤ 2 ^ 32 - 65536 →
        Allocation.AllFail sizes m') ∧
      (∀ value, head + size.toNat + 4 * (Lowering.bigintWords value).length ≤ 2 ^ 32 - 65536 →
        ∃ trap, m'.allocateBigint value = (.error trap, m')) ∧
      ∀ value, size.toNat ≤ 4 * (Lowering.bigintWords value).length →
        head + 4 * (Lowering.bigintWords value).length ≤ 2 ^ 32 - 65536 →
        ∃ trap, m.allocateBigint value = (.error trap, m) := by
  intro m'
  -- with the pages at hand or allowed, the code would have gone on
  have hfull : max m.memory.pages m.maxPages < pagesBelow (head + size.toNat) := by
    by_contra hfits
    obtain ⟨instr, hpushes, rfl⟩ := hcode.eq_bump
    obtain ⟨trap, t, hends⟩ := htraps
    have hbump := Allocation.bump_outcome hpushes hhead (Allocation.headInside hroom) hend
      (Nat.lt_of_le_of_lt hpages (by decide)) stack
    rw [if_pos (Nat.le_of_not_lt hfits)] at hbump
    cases hends.flow_unique hbump
  obtain ⟨hends, hover⟩ := hcode.fails hhead hroom hpages hend hfull stack
  refine ⟨hends, hover.word, fun hsame => ?_, fun sizes => hover.allFail sizes, fun value hlast =>
    ?_, fun value hsize hlast => ?_⟩
  · -- a request for nothing needs no pages, so the head did move
    have hsame' := congrArg Word.toAddress (hover.word.symm.trans (hsame.trans hhead))
    rw [toAddress_ofNat (by omega), toAddress_ofNat (by omega)] at hsame'
    rw [hsame', pagesBelow_eq] at hfull
    have hone : m.memory.pages = m.pages := rfl
    omega
  · exact Allocation.allocateBigint_full hover.word value hlast
      (Nat.lt_of_lt_of_le hover.full (pagesBelow_mono (Nat.le_add_right _ _)))
  · exact Allocation.allocateBigint_full hhead value hlast
      (Nat.lt_of_lt_of_le hfull (pagesBelow_mono (Nat.add_le_add_left hsize _)))

namespace Allocation

/-- A machine of one page, which it may not pass, with eight bytes left. -/
def brim : Machine where
  memory := ({ pages := 1 } : Memory).setWord 0 (Word.ofNat 65528)
  pageLimit := some 1

/-- Sixteen bytes do not fit, and after that four do not either. -/
theorem brim_exhausted : Ends (static 16) ⟨brim, [], []⟩ (.trap .unreachable)
        ⟨overrun brim 65544, [], [Word.ofNat 65528]⟩ ∧ AllFail [4] (overrun brim 65544) := by
  have hhead : brim.heapHead = Word.ofNat 65528 := word_setWord (by decide) _
  have hpages : brim.pages = 1 := rfl
  have hrequest : Requests (static 16) [] 16 := .inl rfl
  have htraps := hrequest.fails hhead (by decide) (by decide) (by decide) (by decide) []
  obtain ⟨hends, -, -, hlater, -⟩ := failed_allocation_exhausts [] hrequest hhead (by decide)
    (by decide) (by decide) (by decide) ⟨_, _, htraps.1⟩
  exact ⟨hends, hlater [4] (by decide)⟩

end Allocation

/-- What units run one after the other in a session come to, each with the heap head after it. -/
def Session.outcomes (s : Session) : List Program → List (Except Trap Word × Word)
  | [] => []
  | program :: rest =>
    match s.compile program with
    | .error _ => []
    | .ok (u, s) => ((s.run u).1, (s.run u).2.machine.heapHead) :: (s.run u).2.outcomes rest

namespace Allocation

/-- A session on one page with 36 bytes left. -/
def tight : Session :=
  (Session.start?
    { heapStart := 65500, minMemoryPages := 1, maxMemoryPages := some 1 }).toOption.getD
    default

def spelling (text : String) : Program where
  stmts := [.expr (.ofLiteral (.string text))]

/-- A string that does not fit takes the room from one that does. -/
theorem tight_loses_room : tight.outcomes [spelling "b"] = [(.ok 65500, 65508)] ∧
      tight.outcomes [spelling "abcdefghij", spelling "b"] =
        [(.error .unreachable, 65544), (.error .unreachable, 65552)] := by
  decide +kernel

end Allocation

end TypedWasm
