import TypedWasm.Proofs.Typed.Blocks
import TypedWasm.Proofs.Typed.Events

/-!
# Code that upholds the heap

A listing upholds the heap if, from a machine that agrees with a map of the heap, it never lowers
the heap head, never writes the word that holds it except to move it, and ends or traps in a machine
that agrees with a larger map. This is asked only of runs whose accesses go through no none and
whose block sizes do not wrap.
-/

namespace TypedWasm

open Machine Memory Word

namespace Exec.Event

/-- The allocator's own write of the heap head: what is written is the head and a size. -/
def IsHeadUpdate (e : Event) : Prop :=
  e.instr = .store 0 ∧ ∃ size : Instr,
    [.constU heapHeadAddress] ++ Allocation.loadHead ++ [size, .add] <:+ e.before

/-- The helpers that work out the size of the block they make. -/
def sizing : List Helper := [.listCopy, .listConcat, .listSlice, .strConcat]

/-- An instruction that neither reads nor writes through none, and that wraps no size: the new head
is not below the old one, and sums and products in the helpers that work out sizes fit. Only the
allocator reads the head. -/
structure Regular (e : Event) : Prop where
  load : ∀ offset address rest, e.instr = .load offset → e.state.stack = address :: rest →
    address = 0 → e.before.getLast? = some (.constU heapHeadAddress)
  store : ∀ offset value address rest, e.instr = .store offset →
    e.state.stack = value :: address :: rest → address = 0 → e.IsHeadUpdate
  update : ∀ value address rest, e.IsHeadUpdate → e.state.stack = value :: address :: rest →
    e.state.machine.heapHead.toAddress ≤ value.toAddress
  host : ∀ intrinsic, e.instr = .callIntrinsic intrinsic →
    e.state.machine.heapHead.toAddress ≤ e.result.2.machine.heapHead.toAddress
  sum : ∀ helper ∈ sizing, ∀ left right rest, e.owner = helper.name → e.instr = .add →
    e.state.stack = right :: left :: rest → left.toAddress + right.toAddress < 2 ^ 32
  product : ∀ helper ∈ sizing, ∀ left right rest, e.owner = helper.name → e.instr = .mul →
    e.state.stack = right :: left :: rest → left.toAddress * right.toAddress < 2 ^ 32

/-- The heap head is not below the start of the heap, the instruction does not lower it, and only
the allocator writes it. -/
structure Guarded (heapStart : Nat) (e : Event) : Prop where
  head_ge : heapStart ≤ e.state.machine.heapHead.toAddress
  rises : e.state.machine.heapHead.toAddress ≤ e.result.2.machine.heapHead.toAddress
  store : ∀ offset value address rest, e.instr = .store offset →
    e.state.stack = value :: address :: rest → Machine.effective address offset < 4 →
    e.IsHeadUpdate

end Exec.Event

/-- Whether an instruction leaves the memory as it is and only goes on to the next one. -/
def InstrOf.isQuiet {ι φ : Type} : InstrOf ι φ → Bool
  | .const _ | .localGet _ | .localSet _ | .localTee _ | .load _ | .numeric _ | .eqz | .memorySize
  | .drop | .nop => true
  | _ => false

theorem InstrOf.isAtomic_of_isQuiet {ι φ : Type} {instr : InstrOf ι φ}
    (h : instr.isQuiet = true) : instr.isAtomic = true := by
  cases instr <;> simp_all [isQuiet, isAtomic]

namespace Typed

open Exec

variable {instr : Instr} {code : Code} {address value left right : Word} {offset : UInt32}
  {args : List Word} {name : String} {intrinsic : Intrinsic}

theorem step_quiet (hquiet : instr.isQuiet = true) (s : State) :
    (step exec looped instr s).2.machine = s.machine ∧
      ((step exec looped instr s).1 = .next ∨
        ∃ trap, (step exec looped instr s).1 = .trap trap) := by
  obtain ⟨m, locals, stack⟩ := s
  cases instr with
  | const | memorySize | nop => exact ⟨rfl, .inl rfl⟩
  | localGet name =>
    simp only [step]
    split <;> simp [State.push]
  | localSet | localTee | load | numeric | eqz | drop =>
    rcases stack with _ | ⟨_, _ | _⟩ <;> simp only [step] <;> (try split) <;> simp
  | _ => simp [InstrOf.isQuiet] at hquiet

def refuel (s : State) (fuel : Nat) : State := s.equip s.machine.functions fuel

/-- What has to hold where a listing ends. -/
structure Post where
  next : Blocks → State → Prop
  branch : Nat → Blocks → State → Prop := fun _ _ _ => False
  ret : Blocks → State → Prop := fun _ _ => False

/-- The heap head does not go down. -/
def Rising (m m' : Machine) : Prop := m.heapHead.toAddress ≤ m'.heapHead.toAddress

instance : IsPreorder Machine Rising where
  refl _ := Nat.le_refl _
  trans _ _ _ := Nat.le_trans

/-- Steps that do not lower the head make a run that does not. -/
theorem rising_of_guarded {heapStart : Nat} {owner : String} {before : Code} {s : State}
    (h : Always (Event.Guarded heapStart) owner (.listing before code) s) :
    Rising s.machine (exec code s).2.machine :=
  moves_listing (fun _ => Nat.le_refl _) fun e he => (h e he).rises

/-- What has to hold where the body of a conditional ends. -/
def Post.inside (post : Post) (next : Blocks → State → Prop) : Post where
  next := next
  branch depth blocks s :=
    match depth with
    | 0 => next blocks s
    | depth + 1 => post.branch depth blocks s
  ret := post.ret

/-- The same, except where the listing reaches its end. -/
def Post.after (post : Post) (next : Blocks → State → Prop) : Post := { post with next }

/-- A result is as asked for. Nothing more is asked of a trap. -/
def Post.Holds (post : Post) (blocks : Blocks) : Result → Prop
  | (.next, s) => post.next blocks s
  | (.branch depth, s) => post.branch depth blocks s
  | (.ret, s) => post.ret blocks s
  | (.trap _, _) => True

/-- A listing upholds the heap when it runs with at most the given fuel. -/
def Upholds (setting : Setting) (fuel : Nat) (owner : String) (before code : Code)
    (blocks : Blocks) (s : State) (post : Post) : Prop :=
  Describes setting blocks s.machine → ∀ left ≤ fuel,
    Always Event.Regular owner (.listing before code) (refuel s left) →
    Always (Event.Guarded setting.heapStart) owner (.listing before code) (refuel s left) ∧
      ∃ blocks', blocks.Grow blocks' ∧
        Describes setting blocks' (exec code (refuel s left)).2.machine ∧
        post.Holds blocks' (exec code (refuel s left))

variable {setting : Setting} {fuel : Nat} {owner : String} {before rest : Code}
  {blocks : Blocks} {post : Post} {m : Machine} {locals : Frame} {stack : List Word} {s : State}

theorem Describes.refuel (h : Describes setting blocks s.machine) (left : Nat) :
    Describes setting blocks (refuel s left).machine := h.same rfl rfl

/-! ### The host -/

section Host

variable {words : List Word}

theorem writeWords_head (haddress : 4 ≤ address.toAddress) (words : List Word) (m : Machine)
    (offset : UInt32) : (m.writeWords address offset words).2.heapHead = m.heapHead := by
  induction words generalizing m offset with
  | nil => rfl
  | cons word rest ih =>
    rw [Machine.writeWords]
    split
    · next m' hm' =>
      rw [ih, (storeWord_eq_ok hm').2]
      exact heapHead_setWord m (Nat.le_add_right_of_le haddress) (effective_lt address offset) word
    · rfl

section

variable (h : Describes setting blocks m)
include h

theorem Describes.writeWords (hbelow : blocks.Below address.toAddress)
    (hlow : setting.heapStart ≤ address.toAddress)
    (hroom : address.toAddress + offset.toNat + 4 * words.length ≤ m.heapHead.toAddress) :
    Describes setting blocks (m.writeWords address offset words).2 := by
  induction words generalizing m offset with
  | nil => exact h
  | cons word rest ih =>
    rw [List.length_cons] at hroom
    have hpos := setting.heap_pos
    have hhead := Describes.head_lt m
    have hplace : Machine.effective address offset = address.toAddress + offset.toNat := rfl
    rw [Machine.writeWords]
    split
    · next m' hm' =>
      obtain ⟨-, rfl⟩ := storeWord_eq_ok hm'
      refine ih (h.writeSpare (by omega) (fun start kind hat => ?_) (by omega)) ?_
      · exact Nat.le_add_right_of_le (hbelow start kind hat)
      · rw [heapHead_setWord m (by omega) (effective_lt address offset), UInt32.toNat_add,
          Nat.mod_eq_of_lt (by show offset.toNat + 4 < _; omega)]
        show address.toAddress + (offset.toNat + 4) + _ ≤ _
        omega
    · exact h

theorem Describes.placeWords {after : Word}
    (hafter : after = m.heapHead + Word.ofNat (4 * words.length))
    (hshort : 4 * words.length < 2 ^ 32)
    (hrising : Rising m (m.placeWords m.heapHead after words).2) :
    Describes setting blocks (m.placeWords m.heapHead after words).2 := by
  have hpos := h.head_pos
  have hge := h.head_ge
  have hlt := Describes.head_lt m
  rw [Machine.placeWords] at hrising ⊢
  split
  · exact h
  · next m' hm' =>
    rw [hm'] at hrising
    obtain ⟨-, rfl⟩ := storeWord_eq_ok hm'
    have hhead : Machine.heapHead { m with memory := m.memory.setWord 0 after } = after :=
      word_setWord (by simp [heapHeadAddress, Memory.addressEnd]) after
    have hlast := writeWords_head (by omega : 4 ≤ m.heapHead.toAddress) words
      { m with memory := m.memory.setWord 0 after } 0
    rw [hhead] at hlast
    have hwritten : Rising m { m with memory := m.memory.setWord 0 after } →
        Describes setting blocks (Machine.writeWords { m with memory := m.memory.setWord 0 after }
          m.heapHead 0 words).2 := by
      intro hrising
      rw [Rising, hhead] at hrising
      refine (h.moveHead hrising).writeWords h.below_head h.head_ge ?_
      have hsum := toAddress_add m.heapHead (Word.ofNat (4 * words.length))
      rw [toAddress_ofNat hshort, ← hafter] at hsum
      have hzero : (0 : UInt32).toNat = 0 := rfl
      rw [hhead]
      omega
    have hfirst : Machine.effective (Word.ofUInt32 heapHeadAddress) 0 = 0 := rfl
    rcases hw : Machine.writeWords { m with memory := m.memory.setWord 0 after } m.heapHead 0 words
      with ⟨_ | _, m''⟩
    all_goals
      simp only [hfirst, hw] at hlast hwritten hrising ⊢
      refine hwritten ?_
      rw [Rising, hhead, ← hlast]
      exact hrising

theorem Describes.allocateBigint {value : Int} (hrising : Rising m (m.allocateBigint value).2) :
    Describes setting blocks (m.allocateBigint value).2 := by
  simp only [Machine.allocateBigint] at hrising ⊢
  generalize Lowering.bigintWords value = words at hrising ⊢
  have hcast : m.heapHead.toInt + 4 * (words.length : Int) =
      m.heapHead.toInt + (4 * words.length : Nat) := by push_cast; rfl
  have hafter := ofInt_toInt_add m.heapHead (4 * words.length)
  rw [← hcast] at hafter
  by_cases hover : 2147483647 < m.heapHead.toInt + 4 * (words.length : Int)
  · rw [if_pos hover]
    exact h
  · have hmin := Int32.le_toInt m.heapHead
    have hshort : 4 * words.length < 2 ^ 32 := by omega
    -- Growing changes only the number of pages.
    have hplaced : ∀ m' : Machine, m'.functions = m.functions → m'.memory.cells = m.memory.cells →
        Rising m (m'.placeWords m.heapHead
          (Word.ofInt (m.heapHead.toInt + 4 * (words.length : Int))) words).2 →
        Describes setting blocks (m'.placeWords m.heapHead
          (Word.ofInt (m.heapHead.toInt + 4 * (words.length : Int))) words).2 := by
      intro m' hfunctions hcells hrising
      have hhead : m'.heapHead = m.heapHead := by
        obtain ⟨⟨pages, cells⟩, _, _, _, _⟩ := m'
        obtain rfl : cells = m.memory.cells := hcells
        rfl
      rw [← hhead] at hrising hafter ⊢
      refine (h.same hfunctions hcells).placeWords hafter hshort ?_
      rw [Rising, hhead]
      rwa [hhead] at hrising
    rw [if_neg hover] at hrising ⊢
    by_cases hmore : m.pages <
      pagesBelow (Word.ofInt (m.heapHead.toInt + 4 * words.length)).toAddress
    · simp only [if_pos hmore] at hrising ⊢
      have hgrown : ∃ old m', m.grow (UInt32.ofNat (pagesBelow (Word.ofInt
          (m.heapHead.toInt + 4 * words.length)).toAddress - m.pages)) = (old, m') ∧
          m'.functions = m.functions ∧ m'.memory.cells = m.memory.cells := by
        simp only [Machine.grow]
        split
        · exact ⟨_, _, rfl, rfl, rfl⟩
        · exact ⟨_, _, rfl, rfl, rfl⟩
      obtain ⟨old, m', hgrown, hfunctions, hcells⟩ := hgrown
      rw [hgrown] at hrising ⊢
      dsimp only at hrising ⊢
      by_cases hroom : (old != -1) = true
      · rw [if_pos hroom] at hrising ⊢
        exact hplaced m' hfunctions hcells hrising
      · rw [if_neg hroom]
        exact h.same hfunctions hcells
    · simp only [if_neg hmore, if_true] at hrising ⊢
      exact hplaced m rfl rfl hrising

/-- The host keeps the machine in agreement with the map if it does not lower the head. -/
theorem Describes.host (hrising : Rising m (m.host intrinsic args).2) :
    Describes setting blocks (m.host intrinsic args).2 := by
  have hprinting : ∀ word text, Describes setting blocks (m.printing word text).2 := by
    rintro word (_ | _)
    · exact h
    · exact h.same rfl rfl
  revert hrising
  simp only [Machine.host]
  split
  case h_13 | h_14 | h_15 | h_16 | h_17 =>
    split
    · exact fun hrising => h.allocateBigint hrising
    · exact fun _ => h
  case h_18 =>
    split
    · exact fun _ => h
    · exact fun _ => h
  all_goals first | exact fun _ => hprinting _ _ | exact fun _ => h

end

end Host

namespace Upholds

variable {mid : Blocks → State → Prop} {helper : Helper} {depth : UInt32}

/-! ### Structure -/

theorem nil (h : ∀ left, post.next blocks (refuel s left)) :
    Upholds setting fuel owner before [] blocks s post :=
  fun hdescribes left _ _ => ⟨always_nil _, blocks, .refl _, hdescribes.refuel left, h left⟩

/-- The second listing starts from the map that the first one ends with. -/
theorem append {first second : Code}
    (hfirst : Upholds setting fuel owner before first blocks s (post.after mid))
    (hsecond : ∀ blocks' t, blocks.Grow blocks' → mid blocks' t →
      Upholds setting fuel owner (before ++ first) second blocks' t post) :
    Upholds setting fuel owner before (first ++ second) blocks s post := by
  intro hdescribes left hleft hregular
  obtain ⟨hregular, hafter⟩ := always_append_iff.1 hregular
  obtain ⟨hguarded, blocks', hgrow, hmid, hpost⟩ := hfirst hdescribes left hleft hregular
  have hkeeps := exec_keeps first (refuel s left)
  rw [always_append_iff, exec_append]
  rcases hr : exec first (refuel s left) with ⟨_ | depth | _ | _, t⟩
  · rw [hr] at hmid hpost hkeeps
    have hfuel : t.machine.fuel ≤ left := hkeeps.fuel
    obtain ⟨hguarded', blocks'', hgrow', hend, hpost'⟩ := hsecond blocks' t hgrow hpost hmid
      t.machine.fuel (Nat.le_trans hfuel hleft) (hafter t hr)
    refine ⟨⟨hguarded, fun u hu => ?_⟩, blocks'', hgrow.trans hgrow', hend, hpost'⟩
    cases hu
    exact hguarded'
  all_goals
    rw [hr] at hmid hpost
    exact ⟨⟨hguarded, nofun⟩, blocks', hgrow, hmid, hpost⟩

/-- The rule of consequence. -/
theorem imp {post' : Post} (h : Upholds setting fuel owner before code blocks s post)
    (hnext : ∀ blocks' t, blocks.Grow blocks' → post.next blocks' t → post'.next blocks' t)
    (hbranch : ∀ depth blocks' t, post.branch depth blocks' t → post'.branch depth blocks' t)
    (hret : ∀ blocks' t, post.ret blocks' t → post'.ret blocks' t) :
    Upholds setting fuel owner before code blocks s post' := by
  intro hdescribes left hleft hregular
  obtain ⟨hguarded, blocks', hgrow, hend, hpost⟩ := h hdescribes left hleft hregular
  refine ⟨hguarded, blocks', hgrow, hend, ?_⟩
  rcases hr : exec code (refuel s left) with ⟨_ | depth | _ | _, t⟩
  · rw [hr] at hpost
    exact hnext _ _ hgrow hpost
  · rw [hr] at hpost
    exact hbranch _ _ _ hpost
  · rw [hr] at hpost
    exact hret _ _ hpost
  · trivial

theorem imp_next (h : Upholds setting fuel owner before code blocks s { next := mid })
    (hnext : ∀ blocks' t, blocks.Grow blocks' → mid blocks' t → post.next blocks' t) :
    Upholds setting fuel owner before code blocks s post :=
  h.imp hnext (fun _ _ _ => False.elim) fun _ _ => False.elim

/-- The step rule: one instruction upholds the heap, and the rest does from where it ends. -/
theorem of_step (h : ∀ left, left < fuel → Describes setting blocks (refuel s left).machine →
      Event.Regular ⟨owner, before, instr, refuel s left⟩ →
      Always Event.Regular owner (.inside instr) (refuel s left) →
      Event.Guarded setting.heapStart ⟨owner, before, instr, refuel s left⟩ ∧
      Always (Event.Guarded setting.heapStart) owner (.inside instr) (refuel s left) ∧
      ∃ blocks', blocks.Grow blocks' ∧
        Describes setting blocks' (step exec looped instr (refuel s left)).2.machine ∧
        (post.after fun blocks'' t =>
            Upholds setting fuel owner (before ++ [instr]) rest blocks'' t post).Holds blocks'
          (step exec looped instr (refuel s left))) :
    Upholds setting fuel owner before (instr :: rest) blocks s post := by
  intro hdescribes left hleft hregular
  rw [always_cons_iff] at hregular ⊢
  rw [exec_cons]
  rcases left with _ | left
  · exact ⟨fun hfuel => absurd rfl hfuel, blocks, .refl _, hdescribes.refuel _, trivial⟩
  · have hsome : (refuel s (left + 1)).machine.fuel ≠ 0 := Nat.succ_ne_zero left
    have hburn : (refuel s (left + 1)).burn = refuel s left := rfl
    obtain ⟨hhere, hinside, hafter⟩ := hregular hsome
    rw [hburn] at hhere hinside hafter ⊢
    obtain ⟨hguarded, hin, blocks', hgrow, hmid, hpost⟩ :=
      h left (by omega) (hdescribes.refuel left) hhere hinside
    have hkeeps := step_keeps exec_keeps looped_keeps instr (refuel s left)
    rw [if_neg hsome]
    rcases hr : step exec looped instr (refuel s left) with ⟨_ | depth | _ | _, t⟩
    · rw [hr] at hmid hpost hkeeps
      have hfuel : t.machine.fuel ≤ left := hkeeps.fuel
      obtain ⟨hguarded', blocks'', hgrow', hend, hpost'⟩ := hpost hmid t.machine.fuel
        (by omega) (hafter t hr)
      refine ⟨fun _ => ⟨hguarded, hin, fun u hu => ?_⟩, blocks'', hgrow.trans hgrow', hend, hpost'⟩
      cases hu
      exact hguarded'
    all_goals
      rw [hr] at hmid hpost
      exact ⟨fun _ => ⟨hguarded, hin, nofun⟩, blocks', hgrow, hmid, hpost⟩

theorem assume
    (h : Describes setting blocks s.machine →
      Upholds setting fuel owner before code blocks s post) :
    Upholds setting fuel owner before code blocks s post :=
  fun hdescribes => h hdescribes hdescribes

theorem fewer {left : Nat} (h : Upholds setting fuel owner before code blocks s post)
    (hle : left ≤ fuel) : Upholds setting left owner before code blocks s post :=
  fun hdescribes less hless => h hdescribes less (Nat.le_trans hless hle)

theorem of_refuel {left : Nat} (h : Upholds setting fuel owner before code blocks s post) :
    Upholds setting fuel owner before code blocks (refuel s left) post :=
  fun hdescribes => h (hdescribes.same rfl rfl)

/-! ### Instructions that keep the memory -/

/-- An instruction that is one step of the machine takes the same step with any fuel. -/
theorem of_atomic {flow : Flow} {t : State} (hatomic : instr.isAtomic = true)
    (hstep : step exec looped instr s = (flow, t))
    (h : Describes setting blocks s.machine → Event.Regular ⟨owner, before, instr, s⟩ →
      Rising s.machine t.machine ∧
      (∀ offset value address words, instr = .store offset → s.stack = value :: address :: words →
        Machine.effective address offset < 4 → Event.IsHeadUpdate ⟨owner, before, instr, s⟩) ∧
      Describes setting blocks t.machine ∧
      ∀ left, (post.after fun blocks' u =>
        Upholds setting fuel owner (before ++ [instr]) rest blocks' u post).Holds blocks
          (flow, refuel t left)) :
    Upholds setting fuel owner before (instr :: rest) blocks s post := by
  refine of_step fun left _ hdescribes hregular _ => ?_
  have hkeeps := step_keeps exec_keeps looped_keeps instr s
  have hsame := step_atomic exec exec looped looped hatomic s s.machine.functions left
  rw [hstep] at hkeeps hsame
  have hresult : step exec looped instr (refuel s left) = (flow, refuel t left) := by
    rw [refuel, hsame, Result.equip, refuel, hkeeps.functions]
  have hhost : ∀ intrinsic, instr ≠ .callIntrinsic intrinsic := by
    rintro intrinsic rfl
    cases hatomic
  obtain ⟨hrising, hstore, hafter, hpost⟩ := h (hdescribes.same rfl rfl)
    ⟨hregular.load, hregular.store, hregular.update, fun intrinsic hi =>
      absurd hi (hhost intrinsic), hregular.sum, hregular.product⟩
  refine ⟨⟨hdescribes.head_ge, ?_, hstore⟩, always_atomic hatomic _, blocks, .refl _, ?_, ?_⟩
  · rw [Event.result, hresult]
    exact hrising
  · rw [hresult]
    exact hafter.same rfl rfl
  · rw [hresult]
    exact hpost left

/-- An instruction that keeps the machine needs nothing but its rest. -/
theorem quiet (hquiet : instr.isQuiet = true) (h : ∀ t, step exec looped instr s = (.next, t) →
      Event.Regular ⟨owner, before, instr, s⟩ →
      Upholds setting fuel owner (before ++ [instr]) rest blocks t post) :
    Upholds setting fuel owner before (instr :: rest) blocks s post := by
  obtain ⟨hmachine, hflow⟩ := step_quiet hquiet s
  rcases hr : step exec looped instr s with ⟨flow, t⟩
  rw [hr] at hmachine hflow
  refine of_atomic (InstrOf.isAtomic_of_isQuiet hquiet) hr fun hdescribes hregular => ?_
  refine ⟨?_, ?_, ?_, fun left => ?_⟩
  · rw [Rising, hmachine]
  · rintro offset value address words rfl
    cases hquiet
  · rw [hmachine]
    exact hdescribes
  · rcases hflow with rfl | ⟨trap, rfl⟩
    · exact (h t hr hregular).of_refuel
    · trivial

theorem const (h : Upholds setting fuel owner (before ++ [.const value]) rest blocks
      ⟨m, locals, value :: stack⟩ post) :
    Upholds setting fuel owner before (.const value :: rest) blocks ⟨m, locals, stack⟩ post := by
  refine quiet rfl fun t ht _ => ?_
  cases ht
  exact h

theorem localGet (h : ∀ value, locals.get? name = some value →
      Upholds setting fuel owner (before ++ [.localGet name]) rest blocks
        ⟨m, locals, value :: stack⟩ post) :
    Upholds setting fuel owner before (.localGet name :: rest) blocks ⟨m, locals, stack⟩ post := by
  refine quiet rfl fun t ht _ => ?_
  simp only [step] at ht
  cases hvalue : locals.get? name with
  | none =>
    rw [hvalue] at ht
    cases ht
  | some value =>
    rw [hvalue] at ht
    cases ht
    exact h value hvalue

theorem localSet (h : ∀ frame, locals.set? name value = some frame →
      Upholds setting fuel owner (before ++ [.localSet name]) rest blocks ⟨m, frame, stack⟩ post) :
    Upholds setting fuel owner before (.localSet name :: rest) blocks
      ⟨m, locals, value :: stack⟩ post := by
  refine quiet rfl fun t ht _ => ?_
  simp only [step] at ht
  cases hframe : locals.set? name value with
  | none =>
    rw [hframe] at ht
    cases ht
  | some frame =>
    rw [hframe] at ht
    cases ht
    exact h frame hframe

theorem numeric {op : NumericOp} (h : ∀ value, Exec.numeric op left right = .ok value →
      Upholds setting fuel owner (before ++ [.numeric op]) rest blocks
        ⟨m, locals, value :: stack⟩ post) :
    Upholds setting fuel owner before (.numeric op :: rest) blocks
      ⟨m, locals, right :: left :: stack⟩ post := by
  refine quiet rfl fun t ht _ => ?_
  simp only [step] at ht
  cases hvalue : Exec.numeric op left right with
  | error trap =>
    rw [hvalue] at ht
    cases ht
  | ok value =>
    rw [hvalue] at ht
    cases ht
    exact h value hvalue

theorem eqz (h : Upholds setting fuel owner (before ++ [.eqz]) rest blocks
      ⟨m, locals, Word.ofBool (value = 0) :: stack⟩ post) :
    Upholds setting fuel owner before (.eqz :: rest) blocks ⟨m, locals, value :: stack⟩ post := by
  refine quiet rfl fun t ht _ => ?_
  cases ht
  exact h

theorem memorySize (h : ∀ value, Upholds setting fuel owner (before ++ [.memorySize]) rest blocks
      ⟨m, locals, value :: stack⟩ post) :
    Upholds setting fuel owner before (.memorySize :: rest) blocks ⟨m, locals, stack⟩ post := by
  refine quiet rfl fun t ht _ => ?_
  cases ht
  exact h _

theorem drop
    (h : Upholds setting fuel owner (before ++ [.drop]) rest blocks ⟨m, locals, stack⟩ post) :
    Upholds setting fuel owner before (.drop :: rest) blocks ⟨m, locals, value :: stack⟩ post := by
  refine quiet rfl fun t ht _ => ?_
  cases ht
  exact h

theorem addSize (hhelper : helper ∈ Event.sizing) (howner : owner = helper.name)
    (h : left.toAddress + right.toAddress < 2 ^ 32 →
      Upholds setting fuel owner (before ++ [.add]) rest blocks
        ⟨m, locals, (left + right) :: stack⟩ post) :
    Upholds setting fuel owner before (.add :: rest) blocks
      ⟨m, locals, right :: left :: stack⟩ post := by
  refine quiet rfl fun t ht hregular => ?_
  cases ht
  exact h (hregular.sum helper hhelper left right stack howner rfl rfl)

theorem mulSize (hhelper : helper ∈ Event.sizing) (howner : owner = helper.name)
    (h : left.toAddress * right.toAddress < 2 ^ 32 →
      Upholds setting fuel owner (before ++ [.mul]) rest blocks
        ⟨m, locals, (left * right) :: stack⟩ post) :
    Upholds setting fuel owner before (.mul :: rest) blocks
      ⟨m, locals, right :: left :: stack⟩ post := by
  refine quiet rfl fun t ht hregular => ?_
  cases ht
  exact h (hregular.product helper hhelper left right stack howner rfl rfl)

theorem load (h : (before.getLast? ≠ some (.constU heapHeadAddress) → address ≠ 0) →
      Upholds setting fuel owner (before ++ [.load offset]) rest blocks
        ⟨m, locals, m.memory.word (Machine.effective address offset) :: stack⟩ post) :
    Upholds setting fuel owner before (.load offset :: rest) blocks
      ⟨m, locals, address :: stack⟩ post := by
  refine quiet rfl fun t ht hregular => ?_
  have haddress : before.getLast? ≠ some (.constU heapHeadAddress) → address ≠ 0 :=
    fun hlast hzero => hlast (hregular.load offset address stack rfl rfl hzero)
  simp only [step, Machine.loadWord, Memory.load?] at ht
  split at ht
  · next value hvalue =>
    cases ht
    split at hvalue
    · next found hfound =>
      cases hvalue
      rw [Option.ite_none_right_eq_some] at hfound
      obtain ⟨-, hfound⟩ := hfound
      cases hfound
      exact h haddress
    · cases hvalue
  · cases ht

/-! ### Instructions that leave the listing -/

/-- An instruction that leaves the listing and keeps the machine. -/
theorem leave {flow : Flow} {t : State} (hatomic : instr.isAtomic = true)
    (hstore : ∀ offset, instr ≠ .store offset) (hstep : step exec looped instr s = (flow, t))
    (hmachine : t.machine = s.machine) (hpost : ∀ left, post.Holds blocks (flow, refuel t left))
    (hflow : flow ≠ .next) : Upholds setting fuel owner before (instr :: rest) blocks s post := by
  refine of_atomic hatomic hstep fun hdescribes _ => ?_
  refine ⟨?_, fun offset _ _ _ hi => absurd hi (hstore offset), ?_, fun left => ?_⟩
  · rw [Rising, hmachine]
  · rw [hmachine]
    exact hdescribes
  · cases flow with
    | next => exact absurd rfl hflow
    | branch | ret => exact hpost left
    | trap => trivial

theorem ret (h : ∀ left, post.ret blocks (refuel s left)) :
    Upholds setting fuel owner before (.ret :: rest) blocks s post :=
  leave rfl nofun rfl rfl h nofun

theorem unreachable : Upholds setting fuel owner before (.unreachable :: rest) blocks s post :=
  leave rfl nofun rfl rfl (fun _ => trivial) nofun

theorem br (h : ∀ left, post.branch depth.toNat blocks (refuel s left)) :
    Upholds setting fuel owner before (.br depth :: rest) blocks s post :=
  leave rfl nofun rfl rfl h nofun

theorem brIf
    (hleave : value ≠ 0 → ∀ left, post.branch depth.toNat blocks (refuel ⟨m, locals, stack⟩ left))
    (hstay : value = 0 → Upholds setting fuel owner (before ++ [.brIf depth]) rest blocks
      ⟨m, locals, stack⟩ post) : Upholds setting fuel owner before (.brIf depth :: rest) blocks
      ⟨m, locals, value :: stack⟩ post := by
  refine of_atomic rfl (rfl : step exec looped (.brIf depth) _ =
    (if value ≠ 0 then .branch depth.toNat else .next, _)) fun hdescribes _ => ?_
  refine ⟨Nat.le_refl _, by rintro _ _ _ _ ⟨⟩, hdescribes, fun left => ?_⟩
  by_cases hvalue : value = 0
  · rw [if_neg (not_not.2 hvalue)]
    exact (hstay hvalue).of_refuel
  · rw [if_pos hvalue]
    exact hleave hvalue left

/-! ### Instructions that change the memory -/

/-- A block goes on the map once the machine agrees with it. -/
theorem register {blocks' : Blocks} (hgrow : blocks.Grow blocks')
    (hdescribes : Describes setting blocks s.machine → Describes setting blocks' s.machine)
    (h : Upholds setting fuel owner before code blocks' s post) :
    Upholds setting fuel owner before code blocks s post := by
  intro hold left hleft hregular
  obtain ⟨hguarded, blocks'', hgrow', hend, hpost⟩ := h (hdescribes hold) left hleft hregular
  exact ⟨hguarded, blocks'', hgrow.trans hgrow', hend, hpost⟩

theorem memoryGrow {delta : Word}
    (h : ∀ old pages, Upholds setting fuel owner (before ++ [.memoryGrow]) rest blocks
      ⟨{ m with memory := { m.memory with pages } }, locals, old :: stack⟩ post) :
    Upholds setting fuel owner before (.memoryGrow :: rest) blocks
      ⟨m, locals, delta :: stack⟩ post := by
  have hgrown : ∃ old pages, m.grow delta.toUInt32 =
      (old, { m with memory := { m.memory with pages } }) := by
    simp only [Machine.grow]
    split
    · exact ⟨_, _, rfl⟩
    · exact ⟨_, m.memory.pages, rfl⟩
  obtain ⟨old, pages, hgrown⟩ := hgrown
  have hstep : step exec looped .memoryGrow ⟨m, locals, delta :: stack⟩ =
      (.next, ⟨{ m with memory := { m.memory with pages } }, locals, old :: stack⟩) := by
    simp only [step, hgrown]
  refine of_atomic rfl hstep fun hdescribes _ => ?_
  exact ⟨Nat.le_refl _, by rintro _ _ _ _ ⟨⟩, hdescribes.same rfl rfl, fun _ =>
    (h old pages).of_refuel⟩

theorem getLast?_of_isHeadUpdate (h : Event.IsHeadUpdate ⟨owner, before, instr, s⟩) :
    before.getLast? = some .add := by
  obtain ⟨-, size, earlier, hbefore⟩ := h
  rw [← show earlier ++ _ = before from hbefore]
  simp [Allocation.loadHead]

theorem step_store : step exec looped (.store offset) ⟨m, locals, value :: address :: stack⟩ =
        (.next, ⟨{ m with memory := m.memory.setWord (Machine.effective address offset) value },
          locals, stack⟩) ∨
      ∃ trap, step exec looped (.store offset) ⟨m, locals, value :: address :: stack⟩ =
        (.trap trap, ⟨m, locals, value :: address :: stack⟩) := by
  simp only [step]
  split
  · next m' hm' =>
    rw [(storeWord_eq_ok hm').2]
    exact .inl rfl
  · exact .inr ⟨_, rfl⟩

/-- A store that keeps the map and does not lower the head. -/
theorem storeAt (hwrite : Describes setting blocks m →
      Event.Regular ⟨owner, before, .store offset, ⟨m, locals, value :: address :: stack⟩⟩ →
      Describes setting blocks
        { m with memory := m.memory.setWord (Machine.effective address offset) value } ∧
      Rising m { m with memory := m.memory.setWord (Machine.effective address offset) value } ∧
      (Machine.effective address offset < 4 →
        Event.IsHeadUpdate ⟨owner, before, .store offset, ⟨m, locals, value :: address :: stack⟩⟩))
    (h : Event.Regular ⟨owner, before, .store offset, ⟨m, locals, value :: address :: stack⟩⟩ →
      Upholds setting fuel owner (before ++ [.store offset]) rest blocks
        ⟨{ m with memory := m.memory.setWord (Machine.effective address offset) value }, locals,
          stack⟩ post) :
    Upholds setting fuel owner before (.store offset :: rest) blocks
      ⟨m, locals, value :: address :: stack⟩ post := by
  have hguarded : Describes setting blocks m →
      Event.Regular ⟨owner, before, .store offset, ⟨m, locals, value :: address :: stack⟩⟩ →
      ∀ offset' value' address' words, (.store offset : Instr) = .store offset' →
      (value :: address :: stack) = value' :: address' :: words →
      Machine.effective address' offset' < 4 → Event.IsHeadUpdate
        ⟨owner, before, .store offset, ⟨m, locals, value :: address :: stack⟩⟩ := by
    rintro hdescribes hregular _ _ _ _ ⟨rfl⟩ ⟨rfl, rfl, rfl⟩ hlow
    exact (hwrite hdescribes hregular).2.2 hlow
  rcases @step_store address value offset m locals stack with hr | ⟨trap, hr⟩
  · refine of_atomic rfl hr fun hdescribes hregular => ?_
    obtain ⟨hafter, hrising, -⟩ := hwrite hdescribes hregular
    exact ⟨hrising, hguarded hdescribes hregular, hafter, fun _ => (h hregular).of_refuel⟩
  · refine of_atomic rfl hr fun hdescribes hregular => ?_
    exact ⟨Nat.le_refl _, hguarded hdescribes hregular, hdescribes, fun _ => trivial⟩

/-- A write above the head word. Its address is not none unless a sum stands before it. -/
theorem store (hne : address ≠ 0 ∨ before.getLast? ≠ some .add)
    (hwrite : address ≠ 0 → Describes setting blocks m →
      4 ≤ Machine.effective address offset ∧ Describes setting blocks
        { m with memory := m.memory.setWord (Machine.effective address offset) value })
    (h : address ≠ 0 → Upholds setting fuel owner (before ++ [.store offset]) rest blocks
      ⟨{ m with memory := m.memory.setWord (Machine.effective address offset) value }, locals,
        stack⟩ post) :
    Upholds setting fuel owner before (.store offset :: rest) blocks
      ⟨m, locals, value :: address :: stack⟩ post := by
  have haddress : Event.Regular
      ⟨owner, before, .store offset, ⟨m, locals, value :: address :: stack⟩⟩ → address ≠ 0 := by
    intro hregular hzero
    rcases hne with hne | hlast
    · exact hne hzero
    · exact hlast
        (getLast?_of_isHeadUpdate (hregular.store offset value address stack rfl rfl hzero))
  refine storeAt (fun hdescribes hregular => ?_) fun hregular => h (haddress hregular)
  obtain ⟨hlow, hafter⟩ := hwrite (haddress hregular) hdescribes
  refine ⟨hafter, ?_, fun hlt => absurd hlt (by omega)⟩
  rw [Rising, heapHead_setWord m hlow (effective_lt address offset)]

/-- The allocator moves the head up. -/
theorem moveHead {size : Instr}
    (hbefore : [.constU heapHeadAddress] ++ Allocation.loadHead ++ [size, .add] <:+ before)
    (h : m.heapHead.toAddress ≤ value.toAddress →
      Upholds setting fuel owner (before ++ [.store 0]) rest blocks
        ⟨{ m with memory := m.memory.setWord 0 value }, locals, stack⟩ post) :
    Upholds setting fuel owner before (.store 0 :: rest) blocks
      ⟨m, locals, value :: Word.ofUInt32 heapHeadAddress :: stack⟩ post := by
  have hle : Event.Regular ⟨owner, before, .store 0,
      ⟨m, locals, value :: Word.ofUInt32 heapHeadAddress :: stack⟩⟩ →
      m.heapHead.toAddress ≤ value.toAddress :=
    fun hregular => hregular.update value _ stack ⟨rfl, size, hbefore⟩ rfl
  refine storeAt (fun hdescribes hregular => ⟨hdescribes.moveHead (hle hregular), ?_, fun _ =>
    ⟨rfl, size, hbefore⟩⟩) fun hregular => h (hle hregular)
  have hhead : (m.memory.setWord 0 value).word 0 = value :=
    word_setWord (by rw [Memory.addressEnd]; omega) value
  show m.heapHead.toAddress ≤ ((m.memory.setWord 0 value).word 0).toAddress
  rw [hhead]
  exact hle hregular

/-! ### Conditionals and loops -/

/-- An instruction that runs a listing upholds the heap if the listing does. -/
theorem of_listing {inner : String} {listing : Code} {start : State} {ends : Post}
    (hlisting : ∀ left < fuel, Upholds setting left inner [] listing blocks start ends)
    (hstore : ∀ offset, instr ≠ .store offset) (hmachine : start.machine = s.machine)
    (hinside : ∀ P left, Always P owner (.inside instr) (refuel s left) ↔
      Always P inner (.listing [] listing) (refuel start left))
    (hresult : ∀ left, (step exec looped instr (refuel s left)).2.machine =
      (exec listing (refuel start left)).2.machine)
    (hends : ∀ left blocks', blocks.Grow blocks' →
      ends.Holds blocks' (exec listing (refuel start left)) → (post.after fun blocks'' t =>
        Upholds setting fuel owner (before ++ [instr]) rest blocks'' t post).Holds blocks'
          (step exec looped instr (refuel s left))) :
    Upholds setting fuel owner before (instr :: rest) blocks s post := by
  refine of_step fun left hleft hdescribes _ hregular => ?_
  have hsame : (refuel start left).machine = (refuel s left).machine := by
    simp only [refuel, State.equip, hmachine]
  obtain ⟨hguarded, blocks', hgrow, hend, hholds⟩ := hlisting left hleft
    (hmachine ▸ hdescribes.same rfl rfl) left (Nat.le_refl _) ((hinside _ left).1 hregular)
  have hrising := rising_of_guarded hguarded
  rw [hsame, ← hresult] at hrising
  rw [← hresult] at hend
  exact ⟨⟨hdescribes.head_ge, hrising, fun offset _ _ _ hi => absurd hi (hstore offset)⟩,
    (hinside _ left).2 hguarded, blocks', hgrow, hend, hends left blocks' hgrow hholds⟩

/-- Both arms of a conditional end where the rest starts. -/
theorem cond (mid : Blocks → State → Prop) {yields : Bool} {thenBody elseBody : Code}
    (hthen : value ≠ 0 →
      Upholds setting fuel owner [] thenBody blocks ⟨m, locals, stack⟩ (post.inside mid))
    (helse : value = 0 →
      Upholds setting fuel owner [] elseBody blocks ⟨m, locals, stack⟩ (post.inside mid))
    (hrest : ∀ blocks' t, blocks.Grow blocks' → mid blocks' t →
      Upholds setting fuel owner (before ++ [.cond yields thenBody elseBody]) rest blocks' t post) :
    Upholds setting fuel owner before (.cond yields thenBody elseBody :: rest) blocks
      ⟨m, locals, value :: stack⟩ post := by
  have hbody : Upholds setting fuel owner [] (if value ≠ 0 then thenBody else elseBody) blocks
      ⟨m, locals, stack⟩ (post.inside mid) := by
    by_cases hvalue : value = 0
    · rw [if_neg (not_not.2 hvalue)]
      exact helse hvalue
    · rw [if_pos hvalue]
      exact hthen hvalue
  refine of_listing (fun _ hleft => hbody.fewer (Nat.le_of_lt hleft)) nofun rfl
    (fun _ _ => always_cond_iff rfl) (fun _ => machine_leaveBody (fun _ => rfl) _)
    fun left blocks' hgrow hpost => ?_
  change (post.after _).Holds blocks' (leaveBody (·) (exec _ (refuel ⟨m, locals, stack⟩ left)))
  rcases hr : exec (if value ≠ 0 then thenBody else elseBody) (refuel ⟨m, locals, stack⟩ left) with
    ⟨_ | ⟨_ | depth⟩ | _ | _, t⟩
  all_goals rw [hr] at hpost
  · exact hrest blocks' t hgrow hpost
  · exact hrest blocks' t hgrow hpost
  · exact hpost
  · exact hpost
  · trivial

/-- A loop that keeps an invariant. Each round ends at a jump back to its start, or out of the block
around it. -/
theorem loop {body : Code} {invariant done : Blocks → State → Prop} {height : Nat}
    (hbody : ∀ blocks' t, blocks.Grow blocks' → invariant blocks' t →
      Upholds setting fuel owner [] body blocks' t
        { next := fun _ _ => False
          branch := fun depth blocks'' u => u.stack.length = height ∧
            ((depth = 0 ∧ invariant blocks'' u) ∨ (depth = 1 ∧ done blocks'' u))
          ret := post.ret })
    (hstart : invariant blocks s) (hdescribes : Describes setting blocks s.machine)
    (hfuel : s.machine.fuel ≤ fuel)
    (hregular : Always Event.Regular owner (.loop height body) s) :
    Always (Event.Guarded setting.heapStart) owner (.loop height body) s ∧
      ∃ blocks', blocks.Grow blocks' ∧ Describes setting blocks' (looped height body s).2.machine ∧
        Post.Holds { next := fun _ _ => False
                     branch := fun depth blocks'' u =>
                      depth = 0 ∧ u.stack.length = height ∧ done blocks'' u
                     ret := post.ret } blocks' (looped height body s) := by
  induction hn : s.machine.fuel using Nat.strongRecOn generalizing s blocks with
  | ind n ih =>
    obtain ⟨honce, hagain⟩ := always_loop_iff.1 hregular
    obtain ⟨hguarded, blocks', hgrow, hend, hpost⟩ := hbody blocks s (.refl _) hstart hdescribes
      s.machine.fuel hfuel honce
    have hself : refuel s s.machine.fuel = s := rfl
    rw [hself] at hguarded hend hpost
    rw [always_loop_iff, looped_eq]
    rcases hr : exec body s with ⟨_ | ⟨_ | depth⟩ | _ | _, t⟩
    · rw [hr] at hpost
      exact hpost.elim
    · rw [hr] at hend hpost
      obtain ⟨hheight, ⟨-, hinvariant⟩ | ⟨hdepth, -⟩⟩ := hpost
      · have hlt : t.machine.fuel < s.machine.fuel := fuel_lt_of_branch hr
        have htruncate : t.truncate height = t := by
          rw [State.truncate, hheight, Nat.sub_self]
          rfl
        dsimp only
        rw [htruncate]
        have hagain' := hagain t hr
        rw [htruncate] at hagain'
        obtain ⟨hguarded', blocks'', hgrow', hend', hpost'⟩ := ih t.machine.fuel (by omega)
          (fun b u hb => hbody b u (hgrow.trans hb)) hinvariant hend (by omega) hagain' rfl
        refine ⟨⟨hguarded, fun u hu => ?_⟩, blocks'', hgrow.trans hgrow', hend', hpost'⟩
        cases hu
        rw [htruncate]
        exact hguarded'
      · cases hdepth
    · rw [hr] at hend hpost
      obtain ⟨hheight, ⟨hdepth, -⟩ | ⟨hdepth, hdone⟩⟩ := hpost
      · cases hdepth
      · cases hdepth
        exact ⟨⟨hguarded, nofun⟩, blocks', hgrow, hend, rfl, hheight, hdone⟩
    · rw [hr] at hend hpost
      exact ⟨⟨hguarded, nofun⟩, blocks', hgrow, hend, hpost⟩
    · rw [hr] at hend
      exact ⟨⟨hguarded, nofun⟩, blocks', hgrow, hend, trivial⟩

/-- The rule of loops: every round keeps the invariant, or leaves with what the rest needs. -/
theorem blockLoop (invariant done : Blocks → State → Prop) {body : Code}
    (hbody : ∀ blocks' t, blocks.Grow blocks' → invariant blocks' t →
      Upholds setting fuel owner [] body blocks' t
        { next := fun _ _ => False
          branch := fun depth blocks'' u => u.stack.length = s.stack.length ∧
            ((depth = 0 ∧ invariant blocks'' u) ∨ (depth = 1 ∧ done blocks'' u))
          ret := post.ret })
    (hstart : ∀ left, invariant blocks (refuel s left))
    (hrest : ∀ blocks' t, blocks.Grow blocks' → done blocks' t →
      Upholds setting fuel owner (before ++ [.block [.loop body]]) rest blocks' t post) :
    Upholds setting fuel owner before (.block [.loop body] :: rest) blocks s post := by
  have hloop : Upholds setting fuel owner [] [.loop body] blocks s
      { next := fun _ _ => False
        branch := fun depth blocks' u => depth = 0 ∧ u.stack.length = s.stack.length ∧
          done blocks' u
        ret := post.ret } := by
    refine of_step fun left hleft hdescribes _ hinside => ?_
    have hregular := always_inside_loop_iff.1 hinside
    obtain ⟨hguarded, blocks', hgrow, hend, hpost⟩ := loop hbody (hstart left) hdescribes
      (Nat.le_of_lt hleft) hregular
    have hrising : Rising (refuel s left).machine
        (looped s.stack.length body (refuel s left)).2.machine :=
      moves_loop (fun _ => Nat.le_refl _) fun e he => (hguarded e he).rises
    refine ⟨⟨hdescribes.head_ge, hrising, by rintro _ _ _ _ ⟨⟩⟩, always_inside_loop_iff.2 hguarded,
      blocks', hgrow, hend, ?_⟩
    change Post.Holds _ blocks' (looped s.stack.length body (refuel s left))
    rcases hr : looped s.stack.length body (refuel s left) with ⟨_ | depth | _ | _, t⟩
    all_goals rw [hr] at hpost
    · exact hpost.elim
    · exact hpost
    · exact hpost
    · trivial
  refine of_listing (fun _ hleft => hloop.fewer (Nat.le_of_lt hleft)) nofun rfl
    (fun _ _ => always_block_iff) (fun _ => machine_leaveBody
      (fun t => (rfl : (t.truncate s.stack.length).machine = t.machine)) _)
    fun left blocks' hgrow hpost => ?_
  change (post.after _).Holds blocks'
    (leaveBody (·.truncate s.stack.length) (exec [.loop body] (refuel s left)))
  rcases hr : exec [.loop body] (refuel s left) with ⟨_ | ⟨_ | depth⟩ | _ | _, t⟩
  all_goals rw [hr] at hpost
  · exact hpost.elim
  · obtain ⟨-, hheight, hdone⟩ := hpost
    have htruncate : t.truncate s.stack.length = t := by
      rw [State.truncate, hheight, Nat.sub_self]
      rfl
    show (post.after _).Holds blocks' (.next, t.truncate s.stack.length)
    rw [htruncate]
    exact hrest blocks' t hgrow hdone
  · cases hpost.1
  · exact hpost
  · trivial

/-! ### Calls -/

/-- What has to hold where the body of a function ends: its result is as asked for. -/
def body (result : Blocks → Word → Prop) : Post where
  next blocks s := ∀ word words, s.stack = word :: words → result blocks word
  ret blocks s := ∀ word words, s.stack = word :: words → result blocks word

/-- A call runs its function with less fuel, on the map as it is. -/
theorem call {target : Callee} {result : Blocks → Word → Prop}
    (htarget : target.function? = some name)
    (hbody : ∀ fn, setting.functions.find? (·.name == name) = some fn →
      fn.params.length = args.length ∧ ∀ fewer < fuel,
        Upholds setting fewer name [] fn.body blocks ⟨m, Frame.ofCall fn args, []⟩ (body result))
    (hrest : ∀ blocks' m' word, blocks.Grow blocks' → result blocks' word →
      Upholds setting fuel owner (before ++ [.call target]) rest blocks'
        ⟨m', locals, word :: stack⟩ post) :
    Upholds setting fuel owner before (.call target :: rest) blocks
      ⟨m, locals, args.reverse ++ stack⟩ post := by
  refine assume fun hdescribes => ?_
  cases hfn : m.function? name with
  | none =>
    refine of_step fun left _ hdescribes _ _ => ?_
    have hstep := step_unknown htarget
      (show (refuel ⟨m, locals, args.reverse ++ stack⟩ left).machine.function? name = none from hfn)
    refine ⟨⟨hdescribes.head_ge, ?_, by rintro _ _ _ _ ⟨⟩⟩, fun e he => ?_, blocks, .refl _, ?_, ?_⟩
    · rw [Event.result, hstep]
    · cases he with
      | call htarget' hfn' =>
        cases htarget.symm.trans htarget'
        cases hfn.symm.trans hfn'
    · rw [hstep]
      exact hdescribes
    · rw [hstep]
      trivial
  | some fn =>
    obtain ⟨hlength, hupholds⟩ := hbody fn (by rw [← hdescribes.functions]; exact hfn)
    have hargs : popArgs? (args.reverse ++ stack) fn.params.length = some (args, stack) := by
      rw [hlength]
      exact popArgs?_reverse_append args stack
    refine of_listing hupholds (by simp) rfl (fun _ _ => always_call_iff htarget hfn hargs)
      (fun _ => machine_call htarget hfn hargs) fun left blocks' hgrow hpost => ?_
    rcases hr : exec fn.body (refuel ⟨m, Frame.ofCall fn args, []⟩ left) with
      ⟨_ | depth | _ | _, ⟨m', frame, _ | ⟨word, words⟩⟩⟩
    all_goals
      rw [hr] at hpost
      rw [show step exec looped _ (refuel ⟨m, locals, _⟩ left) = _ from step_call htarget hfn hargs,
        Exec.call, show exec _ ⟨(refuel ⟨m, locals, _⟩ left).machine, Frame.ofCall _ _, []⟩ =
          _ from hr]
    · trivial
    · exact hrest blocks' m' word hgrow (hpost word words rfl)
    · trivial
    · exact hpost.elim
    · trivial
    · exact hrest blocks' m' word hgrow (hpost word words rfl)
    · trivial
    · trivial

/-- The host upholds the heap, whatever word it answers with. -/
theorem host (hargs : args.length = intrinsic.arity)
    (hrest : ∀ m' word, (m.host intrinsic args).1 = .ok word →
      Upholds setting fuel owner (before ++ [.callIntrinsic intrinsic]) rest blocks
        ⟨m', locals, word :: stack⟩ post) :
    Upholds setting fuel owner before (.callIntrinsic intrinsic :: rest) blocks
      ⟨m, locals, args.reverse ++ stack⟩ post := by
  refine of_step fun left _ hdescribes hregular _ => ?_
  have hpop : popArgs? (args.reverse ++ stack) intrinsic.arity = some (args, stack) := by
    rw [← hargs]
    exact popArgs?_reverse_append args stack
  have hequip := host_equip m m.functions left intrinsic args
  have hstep : step exec looped (.callIntrinsic intrinsic)
      (refuel ⟨m, locals, args.reverse ++ stack⟩ left) =
      afterCall (refuel ⟨m, locals, args.reverse ++ stack⟩ left) stack
        ((m.host intrinsic args).1, (m.host intrinsic args).2.equip m.functions left) := by
    rw [← hequip]
    show callHost intrinsic _ = _
    rw [callHost, show (refuel ⟨m, locals, args.reverse ++ stack⟩ left).stack =
      args.reverse ++ stack from rfl, hpop]
    rfl
  have hmachine : (step exec looped (.callIntrinsic intrinsic)
      (refuel ⟨m, locals, args.reverse ++ stack⟩ left)).2.machine =
      (m.host intrinsic args).2.equip m.functions left := by
    rw [hstep]
    cases (m.host intrinsic args).1 <;> rfl
  have hrising : Rising m (m.host intrinsic args).2 := by
    have := hregular.host intrinsic rfl
    rw [Event.result, hmachine] at this
    exact this
  refine ⟨⟨hdescribes.head_ge, ?_, by rintro _ _ _ _ ⟨⟩⟩, always_host intrinsic _, blocks, .refl _,
    ?_, ?_⟩
  · rw [Event.result, hmachine]
    exact hrising
  · rw [hmachine]
    have hafter := (hdescribes.same rfl rfl : Describes setting blocks m).host hrising
    have hfollows := host_follows m intrinsic args
    exact hafter.same hfollows.functions.symm rfl
  · rw [hstep]
    cases hresult : (m.host intrinsic args).1 with
    | error trap => trivial
    | ok word => exact hrest _ word hresult

end Upholds

end Typed

end TypedWasm
