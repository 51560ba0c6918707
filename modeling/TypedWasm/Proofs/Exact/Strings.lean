import TypedWasm.Proofs.Exact.Lists

/-!
# Strings that are compared, joined and indexed

Comparing looks at the characters and changes no memory, concatenating makes one string at the heap
head, and indexing makes a string of one character, counting from the end for a negative index, or
reports the index as it was given.
-/

namespace TypedWasm

open Block Exec TypedWasm.Frame Int32 List Machine Memory Option Symbolic Word

variable {place : Nat}

/-! ### Strings -/

/-- A string: where its block is, and the codes of its characters. -/
structure Spelled where
  address : Nat
  codes : List Word

namespace Spelled

def finish (string : Spelled) : Nat := string.address + 4 * (string.codes.length + 1)

def words (string : Spelled) : List Word := Word.ofNat string.codes.length :: string.codes

def text (string : Spelled) : String := String.ofList (string.codes.map Machine.charOf)

theorem text_append (address address' address'' : Nat) (codes more : List Word) :
    (⟨address, codes ++ more⟩ : Spelled).text = (⟨address', codes⟩ : Spelled).text ++
      (⟨address'', more⟩ : Spelled).text := by
  simp [text]

end Spelled

def Memory.StringAt (memory : Memory) (string : Spelled) : Prop :=
  memory.Holds string.address string.words

/-- A string is made at the head. -/
abbrev Memory.Spells (memory : Memory) (string : Spelled) (memory' : Memory) : Prop :=
  memory.Filled string.address string.finish string.words memory'

section Reading

variable {m : Machine} {string : Spelled} (h : m.memory.StringAt string)
  (hsize : m.memory.size ≤ 2 ^ 32)
include h hsize

theorem Memory.StringAt.length_lt : string.codes.length < 2 ^ 30 ∧ string.address < 2 ^ 32 := by
  have hinside := Memory.Holds.inside h
  rw [Spelled.words, length_cons] at hinside
  omega

theorem Memory.StringAt.loadLength : m.loadWord (Word.ofNat string.address) lengthOffset =
    .ok (Word.ofNat string.codes.length) :=
  have hlength : string.words[0]? = some (Word.ofNat string.codes.length) := rfl
  loadWord_held h hlength rfl (Memory.StringAt.length_lt h hsize).2

theorem Memory.StringAt.loadChar (hplace : place < string.codes.length) :
    m.loadWord (Word.ofNat (string.address + 4 * place)) firstChar =
      .ok (string.codes.get ⟨place, hplace⟩) := by
  have hinside := Memory.Holds.inside h
  rw [Spelled.words, length_cons] at hinside
  have hword : string.words[place + 1]? = some (string.codes.get ⟨place, hplace⟩) := by
    simp [Spelled.words, hplace]
  refine loadWord_held h hword ?_ (by omega)
  show string.address + 4 * place + 4 = _
  omega

theorem Machine.readString_of_stringAt :
    m.readString (Word.ofNat string.address) = .ok string.text := by
  obtain ⟨hlength, hbase⟩ := Memory.StringAt.length_lt h hsize
  exact readString_of_codes hbase (by omega) h

end Reading

namespace HelperBody

variable {m : Machine} {frame : Frame} {left right : Spelled} {word : Word}

/-! ### Comparing -/

/-- The locals of the helper that compares strings, after `place` rounds. -/
structure Comparing (frame : Frame) (left right : Spelled) (place : Nat) : Prop where
  atLeft : frame.get? "left" = some (Word.ofNat left.address)
  atRight : frame.get? "right" = some (Word.ofNat right.address)
  counts : Counts frame "i" "length" place left.codes.length

theorem returnZero_ends (hword : word ≠ 0) (stack : List Word) :
    Ends [.when [.const 0, .ret]] ⟨m, frame, word :: stack⟩ .ret ⟨m, frame, 0 :: stack⟩ := by
  refine .cond ?_ (by simp)
  rw [if_pos hword]
  have hzero : Ends [.const 0] ⟨m, frame, stack⟩ .next ⟨m, frame, 0 :: stack⟩ := .straight rfl
  exact hzero.append (.leave fun _ => rfl)

theorem returnZero_skips (hword : word = 0) (stack : List Word) :
    Ends [.when [.const 0, .ret]] ⟨m, frame, word :: stack⟩ .next ⟨m, frame, stack⟩ := .skip _ hword

section Comparing

variable (hleft : m.memory.StringAt left) (hright : m.memory.StringAt right)
include hleft hright

theorem compareChars_ends (hsize : m.memory.size ≤ 2 ^ 32)
    (hframe : Comparing frame left right place) (hplace : place < left.codes.length)
    (hplace' : place < right.codes.length) :
    Ends (leaveAt "i" "length" ++ (wordAt "left" "i" ++ ([.load firstChar] ++ (wordAt "right" "i" ++
        [.load firstChar, .numeric .ne])))) ⟨m, frame, []⟩ .next ⟨m, frame, [Word.ofBool
        (left.codes.get ⟨place, hplace⟩ ≠ right.codes.get ⟨place, hplace'⟩)]⟩ := by
  have hloadLeft := hleft.loadChar hsize hplace
  have hloadRight := hright.loadChar hsize hplace'
  refine (leaveAt_stays hframe.counts hplace).append ?_
  refine (wordAt_ends hframe.atLeft hframe.counts.atIndex).append ?_
  refine .after (by simp [hloadLeft]; rfl) ?_
  refine (wordAt_ends hframe.atRight hframe.counts.atIndex).append ?_
  exact .straight (by simp [hloadRight])

/-- The loop that compares, from any round on. The induction is on the rounds that are left: a round
goes on while the characters are equal, and returns at the first that are not. -/
theorem compareLoop_ends (hsize : m.memory.size ≤ 2 ^ 32)
    (hlength : right.codes.length = left.codes.length) {rest : Nat}
    (hrest : place + rest = left.codes.length) (hframe : Comparing frame left right place) :
    ∃ frame', Loops 0 compareRound ⟨m, frame, []⟩
      (if left.codes.drop place = right.codes.drop place then .branch 0 else .ret)
      ⟨m, frame', if left.codes.drop place = right.codes.drop place then [] else [0]⟩ := by
  induction rest generalizing frame place with
  | zero =>
    obtain rfl : place = left.codes.length := hrest
    refine ⟨frame, ?_⟩
    rw [if_pos (by simp [hlength]), if_pos (by simp [hlength])]
    refine .out ?_
    exact (leaveAt_leaves hframe.counts).stop (by simp) _
  | succ rest ih =>
    have hplace : place < left.codes.length := by omega
    have hplace' : place < right.codes.length := by omega
    have hchars := compareChars_ends hleft hright hsize hframe hplace hplace'
    have hdrop : left.codes.drop place = right.codes.drop place ↔
        left.codes.get ⟨place, hplace⟩ = right.codes.get ⟨place, hplace'⟩ ∧
          left.codes.drop (place + 1) = right.codes.drop (place + 1) := by
      rw [drop_eq_getElem_cons hplace, drop_eq_getElem_cons hplace', List.cons.injEq]
      rfl
    simp only [hdrop]
    by_cases hsame : left.codes.get ⟨place, hplace⟩ = right.codes.get ⟨place, hplace'⟩
    · have hback : Ends [.br 0] ⟨m, frame.put "i" (Word.ofNat (place + 1)), []⟩ (.branch 0)
          ⟨m, frame.put "i" (Word.ofNat (place + 1)), []⟩ := .leave fun _ => rfl
      have hbody := hchars.append ((returnZero_skips
        (ofBool_eq_zero.2 (decide_eq_false (not_not.2 hsame))) []).append
        ((increment_ends hframe.counts.atIndex).append hback))
      have hnext : Comparing (frame.put "i" (Word.ofNat (place + 1))) left right (place + 1) := by
        refine ⟨by simp [hframe.atLeft], by simp [hframe.atRight],
          by simp [hframe.counts.atIndex], by simp [hframe.counts.atCount],
          hframe.counts.small, by omega⟩
      obtain ⟨frame', hloop⟩ := ih (by omega) hnext
      simp only [hsame, true_and]
      exact ⟨frame', .again hbody hloop⟩
    · have hbody := hchars.append ((returnZero_ends (by rw [decide_eq_true hsame]; decide) []).stop
        (by simp) (increment "i" ++ [.br 0]))
      simp only [hsame, false_and, if_false]
      exact ⟨frame, .ret hbody⟩

/-- **Comparing strings** answers whether the codes are the same, and changes no memory. -/
theorem strEq_answers (hsize : m.memory.size ≤ 2 ^ 32) :
    Answers m strEq [Word.ofNat left.address, Word.ofNat right.address]
      (.ok (Word.ofBool (left.codes = right.codes))) m := by
  have hloadLeft := hleft.loadLength hsize
  have hloadRight := hright.loadLength hsize
  obtain ⟨hshort, -⟩ := hleft.length_lt hsize
  obtain ⟨hshort', -⟩ := hright.length_lt hsize
  generalize hframe : Frame.ofCall strEq [Word.ofNat left.address, Word.ofNat right.address] = frame
  have hl : frame.get? "left" = some (Word.ofNat left.address) := hframe ▸ rfl
  have hr : frame.get? "right" = some (Word.ofNat right.address) := hframe ▸ rfl
  have hn : frame.get? "length" = some 0 := hframe ▸ rfl
  have hi : frame.get? "i" = some 0 := hframe ▸ rfl
  have hlengths : Ends [.localGet "left", .load lengthOffset, .localSet "length",
      .localGet "length", .localGet "right", .load lengthOffset, .numeric .ne] ⟨m, frame, []⟩ .next
      ⟨m, frame.put "length" (Word.ofNat left.codes.length),
        [Word.ofBool (Word.ofNat left.codes.length ≠ Word.ofNat right.codes.length)]⟩ := by
    refine .straight ?_
    simp [hl, hr, hn, hloadLeft, hloadRight]
  by_cases hlength : right.codes.length = left.codes.length
  · have hstart := hlengths.append ((returnZero_skips (ofBool_eq_zero.2 (decide_eq_false
      (not_not.2 (congrArg Word.ofNat hlength.symm)))) []).append (setZero_ends "i" (by simp [hi])
        []))
    have hcompare :
        Comparing ((frame.put "length" (Word.ofNat left.codes.length)).put "i" (Word.ofNat 0))
        left right 0 := by
      refine ⟨?_, ?_, ?_, ?_, by omega, Nat.zero_le _⟩ <;> simp [hl, hr, hn, hi]
    obtain ⟨last, hloop⟩ := compareLoop_ends hleft hright hsize hlength (Nat.zero_add _) hcompare
    rw [drop_zero, drop_zero] at hloop
    subst hframe
    by_cases hsame : left.codes = right.codes
    · rw [if_pos hsame, if_pos hsame] at hloop
      have hone : Ends [.const 1] ⟨m, last, []⟩ .next ⟨m, last, [1]⟩ := .straight rfl
      have hbody := hstart.append ((Ends.blockLoop hloop).append hone)
      rw [decide_eq_true hsame]
      exact .ofBody hbody (.inl rfl) rfl
    · rw [if_neg hsame, if_neg hsame] at hloop
      have hbody := hstart.append ((Ends.blockReturn hloop).stop (by simp) [.const 1])
      rw [decide_eq_false hsame]
      exact .ofBody hbody (.inr rfl) rfl
  · have hne : Word.ofNat left.codes.length ≠ Word.ofNat right.codes.length := by
      intro he
      have := congrArg Word.toAddress he
      rw [toAddress_ofNat (by omega), toAddress_ofNat (by omega)] at this
      omega
    have hsame : left.codes ≠ right.codes := fun he => hlength (congrArg List.length he).symm
    have hbody := hlengths.append ((returnZero_ends (by rw [decide_eq_true hne]; decide) []).stop
      (by simp) (strEq.body.drop 8))
    rw [decide_eq_false hsame]
    subst hframe
    exact .ofBody hbody (.inr rfl) rfl

end Comparing

/-! ### Concatenating -/

variable {head : Nat} {stack : List Word}

/-- The locals of the helper that concatenates, once the block of the result is there. -/
structure Spelling (frame : Frame) (left right : Spelled) (head : Nat) : Prop where
  atLeft : frame.get? "left" = some (Word.ofNat left.address)
  atRight : frame.get? "right" = some (Word.ofNat right.address)
  leftLength : frame.get? "left_length" = some (Word.ofNat left.codes.length)
  rightLength : frame.get? "right_length" = some (Word.ofNat right.codes.length)
  atResult : frame.get? "result" = some (Word.ofNat head)
  there : ∀ name ∈ ["src", "dst", "count", "i"], (frame.get? name).isSome

/-- The helper that concatenates adds up the lengths, and allocates and opens the result. -/
theorem openConcat_ends (hleft : m.memory.StringAt left) (hright : m.memory.StringAt right)
    (hroom : m.HasRoom head (4 * (left.codes.length + right.codes.length + 1))) :
    ∃ memory' frame, Ends ([.localGet "left", .load lengthOffset, .localSet "left_length",
          .localGet "right", .load lengthOffset, .localSet "right_length",
          .localGet "left_length", .localGet "right_length", .add, .localSet "length",
          .localGet "length", .const 1, .add, .constU wordSize, .mul, .localSet "bytes"] ++
          (Allocation.dynamic "bytes" ++ [.localSet "result", .localGet "result",
            .localGet "length", .store lengthOffset]))
        ⟨m, .ofCall strConcat [Word.ofNat left.address, Word.ofNat right.address], []⟩ .next
        ⟨{ m with memory := memory' }, frame, []⟩ ∧
      Spelling frame left right head ∧
      m.memory.Filled head (head + 4 * (left.codes.length + right.codes.length + 1))
        [Word.ofNat (left.codes.length + right.codes.length)] memory' := by
  have hsize := hroom.heap.size_le
  have hloadLeft := hleft.loadLength hsize
  have hloadRight := hright.loadLength hsize
  generalize hcall : Frame.ofCall strConcat [Word.ofNat left.address, Word.ofNat right.address] =
    frame
  have hl : frame.get? "left" = some (Word.ofNat left.address) := hcall ▸ rfl
  have hr : frame.get? "right" = some (Word.ofNat right.address) := hcall ▸ rfl
  have hthere : ∀ name ∈ strConcat.locals, frame.get? name = some 0 := fun name hname =>
    hcall ▸ get?_ofCall_local (by revert name; decide) hname _
  have hone : (1 : Word) = Word.ofNat 1 := rfl
  have h₁ := hthere "left_length" (by decide)
  have h₂ := hthere "right_length" (by decide)
  have h₃ := hthere "length" (by decide)
  have h₄ := hthere "bytes" (by decide)
  have h₅ := hthere "result" (by decide)
  have hfirst : head + 4 * 0 + 4 ≤
      head + 4 * (left.codes.length + right.codes.length + 1) := by omega
  have hstore := hroom.opened.storeWord m lengthOffset
    (Word.ofNat (left.codes.length + right.codes.length)) rfl hfirst
  refine ⟨_, ((((frame.put "left_length" (Word.ofNat left.codes.length)).put "right_length"
    (Word.ofNat right.codes.length)).put "length"
    (Word.ofNat (left.codes.length + right.codes.length))).put "bytes"
    (Word.ofNat (4 * (left.codes.length + right.codes.length + 1)))).put "result" (Word.ofNat head),
      ?_, ?_,
    hroom.opened.store _ hfirst⟩
  · refine .after
      (by simp [hl, hr, hloadLeft, hloadRight, h₁, h₂, h₃, h₄, hone, Nat.mul_comm _ 4]; rfl) ?_
    refine (hroom.bump_ends (.inr ⟨"bytes", rfl, by simp [h₄]⟩) []).append ?_
    refine .straight ?_
    simp [h₅, h₃, hstore]
  · refine ⟨?_, ?_, ?_, ?_, ?_, ?_⟩
    any_goals simp [hl, hr, h₁, h₂, h₅]
    simp [hthere, strConcat]

theorem Spelling.copied (h : Spelling frame left right head) (src dst count i : Word) :
    Spelling ((((frame.put "src" src).put "dst" dst).put "count" count).put "i" i) left
      right head :=
  ⟨by simp [h.atLeft], by simp [h.atRight],
    by simp [h.leftLength], by simp [h.rightLength],
    by simp [h.atResult], by simpa using h.there⟩

theorem copyLeft_ends (hframe : Spelling frame left right head) (hsize : m.memory.size ≤ 2 ^ 32)
    (hleft : left.finish ≤ head) (hhead : head + 4 + 4 * left.codes.length ≤ m.memory.size) :
    ∃ frame', Ends ([.localGet "left", .constU stringHeader, .add, .localSet "src",
          .localGet "result", .constU stringHeader, .add, .localSet "dst",
          .localGet "left_length", .localSet "count"] ++ copyWords "src" "dst" "count" "i")
        ⟨m, frame, []⟩ .next
        ⟨{ m with memory := m.memory.copy (left.address + 4) (head + 4) left.codes.length },
          frame', []⟩ ∧
      Spelling frame' left right head := by
  have hcopies := copies_put hframe.there (left.address + 4) (head + 4) left.codes.length
  rw [Spelled.finish] at hleft
  refine ⟨_, .after ?_ (copyWords_ends hcopies hsize (by omega) hhead), hframe.copied _ _ _ _⟩
  simp [hframe.atLeft, hframe.atResult, hframe.leftLength, hframe.there]

theorem copyRight_ends (hframe : Spelling frame left right head) (hsize : m.memory.size ≤ 2 ^ 32)
    (hright : right.finish ≤ head)
    (hhead : head + 4 + 4 * left.codes.length + 4 * right.codes.length ≤ m.memory.size) :
    ∃ frame', Ends (([.localGet "right", .constU stringHeader, .add, .localSet "src"] ++
          addressOf "result" stringHeader "left_length" wordSize "dst" ++
          [.localGet "right_length", .localSet "count"]) ++ copyWords "src" "dst" "count" "i")
        ⟨m, frame, []⟩ .next ⟨{ m with
          memory := m.memory.copy (right.address + 4) (head + 4 + 4 * left.codes.length)
            right.codes.length }, frame', []⟩ ∧
      Spelling frame' left right head := by
  have hcopies := copies_put hframe.there (right.address + 4) (head + 4 + 4 * left.codes.length)
    right.codes.length
  rw [Spelled.finish] at hright
  refine ⟨_, .after ?_ (copyWords_ends hcopies hsize (by omega) hhead)
    (by simp [addressOf]), hframe.copied _ _ _ _⟩
  simp [addressOf, hframe.atRight, hframe.atResult, hframe.leftLength, hframe.rightLength,
    hframe.there, Nat.mul_comm _ 4]

/-- **Concatenating strings** makes one string at the head. -/
theorem strConcat_answers (hleft : m.memory.StringAt left) (hright : m.memory.StringAt right)
    (hlefthead : left.finish ≤ head) (hrighthead : right.finish ≤ head)
    (hroom : m.HasRoom head (4 * (left.codes.length + right.codes.length + 1))) :
    ∃ memory', Answers m strConcat [Word.ofNat left.address, Word.ofNat right.address]
        (.ok (Word.ofNat head)) { m with memory := memory' } ∧
      m.memory.Spells ⟨head, left.codes ++ right.codes⟩ memory' := by
  obtain ⟨opened, frame, hopen, hframe, hopened⟩ := openConcat_ends hleft hright hroom
  have hinside := hopened.heap.inside
  have hsize := hopened.heap.size_le
  obtain ⟨between, hleftCopy, hbetween⟩ := copyLeft_ends (m := { m with memory := opened })
    hframe hsize hlefthead (Nat.le_trans (by omega) hinside)
  obtain ⟨last, hrightCopy, hlast⟩ := copyRight_ends
    (m := { m with memory := opened.copy (left.address + 4) (head + 4) left.codes.length }) hbetween
    (by rwa [size_copy]) hrighthead (by rw [size_copy]; omega)
  rw [Spelled.finish] at hlefthead hrighthead
  have hfirst := hopened.copy (Memory.Holds.tail hleft) (Nat.le_add_left _ _) (by omega)
    (by simp only [length_singleton]; omega)
  have hboth := hfirst.copy (Memory.Holds.tail hright) (Nat.le_add_left _ _) (by omega)
    (by simp only [length_append, length_singleton]; omega)
  have hplace :
      head + 4 * ([Word.ofNat (left.codes.length + right.codes.length)] ++ left.codes).length =
      head + 4 + 4 * left.codes.length := by
    rw [length_append, length_singleton]
    omega
  rw [hplace] at hboth
  have hbody := hopen.append (hleftCopy.append (hrightCopy.append (localGet_ends hlast.atResult)))
  have hanswers : Answers m strConcat _ _ _ := .ofBody hbody (.inl rfl) rfl
  refine ⟨_, hanswers, ?_⟩
  simp only [Memory.Spells, Spelled.finish, Spelled.words, length_append]
  exact hboth

end HelperBody

/-! ### Signed positions -/

namespace Word

variable {count : Nat} {w : Word}

theorem toInt_add_ofNat (hw : w.toInt < 0) (hcount : count < 2 ^ 31) :
    (w + ofNat count).toInt = w.toInt + count := by
  have hlow := w.le_toInt
  rw [toInt_add, toInt_ofNat_of_lt hcount, Int.bmod_def]
  omega

theorem eq_ofNat_of_toInt (h : w.toInt = count) : w = ofNat count := by
  rw [← ofInt_natCast, ← h, ofInt, Int32.ofInt_toInt]

theorem outside_eq (hcount : count < 2 ^ 31) : ofBool (w < 0) ||| ofBool (w ≥ ofNat count) =
      ofBool (decide (w.toInt < 0 ∨ (count : Int) ≤ w.toInt)) := by
  have hzero : (0 : Word).toInt = 0 := rfl
  have hor : ∀ a b : Bool, ofBool a ||| ofBool b = ofBool (a || b) := by decide
  rw [hor, ← Bool.decide_or]
  refine congrArg ofBool (decide_eq_decide.2 ?_)
  rw [lt_iff_toInt_lt, ge_iff_le, le_iff_toInt_le, hzero, toInt_ofNat_of_lt hcount]

end Word

/-! ### Indexing -/

/-- The position that an index of a string of `count` characters stands for. -/
def Spelled.position (count : Nat) (index : Word) : Int :=
  if index.toInt < 0 then index.toInt + count else index.toInt

namespace HelperBody

variable {m : Machine} {frame : Frame} {string : Spelled} {index place : Word} {head : Nat}

/-- The locals of the helper that indexes, once the position is known. -/
structure Locating (frame : Frame) (string : Spelled) (index place : Word) : Prop where
  atString : frame.get? "string" = some (Word.ofNat string.address)
  atIndex : frame.get? "index" = some index
  atLength : frame.get? "length" = some (Word.ofNat string.codes.length)
  atPlace : frame.get? "i" = some place
  there : (frame.get? "result").isSome

theorem locate_ends (hstring : m.memory.StringAt string) (hsize : m.memory.size ≤ 2 ^ 32)
    (index : Word) : ∃ frame place, place.toInt = Spelled.position string.codes.length index ∧
      Ends [.localGet "string", .load lengthOffset, .localSet "length",
          .localGet "index", .localSet "i", .localGet "i", .const 0, .numeric .ltS,
          .when [.localGet "i", .localGet "length", .add, .localSet "i"]]
        ⟨m, .ofCall strIndex [Word.ofNat string.address, index], []⟩ .next ⟨m, frame, []⟩ ∧
      Locating frame string index place := by
  have hload := hstring.loadLength hsize
  obtain ⟨hshort, -⟩ := hstring.length_lt hsize
  generalize hcall : Frame.ofCall strIndex [Word.ofNat string.address, index] = frame
  have hs : frame.get? "string" = some (Word.ofNat string.address) := hcall ▸ rfl
  have hx : frame.get? "index" = some index := hcall ▸ rfl
  have hl : frame.get? "length" = some 0 := hcall ▸ rfl
  have hi : frame.get? "i" = some 0 := hcall ▸ rfl
  have hr : frame.get? "result" = some 0 := hcall ▸ rfl
  have hstart : Ends [.localGet "string", .load lengthOffset, .localSet "length",
      .localGet "index", .localSet "i", .localGet "i", .const 0, .numeric .ltS] ⟨m, frame, []⟩ .next
      ⟨m, (frame.put "length" (Word.ofNat string.codes.length)).put "i" index,
        [Word.ofBool (index < 0)]⟩ :=
    .straight (by simp [hs, hx, hl, hi, hload])
  have hnegative : index < 0 ↔ index.toInt < 0 := lt_iff_toInt_lt
  by_cases hsign : index.toInt < 0
  · refine ⟨_, index + Word.ofNat string.codes.length, ?_, hstart.append (.cond
      (t := ⟨m, ((frame.put "length" (Word.ofNat string.codes.length)).put "i" index).put "i"
        (index + Word.ofNat string.codes.length), []⟩) ?_ (by simp)), ⟨?_, ?_, ?_, ?_, ?_⟩⟩
    · rw [Spelled.position, if_pos hsign, toInt_add_ofNat hsign (by omega)]
    · rw [if_pos (by simp [hnegative, hsign, Word.ofBool])]
      refine .straight ?_
      simp [hl, hi]
    all_goals simp [hs, hx, hl, hi, hr]
  · refine ⟨_, index, ?_, hstart.append (.skip _ (by simp [hnegative, hsign, Word.ofBool])),
      ⟨?_, ?_, ?_, ?_, ?_⟩⟩
    · rw [Spelled.position, if_neg hsign]
    all_goals simp [hs, hx, hl, hi, hr]

theorem outside_ends (hframe : Locating frame string index place)
    (hlength : string.codes.length < 2 ^ 31) :
    Ends [.localGet "i", .const 0, .numeric .ltS, .localGet "i", .localGet "length", .numeric .geS,
        .numeric .or] ⟨m, frame, []⟩ .next
      ⟨m, frame, [Word.ofBool (place.toInt < 0 ∨ (string.codes.length : Int) ≤ place.toInt)]⟩ := by
  rw [← outside_eq hlength]
  exact .straight
    (by simp [hframe.atPlace, hframe.atLength])

theorem strIndex_traps (hstring : m.memory.StringAt string) (hsize : m.memory.size ≤ 2 ^ 32)
    (houtside : Spelled.position string.codes.length index < 0 ∨
      (string.codes.length : Int) ≤ Spelled.position string.codes.length index) :
    Answers m strIndex [Word.ofNat string.address, index]
      (.error (.indexError index (Word.ofNat string.codes.length))) m := by
  obtain ⟨hshort, -⟩ := hstring.length_lt hsize
  obtain ⟨frame, place, hplace, hlocate, hframe⟩ := locate_ends hstring hsize index
  rw [← hplace] at houtside
  have hcheck := Ends.reports [.localGet "index", .localGet "length"]
    (show Word.ofBool (place.toInt < 0 ∨ (string.codes.length : Int) ≤ place.toInt) ≠ 0 by
      rw [decide_eq_true houtside]; decide)
    (show Exec.straight _ ⟨m, frame, []⟩ = some ⟨_, _, [Word.ofNat string.codes.length, index]⟩ by
      simp [hframe.atIndex, hframe.atLength])
    rfl (show m.host .indexError _ = _ from rfl)
  have hbody := hlocate.append ((outside_ends hframe (by omega)).append
    (hcheck.stop (by simp) (strIndex.body.drop 17)))
  exact .ofTrap hbody

/-- **Indexing a string** makes a string of one character at the head. -/
theorem strIndex_answers (hstring : m.memory.StringAt string) (hhead : string.finish ≤ head)
    (hroom : m.HasRoom head 8) {spot : Nat} {code : Word} (hcode : string.codes[spot]? = some code)
    (hindex : Spelled.position string.codes.length index = spot) :
    ∃ memory', Answers m strIndex [Word.ofNat string.address, index] (.ok (Word.ofNat head))
        { m with memory := memory' } ∧
      m.memory.Spells ⟨head, [code]⟩ memory' := by
  obtain ⟨hspot, -⟩ := List.getElem?_eq_some_iff.1 hcode
  have hsize := hroom.heap.size_le
  obtain ⟨hshort, hbase⟩ := hstring.length_lt hsize
  obtain ⟨frame, place, hplace, hlocate, hframe⟩ := locate_ends hstring hsize index
  rw [hindex] at hplace
  have hinside : ¬ (place.toInt < 0 ∨ (string.codes.length : Int) ≤ place.toInt) := by omega
  have hcheck :
      Ends [.when [.localGet "index", .localGet "length", .callIntrinsic .indexError, .unreachable]]
      ⟨m, frame, [Word.ofBool (place.toInt < 0 ∨ (string.codes.length : Int) ≤ place.toInt)]⟩ .next
      ⟨m, frame, []⟩ := .skip _ (ofBool_eq_zero.2 (decide_eq_false hinside))
  obtain rfl := eq_ofNat_of_toInt hplace
  rw [Spelled.finish] at hhead
  have hfirst : head + 4 * 0 + 4 ≤ head + 8 := by omega
  have hsecond : head + 4 * 1 + 4 ≤ head + 8 := by omega
  have hlengthed := hroom.opened.store 1 hfirst
  have hstoreLength := hroom.opened.storeWord m lengthOffset 1 rfl hfirst
  have hstoreChar := hlengthed.storeWord m firstChar code rfl hsecond
  have hafter : string.address + 4 * spot + firstChar.toNat = string.address + 4 + 4 * spot :=
    Nat.add_right_comm _ _ _
  have hloadChar :=
    hlengthed.loadWord m (Memory.Holds.tail hstring) (Nat.le_add_left _ _) (by omega) hcode hafter
  have hmake : Ends ([.localSet "result", .localGet "result", .const 1, .store lengthOffset,
        .localGet "result"] ++ (wordAt "string" "i" ++ [.load firstChar, .store firstChar,
        .localGet "result"]))
      ⟨{ m with memory := m.memory.moveHead (head + 8) }, frame, [Word.ofNat head]⟩ .next
      ⟨{ m with
          memory := ((m.memory.moveHead (head + 8)).setWord (head + 4 * 0) 1).setWord (head + 4 * 1)
            code },
        frame.put "result" (Word.ofNat head), [Word.ofNat head]⟩ := by
    refine .after (by simp only [Exec.straight, step, State.push, set?_eq, get?_put, if_true,
      hframe.there, map_of_isSome, hstoreLength]; rfl) ?_
    refine (wordAt_ends (by simp [hframe.atString]; rfl) (by simp [hframe.atPlace]; rfl)).append ?_
    refine .straight ?_
    simp only [Exec.straight, step, State.push, get?_put, if_true, hframe.there, map_of_isSome,
      hloadChar, hstoreChar]
    rfl
  have hbody := hlocate.append ((outside_ends hframe (by omega)).append (hcheck.append
    ((hroom.bump_ends (Allocation.pushes_constU oneCharSize frame) []).append hmake)))
  have hanswers : Answers m strIndex _ _ _ := .ofBody hbody (.inl rfl) rfl
  exact ⟨_, hanswers, hlengthed.store _ hsecond⟩

end HelperBody

/-! ### The helpers together -/

/-- **Strings, exactly.** Comparing, concatenating and indexing, on all strings and indices. -/
theorem string_helpers_exact {m : Machine} {slack : UInt32} {head : Nat} {s t : Spelled}
    (hloaded : ∀ helper ∈ [Helper.strEq, .strConcat, .strIndex],
      m.function? helper.name = some (helper.function slack))
    (hheap : m.memory.HeapAt head) (hs : m.memory.StringAt s) (ht : m.memory.StringAt t)
    (hshead : s.finish ≤ head) (hthead : t.finish ≤ head) :
    (∃ cost, ∀ fuel, { m with fuel := cost + fuel }.call Helper.strEq.name
      [Word.ofNat s.address, Word.ofNat t.address] =
        (.ok (if s.codes = t.codes then 1 else 0), { m with fuel })) ∧
    (m.HasRoom head (4 * (s.codes.length + t.codes.length + 1)) → ∃ memory',
      (∃ cost, ∀ fuel, { m with fuel := cost + fuel }.call Helper.strConcat.name
        [Word.ofNat s.address, Word.ofNat t.address] =
          (.ok (Word.ofNat head), { m with memory := memory', fuel })) ∧
      m.memory.Spells ⟨head, s.codes ++ t.codes⟩ memory' ∧
      memory'.word 0 = Word.ofNat (head + 4 * (s.codes.length + t.codes.length + 1)) ∧
      ∃ left right, m.readString (Word.ofNat s.address) = .ok left ∧
        m.readString (Word.ofNat t.address) = .ok right ∧
        { m with memory := memory' }.readString (Word.ofNat head) = .ok (left ++ right)) ∧
    ∀ index : Word,
      (∀ (spot : Nat) (code : Word), s.codes[spot]? = some code →
        index.toInt = spot ∨ index.toInt = spot - s.codes.length → m.HasRoom head 8 → ∃ memory',
        (∃ cost, ∀ fuel, { m with fuel := cost + fuel }.call Helper.strIndex.name
          [Word.ofNat s.address, index] =
            (.ok (Word.ofNat head), { m with memory := memory', fuel })) ∧
        m.memory.Spells ⟨head, [code]⟩ memory') ∧
      (index.toInt < -s.codes.length ∨ (s.codes.length : Int) ≤ index.toInt →
        ∃ cost, ∀ fuel, { m with fuel := cost + fuel }.call Helper.strIndex.name
          [Word.ofNat s.address, index] =
            (.error (.indexError index (Word.ofNat s.codes.length)), { m with fuel })) := by
  have hsize := hheap.size_le
  refine ⟨?_, fun hroom => ?_, fun index =>
    ⟨fun spot code hcode hindex hroom => ?_, fun houtside => ?_⟩⟩
  · have hanswers := (HelperBody.strEq_answers hs ht hsize).call (hloaded .strEq (by decide))
    simpa [Word.ofBool] using hanswers
  · obtain ⟨memory', hanswers, hmakes⟩ := HelperBody.strConcat_answers hs ht hshead hthead hroom
    have hhead := hmakes.heap.word
    rw [Spelled.finish, length_append] at hhead
    refine ⟨memory', hanswers.call (hloaded .strConcat (by decide)), hmakes, hhead, s.text, t.text,
      readString_of_stringAt hs hsize, readString_of_stringAt ht hsize, ?_⟩
    rw [← Spelled.text_append head]
    exact readString_of_stringAt (m := { m with memory := memory' }) hmakes.held hmakes.heap.size_le
  · obtain ⟨hspot, -⟩ := List.getElem?_eq_some_iff.1 hcode
    have hposition : Spelled.position s.codes.length index = spot := by
      rw [Spelled.position]
      split <;> omega
    obtain ⟨memory', hanswers, hmakes⟩ :=
      HelperBody.strIndex_answers hs hshead hroom hcode hposition
    exact ⟨memory', hanswers.call (hloaded .strIndex (by decide)), hmakes⟩
  · refine (HelperBody.strIndex_traps hs hsize ?_).call (hloaded .strIndex (by decide))
    rw [Spelled.position]
    split <;> omega

/-- A machine whose heap holds the string `hi`. -/
def Machine.spelled : Machine where
  memory := ({ pages := 1 } : Memory).stores [(0, 28), (16, 2), (20, 104), (24, 105)]
  functions := [Helper.strEq.function 0, Helper.strConcat.function 0, Helper.strIndex.function 0]

/-- The string `hi` is joined with itself, and its last character is found by `-1`. -/
theorem Machine.spelled_strings : (∃ memory', spelled.memory.Spells ⟨28, [104, 105, 104, 105]⟩
        memory' ∧ { spelled with memory := memory' }.readString (Word.ofNat 28) = .ok "hihi") ∧
      (∃ memory', spelled.memory.Spells ⟨28, [105]⟩ memory') ∧
      ∃ cost, ∀ fuel, { spelled with fuel := cost + fuel }.call Helper.strIndex.name [16, -3] =
        (.error (.indexError (-3) 2), { spelled with fuel }) := by
  have hstring : spelled.memory.StringAt ⟨16, [104, 105]⟩ := by
    show Memory.Holds _ _ _
    decide +kernel
  have hroom : spelled.HasRoom 28 (4 * (2 + 2 + 1)) :=
    ⟨⟨by decide +kernel, by decide, by decide, by decide +kernel, by decide +kernel⟩, by decide,
      by decide +kernel⟩
  have hloaded : ∀ helper ∈ [Helper.strEq, .strConcat, .strIndex],
      spelled.function? helper.name = some (helper.function 0) := by
    simp only [forall_mem_cons, not_mem_nil, false_imp_iff, implies_true, and_true]
    exact ⟨rfl, rfl, rfl⟩
  obtain ⟨-, hconcat, hindex⟩ := string_helpers_exact hloaded hroom.heap hstring hstring (by decide)
    (by decide)
  obtain ⟨memory', -, hjoined, -, left, right, hleft, hright, htext⟩ := hconcat hroom
  obtain ⟨last, -, hlast⟩ := (hindex (-1)).1 1 105 rfl (.inr (by decide)) (hroom.mono (by decide))
  refine ⟨⟨memory', hjoined, ?_⟩, ⟨last, hlast⟩, (hindex (-3)).2 (.inl (by decide))⟩
  have htwo : (⟨16, [104, 105]⟩ : Spelled).text = "hi" := by decide +kernel
  have hread := readString_of_stringAt hstring hroom.heap.size_le
  obtain rfl : left = "hi" := Except.ok.inj (hleft.symm.trans hread)
  obtain rfl : right = "hi" := Except.ok.inj (hright.symm.trans hread)
  exact htext

end TypedWasm
