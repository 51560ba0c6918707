import TypedWasm.Proofs.Bytes
import TypedWasm.Proofs.Heap.Runs

/-!
# The heap

Allocating gives out the bytes from the head on and moves the head past them; it writes no other
byte, and all that lies below the new head is in memory. The generated code and the host allocate in
the same way, except that the host stops at the largest signed word.
-/

namespace TypedWasm

open List Lowering Machine Memory Nat UInt32 Word

variable {low high address base count : Nat} {words more : List Word} {size : Instr}
  {config : Config} {memory : Memory} {m : Machine} {pages : Nat}

/-! ### Ranges of memory -/

namespace Memory

variable {memory' memory'' : Memory}

/-- The second memory is at least as large, and has the same bytes between two addresses. -/
structure AgreeOn (low high : Nat) (memory memory' : Memory) : Prop where
  size : memory.size ≤ memory'.size
  byte : ∀ place, low ≤ place → place < high → memory'.byte place = memory.byte place

theorem AgreeOn.refl (low high : Nat) (memory : Memory) : AgreeOn low high memory memory :=
  ⟨Nat.le_refl _, fun _ _ _ => rfl⟩

section

variable (h : AgreeOn low high memory memory')
include h

theorem AgreeOn.trans (h' : AgreeOn low high memory' memory'') : AgreeOn low high memory memory'' :=
  ⟨Nat.le_trans h.size h'.size,
    fun place hlow hhigh => (h'.byte place hlow hhigh).trans (h.byte place hlow hhigh)⟩

theorem AgreeOn.mono {low' high' : Nat} (hlow : low ≤ low') (hhigh : high' ≤ high) :
    AgreeOn low' high' memory memory' :=
  ⟨h.size, fun place hl hh => h.byte place (by omega) (by omega)⟩

theorem AgreeOn.word (hlow : low ≤ address) (hhigh : address + 4 ≤ high) :
    memory'.word address = memory.word address :=
  word_congr fun place hl hh => h.byte place (by omega) (by omega)

end

theorem agreeOn_setWord (haddress : address + 4 ≤ addressEnd) (hhigh : high ≤ addressEnd)
    (hapart : address + 4 ≤ low ∨ high ≤ address) (value : Word) :
    AgreeOn low high memory (memory.setWord address value) := by
  refine ⟨by rw [size_setWord], fun place hl hh => ?_⟩
  rw [byte_setWord haddress (by omega), if_neg (by omega)]

theorem AgreeOn.setWord (h : AgreeOn low high memory memory') (haddress : address + 4 ≤ addressEnd)
    (hhigh : high ≤ addressEnd) (hapart : address + 4 ≤ low ∨ high ≤ address) (value : Word) :
    AgreeOn low high memory (memory'.setWord address value) :=
  h.trans (agreeOn_setWord haddress hhigh hapart value)

theorem agreeOn_pages (h : memory.pages ≤ pages) (low high : Nat) :
    AgreeOn low high memory { memory with pages } :=
  ⟨Nat.mul_le_mul_left _ h, fun _ _ _ => rfl⟩

/-- Words that stand one after another from an address on. -/
structure Holds (memory : Memory) (base : Nat) (words : List Word) : Prop where
  inside : base + 4 * words.length ≤ memory.size
  word : ∀ index word, words[index]? = some word → memory.word (base + 4 * index) = word

theorem Holds.nil (h : base ≤ memory.size) : Holds memory base [] :=
  ⟨by simpa using h, fun _ _ hword => by simp at hword⟩

theorem Holds.agree (h : Holds memory base words) (hagree : AgreeOn low high memory memory')
    (hlow : low ≤ base) (hhigh : base + 4 * words.length ≤ high) : Holds memory' base words := by
  refine ⟨Nat.le_trans h.inside hagree.size, fun index word hword => ?_⟩
  obtain ⟨hindex, -⟩ := List.getElem?_eq_some_iff.1 hword
  rw [hagree.word (by omega) (by omega)]
  exact h.word index word hword

theorem Holds.append (h : Holds memory base words)
    (hmore : Holds memory (base + 4 * words.length) more) : Holds memory base (words ++ more) := by
  refine ⟨by have := hmore.inside; rw [length_append]; omega, fun index word hword => ?_⟩
  by_cases hindex : index < words.length
  · rw [getElem?_append_left hindex] at hword
    exact h.word index word hword
  · rw [getElem?_append_right (by omega)] at hword
    have hplace : base + 4 * index =
        base + 4 * words.length + 4 * (index - words.length) := by omega
    rw [hplace]
    exact hmore.word _ word hword

theorem Holds.left (h : Holds memory base (words ++ more)) : Holds memory base words := by
  refine ⟨by have := h.inside; rw [length_append] at this; omega, fun index word hword => ?_⟩
  refine h.word index word ?_
  rw [getElem?_append_left (List.getElem?_eq_some_iff.1 hword).1, hword]

theorem Holds.drop (h : Holds memory base (words ++ more)) :
    Holds memory (base + 4 * words.length) more := by
  refine ⟨by have := h.inside; rw [length_append] at this; omega, fun index word hword => ?_⟩
  rw [Nat.add_assoc, ← Nat.mul_add]
  refine h.word (words.length + index) word ?_
  rw [getElem?_append_right (by omega), Nat.add_sub_cancel_left, hword]

theorem Holds.tail {word : Word} (h : Holds memory base (word :: words)) :
    Holds memory (base + 4) words := by
  have happend : Holds memory base ([word] ++ words) := h
  exact happend.drop

theorem Holds.snoc (h : Holds memory base words) (word : Word)
    (hinside : base + 4 * words.length + 4 ≤ memory.size)
    (hend : base + 4 * words.length + 4 ≤ addressEnd) :
    Holds (memory.setWord (base + 4 * words.length) word) base (words ++ [word]) := by
  have hold : Holds (memory.setWord (base + 4 * words.length) word) base words :=
    h.agree (agreeOn_setWord hend (by omega) (.inr (Nat.le_refl _)) word) (Nat.le_refl _)
      (Nat.le_refl _)
  refine hold.append ⟨by simpa using hinside, fun index found hfound => ?_⟩
  rw [getElem?_singleton] at hfound
  obtain rfl : index = 0 := by
    by_contra hne
    rw [if_neg hne] at hfound
    cases hfound
  obtain rfl : word = found := Option.some.inj hfound
  exact word_setWord hend word

theorem holds_iff : memory.Holds base words ↔ base + 4 * words.length ≤ memory.size ∧
      (List.range words.length).map (fun index => memory.word (base + 4 * index)) = words := by
  constructor
  · intro h
    refine ⟨h.inside, ext_getElem? fun index => ?_⟩
    by_cases hindex : index < words.length
    · simp [h.word index _ (getElem?_eq_getElem hindex), hindex]
    · rw [getElem?_eq_none (by simpa using hindex), getElem?_eq_none (by omega)]
  · rintro ⟨hinside, h⟩
    refine ⟨hinside, fun index word hword => ?_⟩
    obtain ⟨hindex, -⟩ := List.getElem?_eq_some_iff.1 hword
    rw [← h, getElem?_map, getElem?_range hindex] at hword
    exact Option.some.inj hword

instance (memory : Memory) (base : Nat) (words : List Word) : Decidable (memory.Holds base words) :=
  decidable_of_iff _ holds_iff.symm

end Memory

namespace Machine

theorem loadWord_ofNat {offset : UInt32} (hbase : base < 2 ^ 32)
    (h : base + offset.toNat + 4 ≤ m.memory.size) :
    m.loadWord (Word.ofNat base) offset = .ok (m.memory.word (base + offset.toNat)) := by
  rw [loadWord, effective, toAddress_ofNat hbase, Memory.load?, if_pos h]

theorem storeWord_ofNat {offset : UInt32} (hbase : base < 2 ^ 32)
    (h : base + offset.toNat + 4 ≤ m.memory.size) (value : Word) :
    m.storeWord (Word.ofNat base) offset value =
      .ok { m with memory := m.memory.setWord (base + offset.toNat) value } := by
  rw [storeWord, effective, toAddress_ofNat hbase, Memory.store?, if_pos h]

theorem loadWord_held {offset : UInt32} {start index : Nat} {word : Word}
    (h : m.memory.Holds start words)
    (hword : words[index]? = some word) (hplace : base + offset.toNat = start + 4 * index)
    (hbase : base < 2 ^ 32) : m.loadWord (Word.ofNat base) offset = .ok word := by
  obtain ⟨hindex, -⟩ := List.getElem?_eq_some_iff.1 hword
  have hinside := h.inside
  rw [loadWord_ofNat hbase (by omega), hplace, h.word index word hword]

theorem loadWord_first {offset : UInt32} {start : Nat} {word : Word}
    (h : m.memory.Holds start (word :: words)) (hplace : base + offset.toNat = start)
    (hbase : base < 2 ^ 32) : m.loadWord (Word.ofNat base) offset = .ok word :=
  loadWord_held h (show (word :: words)[0]? = some word from rfl) hplace hbase

theorem readWords_of_holds (h : m.memory.Holds base words) :
    m.readWords base words.length = .ok words := by
  rw [readWords, if_pos (.inr h.inside), (holds_iff.1 h).2]

end Machine

/-! ### The head -/

/-- The highest head whose pages can be counted in a word. -/
def heapEnd : Nat := 2 ^ 32 - 65536

theorem pagesBelow_eq (address : Nat) : pagesBelow address = (address + 65535) / 65536 := by
  rw [pagesBelow, Nat.add_comm]
  rfl

theorem pagesBelow_mono {less more : Nat} (h : less ≤ more) :
    pagesBelow less ≤ pagesBelow more := by
  rw [pagesBelow_eq, pagesBelow_eq]
  omega

theorem Memory.size_eq (memory : Memory) : memory.size = 65536 * memory.pages := rfl

structure Memory.HeapAt (memory : Memory) (head : Nat) : Prop where
  word : memory.word 0 = Word.ofNat head
  above : 4 ≤ head
  below : head ≤ heapEnd
  inside : head ≤ memory.size
  pages : memory.pages ≤ 65536

theorem Memory.HeapAt.setWord {head : Nat} (h : memory.HeapAt head) (hlow : 4 ≤ address)
    (hhigh : address + 4 ≤ addressEnd) (value : Word) : (memory.setWord address value).HeapAt
      head := by
  refine ⟨?_, h.above,
    h.below, by rw [size_setWord]; exact h.inside, by rw [pages_setWord]; exact h.pages⟩
  rw [word_setWord_of_disjoint hhigh (by decide) (.inr (by omega))]
  exact h.word

/-- The memory with its head moved, and with all pages below it. -/
def Memory.moveHead (memory : Memory) (head : Nat) : Memory :=
  { memory.setWord 0 (Word.ofNat head) with pages := max memory.pages (pagesBelow head) }

theorem Memory.agreeOn_moveHead (memory : Memory) (head : Nat) (h : high ≤ addressEnd) :
    AgreeOn 4 high memory (memory.moveHead head) := by
  have hpages : (memory.setWord 0 (Word.ofNat head)).pages = memory.pages := rfl
  refine (agreeOn_setWord (by decide) h (.inl (Nat.le_refl _)) (Word.ofNat head)).trans ?_
  exact agreeOn_pages (by rw [hpages]; exact Nat.le_max_left _ _) _ _

theorem Memory.HeapAt.moveHead {head : Nat} (h : memory.HeapAt head) {new : Nat} (hold : head ≤ new)
    (hnew : new ≤ heapEnd) : (memory.moveHead new).HeapAt new := by
  have hpages : (memory.moveHead new).pages = max memory.pages (pagesBelow new) := rfl
  have hbelow := pagesBelow_eq new
  have habove := h.above
  have hlimit := h.pages
  refine ⟨by exact word_setWord (by decide) _, by omega, hnew, ?_, ?_⟩
  · rw [size_eq, hpages]
    omega
  · rw [heapEnd] at hnew
    rw [hpages]
    omega

/-! ### Allocation by the generated code -/

namespace Machine

/-- The machine with a memory of at least the given pages. -/
def withPages (m : Machine) (pages : Nat) : Machine :=
  { m with memory := { m.memory with pages := max m.memory.pages pages } }

/-- Growing to the pages below an address fails only if the limit does not allow them. -/
theorem grow_pagesBelow (haddress : address ≤ heapEnd)
    (hpages : m.memory.pages < pagesBelow address) :
    m.grow (UInt32.ofNat (pagesBelow address - m.memory.pages)) =
      if pagesBelow address ≤ m.maxPages then
        (Word.ofNat m.memory.pages, m.withPages (pagesBelow address))
      else (-1, m) := by
  have hbelow := pagesBelow_eq address
  rw [heapEnd] at haddress
  have hdelta : (UInt32.ofNat (pagesBelow address - m.memory.pages)).toNat =
      pagesBelow address - m.memory.pages := by
    rw [toNat_ofNat']
    exact mod_eq_of_lt (by omega)
  have hnew : m.pages + (pagesBelow address - m.memory.pages) = pagesBelow address :=
    add_sub_of_le (Nat.le_of_lt hpages)
  have hsize : UInt32.size = 4294967296 := rfl
  have hcounted : pagesBelow address < UInt32.size := by omega
  simp only [grow, hdelta, hnew, hcounted, true_and]
  split
  · rw [withPages, Nat.max_eq_right (Nat.le_of_lt hpages)]
    rfl
  · rfl

theorem withPages_of_le (h : pages ≤ m.memory.pages) : m.withPages pages = m := by
  rw [withPages, Nat.max_eq_left h]

end Machine

theorem Word.ofNat_ne_minus_one {n : Nat} (h : n < 2 ^ 32 - 1) : Word.ofNat n ≠ -1 := by
  intro heq
  have haddress := congrArg Word.toAddress heq
  rw [toAddress_ofNat (by omega)] at haddress
  have hone : Word.toAddress (-1) = 4294967295 := by decide
  omega

theorem Word.shiftRight_ofNat {n : Nat} (h : n < 2 ^ 32) :
    ((Word.ofNat n).toUInt32 >>> (16 : Word).toUInt32).toInt32 = Word.ofNat (n / 65536) := by
  apply toAddress_inj
  rw [toAddress_ofNat (by omega)]
  show ((Word.ofNat n).toUInt32 >>> (16 : UInt32)).toNat = n / 65536
  rw [UInt32.toNat_shiftRight]
  show (Word.ofNat n).toAddress >>> 16 = n / 65536
  rw [toAddress_ofNat h, shiftRight_eq_div_pow]

namespace Allocation
open Exec

variable {frame : Frame} {stack : List Word} {head : Nat}

theorem loadWord_head (hword : m.memory.word 0 = Word.ofNat head) (hsize : 4 ≤ m.memory.size) :
    m.loadWord (Word.ofUInt32 heapHeadAddress) 0 = .ok (Word.ofNat head) := by
  have hplace : Machine.effective (Word.ofUInt32 heapHeadAddress) 0 = 0 := rfl
  rw [Machine.loadWord, hplace, Memory.load?, if_pos (by omega), hword]

theorem storeWord_head (hsize : 4 ≤ m.memory.size) (value : Word) :
    m.storeWord (Word.ofUInt32 heapHeadAddress) 0 value =
      .ok { m with memory := m.memory.setWord 0 value } := by
  have hplace : Machine.effective (Word.ofUInt32 heapHeadAddress) 0 = 0 := rfl
  rw [Machine.storeWord, hplace, Memory.store?, if_pos (by omega)]

/-- The code that counts pages, for any mask and shift. With the words themselves in their place the
kernel would compute them. -/
theorem straight_shiftedHead {word mask shift sum result : Word}
    (hload : m.loadWord (Word.ofUInt32 heapHeadAddress) 0 = .ok word)
    (hadd : numeric .add word mask = .ok sum) (hshift : numeric .shrU sum shift = .ok result) :
    straight (loadHead ++ [.const mask, .add, .const shift, .numeric .shrU]) ⟨m, frame, stack⟩ =
      some ⟨m, frame, result :: stack⟩ := by
  simp only [loadHead, Instr.constU, Instr.add, cons_append, nil_append, straight, step,
    State.push, hload, hadd, hshift]

section

variable (hword : m.memory.word 0 = Word.ofNat head) (hsize : 4 ≤ m.memory.size)
  (hhead : head ≤ heapEnd)
include hword hsize hhead

theorem straight_pagesBelowHead : straight pagesBelowHead ⟨m, frame, stack⟩ =
      some ⟨m, frame, Word.ofNat (pagesBelow head) :: stack⟩ := by
  rw [heapEnd] at hhead
  have hmask : Word.ofUInt32 (pageSize - 1) = Word.ofNat 65535 := rfl
  have hpages : ((Word.ofNat head + Word.ofUInt32 (pageSize - 1)).toUInt32 >>>
      (16 : Word).toUInt32).toInt32 = Word.ofNat (pagesBelow head) := by
    rw [hmask, ofNat_add_ofNat, shiftRight_ofNat (by omega), pagesBelow_eq]
  exact straight_shiftedHead (loadWord_head hword hsize) rfl (congrArg Except.ok hpages)

/-- Growing memory by the pages missing below the head, whether it succeeds or not. -/
theorem growMissing_ends (hmore : m.memory.pages < pagesBelow head) {old : Word} {m' : Machine}
    {flow : Flow} (hgrow : m.grow (UInt32.ofNat (pagesBelow head - m.memory.pages)) = (old, m'))
    (hbranch : Ends (if Word.ofBool (old = -1) ≠ 0 then [.unreachable] else [])
      ⟨m', frame, stack⟩ flow ⟨m', frame, stack⟩) (hflow : ∀ depth, flow ≠ .branch depth) :
    Ends (pagesBelowHead ++
        [.memorySize, .sub, .memoryGrow, .const (-1), .numeric .eq, .when [.unreachable]])
      ⟨m, frame, stack⟩ flow ⟨m', frame, stack⟩ := by
  have hdelta : (Word.ofNat (pagesBelow head) - Word.ofNat m.memory.pages).toUInt32 =
      UInt32.ofNat (pagesBelow head - m.memory.pages) := by
    rw [ofNat_sub_ofNat (Nat.le_of_lt hmore)]
    rfl
  have hstraight : straight [.memorySize, .sub, .memoryGrow, .const (-1), .numeric .eq]
      ⟨m, frame, Word.ofNat (pagesBelow head) :: stack⟩ =
      some ⟨m', frame, Word.ofBool (old = -1) :: stack⟩ := by
    simp only [straight, step, State.push, Instr.sub, Machine.pages, hdelta, hgrow, numeric]
  refine .after (straight_pagesBelowHead hword hsize hhead) ?_ (by decide)
  exact .after hstraight (.cond hbranch hflow) (by decide)

end

theorem straight_missing (hhead : head ≤ heapEnd) (hpages : m.memory.pages < 2 ^ 32) :
    straight [.memorySize, .numeric .gtU] ⟨m, frame, Word.ofNat (pagesBelow head) :: stack⟩ =
      some ⟨m, frame, Word.ofBool (m.memory.pages < pagesBelow head) :: stack⟩ := by
  have htest : (Word.ofNat (pagesBelow head)).toUInt32 > (Word.ofNat m.memory.pages).toUInt32 ↔
      m.memory.pages < pagesBelow head := by
    have hbelow := pagesBelow_eq head
    rw [heapEnd] at hhead
    rw [gt_iff_lt, lt_iff_toNat_lt]
    show (Word.ofNat m.memory.pages).toAddress < (Word.ofNat (pagesBelow head)).toAddress ↔ _
    rw [toAddress_ofNat hpages, toAddress_ofNat (by omega)]
  simp only [straight, step, State.push, Machine.pages, numeric, htest]

section

variable (hword : m.memory.word 0 = Word.ofNat head) (hsize : 4 ≤ m.memory.size)
  (hhead : head ≤ heapEnd) (hpages : m.memory.pages < 2 ^ 32)
include hword hsize hhead hpages

/-- Growing memory to the head stops the run exactly if pages are missing that the limit does not
allow. -/
theorem growToHead_outcome (frame : Frame) (stack : List Word) :
    if pagesBelow head ≤ max m.memory.pages m.maxPages then
      Ends growToHead ⟨m, frame, stack⟩ .next ⟨m.withPages (pagesBelow head), frame, stack⟩
    else Ends growToHead ⟨m, frame, stack⟩ (.trap .unreachable) ⟨m, frame, stack⟩ := by
  have hbelow := pagesBelow_eq head
  by_cases hmore : m.memory.pages < pagesBelow head
  · have hgrow := grow_pagesBelow hhead hmore
    have hbranch : Word.ofBool (m.memory.pages < pagesBelow head) ≠
        0 := by simp [Word.ofBool, hmore]
    have hold :=
      ofNat_ne_minus_one (show m.memory.pages < 2 ^ 32 - 1 by rw [heapEnd] at hhead; omega)
    split
    all_goals
      refine .after (straight_pagesBelowHead hword hsize hhead) ?_ (by decide)
      refine .after (straight_missing hhead hpages) (.cond ?_ (by simp))
      rw [if_pos hbranch]
    · rw [if_pos (by omega)] at hgrow
      refine growMissing_ends hword hsize hhead hmore hgrow ?_ (by simp)
      rw [if_neg (by simp [Word.ofBool, hold])]
      exact .nil _
    · rw [if_neg (by omega)] at hgrow
      exact growMissing_ends hword hsize hhead hmore hgrow (.leave fun _ => rfl) (by simp)
  · rw [if_pos (by omega), withPages_of_le (Nat.le_of_not_lt hmore)]
    refine .after (straight_pagesBelowHead hword hsize hhead) ?_ (by decide)
    refine .after (straight_missing hhead hpages) (.cond ?_ (by simp))
    rw [if_neg (by simp [Word.ofBool, hmore])]
    exact .nil _

end

/-- An instruction that pushes a word: a constant or a local. -/
def Pushes (instr : Instr) (frame : Frame) (word : Word) : Prop :=
  instr = .const word ∨ ∃ name, instr = .localGet name ∧ frame.get? name = some word

theorem pushes_constU (size : UInt32) (frame : Frame) :
    Pushes (.constU size) frame (Word.ofNat size.toNat) :=
  .inl (by rw [Instr.constU, ofUInt32_eq_ofNat])

/-- Code that allocates a number of bytes, known or held by a local. -/
def Requests (code : Code) (frame : Frame) (size : UInt32) : Prop :=
  code = static size ∨ ∃ name, code = dynamic name ∧ frame.get? name = some (Word.ofUInt32 size)

theorem Requests.eq_bump {code : Code} {size : UInt32} (h : Requests code frame size) :
    ∃ instr, Pushes instr frame (Word.ofNat size.toNat) ∧ code = bump instr := by
  rcases h with rfl | ⟨name, rfl, hget⟩
  · exact ⟨_, pushes_constU size frame, rfl⟩
  · rw [ofUInt32_eq_ofNat] at hget
    exact ⟨_, .inr ⟨name, rfl, hget⟩, rfl⟩

section Bump

variable (hpushes : Pushes size frame (Word.ofNat count))
  (hword : m.memory.word 0 = Word.ofNat head) (hsize : 4 ≤ m.memory.size)
include hpushes hword hsize

theorem bumpHead_ends :
    Ends (loadHead ++ [.constU heapHeadAddress] ++ loadHead ++ [size, .add, .store 0])
      ⟨m, frame, stack⟩ .next
      ⟨{ m with memory := m.memory.setWord 0 (Word.ofNat (head + count)) }, frame,
        Word.ofNat head :: stack⟩ := by
  rcases hpushes with rfl | ⟨name, rfl, hget⟩
  · refine .straight ?_ (by simp [loadHead, Instr.constU, Instr.add, InstrOf.isAtomic])
    simp only [loadHead, Instr.constU, Instr.add, cons_append, nil_append, Exec.straight, step,
      State.push, loadWord_head hword hsize, numeric, storeWord_head hsize, ofNat_add_ofNat]
  · refine .straight ?_ (by simp [loadHead, Instr.constU, Instr.add, InstrOf.isAtomic])
    simp only [loadHead, Instr.constU, Instr.add, cons_append, nil_append, Exec.straight, step,
      State.push, loadWord_head hword hsize, hget, numeric, storeWord_head hsize, ofNat_add_ofNat]

/-- **Allocation by the generated code** moves the head. If the limit allows the pages below the new
one, the old one is left, and otherwise the run stops. -/
theorem bump_outcome (hend : head + count ≤ heapEnd) (hpages : m.memory.pages < 2 ^ 32)
    (stack : List Word) :
    if pagesBelow (head + count) ≤ max m.memory.pages m.maxPages then
      Ends (bump size) ⟨m, frame, stack⟩ .next
        ⟨{ m with memory := m.memory.moveHead (head + count) }, frame, Word.ofNat head :: stack⟩
    else Ends (bump size) ⟨m, frame, stack⟩ (.trap .unreachable)
      ⟨{ m with memory := m.memory.setWord 0 (Word.ofNat (head + count)) }, frame,
        Word.ofNat head :: stack⟩ := by
  have hgrow :=
  growToHead_outcome (m := { m with memory := m.memory.setWord 0 (Word.ofNat (head + count)) })
    (word_setWord (by decide) _) (by simpa using hsize) hend hpages frame (Word.ofNat head :: stack)
  split
  · next hroom => exact (bumpHead_ends hpushes hword hsize).append ((if_pos hroom).mp hgrow)
  · next hroom => exact (bumpHead_ends hpushes hword hsize).append ((if_neg hroom).mp hgrow)

end Bump

/-- Allocation of a known size moves the head and leaves the old one, or there is no room below the
limit. -/
theorem static_reaches (size : UInt32) (h : m.memory.HeapAt head)
    (hroom : head + size.toNat ≤ heapEnd) :
    Reaches (fun trap => trap = .unreachable ∧ 65536 * m.maxPages < head + size.toNat)
      (fun t => ∃ fuel, t =
        { machine := { m with memory := m.memory.moveHead (head + size.toNat), fuel },
          locals := frame, stack := Word.ofNat head :: stack })
      (exec (static size) ⟨m, frame, stack⟩) := by
  have hsize : 4 ≤ m.memory.size := Nat.le_trans h.above h.inside
  have hpages : m.memory.pages < 2 ^ 32 := Nat.lt_of_le_of_lt h.pages (by decide)
  have hbelow := pagesBelow_eq (head + size.toNat)
  have hbump := bump_outcome (pushes_constU size frame) h.word hsize hroom hpages stack
  split at hbump
  · exact .of_ends hbump fun fuel => .done rfl ⟨fuel, rfl⟩
  · exact .of_ends hbump fun fuel => .excuse rfl ⟨rfl, by omega⟩

end Allocation

/-! ### Allocation by the host -/

namespace Machine

theorem writeWords_holds (written words : List Word) {offset : UInt32} (hbase : base < 2 ^ 32)
    (hoffset : offset.toNat = 4 * written.length) (hheld : m.memory.Holds base written)
    (hinside : base + 4 * (written.length + words.length) ≤ m.memory.size)
    (hend : base + 4 * (written.length + words.length) < 2 ^ 32) :
    ∃ memory, m.writeWords (Word.ofNat base) offset words = (.ok (), { m with memory }) ∧
      memory.pages = m.memory.pages ∧ memory.Holds base (written ++ words) ∧
      Memory.AgreeOn 0 base m.memory memory := by
  induction words generalizing m written offset with
  | nil => exact ⟨m.memory, rfl, rfl, by rwa [append_nil], .refl _ _ _⟩
  | cons word rest ih =>
    rw [length_cons] at hinside hend
    have hstore :=
      storeWord_ofNat hbase (show base + offset.toNat + 4 ≤ m.memory.size by omega) word
    rw [hoffset] at hstore
    have hlast : base + 4 * written.length + 4 ≤ Memory.addressEnd := by
      rw [Memory.addressEnd]
      omega
    have hoffset' : (offset + 4).toNat = 4 * (written ++ [word]).length := by
      rw [UInt32.toNat_add, hoffset, length_append, length_singleton]
      show (4 * written.length + 4) % 2 ^ 32 = _
      rw [mod_eq_of_lt (by omega)]
      omega
    obtain ⟨memory, hwrite, hpages, hholds, hagree⟩ :=
      ih (m := { m with memory := m.memory.setWord (base + 4 * written.length) word })
        (written ++ [word]) hoffset' (hheld.snoc word (by omega) hlast) (by simp; omega)
          (by simp; omega)
    refine ⟨memory, ?_, by simpa using hpages, by simpa using hholds, ?_⟩
    · rw [writeWords, hstore]
      exact hwrite
    · exact (agreeOn_setWord hlast (by omega) (.inr (by omega)) word).trans hagree

theorem placeWords_moves {head : Nat} (h : m.memory.HeapAt head)
    (hroom : head + 4 * words.length ≤ heapEnd) :
    ∃ memory, (m.withPages (pagesBelow (head + 4 * words.length))).placeWords (Word.ofNat head)
        (Word.ofNat (head + 4 * words.length)) words = (.ok (Word.ofNat head), { m with memory }) ∧
      memory.HeapAt (head + 4 * words.length) ∧ Memory.AgreeOn 4 head m.memory memory ∧
      memory.Holds head words := by
  have hend := hroom
  rw [heapEnd] at hend
  have hsize : 4 ≤ m.memory.size := Nat.le_trans h.above h.inside
  have habove := h.above
  have hmoved := h.moveHead (Nat.le_add_right _ _) hroom
  have hinside := hmoved.inside
  have hstore : (m.withPages (pagesBelow (head + 4 * words.length))).storeWord
      (Word.ofUInt32 heapHeadAddress) 0 (Word.ofNat (head + 4 * words.length)) =
      .ok { m with memory := m.memory.moveHead (head + 4 * words.length) } := by
    refine Allocation.storeWord_head (m := m.withPages _) ?_ _
    exact Nat.le_trans hsize (Nat.mul_le_mul_left _ (Nat.le_max_left _ _))
  obtain ⟨memory, hwrite, hpages, hholds, hagree⟩ :=
    writeWords_holds (m := { m with memory := m.memory.moveHead (head + 4 * words.length) })
      [] words (by omega) (show (0 : UInt32).toNat = _ from rfl)
      (.nil (Nat.le_trans (Nat.le_add_right _ _) hinside)) (by simpa using hinside) (by simp; omega)
  refine ⟨memory, ?_, ⟨?_, by omega, hroom, ?_, ?_⟩, ?_, hholds⟩
  · rw [placeWords, hstore]
    simp only [hwrite]
  · rw [hagree.word (Nat.le_refl _) (by omega)]
    exact hmoved.word
  · exact Nat.le_trans hinside hagree.size
  · rw [hpages]
    exact hmoved.pages
  · have hkept : Memory.AgreeOn 4 head m.memory (m.memory.moveHead (head + 4 * words.length)) :=
      m.memory.agreeOn_moveHead _ (by rw [Memory.addressEnd]; omega)
    exact hkept.trans (hagree.mono (Nat.zero_le _) (Nat.le_refl _))

/-- Allocation by the host, by whether the signed words and then the limit have room for it. Without
room the machine stays as it is. -/
theorem allocateBigint_eq {head : Nat} (hhead : m.heapHead = Word.ofNat head) (value : Int)
    (hroom : head + 4 * (bigintWords value).length ≤ heapEnd) :
    m.allocateBigint value =
      if 2147483647 < (Word.ofNat head).toInt + 4 * (bigintWords value).length then
        (.error .hostAddressOverflow, m)
      else if pagesBelow (head + 4 * (bigintWords value).length) ≤
          max m.memory.pages m.maxPages then
        (m.withPages (pagesBelow (head + 4 * (bigintWords value).length))).placeWords
          (Word.ofNat head) (Word.ofNat (head + 4 * (bigintWords value).length))
          (bigintWords value)
      else (.error .unreachable, m) := by
  generalize hwords : bigintWords value = words at hroom ⊢
  have hafter : Word.ofInt ((Word.ofNat head).toInt + 4 * words.length) =
      Word.ofNat (head + 4 * words.length) := by
    have hcast : (4 * words.length : Int) = (4 * words.length : Nat) := by push_cast; rfl
    rw [hcast, ofInt_toInt_add, ofNat_add_ofNat]
  have hbelow := pagesBelow_eq (head + 4 * words.length)
  have hend := hroom
  rw [heapEnd] at hend
  have hneeded : (Word.ofNat (head + 4 * words.length)).toAddress = head + 4 * words.length :=
    toAddress_ofNat (by omega)
  simp only [allocateBigint, hwords, hhead, hafter, hneeded]
  by_cases hover : 2147483647 < (Word.ofNat head).toInt + 4 * words.length
  · rw [if_pos hover, if_pos hover]
  rw [if_neg hover, if_neg hover]
  by_cases hmore : m.pages < pagesBelow (head + 4 * words.length)
  · -- memory is asked to grow, and the answer is the old number of pages or `-1`
    have hpages : m.memory.pages < pagesBelow (head + 4 * words.length) := hmore
    have hgrow := grow_pagesBelow hroom hmore
    by_cases hlimit : pagesBelow (head + 4 * words.length) ≤ m.maxPages
    · have hold : (Word.ofNat m.memory.pages != -1) = true :=
        bne_iff_ne.2 (ofNat_ne_minus_one (by omega))
      rw [if_pos hlimit] at hgrow
      rw [if_pos (Nat.le_trans hlimit (Nat.le_max_right _ _))]
      simp only [if_pos hmore]
      simp only [pages, hgrow, hold, if_true]
      rfl
    · rw [if_neg hlimit] at hgrow
      rw [if_neg (Nat.not_le.2 (Nat.max_lt.2 ⟨hpages, Nat.lt_of_not_le hlimit⟩))]
      simp only [if_pos hmore]
      simp only [pages, hgrow, bne_self_eq_false, Bool.false_eq_true, if_false]
  · have hpages : pagesBelow (head + 4 * words.length) ≤ m.memory.pages := Nat.le_of_not_lt hmore
    rw [if_neg hmore, if_pos (Nat.le_trans hpages (Nat.le_max_left _ _)), withPages_of_le hpages]
    rfl

/-- Allocation by the host moves the head and writes the integer where it was, or there is no room
below the limit or below the largest signed word. -/
theorem allocateBigint_cases {head : Nat} (h : m.memory.HeapAt head) (value : Int)
    (hroom : head + 4 * (bigintWords value).length ≤ heapEnd) :
    (∃ trap, m.allocateBigint value = (.error trap, m) ∧
      (trap = .hostAddressOverflow ∧ 2 ^ 31 ≤ head + 4 * (bigintWords value).length ∨
        trap = .unreachable ∧ 65536 * m.maxPages < head + 4 * (bigintWords value).length)) ∨
    ∃ memory, m.allocateBigint value = (.ok (Word.ofNat head), { m with memory }) ∧
      memory.HeapAt (head + 4 * (bigintWords value).length) ∧
      Memory.AgreeOn 4 head m.memory memory ∧ memory.Holds head (bigintWords value) := by
  rw [allocateBigint_eq h.word value hroom]
  split
  · next hover =>
    have hsigned := toInt_ofNat_le head
    exact .inl ⟨.hostAddressOverflow, rfl, .inl ⟨rfl, by omega⟩⟩
  · split
    · exact .inr (placeWords_moves h hroom)
    · next hfull =>
      have hbelow := pagesBelow_eq (head + 4 * (bigintWords value).length)
      exact .inl ⟨.unreachable, rfl, .inr ⟨rfl, by omega⟩⟩

end Machine

/-! ### Fresh machines -/

theorem Config.limit_of_check (hcheck : config.check = .ok ()) {limit : UInt32}
    (hlimit : config.maxMemoryPages = some limit) : config.minMemoryPages.toNat ≤ limit.toNat := by
  rw [Config.check, hlimit] at hcheck
  split at hcheck
  · cases hcheck
  · split at hcheck
    · cases hcheck
    · simp only at hcheck
      split at hcheck
      · cases hcheck
      · next hle => exact le_iff_toNat_le.1 (UInt32.not_lt.1 hle)

/-- The most pages that a machine of the configuration may have. -/
def Config.pageLimit (config : Config) : Nat := (config.maxMemoryPages.map UInt32.toNat).getD 65536

theorem Machine.eq_of_start (h : Machine.start? config = .ok m) :
    m = { memory := Memory.setWord { pages := config.minMemoryPages.toNat } heapHeadAddress.toNat
            (Word.ofUInt32 config.heapStart)
          pageLimit := config.maxMemoryPages } := by
  rw [Machine.start?] at h
  split at h
  · cases h
  · split at h
    · cases h
    · cases h
      rfl

theorem Machine.limit_start (hstart : Machine.start? config = .ok m) :
    m.maxPages = config.pageLimit ∧ m.output = #[] := by
  rw [eq_of_start hstart]
  exact ⟨rfl, rfl⟩

theorem Machine.heapAt_start (hcheck : config.check = .ok ())
    (hpages : config.minMemoryPages.toNat < 65536) (hstart : Machine.start? config = .ok m) :
    m.memory.HeapAt config.heapStart.toNat ∧ config.heapStart.toNat ≤ 65536 * m.maxPages := by
  obtain ⟨hheap, hroom⟩ := Config.layout_of_check hcheck
  have hpage : pageSize.toNat = 65536 := rfl
  rw [hpage] at hroom
  rw [(limit_start hstart).1, eq_of_start hstart]
  refine ⟨⟨?_, by omega, ?_, hroom, Nat.le_of_lt hpages⟩, ?_⟩
  · rw [← ofUInt32_eq_ofNat]
    exact word_setWord (by decide) _
  · rw [heapEnd]
    omega
  · refine Nat.le_trans hroom (Nat.mul_le_mul_left _ ?_)
    rw [Config.pageLimit]
    cases hlimit : config.maxMemoryPages with
    | none => exact Nat.le_of_lt hpages
    | some limit => exact Config.limit_of_check hcheck hlimit

end TypedWasm
