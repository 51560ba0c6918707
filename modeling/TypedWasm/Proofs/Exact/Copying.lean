import TypedWasm.Proofs.Heap.Allocation

/-!
# Pieces the helpers share

What the shared templates of the helpers do: computing addresses, counting, leaving a loop, and
copying words from one place to another one that starts after it.
-/

namespace TypedWasm

open TypedWasm.Frame List Machine Option Word

variable {m : Machine} {offset : UInt32} {words : List Word} {memory : Memory}
  {head bytes total : Nat} {count : String} {start index : Nat} {word : Word}

namespace Memory

variable {source target : Nat}

/-- The memory after words were copied one after another. -/
def copy (memory : Memory) (source target : Nat) : (count : Nat) → Memory
  | 0 => memory
  | count + 1 =>
    (memory.copy source target count).setWord (target + 4 * count)
      ((memory.copy source target count).word (source + 4 * count))

@[simp] theorem pages_copy (memory : Memory) (source target count : Nat) :
    (memory.copy source target count).pages = memory.pages := by
  induction count with
  | zero => rfl
  | succ count ih => rw [copy, pages_setWord, ih]

@[simp] theorem size_copy (memory : Memory) (source target count : Nat) :
    (memory.copy source target count).size = memory.size := by
  rw [size, pages_copy, size]

theorem agreeOn_copy {count low high : Nat} (hend : target + 4 * count ≤ addressEnd)
    (hhigh : high ≤ addressEnd) (hapart : target + 4 * count ≤ low ∨ high ≤ target) :
    AgreeOn low high memory (memory.copy source target count) := by
  induction count with
  | zero => exact .refl _ _ _
  | succ count ih =>
    refine (ih (by omega) (by omega)).trans ?_
    exact agreeOn_setWord (by omega) hhigh (by omega) _

theorem holds_copy (h : memory.Holds source words) (hapart : source + 4 * words.length ≤ target)
    (hinside : target + 4 * words.length ≤ memory.size)
    (hend : target + 4 * words.length ≤ addressEnd) :
    (memory.copy source target words.length).Holds target words := by
  have hprefix : ∀ count ≤ words.length,
      (memory.copy source target count).Holds target (words.take count) := by
    intro count hcount
    induction count with
    | zero => exact .nil (by rw [size_copy]; omega)
    | succ count ih =>
      have hlength : (words.take count).length = count := by rw [length_take]; omega
      have hword : (memory.copy source target count).word (source + 4 * count) = words[count] := by
        have hkept : AgreeOn source target memory (memory.copy source target count) :=
          agreeOn_copy (by omega) (by omega) (.inr (Nat.le_refl _))
        rw [hkept.word (by omega) (by omega)]
        exact h.word count _ (getElem?_eq_getElem (by omega))
      have hsnoc := (ih (by omega)).snoc words[count] (by rw [hlength, size_copy]; omega)
        (by rw [hlength]; omega)
      rw [hlength, ← hword] at hsnoc
      rw [take_succ_eq_append_getElem (by omega), ← hword]
      exact hsnoc
  have hall := hprefix words.length (Nat.le_refl _)
  rwa [take_length] at hall

end Memory

/-- The heap ends at `head`, and the limit allows `bytes` more. -/
structure Machine.HasRoom (m : Machine) (head bytes : Nat) : Prop where
  heap : m.memory.HeapAt head
  counted : head + bytes ≤ heapEnd
  allowed : pagesBelow (head + bytes) ≤ max m.memory.pages m.maxPages

section Room

variable (h : m.HasRoom head bytes)
include h

theorem Machine.HasRoom.bump_ends {frame : Frame} {size : Instr}
    (hsize : Allocation.Pushes size frame (Word.ofNat bytes)) (stack : List Word) :
    Exec.Ends (Allocation.bump size) ⟨m, frame, stack⟩ .next
      ⟨{ m with memory := m.memory.moveHead (head + bytes) }, frame, Word.ofNat head :: stack⟩ :=
  (if_pos h.allowed).mp (Allocation.bump_outcome hsize h.heap.word
    (Nat.le_trans h.heap.above h.heap.inside) h.counted
      (Nat.lt_of_le_of_lt h.heap.pages (by decide)) stack)

theorem Machine.HasRoom.moved : (m.memory.moveHead (head + bytes)).HeapAt (head + bytes) :=
  h.heap.moveHead (Nat.le_add_right _ _) h.counted

end Room

theorem Machine.HasRoom.mono {less : Nat} (h : m.HasRoom head bytes) (hless : less ≤ bytes) :
    m.HasRoom head less := by
  have hcounted := h.counted
  exact ⟨h.heap, by omega, Nat.le_trans (pagesBelow_mono (by omega)) h.allowed⟩

theorem Memory.HeapAt.size_le (h : memory.HeapAt head) : memory.size ≤ 2 ^ 32 := by
  have hpages := h.pages
  rw [Memory.size_eq]
  omega

/-- A block from `head` to `last` was allocated, and its first words are written. -/
structure Memory.Filled (head last : Nat) (words : List Word) (memory memory' : Memory) : Prop where
  held : memory'.Holds head words
  heap : memory'.HeapAt last
  kept : AgreeOn 4 head memory memory'
  above : 4 ≤ head

section Filling

variable {memory' : Memory} {last : Nat}

theorem Memory.HeapAt.agree (h : memory.HeapAt head) (hagree : AgreeOn 0 4 memory memory')
    (hpages : memory'.pages = memory.pages) : memory'.HeapAt head := by
  refine ⟨?_, h.above, h.below, Nat.le_trans h.inside hagree.size, by rw [hpages]; exact h.pages⟩
  rw [hagree.word (Nat.le_refl _) (Nat.le_refl _)]
  exact h.word

theorem Machine.HasRoom.opened (h : m.HasRoom head bytes) :
    m.memory.Filled head (head + bytes) [] (m.memory.moveHead (head + bytes)) := by
  have hcounted := h.counted
  rw [heapEnd] at hcounted
  refine ⟨.nil ?_, h.moved, m.memory.agreeOn_moveHead _ ?_, h.heap.above⟩
  · exact Nat.le_trans (Nat.le_add_right _ _) h.moved.inside
  · show head ≤ 2 ^ 34
    omega

section

variable (h : memory.Filled head last words memory')
include h

theorem Memory.Filled.store (value : Word) (hroom : head + 4 * words.length + 4 ≤ last) :
    memory.Filled head last (words ++ [value])
      (memory'.setWord (head + 4 * words.length) value) := by
  have hinside := h.heap.inside
  have hsize := h.heap.size_le
  have habove := h.above
  have hend : addressEnd = 2 ^ 34 := rfl
  exact ⟨h.held.snoc value (by omega) (by omega), h.heap.setWord (by omega) (by omega) value,
    h.kept.setWord (by omega) (by omega) (.inr (by omega)) value, habove⟩

theorem Memory.Filled.storeWord (m : Machine) (offset : UInt32) (value : Word)
    (hoffset : offset.toNat = 4 * words.length) (hroom : head + 4 * words.length + 4 ≤ last) :
    { m with memory := memory' }.storeWord (Word.ofNat head) offset value =
      .ok { m with memory := memory'.setWord (head + 4 * words.length) value } := by
  have hinside := h.heap.inside
  have hsize := h.heap.size_le
  rw [storeWord_ofNat (by omega) (by rw [hoffset]; exact Nat.le_trans hroom hinside), hoffset]

theorem Memory.Filled.loadWord (m : Machine) {row : List Word} {base : Nat}
    (hrow : memory.Holds start row) (hstart : 4 ≤ start) (hbelow : start + 4 * row.length ≤ head)
    (hword : row[index]? = some word) (hplace : base + offset.toNat = start + 4 * index) :
    { m with memory := memory' }.loadWord (Word.ofNat base) offset = .ok word := by
  have hinside := h.heap.inside
  have hsize := h.heap.size_le
  have hheld := h.held.inside
  obtain ⟨hindex, -⟩ := List.getElem?_eq_some_iff.1 hword
  exact loadWord_held (hrow.agree h.kept hstart hbelow) hword hplace (by omega)

theorem Memory.Filled.copy {more : List Word} {source : Nat} (hmore : memory.Holds source more)
    (hsource : 4 ≤ source) (hbelow : source + 4 * more.length ≤ head)
    (hroom : head + 4 * (words.length + more.length) ≤ last) : memory.Filled head last
      (words ++ more) (memory'.copy source (head + 4 * words.length) more.length) := by
  have hinside := h.heap.inside
  have hsize := h.heap.size_le
  have habove := h.above
  have hend : addressEnd = 2 ^ 34 := rfl
  have hagree : AgreeOn 0 (head + 4 * words.length) memory'
      (memory'.copy source (head + 4 * words.length) more.length) :=
    agreeOn_copy (by omega) (by omega) (.inr (Nat.le_refl _))
  have hcopied := holds_copy (hmore.agree h.kept hsource hbelow)
    (by omega : source + 4 * more.length ≤ head + 4 * words.length) (by omega) (by omega)
  refine ⟨(h.held.agree hagree (Nat.zero_le _) (Nat.le_refl _)).append hcopied,
    h.heap.agree (hagree.mono (Nat.le_refl _) (by omega)) (pages_copy _ _ _ _),
    h.kept.trans (hagree.mono (Nat.zero_le _) (by omega)), habove⟩

end

end Filling

namespace Symbolic

theorem ofUInt32_wordSize : Word.ofUInt32 wordSize = Word.ofNat 4 := rfl

theorem ofUInt32_headerSize : Word.ofUInt32 Block.headerSize = Word.ofNat 12 := rfl

theorem ofUInt32_stringHeader : Word.ofUInt32 Block.stringHeader = Word.ofNat 4 := rfl

attribute [scoped simp] ofUInt32_wordSize ofUInt32_headerSize ofUInt32_stringHeader ofNat_add_ofNat
  ofNat_mul_ofNat

end Symbolic

namespace HelperBody

open Exec Symbolic

variable {index : String} {place : Nat} {base : String} {address : Nat}

variable {frame : Frame} {stack : List Word}

theorem localGet_ends {name : String} {value : Word} (h : frame.get? name = some value) :
    Ends [.localGet name] ⟨m, frame, stack⟩ .next ⟨m, frame, value :: stack⟩ :=
  .straight (by simp [h])

theorem setZero_ends (name : String) (h : (frame.get? name).isSome) (stack : List Word) :
    Ends [.const 0, .localSet name] ⟨m, frame, stack⟩ .next
      ⟨m, frame.put name (Word.ofNat 0), stack⟩ :=
  .straight (by simp [h]; rfl)

section

variable (hbase : frame.get? base = some (Word.ofNat address))
  (hindex : frame.get? index = some (Word.ofNat place))
include hbase hindex

theorem addressOf_ends {result : String} {scale : UInt32} {old : Word}
    (hresult : frame.get? result = some old) :
    Ends (addressOf base offset index scale result) ⟨m, frame, stack⟩ .next
      ⟨m, frame.put result (Word.ofNat (address + offset.toNat + place * scale.toNat)), stack⟩ :=
  .straight (by simp [addressOf, hbase, hindex, hresult, ofUInt32_eq_ofNat]) (by simp [addressOf])

theorem wordAt_ends : Ends (wordAt base index) ⟨m, frame, stack⟩ .next
      ⟨m, frame, Word.ofNat (address + 4 * place) :: stack⟩ :=
  .straight (by simp [wordAt, hbase, hindex, Nat.mul_comm place 4]) (by simp [wordAt])

end

/-- A local counts from zero to another one. -/
structure Counts (frame : Frame) (index count : String) (place total : Nat) : Prop where
  atIndex : frame.get? index = some (Word.ofNat place)
  atCount : frame.get? count = some (Word.ofNat total)
  small : total < 2 ^ 31
  within : place ≤ total

theorem straight_leaveAt (h : Counts frame index count place total) :
    Exec.straight [.localGet index, .localGet count, .numeric .geS] ⟨m, frame, stack⟩ =
      some ⟨m, frame, Word.ofBool (place = total) :: stack⟩ := by
  have hsmall := h.small
  have hwithin := h.within
  have htest : Word.ofNat place ≥ Word.ofNat total ↔ place = total := by
    rw [ge_iff_le, ← Int32.not_lt, ofNat_lt_ofNat (by omega) hsmall]
    omega
  simp [h.atIndex, h.atCount, htest]

theorem leaveAt_stays (h : Counts frame index count place total) (hmore : place < total) :
    Ends (leaveAt index count) ⟨m, frame, stack⟩ .next ⟨m, frame, stack⟩ := by
  refine .after (straight_leaveAt h) ?_
  have hzero : Word.ofBool (decide (place = total)) = 0 := by simp [Word.ofBool]; omega
  exact .straight (by simp [hzero])

theorem leaveAt_leaves (h : Counts frame index count total total) :
    Ends (leaveAt index count) ⟨m, frame, stack⟩ (.branch 1) ⟨m, frame, stack⟩ := by
  refine .after (straight_leaveAt h) (.leave fun fuel => ?_)
  rw [decide_eq_true rfl]
  rfl

theorem increment_ends (h : frame.get? index = some (Word.ofNat place)) :
    Ends (increment index) ⟨m, frame, stack⟩ .next
      ⟨m, frame.put index (Word.ofNat (place + 1)), stack⟩ := by
  have hone : (1 : Word) = Word.ofNat 1 := rfl
  exact .straight (by simp [increment, h, hone]) (by simp [increment])

section Copying

variable {source target i : String} {src dst : Nat}

/-- The locals of a copy loop. -/
structure Copies (frame : Frame) (source target count i : String) (src dst total : Nat) : Prop where
  atSource : frame.get? source = some (Word.ofNat src)
  atTarget : frame.get? target = some (Word.ofNat dst)
  atCount : frame.get? count = some (Word.ofNat total)
  there : (frame.get? i).isSome
  apart : i ≠ source ∧ i ≠ target ∧ i ≠ count

section Loop

variable (h : Copies frame source target count i src dst total)
include h

theorem Copies.counts (hplace : place ≤ total) (htotal : total < 2 ^ 31) :
    Counts (frame.put i (Word.ofNat place)) i count place total := by
  exact ⟨by simp [h.there], by simp [h.apart.2.2.symm, h.atCount], htotal, hplace⟩

theorem copyRound_ends (hplace : place < total) (hsize : m.memory.size ≤ 2 ^ 32)
    (hsrc : src + 4 * total ≤ m.memory.size) (hdst : dst + 4 * total ≤ m.memory.size) :
    Ends (copyRound source target count i) ⟨m, frame.put i (Word.ofNat place), stack⟩ (.branch 0)
      ⟨{ m with memory := m.memory.setWord (dst + 4 * place) (m.memory.word (src + 4 * place)) },
        frame.put i (Word.ofNat (place + 1)), stack⟩ := by
  have hcounts := h.counts (Nat.le_of_lt hplace) (by omega)
  have hsource : (frame.put i (Word.ofNat place)).get? source = some (Word.ofNat src) := by
    simp [h.apart.1.symm, h.atSource]
  have htarget : (frame.put i (Word.ofNat place)).get? target = some (Word.ofNat dst) := by
    simp [h.apart.2.1.symm, h.atTarget]
  have hload : m.loadWord (Word.ofNat (src + 4 * place)) 0 =
      .ok (m.memory.word (src + 4 * place)) :=
    loadWord_ofNat (by omega) (by show src + 4 * place + 0 + 4 ≤ _; omega)
  have hstore : ∀ value, m.storeWord (Word.ofNat (dst + 4 * place)) 0 value =
      .ok { m with memory := m.memory.setWord (dst + 4 * place) value } :=
    storeWord_ofNat (by omega) (by show dst + 4 * place + 0 + 4 ≤ _; omega)
  simp only [copyRound, append_assoc]
  refine (leaveAt_stays hcounts hplace).append ?_
  refine (wordAt_ends htarget hcounts.atIndex).append ?_
  refine (wordAt_ends hsource hcounts.atIndex).append ?_
  refine .after (by simp [hload, hstore]; rfl) ?_
  refine (increment_ends hcounts.atIndex).append ?_
  rw [put_put]
  exact .leave fun _ => rfl

section

variable (hsize : m.memory.size ≤ 2 ^ 32) (hsrc : src + 4 * total ≤ m.memory.size)
  (hdst : dst + 4 * total ≤ m.memory.size)
include hsize hsrc hdst

/-- The copy loop from any round on. The induction is on the rounds that are left. -/
theorem copyLoop_ends {left : Nat} (hleft : place + left = total) :
    Loops stack.length (copyRound source target count i)
      ⟨{ m with memory := m.memory.copy src dst place }, frame.put i (Word.ofNat place), stack⟩
      (.branch 0)
      ⟨{ m with memory := m.memory.copy src dst total }, frame.put i (Word.ofNat total),
        stack⟩ := by
  induction left generalizing place with
  | zero =>
    obtain rfl : place = total := hleft
    refine .out ?_
    simp only [copyRound, append_assoc]
    exact (leaveAt_leaves (h.counts (Nat.le_refl _) (by omega))).stop (by simp) _
  | succ left ih =>
    refine .again (copyRound_ends h (by omega) (by simpa using hsize) (by simpa using hsrc)
      (by simpa using hdst)) ?_
    rw [State.truncate_self rfl]
    exact ih (by omega)

/-- **The copy loop** copies all words, and counts to their number. -/
theorem copyWords_ends : Ends (copyWords source target count i) ⟨m, frame, stack⟩ .next
      ⟨{ m with memory := m.memory.copy src dst total }, frame.put i (Word.ofNat total),
        stack⟩ := by
  have hloop : Loops stack.length _ ⟨m, frame.put i (Word.ofNat 0), stack⟩ (.branch 0) _ :=
    copyLoop_ends h hsize hsrc hdst (Nat.zero_add total)
  have hblock := Ends.blockLoop hloop
  rw [State.truncate_self rfl] at hblock
  exact (setZero_ends i h.there stack).append hblock

end

end Loop

end Copying

theorem copies_put (hthere : ∀ name ∈ ["src", "dst", "count", "i"], (frame.get? name).isSome)
    (src dst total : Nat) :
    Copies (((frame.put "src" (Word.ofNat src)).put "dst" (Word.ofNat dst)).put "count"
      (Word.ofNat total)) "src" "dst" "count" "i" src dst total := by
  refine ⟨?_, ?_, ?_, ?_, by decide, by decide, by decide⟩
  all_goals simp [hthere]

end HelperBody

end TypedWasm
