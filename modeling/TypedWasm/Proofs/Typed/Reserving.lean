import TypedWasm.Proofs.Typed.Rules

/-!
# Reserving blocks
-/

namespace TypedWasm.Typed

open Exec List Memory Word

variable {setting : Setting} {fuel : Nat} {owner : String} {before rest : Code} {blocks : Blocks}
  {post : Post} {m : Machine} {locals : Frame} {stack : List Word} {s : State} {address : Word}

/-- A state with the given locals and stack whose memory holds the same words. -/
def Resumes (m : Machine) (locals : Frame) (stack : List Word) (t : State) : Prop :=
  t.locals = locals ∧ t.stack = stack ∧ t.machine.memory.cells = m.memory.cells

/-- Bytes at the top of the heap that belong to no block. Nothing is written in them yet. -/
structure Spare (setting : Setting) (blocks : Blocks) (m : Machine) (address : Word) (bytes : Nat) :
    Prop where
  low : setting.heapStart ≤ address.toAddress
  below : blocks.Below address.toAddress
  head : m.heapHead.toAddress = address.toAddress + bytes
  fresh : ∀ place, address.toAddress ≤ place → place < Memory.addressEnd → m.memory.byte place = 0

namespace Spare

variable {bytes : Nat}

theorem ne_zero (h : Spare setting blocks m address bytes) : address ≠ 0 := by
  rintro rfl
  have := h.low
  have hpos := setting.heap_pos
  have hzero : (0 : Word).toAddress = 0 := rfl
  omega

theorem word (h : Spare setting blocks m address bytes) {place : Nat}
    (hlow : address.toAddress ≤ place) (hhigh : place + 4 ≤ Memory.addressEnd) :
    m.memory.word place = 0 := by
  rw [word_eq_ofBytes, h.fresh _ hlow (by omega), h.fresh _ (by omega) (by omega),
    h.fresh _ (by omega) (by omega), h.fresh _ (by omega) (by omega)]
  rfl

end Spare

namespace Upholds

variable {code : Code} {name : String}

theorem growToHead : Upholds setting fuel owner before Allocation.growToHead blocks
    ⟨m, locals, stack⟩
      { next := fun blocks' t => blocks' = blocks ∧ Resumes m locals stack t } := by
  simp only [Allocation.growToHead, Allocation.pagesBelowHead, Allocation.loadHead, cons_append,
    nil_append]
  refine const (load fun _ => const (numeric fun _ _ => const (numeric fun _ _ =>
    memorySize fun _ =>
    numeric fun _ _ => cond (fun blocks' t => blocks' = blocks ∧ Resumes m locals stack t)
      (fun _ => ?_) (fun _ => nil fun _ => ⟨rfl, rfl, rfl, rfl⟩) fun _ _ _ ht => nil fun _ => ht)))
  exact const (load fun _ => const (numeric fun _ _ => const (numeric fun _ _ => memorySize fun _ =>
    numeric fun _ _ => memoryGrow fun _ _ => const (numeric fun _ _ =>
      cond (fun blocks' t => blocks' = blocks ∧ Resumes m locals stack t) (fun _ => unreachable)
        (fun _ => nil fun _ => ⟨rfl, rfl, rfl, rfl⟩) fun _ _ _ ht => nil fun _ => ht))))

/-- An instruction that pushes a known word: a constant or a local. -/
def Pushes (locals : Frame) (instr : Instr) (word : Word) : Prop :=
  instr = .const word ∨ ∃ name, instr = .localGet name ∧ locals.get? name = some word

theorem push {instr : Instr} {word : Word} (hpushes : Pushes locals instr word)
    (h : Upholds setting fuel owner (before ++ [instr]) rest blocks ⟨m, locals, word :: stack⟩
      post) :
    Upholds setting fuel owner before (instr :: rest) blocks ⟨m, locals, stack⟩ post := by
  rcases hpushes with rfl | ⟨name, rfl, hname⟩
  · exact const h
  · refine localGet fun value hvalue => ?_
    cases hname.symm.trans hvalue
    exact h

theorem bump {size : Instr} {bytes : Word} (hsize : Pushes locals size bytes) :
    Upholds setting fuel owner before (Allocation.bump size) blocks ⟨m, locals, stack⟩
      { next := fun blocks' t => blocks' = blocks ∧ t.locals = locals ∧ ∃ address,
          t.stack = address :: stack ∧
          Spare setting blocks t.machine address bytes.toAddress } := by
  refine assume fun hdescribes => ?_
  have hhead : m.memory.word (Machine.effective (Word.ofUInt32 heapHeadAddress) 0) = m.heapHead :=
  rfl
  simp only [Allocation.bump, Allocation.loadHead, cons_append, nil_append]
  refine const (load fun _ => const (const (load fun _ => push hsize (numeric fun sum hsum => ?_))))
  cases hsum
  rw [hhead]
  refine @moveHead _ _ _ _ _ _ _ _ _ _ _ size ⟨before ++ Allocation.loadHead, ?_⟩
    fun hle => growToHead.imp_next ?_
  · simp [Allocation.loadHead, Instr.constU, Instr.add]
  · rintro blocks' t - ⟨rfl, hlocals, hstack, hcells⟩
    refine ⟨rfl, hlocals, m.heapHead, hstack, hdescribes.head_ge, hdescribes.below_head, ?_, ?_⟩
    · have hsum := toAddress_add m.heapHead bytes
      have hlt := toAddress_lt bytes
      have hmoved : t.machine.heapHead = m.heapHead + bytes := by
        rw [Machine.heapHead, (words_of_cells hcells).1]
        exact word_setWord (by simp [heapHeadAddress, Memory.addressEnd]) _
      rw [hmoved]
      omega
    · intro address hge hbound
      have hpos := hdescribes.head_pos
      rw [(words_of_cells hcells).2, byte_setWord (by rw [Memory.addressEnd]; omega) hbound,
        if_neg (by dsimp only at hpos; omega)]
      exact hdescribes.fresh address hge hbound

theorem registerParts {types : List Ty} (htypes : types ≠ [])
    (hspare : Spare setting blocks s.machine address (4 * types.length)) (h : Upholds setting fuel
    owner before code (blocks.add address.toAddress (.parts types)) s post) :
    Upholds setting fuel owner before code blocks s post := by
  refine assume fun hdescribes => register (hdescribes.grow_add hspare.below _) (fun _ => ?_) h
  have hlt := Describes.head_lt s.machine
  have hhead := hspare.head
  refine hdescribes.add hspare.low hspare.below (length_pos_of_ne_nil htypes) (by rw [hhead]; rfl)
    ⟨trivial, fun i ty hslot => ?_⟩
  have hi := (Kind.slot?_bounds hslot).2
  rw [hspare.word (by omega) (by simp only [Kind.size] at hi; rw [Memory.addressEnd]; omega)]
  exact isValue_zero _ _ _

theorem storeSpare {value : Word} {offset : UInt32} (hlow : setting.heapStart ≤ address.toAddress)
    (hbelow : blocks.Below address.toAddress)
    (hroom : address.toAddress + offset.toNat + 4 ≤ m.heapHead.toAddress)
    (h : Upholds setting fuel owner (before ++ [.store offset]) rest blocks
      ⟨{ m with memory := m.memory.setWord (address.toAddress + offset.toNat) value }, locals,
        stack⟩
      post) :
    Upholds setting fuel owner before (.store offset :: rest) blocks
      ⟨m, locals, value :: address :: stack⟩ post := by
  have hpos := setting.heap_pos
  have hne : address ≠ 0 := by
    rintro rfl
    have hzero : (0 : Word).toAddress = 0 := rfl
    omega
  refine store (.inl hne) (fun _ hdescribes => ⟨?_, ?_⟩) fun _ => h
  · rw [Machine.effective]
    omega
  · exact hdescribes.writeSpare (by rw [Machine.effective]; omega)
      (fun start kind hat => Nat.le_add_right_of_le (hbelow start kind hat)) hroom

/-- Writing the header of a list or dictionary at the top of the heap puts it on the map. -/
theorem storeHeader {tagCode sizeCode boundCode : Instr} {tag size bound : Word} {kind : Kind}
    (hname : locals.get? name = some address) (htag : Pushes locals tagCode tag)
    (hsize : Pushes locals sizeCode size) (hbound : Pushes locals boundCode bound)
    (hspare : Spare setting blocks m address (4 * kind.size)) (hheader : kind.headerSize = 3)
    (hheaded : ∀ memory : Memory, memory.word (address.toAddress + 4) = size →
      memory.word (address.toAddress + 8) = bound → kind.Headed memory address.toAddress) :
    Upholds setting fuel owner before
      [.localGet name, tagCode, .store Block.tagOffset, .localGet name, sizeCode,
        .store Block.sizeOffset, .localGet name, boundCode, .store Block.boundOffset] blocks
      ⟨m, locals, stack⟩ { next := fun blocks' t => t.locals = locals ∧ t.stack = stack ∧
        blocks' = blocks.add address.toAddress kind } := by
  have hpos := setting.heap_pos
  have hlow := hspare.low
  have hthree : 3 ≤ kind.size := hheader ▸ kind.headerSize_le
  have hlt := Describes.head_lt m
  have hhead := hspare.head
  have hend : Memory.addressEnd = 2 ^ 34 := rfl
  have h0 : Block.tagOffset.toNat = 0 := rfl
  have h4 : Block.sizeOffset.toNat = 4 := rfl
  have h8 : Block.boundOffset.toNat = 8 := rfl
  have hkeeps : ∀ (m' : Machine) (offset : UInt32) (value : Word), offset.toNat ≤ 8 →
      Machine.heapHead { m' with
        memory := m'.memory.setWord (address.toAddress + offset.toNat) value } = m'.heapHead :=
    fun m' offset value hoffset => heapHead_setWord m' (by omega) (by omega) value
  have hget : Pushes locals (.localGet name) address := .inr ⟨name, rfl, hname⟩
  refine push hget (push htag (storeSpare hlow hspare.below (by omega) ?_))
  refine push hget (push hsize (storeSpare hlow hspare.below ?_ ?_))
  · rw [hkeeps _ _ _ (by omega)]
    omega
  refine push hget (push hbound (storeSpare hlow hspare.below ?_ ?_))
  · rw [hkeeps _ _ _ (by omega), hkeeps _ _ _ (by omega)]
    omega
  rw [h0, h4, h8, Nat.add_zero]
  refine assume fun hdescribes => register (hdescribes.grow_add hspare.below kind) (fun _ => ?_)
    (nil fun _ => ⟨rfl, rfl, rfl⟩)
  refine hdescribes.add hlow hspare.below (by omega) ?_ ⟨?_, fun i ty hslot => ?_⟩
  · rw [heapHead_setWord _ (by omega) (by omega), heapHead_setWord _ (by omega) (by omega),
      heapHead_setWord _ (by omega) (by omega), hhead]
  · apply hheaded
    · rw [word_setWord_of_disjoint (by omega) (by omega) (.inr (by omega)),
        word_setWord (by omega)]
    · rw [word_setWord (by omega)]
  · obtain ⟨hge, hi⟩ := Kind.slot?_bounds hslot
    have hzero := hspare.word (Nat.le_add_right address.toAddress (4 * i))
      (by omega)
    rw [word_setWord_of_disjoint (by omega) (by omega) (.inl (by omega)),
      word_setWord_of_disjoint (by omega) (by omega) (.inl (by omega)),
      word_setWord_of_disjoint (by omega) (by omega) (.inl (by omega)), hzero]
    exact isValue_zero _ _ _

theorem storeLength {lengthCode : Instr} {length : Word} {room : Nat}
    (hname : locals.get? name = some address) (hlength : Pushes locals lengthCode length)
    (hspare : Spare setting blocks m address (4 * (1 + room))) (hroom : length.toAddress ≤ room) :
    Upholds setting fuel owner before [.localGet name, lengthCode, .store Block.lengthOffset] blocks
      ⟨m, locals, stack⟩ { next := fun blocks' t => t.locals = locals ∧ t.stack = stack ∧
        blocks' = blocks.add address.toAddress (.text room) } := by
  have hpos := setting.heap_pos
  have hlow := hspare.low
  have hlt := Describes.head_lt m
  have hhead := hspare.head
  have hend : Memory.addressEnd = 2 ^ 34 := rfl
  have h0 : Block.lengthOffset.toNat = 0 := rfl
  have hget : Pushes locals (.localGet name) address := .inr ⟨name, rfl, hname⟩
  refine push hget (push hlength (storeSpare hlow hspare.below (by omega) ?_))
  rw [h0, Nat.add_zero]
  refine assume fun hdescribes => register (hdescribes.grow_add hspare.below _) (fun _ => ?_)
    (nil fun _ => ⟨rfl, rfl, rfl⟩)
  refine hdescribes.add hlow hspare.below (by simp [Kind.size]) ?_ ⟨?_, fun i ty hslot => ?_⟩
  · rw [heapHead_setWord _ (by omega) (by omega), hhead]
    rfl
  · show ((m.memory.setWord address.toAddress length).word address.toAddress).toAddress ≤ room
    rw [word_setWord (by omega)]
    exact hroom
  · simp only [Kind.slot?, Option.ite_none_right_eq_some, Option.some.injEq] at hslot
    obtain ⟨-, rfl⟩ := hslot
    trivial

end Upholds

end TypedWasm.Typed
