import TypedWasm.Proofs.Data.RoundTrip
import TypedWasm.Proofs.Exact.Copying

/-!
# Blocks that are filled part by part

A new block is reserved first, and then its parts are evaluated and stored one after another. What a
part makes lies after the block and after all that was made before it, so the words that are stored
already stay as they are.
-/

namespace TypedWasm

open Exec TypedWasm.Frame List Option

namespace Lowering

variable {temp : String} {base last index : Nat} {parts : List Code} {m m' : Machine}
  {frame frame' : Frame} {words : List Word}

/-- Stores parts into the block whose address is in a local, the first as word `index`. -/
def storeParts (temp : String) : (index : Nat) → List Code → Code
  | _, [] => []
  | index, part :: rest => storeWord temp (UInt32.ofNat (4 * index)) part ++
    storeParts temp (index + 1) rest

/-- Constants are stored as parts. Their offsets all fit, so they are not too many. -/
theorem storeConstants_eq {context : Context} {start later : Progress} {code : Code}
    (hindex : index ≤ 2 ^ 30)
    (h : (storeConstants temp index words).run context start = (.ok code, later)) :
    code = storeParts temp index (words.map fun word => [.const word]) := by
  induction words generalizing index code with
  | nil => exact (Lower.pure_eq_ok_iff.1 h).1.symm
  | cons word rest ih =>
    simp only [storeConstants, Lower.bind_eq_ok_iff, Lower.ofChecked_eq_ok_iff,
      Lower.pure_eq_ok_iff] at h
    obtain ⟨offset, _, ⟨hoffset, rfl⟩, stored, _, hrest, rfl, rfl⟩ := h
    obtain ⟨hsmall, hplace⟩ := Heap.consecutive_wordOffset.index hindex hoffset
    rw [Nat.zero_add] at hplace
    rw [ih hsmall hrest, map_cons, storeParts, ← hplace, UInt32.ofNat_toNat]

/-- Parts that leave words, each of them run where the one before it left the machine. The word of
each part is stored before the next part runs, and the parts keep the block and its address. -/
inductive Laid (temp : String) (base last : Nat) :
    (index : Nat) → List Code → Machine → Frame → List Word → Machine → Frame → Prop
  | nil (index : Nat) (m : Machine) (frame : Frame) :
    Laid temp base last index [] m frame [] m frame
  | cons {index : Nat} {part : Code} {rest : List Code} {m m₁ m' : Machine}
      {frame frame₁ frame' : Frame} {word : Word} {words : List Word}
      (runs : ∀ stack, Ends part ⟨m, frame, stack⟩ .next ⟨m₁, frame₁, word :: stack⟩)
      (address : frame₁.get? temp = frame.get? temp)
      (block : Memory.AgreeOn base last m.memory m₁.memory)
      (limit : m₁.memory.size ≤ 2 ^ 32)
      (later : Laid temp base last (index + 1) rest
        { m₁ with memory := m₁.memory.setWord (base + 4 * index) word } frame₁ words m' frame') :
      Laid temp base last index (part :: rest) m frame (word :: words) m' frame'

section

variable (h : Laid temp base last index parts m frame words m' frame')
include h

theorem Laid.length_eq : words.length = parts.length := by
  induction h with
  | nil => rfl
  | cons _ _ _ _ _ ih => rw [length_cons, length_cons, ih]

theorem Laid.append {more : List Code} {words' : List Word} {m'' : Machine} {frame'' : Frame}
    (hmore : Laid temp base last (index + parts.length) more m' frame' words' m'' frame'') :
    Laid temp base last index (parts ++ more) m frame (words ++ words') m'' frame'' := by
  induction h with
  | nil => exact hmore
  | cons hruns haddress hblock hlimit _ ih =>
    refine .cons hruns haddress hblock hlimit (ih ?_)
    rwa [length_cons, ← Nat.add_assoc, Nat.add_right_comm] at hmore

/-- **Parts one after another** fill the next words of the block. The induction is on the parts. -/
theorem Laid.ends (htemp : frame.get? temp = some (Word.ofNat base))
    (hlast : base + 4 * (index + parts.length) ≤ last) (hinside : last ≤ m.memory.size)
    (stack : List Word) :
    Ends (storeParts temp index parts) ⟨m, frame, stack⟩ .next ⟨m', frame', stack⟩ ∧
      frame'.get? temp = some (Word.ofNat base) ∧
      ∀ front, front.length = index → m.memory.Holds base front →
        m'.memory.Holds base (front ++ words) := by
  induction h with
  | nil => exact ⟨.nil _, htemp, fun front _ hfront => by rwa [append_nil]⟩
  | @cons index part rest m m₁ m' frame frame₁ frame' word words hruns haddress
      hblock hlimit _ ih =>
    rw [length_cons] at hlast
    have hsize := hblock.size
    have hend : Memory.addressEnd = 2 ^ 34 := rfl
    have hoffset : (UInt32.ofNat (4 * index)).toNat = 4 * index :=
      UInt32.toNat_ofNat_of_lt' (show _ < 2 ^ 32 by omega)
    have hstore : m₁.storeWord (Word.ofNat base) (UInt32.ofNat (4 * index)) word =
        .ok { m₁ with memory := m₁.memory.setWord (base + 4 * index) word } := by
      rw [Machine.storeWord_ofNat (by omega) (by rw [hoffset]; omega), hoffset]
    obtain ⟨hends, hkept, hholds⟩ := ih (haddress.trans htemp) (by omega)
      (by rw [Memory.size_setWord]; exact Nat.le_trans hinside hsize)
    refine ⟨?_, hkept, fun front hfront hheld => ?_⟩
    · rw [storeParts, storeWord, append_assoc, append_assoc]
      have hstored :
          Ends [.store (UInt32.ofNat (4 * index))] ⟨m₁, frame₁, word :: Word.ofNat base :: stack⟩
          .next ⟨{ m₁ with memory := m₁.memory.setWord (base + 4 * index) word }, frame₁, stack⟩ :=
        .straight (by simp only [Exec.straight, step, hstore])
      exact (HelperBody.localGet_ends htemp).append ((hruns _).append (hstored.append hends))
    · subst hfront
      have hsnoc := (hheld.agree hblock (Nat.le_refl _) (by omega)).snoc word (by omega) (by omega)
      have hall := hholds _ (by rw [length_append, length_singleton]) hsnoc
      rwa [append_assoc] at hall

end

/-- A block that is reserved, kept in a local, filled and left. -/
def blockCode (temp : String) (size : UInt32) (parts : List Code) : Code :=
  Allocation.static size ++ [.localSet temp] ++ storeParts temp 0 parts ++ [.localGet temp]

/-- **A block is made at the head**, and holds the words of its parts. -/
theorem blockCode_ends {size : UInt32} {head : Nat} (hroom : m.HasRoom head size.toNat)
    (hthere : (frame.get? temp).isSome) (hcount : 4 * parts.length ≤ size.toNat)
    (h : Laid temp head (head + size.toNat) 0 parts
      { m with memory := m.memory.moveHead (head + size.toNat) } (frame.put temp (Word.ofNat head))
      words m' frame') (stack : List Word) :
    Ends (blockCode temp size parts) ⟨m, frame, stack⟩ .next
      ⟨m', frame', Word.ofNat head :: stack⟩ ∧ m'.memory.Holds head words := by
  obtain ⟨old, hold⟩ := isSome_iff_exists.1 hthere
  have hput : (frame.put temp (Word.ofNat head)).get? temp = some (Word.ofNat head) := by
    rw [get?_put, if_pos rfl, hold, map_some]
  obtain ⟨hends, haddress, hholds⟩ := h.ends hput (by omega) hroom.moved.inside stack
  have hset : Ends [.localSet temp]
      ⟨{ m with memory := m.memory.moveHead (head + size.toNat) }, frame, Word.ofNat head :: stack⟩
        .next
      ⟨{ m with memory := m.memory.moveHead (head + size.toNat) }, frame.put temp (Word.ofNat head),
        stack⟩ :=
    .straight (by simp only [Exec.straight, step, set?_eq, hold, map_some])
  refine ⟨?_, hholds [] rfl hroom.opened.held⟩
  exact (((hroom.bump_ends (Allocation.pushes_constU size frame) stack).append hset).append
    hends).append
    (HelperBody.localGet_ends haddress)

theorem constants_laid (m : Machine) (temp : String) (frame : Frame) {memory opened : Memory}
    {front : List Word} (words : List Word)
    (h : memory.Filled base last front opened)
    (hlast : base + 4 * (front.length + words.length) ≤ last) :
    ∃ memory', Laid temp base last front.length (words.map fun word => [.const word])
        { m with memory := opened } frame words { m with memory := memory' } frame ∧
      memory.Filled base last (front ++ words) memory' := by
  induction words generalizing front opened with
  | nil => exact ⟨opened, .nil _ _ _, by rwa [append_nil]⟩
  | cons word words ih =>
    rw [length_cons] at hlast
    have hstore := h.store word (by omega)
    have hlength : (front ++ [word]).length = front.length + 1 := by
      rw [length_append, length_singleton]
    obtain ⟨memory', hlaid, hfilled⟩ := ih hstore (by rw [hlength]; omega)
    rw [hlength] at hlaid
    rw [append_assoc] at hfilled
    exact ⟨memory', .cons (fun _ => .straight rfl) rfl (.refl _ _ _) h.heap.size_le hlaid, hfilled⟩

end Lowering

end TypedWasm
