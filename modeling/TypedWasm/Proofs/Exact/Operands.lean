import TypedWasm.Proofs.Exact.Splitting

/-!
# Operands

An operand stands for a word if its code leaves that word and changes nothing. It keeps doing so
while parts of memory that it does not read are written.
-/

namespace TypedWasm

open Exec List Lower

/-- Memories of one size that differ at some places only. -/
structure Memory.DifferIn (places : Nat → Prop) (memory memory' : Memory) : Prop where
  pages : memory'.pages = memory.pages
  byte : ∀ place < addressEnd, ¬ places place → memory'.byte place = memory.byte place

namespace Memory.DifferIn

variable {places : Nat → Prop} {memory memory' : Memory} {low high : Nat}

theorem refl (places : Nat → Prop) (memory : Memory) : DifferIn places memory memory :=
  ⟨rfl, fun _ _ _ => rfl⟩

section

variable (h : DifferIn places memory memory')
include h

theorem size : memory'.size = memory.size :=
  congrArg (pageSize.toNat * ·) h.pages

theorem setWord {address : Nat} (hend : address + 4 ≤ addressEnd)
    (hplaces : ∀ place, address ≤ place → place < address + 4 → places place) (value : Word) :
    DifferIn places memory (memory'.setWord address value) := by
  refine ⟨(pages_setWord _ _ _).trans h.pages, fun place hplace hother => ?_⟩
  rw [byte_setWord hend hplace, if_neg]
  · exact h.byte place hplace hother
  · exact fun hinside => hother (hplaces place hinside.1 (by omega))

theorem agreeOn (hhigh : high ≤ addressEnd)
    (hapart : ∀ place, low ≤ place → place < high → ¬ places place) :
      AgreeOn low high memory memory' :=
  ⟨Nat.le_of_eq h.size.symm, fun place hlow hbelow =>
    h.byte place (Nat.lt_of_lt_of_le hbelow hhigh) (hapart place hlow hbelow)⟩

end

end Memory.DifferIn

theorem Memory.Holds.set {memory : Memory} {base position : Nat} {words : List Word}
    (h : memory.Holds base words) (hposition : position < words.length)
    (hend : base + 4 * words.length ≤ addressEnd) (word : Word) :
    (memory.setWord (base + 4 * position) word).Holds base (words.set position word) := by
  refine ⟨by rw [size_setWord, length_set]; exact h.inside, fun index found hfound => ?_⟩
  have hindex := (List.getElem?_eq_some_iff.1 hfound).1
  rw [length_set] at hindex
  by_cases hsame : position = index
  · subst hsame
    rw [getElem?_set_self hposition] at hfound
    rw [word_setWord (by omega)]
    exact Option.some.inj hfound
  · rw [getElem?_set_ne hsame] at hfound
    rw [word_setWord_of_disjoint (by omega) (by omega) (by omega)]
    exact h.word index found hfound

namespace Lowering

/-- A state that is reached while places of memory and temporaries are written. -/
structure Meanwhile (context : Context) (places : Nat → Prop) (m : Machine) (frame : Frame)
    (memory : Memory) (frame' : Frame) : Prop where
  differ : Memory.DifferIn places m.memory memory
  locals : ∀ name, context.env.isLocal name = true → frame'.get? name = frame.get? name
  there : ∀ name, (frame'.get? name).isSome = (frame.get? name).isSome

/-- An operand is lowered to code that leaves the word, in every state reached meanwhile. -/
def StandsFor (context : Context) (places : Nat → Prop) (m : Machine) (frame : Frame)
    (operand : Expr) (word : Word) : Prop :=
  ∀ start, ∃ code later, (expr operand).run context start = (.ok code, later) ∧
    start.temps ≤ later.temps ∧
      ∀ memory frame' stack, Meanwhile context places m frame memory frame' →
      Ends code ⟨{ m with memory }, frame', stack⟩ .next ⟨{ m with memory }, frame', word :: stack⟩

variable {context : Context} {places : Nat → Prop} {m : Machine} {frame frame' : Frame}
  {memory : Memory} {word : Word} {name : String}

theorem Meanwhile.start (context : Context) (places : Nat → Prop) (m : Machine) (frame : Frame) :
    Meanwhile context places m frame m.memory frame :=
  ⟨.refl _ _, fun _ _ => rfl, fun _ => rfl⟩

theorem Meanwhile.putTemp (h : Meanwhile context places m frame memory frame')
    (hfree : context.TempsFree) (index : Nat) (word : Word) :
    Meanwhile context places m frame memory (frame'.put (tempName index) word) where
  differ := h.differ
  locals other hother := by
    rw [Frame.get?_put, if_neg (hfree other hother index)]
    exact h.locals other hother
  there other := (Frame.isSome_get?_put _ _ _ _).trans (h.there other)

theorem standsFor_number (hnative : context.config.bigNumbers = false) (word : Word) :
    StandsFor context places m frame (.literal .number (.num word.toInt)) word := by
  intro start
  have hfits : Word.fits word.toInt = true := by
    have hlow := word.le_toInt
    have hhigh := word.toInt_lt
    simp only [Word.fits, Bool.and_eq_true, decide_eq_true_eq]
    omega
  refine ⟨[.const word], start, ?_, Nat.le_refl _, fun memory frame' stack _ => .straight rfl⟩
  simp only [expr, literal, bind_eq_ok_iff, bigNumbers_eq_ok_iff, hnative]
  refine ⟨false, start, ⟨rfl, rfl⟩, ?_⟩
  rw [if_neg Bool.false_ne_true, nativeNumber, if_pos hfits, Word.ofInt, Int32.ofInt_toInt]
  rfl

theorem standsFor_variable (ty : Ty) {heapStart : Nat} (hhoused : context.Housed frame heapStart)
    (hplaces : ∀ place, places place → heapStart ≤ place) (hinside : heapStart ≤ m.memory.size)
    (hlimit : m.memory.size ≤ 2 ^ 32)
    (hvalue : context.env.value? frame m.memory name = some word) :
    StandsFor context places m frame (.id ty name) word := by
  intro start
  rw [Environment.value?] at hvalue
  simp only [expr, nameValue, bind_eq_ok_iff, context_eq_ok_iff]
  split at hvalue
  · next hlocal =>
    refine ⟨[.localGet name], start, ⟨context, start, ⟨rfl, rfl⟩, by rw [if_pos hlocal]; rfl⟩,
      Nat.le_refl _,
      fun memory frame' stack h => HelperBody.localGet_ends ((h.locals name hlocal).trans hvalue)⟩
  · next hlocal =>
    obtain ⟨slot, hslot, rfl⟩ := Option.map_eq_some_iff.1 hvalue
    have hbelow := (hhoused.globals name slot hslot).2
    have hbytes : (UInt32.ofNat (4 * slot.toNat)).toNat = 4 * slot.toNat :=
      UInt32.toNat_ofNat_of_lt' (show _ < 2 ^ 32 by omega)
    refine ⟨[.constU (.ofNat (4 * slot.toNat)), .load 0], start, ⟨context, start, ⟨rfl, rfl⟩, ?_⟩,
      Nat.le_refl _, fun memory frame' stack h => .straight ?_⟩
    · rw [if_neg hlocal]
      simp only [bind_eq_ok_iff, ofResult_eq_ok_iff, pure_eq_ok_iff]
      exact ⟨_, start, ⟨Environment.globalAddress_eq_ok_iff.2 ⟨slot, hslot, hbytes⟩, rfl⟩, rfl, rfl⟩
    · have hsize := h.differ.size
      have hagree : Memory.AgreeOn 0 heapStart m.memory memory :=
        h.differ.agreeOn (by show _ ≤ 2 ^ 34; omega)
          fun place _ hlow hplace => absurd (hplaces place hplace) (by omega)
      have hkept := hagree.word (Nat.zero_le (4 * slot.toNat)) hbelow
      have hload : ({ m with memory } : Machine).loadWord (Word.ofNat (4 * slot.toNat)) 0 =
          .ok (m.memory.word (4 * slot.toNat)) :=
        (Machine.loadWord_ofNat (by omega)
          (by show 4 * slot.toNat + 0 + 4 ≤ memory.size; omega)).trans (congrArg _ hkept)
      simp only [Exec.straight, step, Instr.constU, State.push, Word.ofUInt32_eq_ofNat, hbytes,
        hload]

end Lowering

theorem Lowering.Context.splitting_housed {frame : Frame} (h : (frame.get? "rest").isSome) :
    splitting.Housed frame 16 where
  free := splitting_free
  locals name hname := by rwa [splitting_local hname]
  planned := Splitting.firstRest.housed.planned
  head := by decide
  globals := Splitting.firstRest.housed.globals

end TypedWasm
