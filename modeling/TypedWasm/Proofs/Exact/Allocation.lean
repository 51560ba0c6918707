import TypedWasm.Proofs.Heap.Allocation
import TypedWasm.Session

/-!
# What an allocation does

The code that allocates stops the run exactly when the new head needs more pages than there are and
than the limit allows. Otherwise the old head is left, the new head is stored, memory has the
missing pages, and nothing else changed.
-/

namespace TypedWasm

open Exec Failing Memory

variable {memory : Memory} {config : Config} {m : Machine} {s : Session}

/-- Nothing was written past the end of the memory, so the bytes that growing adds are zero. -/
def Memory.Blank (memory : Memory) : Prop :=
  ∀ place, memory.size ≤ place → place < 2 ^ 32 → memory.byte place = 0

theorem Memory.Blank.setWord (h : memory.Blank) {address : Nat}
    (hinside : address + 4 ≤ memory.size) (hend : address + 4 ≤ addressEnd) (value : Word) :
    (memory.setWord address value).Blank := by
  intro place hlow hhigh
  rw [size_setWord] at hlow
  rw [byte_setWord hend (by rw [addressEnd]; omega), if_neg (by omega)]
  exact h place hlow hhigh

theorem Memory.blank_pages (pages : Nat) : Memory.Blank { pages } := by
  intro place _ _
  have hcell : Memory.cell { pages } (place / 4) = 0 := Sparse.get_empty _ _ _
  rw [Memory.byte, hcell]
  rcases place_cases place with ⟨-, h⟩ | ⟨-, h⟩ | ⟨-, h⟩ | ⟨-, h⟩ <;> rw [h] <;> decide

/-- Whatever runs keeps to the memory there is. -/
theorem Memory.Evolves.blank {memory' : Memory} (h : memory.Evolves memory')
    (hblank : memory.Blank) : memory'.Blank := by
  induction h with
  | refl => exact hblank
  | write _ hinside hlt ih => exact ih.setWord hinside (by rw [addressEnd]; omega) _
  | grow _ hpages ih =>
    exact fun place hlow => ih place (Nat.le_trans (Nat.mul_le_mul_left _ hpages) hlow)

/-- The sessions that units and calls lead to. -/
inductive Session.Reached (config : Config) : Session → Prop
  | start {s : Session} (hstart : Session.start? config = .ok s) : Reached config s
  | unit {s s' : Session} {program : Program} {u : CompiledUnit} (h : Reached config s)
      (hcompile : s.compile program = .ok (u, s')) : Reached config (s'.run u).2
  | call {s : Session} (h : Reached config s) (name : String) (args : List Word) :
      Reached config (s.call name args).2

theorem Machine.blank_start (h : Machine.start? config = .ok m) : m.memory.Blank := by
  rw [Machine.start?] at h
  split at h
  · cases h
  · split at h
    · cases h
    · next hpages =>
      cases h
      have hpage : 0 + 4 ≤ pageSize.toNat := by decide
      have hinside := Nat.le_mul_of_pos_right pageSize.toNat (Nat.pos_of_ne_zero hpages)
      exact (blank_pages _).setWord (Nat.le_trans hpage hinside) (by decide) _

theorem Machine.blank_call (hblank : m.memory.Blank) (name : String) (args : List Word) :
    (m.call name args).2.memory.Blank := by
  rw [Machine.call_eq]
  split
  · exact hblank
  · exact (call_follows exec_keeps _ _ _).memory.blank hblank

/-- Every allocation of a session starts from a memory with nothing written past its end. -/
theorem Session.Reached.blank (h : Reached config s) : s.machine.memory.Blank := by
  induction h with
  | start hstart =>
    obtain ⟨m, hm, hdone⟩ := bind_eq_ok_iff.1 hstart
    cases pure_eq_ok_iff.1 hdone
    exact Machine.blank_start hm
  | @unit s s' program u h hcompile ih =>
    obtain ⟨_, -, hdone⟩ := bind_eq_ok_iff.1 hcompile
    cases pure_eq_ok_iff.1 hdone
    have hloaded : (s.machine.load u).memory.Blank := ih
    exact Machine.blank_call hloaded _ _
  | call h name args ih => exact Machine.blank_call ih name args

namespace Allocation

/-- Blocks, each an address and a size, that lie below the head and do not overlap. -/
structure Apart (blocks : List (Nat × Nat)) (head : Nat) : Prop where
  below : ∀ block ∈ blocks, block.1 + block.2 ≤ head
  disjoint : blocks.Pairwise fun block other => ∀ place,
    block.1 ≤ place → place < block.1 + block.2 → ¬ (other.1 ≤ place ∧ place < other.1 + other.2)

theorem Apart.cons {blocks : List (Nat × Nat)} {head : Nat} (h : Apart blocks head) (size : Nat) :
    Apart ((head, size) :: blocks) (head + size) := by
  refine ⟨fun block hblock => ?_, List.pairwise_cons.2 ⟨fun other hother => ?_, h.disjoint⟩⟩
  · rcases List.mem_cons.1 hblock with rfl | hblock
    · exact Nat.le_refl _
    · exact Nat.le_trans (h.below block hblock) (Nat.le_add_right _ _)
  · have hbelow := h.below other hother
    intro place hlow _
    omega

/-- Memory before and after `size` bytes from the head on are allocated. -/
structure Allocated (head size : Nat) (memory memory' : Memory) : Prop where
  word : memory'.word 0 = Word.ofNat (head + size)
  pages : memory'.pages = max memory.pages ((head + size + 65535) / 65536)
  kept : ∀ place, 4 ≤ place → place < memory.size → memory'.byte place = memory.byte place
  fresh : ∀ place, memory.size ≤ place → place < memory'.size → memory'.byte place = 0
  inside : head + size ≤ memory'.size
  apart : ∀ blocks, Apart blocks head → Apart ((head, size) :: blocks) (head + size)

theorem allocated_moveHead {head size : Nat} (hlow : 4 ≤ memory.size)
    (hpages : memory.pages ≤ 65536) (hend : head + size ≤ heapEnd) (hblank : memory.Blank) :
    Allocated head size memory (memory.moveHead (head + size)) := by
  have hneed := pagesBelow_eq (head + size)
  have hgrown : (memory.moveHead (head + size)).pages =
      max memory.pages (pagesBelow (head + size)) := rfl
  have hsize := (memory.moveHead (head + size)).size_eq
  have hold := memory.size_eq
  have hend' : Memory.addressEnd = 2 ^ 34 := rfl
  rw [heapEnd] at hend
  have hbytes := (memory.agreeOn_moveHead (head + size) (Nat.le_refl _)).byte
  refine ⟨word_setWord (by decide) _, by rw [hgrown, hneed], fun place hlow hhigh => ?_,
    fun place hlow hhigh => ?_, by omega, fun _ happart => happart.cons size⟩
  · exact hbytes place hlow (by omega)
  · rw [hbytes place (by omega) (by omega)]
    exact hblank place hlow (by omega)

end Allocation

/-- **Allocation, exactly.** In every state, for a size that is known or held by a local. -/
theorem allocation_exact {frame : Frame} {head : Nat} {size : UInt32}
    {code : Code} (stack : List Word)
    (hcode : code = Allocation.static size ∨
      ∃ name, code = Allocation.dynamic name ∧ frame.get? name = some (Word.ofUInt32 size))
    (hhead : m.heapHead = Word.ofNat head) (hlow : 4 ≤ head) (hinside : head ≤ 65536 * m.pages)
    (hend : head + size.toNat ≤ 2 ^ 32 - 65536) (hpages : m.pages ≤ 65536)
    (hblank : m.memory.Blank) :
    let need := (head + size.toNat + 65535) / 65536
    ((∃ trap t, Ends code ⟨m, frame, stack⟩ (.trap trap) t) ↔ m.pages < need ∧ m.maxPages < need) ∧
    (m.pages < need ∧ m.maxPages < need → ∃ t, Ends code ⟨m, frame, stack⟩ (.trap .unreachable) t) ∧
    (¬ (m.pages < need ∧ m.maxPages < need) → ∃ memory,
      Ends code ⟨m, frame, stack⟩ .next ⟨{ m with memory }, frame, Word.ofNat head :: stack⟩ ∧
        Allocation.Allocated head size.toNat m.memory memory) := by
  intro need
  have hneed : pagesBelow (head + size.toNat) = need := pagesBelow_eq _
  have hcount : m.memory.pages < 2 ^ 32 := Nat.lt_of_le_of_lt hpages (by decide)
  have hsize : 4 ≤ m.memory.size := Nat.le_trans hlow hinside
  obtain ⟨instr, hpushes, rfl⟩ := Allocation.Requests.eq_bump hcode
  have hbump := Allocation.bump_outcome hpushes hhead hsize hend hcount stack
  rw [hneed] at hbump
  by_cases hfull : m.pages < need ∧ m.maxPages < need
  · replace hbump := (if_neg (Nat.not_le.2 (Nat.max_lt.2 hfull))).mp hbump
    exact ⟨iff_of_true ⟨_, _, hbump⟩ hfull, fun _ => ⟨_, hbump⟩, fun hroom => absurd hfull hroom⟩
  · replace hbump := (if_pos (Nat.le_of_not_lt fun hlt => hfull (Nat.max_lt.1 hlt))).mp hbump
    have hgoes : ¬ ∃ trap t, Ends (Allocation.bump instr) ⟨m, frame, stack⟩ (.trap trap) t := by
      rintro ⟨trap, t, hends⟩
      cases hends.flow_unique hbump
    exact ⟨iff_of_false hgoes hfull, fun h => absurd h hfull,
      fun _ => ⟨_, hbump, Allocation.allocated_moveHead hsize hpages hend hblank⟩⟩

/-- A machine of one page, all of it given out, that may have two. -/
def Allocation.full : Machine where
  memory := ({ pages := 1 } : Memory).setWord 0 (Word.ofNat 65536)
  pageLimit := some 2

/-- A second page can be filled to its end, and not passed by one byte. -/
theorem Allocation.full_allocates : (∃ memory, Ends (Allocation.static 65536) ⟨full, [], []⟩ .next
        ⟨{ full with memory }, [], [Word.ofNat 65536]⟩ ∧ Allocated 65536 65536 full.memory memory) ∧
      ∃ t, Ends (Allocation.dynamic "size") ⟨full, [("size", 65537)], []⟩
        (.trap .unreachable) t := by
  have hhead : full.heapHead = Word.ofNat 65536 := word_setWord (by decide) _
  have hblank : full.memory.Blank := (blank_pages 1).setWord (by decide) (by decide) _
  exact ⟨(allocation_exact [] (.inl rfl) hhead (by decide) (by decide) (by decide)
      (by decide) hblank).2.2 (by decide),
    (allocation_exact [] (.inr ⟨_, rfl, rfl⟩) hhead (by decide) (by decide) (by decide)
      (by decide) hblank).2.1 (by decide)⟩

end TypedWasm
