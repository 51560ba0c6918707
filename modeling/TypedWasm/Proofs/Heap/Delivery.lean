import TypedWasm.Proofs.Heap.Allocation

/-!
# Code that delivers values

The objects an expression makes lie one after another from the heap head on, and nothing that runs
later writes them. So the meaning of the word it leaves holds in every machine that keeps those
bytes.
-/

namespace TypedWasm.Heap

open Exec List Memory
open Lowering (tempName)

variable {needed : Nat}

/-- Why a run that needs the heap up to an address may stop. The host allocates below the largest
signed word only. -/
def OutOfMemory (hosted : Bool) (maxPages needed : Nat) : Trap → Prop
  | .unreachable => 65536 * maxPages < needed
  | .hostAddressOverflow => hosted = true ∧ 2 ^ 31 ≤ needed
  | _ => False

theorem OutOfMemory.mono {hosted : Bool} {maxPages more : Nat} (h : needed ≤ more) (trap : Trap)
    (htrap : OutOfMemory hosted maxPages needed trap) : OutOfMemory hosted maxPages more trap := by
  cases trap with
  | unreachable => exact Nat.lt_of_lt_of_le htrap h
  | hostAddressOverflow => exact ⟨htrap.1, Nat.le_trans htrap.2 h⟩
  | _ => exact htrap

theorem OutOfMemory.unhosted {maxPages : Nat} {trap : Trap}
    (h : OutOfMemory false maxPages needed trap) : trap = .unreachable ∧
      65536 * maxPages < needed := by
  cases trap with
  | unreachable => exact ⟨rfl, h⟩
  | hostAddressOverflow => cases h.1
  | _ => exact h.elim

/-- What a run does, apart from the bytes below the old head: the heap ends at `head`, `lines` are
printed, and the temporaries below `first` are kept. -/
structure Moves (first head : Nat) (lines : List String) (m : Machine) (frame : Frame) (t : State) :
    Prop where
  heap : t.machine.memory.HeapAt head
  limit : t.machine.pageLimit = m.pageLimit
  output : t.machine.output.toList = m.output.toList ++ lines
  temps : ∀ index < first, t.locals.get? (tempName index) = frame.get? (tempName index)
  there : ∀ name, (frame.get? name).isSome → (t.locals.get? name).isSome

namespace Moves

variable {first head : Nat} {lines : List String} {m : Machine} {frame : Frame} {t u : State}

theorem ofMachine {m' : Machine} {stack : List Word} (hheap : m'.memory.HeapAt head)
    (hlimit : m'.pageLimit = m.pageLimit) (houtput : m'.output.toList = m.output.toList ++ lines) :
    Moves first head lines m frame ⟨m', frame, stack⟩ :=
  ⟨hheap, hlimit, houtput, fun _ _ => rfl, fun _ h => h⟩

/-- One run after another prints the lines of both. -/
theorem trans {first' head' : Nat} {lines' : List String} (h : Moves first head lines m frame t)
    (h' : Moves first' head' lines' t.machine t.locals u) (hfirst : first ≤ first') :
    Moves first head' (lines ++ lines') m frame u where
  heap := h'.heap
  limit := h'.limit.trans h.limit
  output := by rw [h'.output, h.output, append_assoc]
  temps index hindex := (h'.temps index (by omega)).trans (h.temps index hindex)
  there name hname := h'.there name (h.there name hname)

theorem maxPages (h : Moves first head lines m frame t) : t.machine.maxPages = m.maxPages := by
  rw [Machine.maxPages, h.limit, Machine.maxPages]

end Moves

/-- A state in which a word was delivered above `stack`: the objects made lie in the `bytes` bytes
from the old head on, and what lies below the old head is kept. -/
def Delivered (first head bytes : Nat) (lines : List String) (stack : List Word)
    (means : Machine → Word → Prop) (m : Machine) (frame : Frame) (t : State) : Prop :=
  ∃ word, t.stack = word :: stack ∧ Moves first (head + bytes) lines m frame t ∧
    Memory.AgreeOn 4 head m.memory t.machine.memory ∧
    ∀ m', Memory.AgreeOn head (head + bytes) t.machine.memory m'.memory → means m' word

/-- Code that makes objects of `bytes` bytes, prints `lines` and leaves a word with a meaning. It
uses the temporaries from `first` up to `last`. -/
def Delivers (hosted : Bool) (code : Code) (first last bytes : Nat) (lines : List String)
    (means : Machine → Word → Prop) : Prop :=
  ∀ (m : Machine) (frame : Frame) (stack : List Word) (head : Nat), m.memory.HeapAt head →
    head + bytes ≤ heapEnd → (∀ index < last, (frame.get? (tempName index)).isSome) →
    Reaches (OutOfMemory hosted m.maxPages (head + bytes))
      (Delivered first head bytes lines stack means m frame)
      (exec code ⟨m, frame, stack⟩)

section Delivers

variable {hosted : Bool} {code leftCode rightCode : Code} {instr : Instr}

variable {first middle last bytes leftBytes rightBytes : Nat}
variable {lines leftLines rightLines : List String}
variable {means means' leftMeans rightMeans : Machine → Word → Prop}

theorem Delivers.imp (h : Delivers hosted code first last bytes lines means)
    (himp : ∀ m word, means m word → means' m word) :
    Delivers hosted code first last bytes lines means' := by
  intro m frame stack head hheap hroom htemps
  refine (h m frame stack head hheap hroom htemps).mono (fun _ h => h) ?_
  rintro t ⟨word, hstack, hmoves, hagree, hmeans⟩
  exact ⟨word, hstack, hmoves, hagree, fun m' hm' => himp m' word (hmeans m' hm')⟩

theorem Delivers.widen (h : Delivers hosted code first last bytes lines means) {more : Nat}
    (hmore : last ≤ more) : Delivers hosted code first more bytes lines means :=
  fun m frame stack head hheap hroom htemps =>
    h m frame stack head hheap hroom fun index hindex => htemps index (by omega)

theorem const_delivers (hosted : Bool) (first : Nat) (word : Word) :
    Delivers hosted [.const word] first first 0 [] fun _ found => found = word := by
  intro m frame stack head hheap _ _
  refine .straightLine rfl fun fuel => ?_
  exact ⟨word, rfl, .ofMachine hheap rfl (by simp), .refl _ _ _, fun _ _ => rfl⟩

def Operates (hosted : Bool) (instr : Instr) (bytes : Nat) (takes : Machine → Word → Word → Prop)
    (means : Machine → Word → Prop) : Prop :=
  ∀ (m : Machine) (frame : Frame) (stack : List Word) (head : Nat) (left right : Word)
    (first : Nat), m.memory.HeapAt head → head + bytes ≤ heapEnd → takes m left right →
    Reaches (OutOfMemory hosted m.maxPages (head + bytes))
      (Delivered first head bytes [] stack means m frame)
      (exec [instr] ⟨m, frame, right :: left :: stack⟩)

/-- An instruction on two delivered words. What the left operand made is kept while the right one
runs. -/
theorem Delivers.operate {takes : Machine → Word → Word → Prop}
    (hleft : Delivers hosted leftCode first middle leftBytes leftLines leftMeans)
    (hright : Delivers hosted rightCode middle last rightBytes rightLines rightMeans)
    (hfirst : first ≤ middle) (hmiddle : middle ≤ last)
    (htakes : ∀ m left right, leftMeans m left → rightMeans m right → takes m left right)
    (hinstr : Operates hosted instr bytes takes means) :
    Delivers hosted (leftCode ++ rightCode ++ [instr]) first last (leftBytes + rightBytes + bytes)
      (leftLines ++ rightLines) means := by
  intro m frame stack head hheap hroom htemps
  have hbelow := hheap.above
  rw [append_assoc]
  refine Reaches.append ((hleft m frame stack head hheap (by omega)
    fun index hindex => htemps index (by omega)).mono (OutOfMemory.mono (by omega)) fun _ h => h) ?_
  rintro ⟨m₁, frame₁, _⟩ ⟨left, rfl, hmoves₁, hagree₁, hmeans₁⟩
  have hlimit₁ := hmoves₁.maxPages
  refine Reaches.append (((hright m₁ frame₁ (left :: stack) (head + leftBytes) hmoves₁.heap
    (by omega) fun index hindex => hmoves₁.there _ (htemps index hindex)).mono ?_) fun _ h => h) ?_
  · rw [hlimit₁]
    exact OutOfMemory.mono (by omega)
  rintro ⟨m₂, frame₂, _⟩ ⟨right, rfl, hmoves₂, hagree₂, hmeans₂⟩
  have hlimit₂ := hmoves₂.maxPages.trans hlimit₁
  have htaken : takes m₂ left right := by
    refine htakes m₂ left right (hmeans₁ m₂ ?_) (hmeans₂ m₂ (.refl _ _ _))
    exact hagree₂.mono (by omega) (Nat.le_refl _)
  refine (hinstr m₂ frame₂ stack (head + leftBytes + rightBytes) left right last hmoves₂.heap
    (by omega) htaken).mono ?_ ?_
  · rw [hlimit₂]
    exact OutOfMemory.mono (by omega)
  · rintro t ⟨word, hstack, hmoves, hagree, hmeans⟩
    have hall := (hmoves₁.trans hmoves₂ hfirst).trans hmoves (by omega)
    rw [append_nil, Nat.add_assoc, Nat.add_assoc, ← Nat.add_assoc leftBytes] at hall
    refine ⟨word, hstack, hall, ?_, fun m' hm' => hmeans m' ?_⟩
    · exact (hagree₁.trans (hagree₂.mono (Nat.le_refl _) (by omega))).trans
        (hagree.mono (Nat.le_refl _) (by omega))
    · exact hm'.mono (by omega) (by omega)

/-- An instruction that replaces a delivered word, or prints it, and leaves memory alone. -/
theorem Delivers.apply (more : List String) (h : Delivers hosted code first last bytes lines means)
    (hinstr : ∀ m frame stack word, means m word → ∃ m' word',
      step exec looped instr ⟨m, frame, word :: stack⟩ = (.next, ⟨m', frame, word' :: stack⟩) ∧
      m'.memory = m.memory ∧ m'.pageLimit = m.pageLimit ∧
      m'.output.toList = m.output.toList ++ more ∧ ∀ m, means m word → means' m word') :
    Delivers hosted (code ++ [instr]) first last bytes (lines ++ more) means' := by
  intro m frame stack head hheap hroom htemps
  refine Reaches.append (h m frame stack head hheap hroom htemps) ?_
  rintro ⟨m₁, frame₁, _⟩ ⟨word, rfl, hmoves, hagree, hmeans⟩
  obtain ⟨m₂, word', hstep, hmemory, hlimit, houtput, hmeans'⟩ :=
    hinstr (m₁.equip m₁.functions (m₁.fuel - 1)) frame₁ stack word (hmeans _ (.refl _ _ _))
  refine .single (.done hstep ⟨word', rfl, ?_, ?_, ?_⟩)
  · refine hmoves.trans (.ofMachine ?_ hlimit houtput) (Nat.le_refl _)
    rw [hmemory]
    exact hmoves.heap
  · rw [hmemory]
    exact hagree
  · intro m' hm'
    rw [hmemory] at hm'
    exact hmeans' m' (hmeans m' hm')

/-- A conditional delivers what the arm does that its test selects. -/
theorem Delivers.choose {holds : Bool} {thenCode elseCode : Code}
    (h : Delivers hosted code first middle leftBytes leftLines fun _ word =>
      word = Word.ofBool holds)
    (hbranch : Delivers hosted (if holds then thenCode else elseCode) middle last rightBytes
      rightLines means) (hfirst : first ≤ middle) (hmiddle : middle ≤ last) :
    Delivers hosted (code ++ [.choose thenCode elseCode]) first last (leftBytes + rightBytes)
      (leftLines ++ rightLines) means := by
  intro m frame stack head hheap hroom htemps
  refine Reaches.append ((h m frame stack head hheap (by omega)
    fun index hindex => htemps index (by omega)).mono (OutOfMemory.mono (by omega)) fun _ h => h) ?_
  rintro ⟨m₁, frame₁, _⟩ ⟨word, rfl, hmoves, hagree, hmeans⟩
  obtain rfl := hmeans m₁ (.refl _ _ _)
  have htest : (if Word.ofBool holds ≠ 0 then thenCode else elseCode) =
      if holds then thenCode else elseCode := by
    cases holds <;> rfl
  refine .cond fun fuel => ?_
  rw [htest]
  refine (hbranch (m₁.equip m₁.functions fuel) frame₁ stack (head + leftBytes) hmoves.heap
    (by omega) fun index hindex => hmoves.there _ (htemps index hindex)).mono ?_ ?_
  · have hlimit : (m₁.equip m₁.functions fuel).maxPages = m.maxPages := hmoves.maxPages
    rw [hlimit]
    exact OutOfMemory.mono (by omega)
  · rintro t ⟨word, hstack, hmoves', hagree', hmeans'⟩
    have hsame : Moves middle (head + leftBytes + rightBytes) rightLines m₁ frame₁ t :=
      ⟨hmoves'.heap, hmoves'.limit, hmoves'.output, hmoves'.temps, hmoves'.there⟩
    have hmoved :
        Moves first (head + (leftBytes + rightBytes)) (leftLines ++ rightLines) m frame t := by
      rw [← Nat.add_assoc]
      exact hmoves.trans hsame hfirst
    refine ⟨word, hstack, hmoved, ?_, fun m' hm' => hmeans' m' (hm'.mono (by omega) (by omega))⟩
    exact hagree.trans (hagree'.mono (Nat.le_refl _) (by omega))

end Delivers

/-- A state in which `count` words of the block at `base` were written, the first as word `index`.
Below them and from their end up to the old head all is kept. -/
def Filled (base index count first head bytes : Nat) (lines : List String) (stack : List Word)
    (means : Machine → List Word → Prop) (m : Machine) (frame : Frame) (t : State) : Prop :=
  t.stack = stack ∧ Moves first (head + bytes) lines m frame t ∧
    Memory.AgreeOn 4 (base + 4 * index) m.memory t.machine.memory ∧
    Memory.AgreeOn (base + 4 * (index + count)) head m.memory t.machine.memory ∧
    ∃ words, words.length = count ∧ t.machine.memory.Holds (base + 4 * index) words ∧
      ∀ m', Memory.AgreeOn head (head + bytes) t.machine.memory m'.memory → means m' words

/-- Code that writes words of the block whose address is in a temporary. -/
def Fills (hosted : Bool) (temp index count : Nat) (code : Code) (first last bytes : Nat)
    (lines : List String) (means : Machine → List Word → Prop) : Prop :=
  ∀ (m : Machine) (frame : Frame) (stack : List Word) (head base : Nat), m.memory.HeapAt head →
    head + bytes ≤ heapEnd → (∀ index < last, (frame.get? (tempName index)).isSome) →
    frame.get? (tempName temp) = some (Word.ofNat base) → 4 ≤ base →
    base + 4 * (index + count) ≤ head →
    Reaches (OutOfMemory hosted m.maxPages (head + bytes))
      (Filled base index count first head bytes lines stack means m frame)
      (exec code ⟨m, frame, stack⟩)

section Fills

variable {hosted : Bool} {code rest : Code} {temp index count more : Nat}
variable {first middle last bytes bytes' : Nat} {lines lines' : List String}
variable {means means' : Machine → List Word → Prop}

theorem Fills.imp (h : Fills hosted temp index count code first last bytes lines means)
    (himp : ∀ m words, means m words → means' m words) :
    Fills hosted temp index count code first last bytes lines means' := by
  intro m frame stack head base hheap hroom htemps htemp hbase hblock
  refine (h m frame stack head base hheap hroom htemps htemp hbase hblock).mono (fun _ h => h) ?_
  rintro t ⟨hstack, hmoves, hbelow, habove, words, hcount, hholds, hmeans⟩
  exact ⟨hstack, hmoves, hbelow, habove, words, hcount, hholds,
    fun m' hm' => himp m' words (hmeans m' hm')⟩

theorem fills_nil (hosted : Bool) (temp index first : Nat) :
    Fills hosted temp index 0 [] first first 0 [] fun _ words => words = [] := by
  intro m frame stack head base hheap _ _ _ hbase hblock
  have hstart : base + 4 * index ≤ m.memory.size := Nat.le_trans (by omega) hheap.inside
  exact .nil ⟨rfl, .ofMachine hheap rfl (by simp), .refl _ _ _, .refl _ _ _, [], rfl,
    .nil hstart, fun _ _ => rfl⟩

/-- A delivered word becomes the next word of the block. -/
theorem fills_store {means : Machine → Word → Prop} {offset : UInt32}
    (hoffset : offset.toNat = 4 * index) (h : Delivers hosted code first last bytes lines means) :
    Fills hosted temp index 1 (Lowering.storeWord (tempName temp) offset code) first last
      bytes lines fun m words => ∃ word, words = [word] ∧ means m word := by
  intro m frame stack head base hheap hroom htemps htemp hbase hblock
  have hend := hheap.below
  have hget : straight [.localGet (tempName temp)] ⟨m, frame, stack⟩ =
      some ⟨m, frame, Word.ofNat base :: stack⟩ := by
    simp only [straight, step, htemp, State.push]
  rw [Lowering.storeWord, append_assoc]
  refine .straight hget fun fuel => ?_
  refine Reaches.append (h (m.equip m.functions fuel) frame (Word.ofNat base :: stack) head
    hheap hroom htemps) ?_
  rintro ⟨m₁, frame₁, _⟩ ⟨word, rfl, hmoves, hagree, hmeans⟩
  have hinside : head + bytes ≤ m₁.memory.size := hmoves.heap.inside
  have hlast : base + 4 * index + 4 ≤ Memory.addressEnd := by
    rw [heapEnd] at hend
    rw [Memory.addressEnd]
    omega
  have hstore : m₁.storeWord (Word.ofNat base) offset word =
      .ok { m₁ with memory := m₁.memory.setWord (base + 4 * index) word } := by
    have hplace : Machine.effective (Word.ofNat base) offset = base + 4 * index := by
      rw [heapEnd] at hend
      rw [Machine.effective, Word.toAddress_ofNat (by omega), hoffset]
    rw [Machine.storeWord, hplace, Memory.store?, if_pos (by omega)]
  have hrun : straight [.store offset]
      ⟨m₁, frame₁, word :: Word.ofNat base :: stack⟩ =
      some { machine := { m₁ with memory := m₁.memory.setWord (base + 4 * index) word },
             locals := frame₁, stack } := by
    simp only [straight, step, hstore]
  refine .straightLine hrun fun fuel => ⟨rfl, ?_, ?_, ?_, [word], rfl, ?_, ?_⟩
  · exact ⟨hmoves.heap.setWord (by omega) hlast word, hmoves.limit, hmoves.output, hmoves.temps,
      hmoves.there⟩
  · exact (hagree.mono (Nat.le_refl _) (by omega)).trans
      (agreeOn_setWord hlast (by omega) (.inr (Nat.le_refl _)) word)
  · exact (hagree.mono (by omega) (Nat.le_refl _)).trans
      (agreeOn_setWord hlast (by rw [heapEnd] at hend; rw [Memory.addressEnd]; omega)
        (.inl (by omega)) word)
  · have hholds : (m₁.memory.setWord (base + 4 * index + 4 * ([] : List Word).length) word).Holds
        (base + 4 * index) ([] ++ [word]) :=
      Memory.Holds.snoc (.nil (by omega)) word (by simp; omega) (by simpa using hlast)
    simpa using hholds
  · intro m' hm'
    refine ⟨word, rfl, hmeans m' (Memory.AgreeOn.trans ?_ hm')⟩
    exact agreeOn_setWord hlast (by rw [heapEnd] at hroom; rw [Memory.addressEnd]; omega)
      (.inl (by omega)) word

/-- One part of a block after another. What the first part made is kept while the second is
written. -/
theorem Fills.append (htemp : temp < first) (hfirst : first ≤ middle) (hmiddle : middle ≤ last)
    (h : Fills hosted temp index count code first middle bytes lines means)
    (hrest : Fills hosted temp (index + count) more rest middle last bytes' lines' means') :
    Fills hosted temp index (count + more) (code ++ rest) first last (bytes + bytes')
      (lines ++ lines')
      fun m words => ∃ front back, words = front ++ back ∧ means m front ∧ means' m back := by
  intro m frame stack head base hheap hroom htemps hbase hlow hblock
  refine Reaches.append ((h m frame stack head base hheap (by omega)
    (fun index hindex => htemps index (by omega)) hbase hlow (by omega)).mono
      (OutOfMemory.mono (by omega)) fun _ h => h) ?_
  rintro ⟨m₁, frame₁, stack₁⟩ ⟨rfl, hmoves₁, hbelow₁, habove₁, front, hcount, hholds₁, hmeans₁⟩
  have hkept : frame₁.get? (tempName temp) = some (Word.ofNat base) :=
    (hmoves₁.temps temp htemp).trans hbase
  refine (hrest m₁ frame₁ stack₁ (head + bytes) base hmoves₁.heap (by omega)
    (fun index hindex => hmoves₁.there _ (htemps index hindex)) hkept hlow (by omega)).mono ?_ ?_
  · have hlimit : m₁.maxPages = m.maxPages := hmoves₁.maxPages
    rw [hlimit]
    exact OutOfMemory.mono (by omega)
  · rintro ⟨m₂, frame₂, _⟩ ⟨rfl, hmoves₂, hbelow₂, habove₂, back, hmore, hholds₂, hmeans₂⟩
    have hmoves := hmoves₁.trans hmoves₂ hfirst
    rw [Nat.add_assoc] at hmoves
    refine ⟨rfl, hmoves, ?_, ?_, front ++ back, by rw [length_append]; omega, ?_, ?_⟩
    · exact hbelow₁.trans (hbelow₂.mono (Nat.le_refl _) (by omega))
    · exact (habove₁.mono (by omega) (Nat.le_refl _)).trans (habove₂.mono (by omega) (by omega))
    · refine Memory.Holds.append (hholds₁.agree hbelow₂ (by omega) (by omega)) ?_
      rw [hcount, Nat.add_assoc, ← Nat.mul_add]
      exact hholds₂
    · intro m' hm'
      refine ⟨front, back, rfl, hmeans₁ m' ?_, hmeans₂ m' (hm'.mono (by omega) (by omega))⟩
      exact (habove₂.mono (by omega) (Nat.le_refl _)).trans (hm'.mono (Nat.le_refl _) (by omega))

/-- A block is allocated, filled and then delivered as a whole. -/
theorem block_delivers {size : UInt32} {result : Machine → Word → Prop}
    (hcount : 4 * count ≤ size.toNat) (hlast : first < last)
    (hfill : Fills hosted first 0 count code (first + 1) last bytes lines means)
    (hread : ∀ m base words, base ≤ heapEnd → words.length = count → m.memory.Holds base words →
      means m words → result m (Word.ofNat base)) :
    Delivers hosted (Allocation.static size ++ [.localSet (tempName first)] ++ code ++
      [.localGet (tempName first)]) first last (size.toNat + bytes) lines result := by
  intro m frame stack head hheap hroom htemps
  have hend := hheap.below
  have habove := hheap.above
  have hmoved := hheap.moveHead (Nat.le_add_right head size.toNat) (by omega)
  obtain ⟨frame', hset⟩ := Frame.exists_set? (htemps first hlast) (Word.ofNat head)
  have hget := Frame.get?_of_set? hset
  have hthere : ∀ name, (frame.get? name).isSome → (frame'.get? name).isSome := by
    intro name hname
    rw [hget name]
    split
    · rfl
    · exact hname
  rw [append_assoc, append_assoc]
  refine Reaches.append ((Allocation.static_reaches size hheap (by omega)).mono ?_ fun _ h => h) ?_
  · rintro _ ⟨rfl, hlimit⟩
    exact Nat.lt_of_lt_of_le hlimit (by omega)
  rintro _ ⟨fuel, rfl⟩
  have hkeep : ∀ fuel, straight [.localSet (tempName first)]
      { machine := { m with memory := m.memory.moveHead (head + size.toNat), fuel },
        locals := frame, stack := Word.ofNat head :: stack } =
      some { machine := { m with memory := m.memory.moveHead (head + size.toNat), fuel },
             locals := frame', stack } := by
    intro fuel
    simp only [straight, step, hset]
  refine .straight (hkeep fuel) fun fuel => ?_
  refine Reaches.append ((hfill _ frame' stack (head + size.toNat) head hmoved (by omega)
    (fun index hindex => hthere _ (htemps index hindex)) (by rw [hget, if_pos rfl]) habove
    (by omega)).mono ?_ fun _ h => h) ?_
  · exact OutOfMemory.mono (by omega)
  rintro ⟨m₁, frame₁, stack₁⟩ ⟨rfl, hmoves, hbelow, -, words, hwords, hholds, hmeans⟩
  have hblock : frame₁.get? (tempName first) = some (Word.ofNat head) := by
    rw [hmoves.temps first (Nat.lt_succ_self _), hget, if_pos rfl]
  have hleave : straight [.localGet (tempName first)]
      ⟨m₁, frame₁, stack₁⟩ =
      some ⟨m₁, frame₁, Word.ofNat head :: stack₁⟩ := by
    simp only [straight, step, hblock, State.push]
  refine .straightLine hleave fun fuel => ?_
  refine ⟨Word.ofNat head, rfl, ⟨?_, hmoves.limit, hmoves.output, ?_, ?_⟩, ?_, ?_⟩
  · rw [← Nat.add_assoc]
    exact hmoves.heap
  · intro index hindex
    rw [hmoves.temps index (by omega), hget, if_neg]
    intro hname
    have := tempName_injective hname
    omega
  · exact fun name hname => hmoves.there name (hthere name hname)
  · have hkept : Memory.AgreeOn 4 head m.memory (m.memory.moveHead (head + size.toNat)) :=
      m.memory.agreeOn_moveHead _ (by rw [heapEnd] at hend; rw [Memory.addressEnd]; omega)
    exact hkept.trans hbelow
  · intro m' hm'
    refine hread m' head words hend hwords ?_ (hmeans m' (hm'.mono (by omega) (by omega)))
    exact hholds.agree hm' (Nat.le_refl _) (by omega)

end Fills

end TypedWasm.Heap
