import TypedWasm.Proofs.Destructuring
import TypedWasm.Proofs.Exact.Strings

/-!
# Lists that are split

A list pattern takes a list apart by position: from the front before the starred position, from the
end after it, and the starred one takes what is between as a fresh list at the heap head. A size
that does not fit is reported before anything is assigned.
-/

namespace TypedWasm

open Exec TypedWasm.Frame List Lower Nat Option Symbolic Word

variable {word : Word} {memory memory' : Memory} {name : String} {start later : Lowering.Progress}
  {place : Nat} {value : Code}

/-! ### Helpers -/

namespace HelperBody

variable {m : Machine} {list : Listed} {head : Nat} {count : Nat}

section Elements

variable (h : m.memory.Holds (list.address + 4) list.words) (hsize : m.memory.size ≤ 2 ^ 32)
include h hsize

theorem loadSize :
    m.loadWord (Word.ofNat list.address) Block.sizeOffset = .ok (Word.ofNat list.elements.length) ∧
      list.address + 12 + 4 * list.elements.length ≤ 2 ^ 32 := by
  have hinside := h.inside
  simp only [Listed.words, length_cons] at hinside
  have hcount : list.words[0]? = some (Word.ofNat list.elements.length) := rfl
  exact ⟨Machine.loadWord_held h hcount rfl (by omega), by omega⟩

theorem loadElement {place : Nat} (hplace : list.elements[place]? = some word) :
    m.loadWord (Word.ofNat (list.address + 12 + 4 * place)) 0 = .ok word := by
  obtain ⟨hwithin, -⟩ := List.getElem?_eq_some_iff.1 hplace
  obtain ⟨-, hshort⟩ := loadSize h hsize
  have hword : list.words[place + 2]? = some word := hplace
  exact Machine.loadWord_held h hword (by show list.address + 12 + 4 * place + 0 = _; omega)
    (by omega)

theorem listElementAddress_outcome (index : Word) :
    Answers m listElementAddress [Word.ofNat list.address, index]
      (if index.toInt < 0 ∨ (list.elements.length : Int) ≤ index.toInt then
        .error (.indexError index (Word.ofNat list.elements.length))
      else .ok (Word.ofNat (list.address + 12 + 4 * index.toInt.toNat))) m := by
  obtain ⟨hload, hshort⟩ := loadSize h hsize
  have hanswers := Unchecked.elementAddress_answers m (Word.ofNat list.address) index
  rw [Unchecked.checkedAddress, hload] at hanswers
  change Answers m _ _ (if _ ≠ 0 then _ else _) m at hanswers
  simp only [outside_eq (show list.elements.length < 2 ^ 31 by omega), ne_eq, ofBool_eq_zero,
    decide_eq_false_iff_not, not_not] at hanswers
  split
  · next houtside => rwa [if_pos houtside] at hanswers
  · next hinside =>
    obtain ⟨spot, hspot⟩ : ∃ spot : Nat, index.toInt = spot := ⟨index.toInt.toNat, by omega⟩
    obtain rfl := eq_ofNat_of_toInt hspot
    rw [if_neg hinside, Unchecked.elementAddress, show Word.ofUInt32 wordSize = Word.ofNat
      4 from rfl, show Word.ofUInt32 Block.headerSize = Word.ofNat 12 from rfl] at hanswers
    simp only [ofNat_add_ofNat, ofNat_mul_ofNat, Nat.mul_comm spot, Nat.add_right_comm _ _ 12]
      at hanswers
    rwa [hspot, Int.toNat_natCast]

theorem listElementAddress_answers {position : Nat} (hposition : position < list.elements.length) :
    Answers m listElementAddress [Word.ofNat list.address, Word.ofNat position]
      (.ok (Word.ofNat (list.address + 12 + 4 * position))) m := by
  obtain ⟨-, hshort⟩ := loadSize h hsize
  have hanswers := listElementAddress_outcome h hsize (Word.ofNat position)
  rwa [toInt_ofNat_of_lt (by omega), if_neg (by omega), Int.toNat_natCast] at hanswers

end Elements

def slice (list : Listed) (slack : UInt32) (head start count : Nat) : Listed :=
  ⟨head, count + slack.toNat, (list.elements.drop start).take count⟩

theorem holds_slice (h : m.memory.Holds (list.address + 4) list.words) {start : Nat}
    (hcount : start + count ≤ list.elements.length) :
    m.memory.Holds (list.address + 12 + 4 * start) ((list.elements.drop start).take count) := by
  have hinside := h.inside
  simp only [Listed.words, length_cons] at hinside
  refine ⟨by rw [length_take]; omega, fun index word hword => ?_⟩
  have hindex : index < count := by
    by_contra hover
    rw [getElem?_take_eq_none (by omega)] at hword
    simp at hword
  rw [getElem?_take_of_lt hindex, getElem?_drop] at hword
  have hplace : list.address + 12 + 4 * start + 4 * index =
      list.address + 4 + 4 * (start + index + 2) := by
    omega
  rw [hplace]
  exact h.word (start + index + 2) word hword

theorem listSlice_answers (h : m.memory.Holds (list.address + 4) list.words)
    (hhead : list.finish ≤ head) (hfits : list.elements.length ≤ list.bound) {slack : UInt32}
    {start : Nat} (hcount : start + count ≤ list.elements.length)
    (hroom : m.HasRoom head (4 * (count + slack.toNat + 3))) : ∃ memory', Answers m
        (listSlice slack) [Word.ofNat list.address, Word.ofNat start, Word.ofNat (start + count)]
        (.ok (Word.ofNat head)) { m with memory := memory' } ∧
      Makes (slice list slack head start count) m.memory memory' := by
  rw [Listed.finish] at hhead
  obtain ⟨-, hshort⟩ := loadSize h hroom.heap.size_le
  have hnonneg : ¬ Word.ofNat count < 0 := by
    show ¬ Word.ofNat count < Word.ofNat 0
    rw [ofNat_lt_ofNat (by omega) (by omega)]
    omega
  generalize hcall : Frame.ofCall (listSlice slack)
    [Word.ofNat list.address, Word.ofNat start, Word.ofNat (start + count)] = frame
  have hlist : frame.get? "list" = some (Word.ofNat list.address) := hcall ▸ rfl
  have hstart : frame.get? "start" = some (Word.ofNat start) := hcall ▸ rfl
  have hend : frame.get? "end" = some (Word.ofNat (start + count)) := hcall ▸ rfl
  have hcounted : frame.get? "count" = some 0 := hcall ▸ rfl
  have hbound : frame.get? "bound" = some 0 := hcall ▸ rfl
  have hbytes : frame.get? "bytes" = some 0 := hcall ▸ rfl
  have hresult : frame.get? "result" = some 0 := hcall ▸ rfl
  have hsrc : frame.get? "src" = some 0 := hcall ▸ rfl
  have hdst : frame.get? "dst" = some 0 := hcall ▸ rfl
  have hi : frame.get? "i" = some 0 := hcall ▸ rfl
  -- The number of elements and the bound.
  have hcounts : Ends [.localGet "end", .localGet "start", .sub, .localSet "count",
      .localGet "count",
      .const 0, .numeric .ltS] ⟨m, frame, []⟩ .next ⟨m, frame.put "count" (Word.ofNat count),
        [0]⟩ :=
    .straight (by
      simp [hend, hstart, hcounted, ofNat_sub_ofNat (Nat.le_add_right _ _), hnonneg]
      rfl)
  have hbounds : Ends [.localGet "count", .constU slack, .add, .localSet "bound"]
      ⟨m, frame.put "count" (Word.ofNat count), []⟩ .next
      ⟨m, (frame.put "count" (Word.ofNat count)).put "bound" (Word.ofNat (count + slack.toNat)),
        []⟩ :=
    .straight (by simp [hcounted, hbound, ofUInt32_eq_ofNat])
  -- The block and its header.
  have hsized : ((frame.put "count" (Word.ofNat count)).put "bound"
      (Word.ofNat (count + slack.toNat))).get? "count" = some (Word.ofNat count) := by
    simp [hcounted]
  obtain ⟨opened, hopen, hopened⟩ := newList_ends _ [] hroom hsized (by simp [hbound])
    (by simp [hbytes]) (by simp [hresult]) (by decide)
  -- The elements.
  have hinside := hopened.heap.inside
  have hlimit := hopened.heap.size_le
  have hlength : ((list.elements.drop start).take count).length = count := by
    rw [length_take, length_drop]
    omega
  have hpart := holds_slice h hcount
  have hfilled := hopened.copy hpart (by omega) (by omega)
    (by simp only [length_cons, length_nil]; omega)
  rw [hlength] at hfilled
  have hplace : list.address + Block.headerSize.toNat + start * wordSize.toNat =
      list.address + 12 + 4 * start := by
    show list.address + 12 + start * 4 = _
    omega
  have hrun : ∃ frame', Ends (listSlice slack).body ⟨m, frame, []⟩ .next
      ⟨{ m with memory := opened.copy (list.address + 12 + 4 * start) (head + 12) count }, frame',
        [Word.ofNat head]⟩ := by
    apply Exists.intro
    rw [listSlice]
    simp only [append_assoc]
    refine hcounts.append ((Ends.skip _ rfl).append (hbounds.append ?_))
    refine hopen.append ?_
    refine (addressOf_ends (by simp [hlist]; rfl) (by simp [hstart]; rfl)
      (by simp [hsrc]; rfl)).append ?_
    refine .after (by simp [hresult, hdst, hplace]; rfl) ?_
    refine (copyWords_ends ⟨by simp [hsrc]; rfl, by simp [hdst]; rfl, by simp [hcounted]; rfl,
      by simp [hi], by decide⟩ hlimit ?_ ?_).append ?_
    · show list.address + 12 + 4 * start + 4 * count ≤ opened.size
      omega
    · show head + 12 + 4 * count ≤ opened.size
      omega
    · exact localGet_ends (by simp [hresult])
  obtain ⟨_, hrun⟩ := hrun
  rw [← hcall] at hrun
  refine ⟨_, .ofBody hrun (.inl rfl) rfl, .ofFilled ?_ (by rw [hlength]; omega)⟩
  rw [hlength]
  exact hfilled

end HelperBody

/-! ### Variables -/

theorem Memory.ListAt.agree {list : Listed} (h : memory.ListAt list) {low high : Nat}
    (hagree : AgreeOn low high memory memory') (hlow : low ≤ list.address)
    (hhigh : list.address + 12 + 4 * list.elements.length ≤ high) : memory'.ListAt list where
  tag := (hagree.word hlow (by omega)).trans h.tag
  words := h.words.agree hagree (by omega) (by simp only [Listed.words, length_cons]; omega)
  fits := h.fits

/-- The word of a variable: a local, or a global at its address. -/
def Environment.value? (env : Environment) (frame : Frame) (memory : Memory) (name : String) :
    Option Word :=
  if env.isLocal name then frame.get? name
  else (env.globals.lookup name).map fun slot => memory.word (4 * slot.toNat)

namespace Lowering

variable {env : Environment}

/-- The variables of a body: all its locals are there and none is a temporary, and every global has
a word of its own between the head word and the heap. -/
structure Context.Housed (context : Context) (frame : Frame) (heapStart : Nat) : Prop where
  free : context.TempsFree
  locals : ∀ name, context.env.isLocal name = true → (frame.get? name).isSome
  planned : context.env.Planned
  head : 4 ≤ heapStart
  globals : ∀ name slot, context.env.globals.lookup name = some slot →
    1 ≤ slot.toNat ∧ 4 * slot.toNat + 4 ≤ heapStart

/-- A variable is written: no other one changes, nor do the temporaries, the head word and the
heap. -/
structure Written (env : Environment) (heapStart : Nat) (name : String) (word : Word)
    (frame : Frame) (memory : Memory) (frame' : Frame) (memory' : Memory) : Prop where
  value : ∀ other, env.value? frame' memory' other =
    if other = name then some word else env.value? frame memory other
  temps : ∀ other, env.isLocal other = false → frame'.get? other = frame.get? other
  there : ∀ other, (frame'.get? other).isSome = (frame.get? other).isSome
  kept : ∀ low high, high ≤ Memory.addressEnd → heapStart ≤ low ∨ high ≤ 4 →
    Memory.AgreeOn low high memory memory'
  pages : memory'.pages = memory.pages

variable {context : Context} {frame : Frame} {heapStart : Nat} {m : Machine}

theorem written_local (hlocal : env.isLocal name = true) (hthere : (frame.get? name).isSome) :
    Written env heapStart name word frame memory (frame.put name word) memory where
  value other := by
    by_cases hother : other = name
    · subst hother
      rw [Environment.value?, if_pos hlocal, if_pos rfl, get?_put, if_pos rfl,
        map_of_isSome hthere]
    · rw [Environment.value?, Environment.value?, get?_put, if_neg hother, if_neg hother]
  temps other hother := by
    rw [get?_put, if_neg]
    rintro rfl
    rw [hlocal] at hother
    exact Bool.noConfusion hother
  there other := isSome_get?_put _ _ _ _
  kept _ _ _ _ := .refl _ _ _
  pages := rfl

section

variable (hhoused : context.Housed frame heapStart)
include hhoused

theorem written_global (hlocal : context.env.isLocal name = false) {slot : UInt32}
    (hslot : context.env.globals.lookup name = some slot) :
    Written context.env heapStart name word frame memory frame
      (memory.setWord (4 * slot.toNat) word) where
  value other := by
    have hend : ∀ slot : UInt32, 4 * slot.toNat + 4 ≤ Memory.addressEnd := by
      intro slot
      have hslot := slot.toNat_lt
      show _ ≤ 2 ^ 34
      omega
    by_cases hother : other = name
    · subst hother
      rw [Environment.value?, hlocal, hslot, if_neg Bool.false_ne_true, if_pos rfl, map_some,
        Memory.word_setWord (hend slot)]
    · rw [Environment.value?, Environment.value?, if_neg hother]
      cases hfound : context.env.globals.lookup other with
      | none => rfl
      | some slot' =>
        have hne : slot.toNat ≠ slot'.toNat := by
          intro he
          obtain rfl := UInt32.toNat_inj.1 he
          exact hother (hhoused.planned.slot_injective hfound hslot)
        rw [map_some, map_some, Memory.word_setWord_of_disjoint (hend slot) (hend slot') (by omega)]
  temps _ _ := rfl
  there _ := rfl
  kept low high hhigh hapart := by
    obtain ⟨hfirst, hbelow⟩ := hhoused.globals name slot hslot
    have hslot := slot.toNat_lt
    have hend : Memory.addressEnd = 2 ^ 34 := rfl
    exact Memory.agreeOn_setWord (by omega) hhigh (by omega) word
  pages := Memory.pages_setWord _ _ _

theorem assignTo_ends (hinside : heapStart ≤ memory.size) (hlimit : memory.size ≤ 2 ^ 32)
    {code : Code} (hrun : (assignTo (.id name) value).run context start = (.ok code, later))
    (stack : List Word)
    (hvalue : ∀ stack, Ends value ⟨m, frame, stack⟩ .next
      ⟨{ m with memory }, frame, word :: stack⟩) :
    ∃ frame' memory', Ends code ⟨m, frame, stack⟩ .next
      ⟨{ m with memory := memory' }, frame', stack⟩ ∧
      Written context.env heapStart name word frame memory frame' memory' := by
  simp only [assignTo, bind_eq_ok_iff, context_eq_ok_iff] at hrun
  obtain ⟨_, _, ⟨rfl, rfl⟩, hrun⟩ := hrun
  split at hrun
  · next hlocal =>
    obtain ⟨rfl, -⟩ := pure_eq_ok_iff.1 hrun
    have hthere := hhoused.locals name hlocal
    refine ⟨_, _, (hvalue stack).append ?_, written_local hlocal hthere⟩
    exact .straight (by simp [hthere])
  · next hlocal =>
    simp only [bind_eq_ok_iff, ofResult_eq_ok_iff, pure_eq_ok_iff] at hrun
    obtain ⟨address, _, ⟨haddress, rfl⟩, rfl, -⟩ := hrun
    obtain ⟨slot, hslot, hbytes⟩ := Environment.globalAddress_eq_ok_iff.1 haddress
    have hbelow := (hhoused.globals name slot hslot).2
    have hstore : { m with memory }.storeWord (Word.ofUInt32 address) 0 word =
        .ok { m with memory := memory.setWord (4 * slot.toNat) word } := by
      rw [ofUInt32_eq_ofNat, hbytes]
      exact Machine.storeWord_ofNat (by omega) (by show 4 * slot.toNat + 0 + 4 ≤ memory.size; omega)
        word
    refine ⟨_, _, ?_, written_global hhoused (Bool.not_eq_true _ ▸ hlocal) hslot⟩
    rw [append_assoc]
    refine .after (by simp; rfl) ((hvalue _).append ?_)
    exact .straight (by simp [hstore])

theorem value?_agree (hagree : Memory.AgreeOn 4 heapStart memory memory') (frame' : Frame)
    (name : String) :
    context.env.value? frame' memory' name = context.env.value? frame' memory name := by
  rw [Environment.value?, Environment.value?]
  cases hfound : context.env.globals.lookup name with
  | none => rfl
  | some slot =>
    obtain ⟨hfirst, hbelow⟩ := hhoused.globals name slot hfound
    rw [map_some, map_some, hagree.word (by omega) hbelow]

end

theorem Written.keeps {frame' : Frame} {listed : Listed}
    (h : Written env heapStart name word frame memory frame' memory') (hlist : memory.ListAt listed)
    (hheap : memory.HeapAt listed.finish) (habove : heapStart ≤ listed.address) :
    memory'.ListAt listed ∧ memory'.HeapAt listed.finish := by
  have hinside := hlist.words.inside
  have hlimit := hheap.size_le
  have hend : Memory.addressEnd = 2 ^ 34 := rfl
  simp only [Listed.words, length_cons] at hinside
  exact ⟨hlist.agree (h.kept listed.address Memory.addressEnd (Nat.le_refl _) (.inl habove))
      (Nat.le_refl _) (by omega),
    hheap.agree (h.kept 0 4 (by decide) (.inr (Nat.le_refl _))) h.pages⟩

end Lowering

/-! ### Patterns over variables -/

/-- A list pattern that is run: its positions take different variables, and the list it takes apart
lies in the heap, below the head. -/
structure Splitting where
  context : Lowering.Context
  slots : List Slot
  list : Listed
  slack : UInt32
  heapStart : Nat
  head : Nat
  /-- The locals for the list and for its size. -/
  source : String
  size : String
  machine : Machine
  frame : Frame
  housed : context.Housed frame heapStart
  targets : ∀ slot ∈ slots, slot.ignore = false → ∃ name, slot.target = .id name ∧
    (context.env.isLocal name = true ∨ (context.env.globals.lookup name).isSome)
  distinct : slots.Pairwise fun slot other =>
    slot.ignore = false → other.ignore = false → slot.target ≠ other.target
  stars : slots.countP (·.starred) ≤ 1
  short : slots.length < 2 ^ 31
  made : machine.memory.ListAt list
  above : heapStart ≤ list.address
  below : list.finish ≤ head
  heap : machine.memory.HeapAt head
  element : machine.function? Helper.listElementAddress.name = some HelperBody.listElementAddress
  slice : machine.function? Helper.listSlice.name = some (HelperBody.listSlice slack)
  apart : context.env.isLocal source = false ∧ context.env.isLocal size = false ∧ source ≠ size
  sourced : frame.get? source = some (Word.ofNat list.address)
  sized : (frame.get? size).isSome

namespace Splitting

open Lowering

variable (s : Splitting)

def length : Nat := s.list.elements.length

def count : Nat := s.slots.length

def star : Option Nat := s.slots.findIdx? (·.starred)

/-- The number of elements that the plain positions take. -/
def required : Nat := if s.star.isNone then s.count else s.count - 1

/-- The size of the list fits the pattern. -/
def Matches : Prop := if s.star.isNone then s.length = s.count else s.required ≤ s.length

instance : Decidable s.Matches := by
  unfold Matches
  infer_instance

/-- The word a position receives. A starred position takes a list at the head, and the ones after it
count back from the end. -/
def part? (position : Nat) : Option Word :=
  match s.star with
  | some starred =>
    if position = starred then some (Word.ofNat s.head)
    else if starred < position then s.list.elements[s.length + position - s.count]?
    else s.list.elements[position]?
  | none => s.list.elements[position]?

/-- What a starred position takes: all that the other positions leave over. -/
def middle (starred : Nat) : Listed :=
  HelperBody.slice s.list s.slack s.head starred (s.length - (s.count - 1))

/-- A position assigns to a variable. -/
def Writes (position : Nat) (name : String) : Prop :=
  ∃ slot, s.slots[position]? = some slot ∧ slot.ignore = false ∧ slot.target = .id name

/-- A position before `position` takes a list of what is left over. -/
def Takes (position starred : Nat) : Prop :=
  s.star = some starred ∧ starred < position ∧ ∃ name, s.Writes starred name

/-- There is room for what a starred position takes, unless it is ignored. -/
def HasRoom : Prop := (∃ starred, s.Takes s.count starred) →
  s.machine.HasRoom s.head (4 * (s.length - (s.count - 1) + s.slack.toNat + 3))

def runs (memory : Memory) : Machine := { s.machine with memory }

def value? (frame : Frame) (memory : Memory) (name : String) : Option Word :=
  s.context.env.value? frame memory name

/-- Variables and memory after the positions before `position` are assigned. -/
structure At (position : Nat) (frame : Frame) (memory : Memory) : Prop where
  assigned : ∀ place < position, ∀ name, s.Writes place name →
    ∃ word, s.part? place = some word ∧ s.value? frame memory name = some word
  others : ∀ name, (∀ place < position, ¬ s.Writes place name) →
    s.value? frame memory name = s.value? s.frame s.machine.memory name
  temps : ∀ name, s.context.env.isLocal name = false → name ≠ s.size →
    frame.get? name = s.frame.get? name
  counted : frame.get? s.size = some (Word.ofNat s.length)
  there : ∀ name, (frame.get? name).isSome = (s.frame.get? name).isSome
  kept : Memory.AgreeOn s.heapStart s.head s.machine.memory memory
  untaken : (∀ starred, ¬ s.Takes position starred) →
    memory.HeapAt s.head ∧ memory.pages = s.machine.memory.pages
  taken : ∀ starred, s.Takes position starred →
    memory.ListAt (s.middle starred) ∧ memory.HeapAt (s.middle starred).finish

variable {s} {position : Nat} {frame frame' : Frame} {made : Memory} {code : Code}

theorem Writes.name_unique {other : String} (h : s.Writes position name)
    (h' : s.Writes position other) : other = name := by
  obtain ⟨slot, hslot, -, htarget⟩ := h
  obtain ⟨slot', hslot', -, htarget'⟩ := h'
  obtain rfl : slot = slot' := Option.some.inj (hslot.symm.trans hslot')
  exact Target.id.inj (htarget'.symm.trans htarget)

theorem Writes.place_unique (h : s.Writes position name) (h' : s.Writes place name) :
    place = position := by
  obtain ⟨slot, hslot, hkeep, htarget⟩ := h'
  obtain ⟨slot', hslot', hkeep', htarget'⟩ := h
  obtain ⟨hlt, rfl⟩ := List.getElem?_eq_some_iff.1 hslot
  obtain ⟨hlt', rfl⟩ := List.getElem?_eq_some_iff.1 hslot'
  have hpairs := pairwise_iff_getElem.1 s.distinct
  rcases Nat.lt_trichotomy place position with hbefore | rfl | hafter
  · exact absurd (htarget.trans htarget'.symm) (hpairs _ _ hlt hlt' hbefore hkeep hkeep')
  · rfl
  · exact absurd (htarget'.trans htarget.symm) (hpairs _ _ hlt' hlt hafter hkeep' hkeep)

theorem Writes.lt (h : s.Writes position name) : position < s.count := by
  obtain ⟨_, hslot, -⟩ := h
  exact (List.getElem?_eq_some_iff.1 hslot).1

theorem star_lt {starred : Nat} (h : s.star = some starred) : starred < s.count :=
  (findIdx?_eq_some_iff_getElem.1 h).1

variable (s) in
theorem bounds : s.heapStart ≤ s.head ∧ s.head ≤ Memory.addressEnd ∧ s.heapStart ≤ 2 ^ 32 := by
  have habove := s.above
  have hbelow := s.below
  have hinside := s.heap.inside
  have hlimit := s.heap.size_le
  have hend : Memory.addressEnd = 2 ^ 34 := rfl
  rw [Listed.finish] at hbelow
  omega

/-! ### While positions are assigned -/

namespace At

section

variable (h : s.At position frame memory)
include h

theorem limit : memory.size ≤ 2 ^ 32 := by
  by_cases htaken : ∃ starred, s.Takes position starred
  · obtain ⟨starred, hstarred⟩ := htaken
    exact (h.taken starred hstarred).2.size_le
  · exact (h.untaken (not_exists.1 htaken)).1.size_le

theorem list : memory.ListAt s.list := by
  have hfits := s.made.fits
  have hbelow := s.below
  rw [Listed.finish] at hbelow
  exact s.made.agree h.kept s.above (by omega)

theorem source : frame.get? s.source = some (Word.ofNat s.list.address) :=
  (h.temps s.source s.apart.1 s.apart.2.2).trans s.sourced

theorem housed : s.context.Housed frame s.heapStart :=
  { s.housed with locals := fun name hname => (h.there name).trans (s.housed.locals name hname) }

end

theorem zero : s.At 0 (s.frame.put s.size (Word.ofNat s.length)) s.machine.memory where
  assigned _ hplace := absurd hplace (Nat.not_lt_zero _)
  others name _ := by
    rw [value?, value?, Environment.value?, Environment.value?]
    split
    · next hname =>
      rw [get?_put, if_neg]
      rintro rfl
      rw [s.apart.2.1] at hname
      exact Bool.noConfusion hname
    · rfl
  temps name _ hname := by rw [get?_put, if_neg hname]
  counted := by rw [get?_put, if_pos rfl, map_of_isSome s.sized]
  there _ := isSome_get?_put _ _ _ _
  kept := .refl _ _ _
  untaken _ := ⟨s.heap, rfl⟩
  taken _ htakes := absurd htakes.2.1 (Nat.not_lt_zero _)

theorem skip (h : s.At position frame memory) (hnone : ∀ name, ¬ s.Writes position name) :
    s.At (position + 1) frame memory := by
  have hback : ∀ place < position + 1, ∀ name, s.Writes place name → place < position := by
    intro place hplace name hwrites
    refine Nat.lt_of_le_of_ne (le_of_lt_succ hplace) ?_
    rintro rfl
    exact hnone name hwrites
  have htakes : ∀ starred, s.Takes (position + 1) starred ↔ s.Takes position starred := by
    refine fun starred => ⟨?_, ?_⟩
    · rintro ⟨hstar, hbefore, name, hwrites⟩
      exact ⟨hstar, hback starred hbefore name hwrites, name, hwrites⟩
    · rintro ⟨hstar, hbefore, hwrites⟩
      exact ⟨hstar, lt_succ_of_lt hbefore, hwrites⟩
  exact { h with
    assigned := fun place hplace name hwrites =>
      h.assigned place (hback place hplace name hwrites) name hwrites
    others := fun name hnot => h.others name fun place hplace => hnot place (lt_succ_of_lt hplace)
    untaken := fun hnot => h.untaken fun starred => (htakes starred).not.1 (hnot starred)
    taken := fun starred hstarred => h.taken starred ((htakes starred).1 hstarred) }

end At

/-- What the code for the word of a position does to memory. -/
def Prepares (s : Splitting) (position : Nat) (memory made : Memory) : Prop :=
  if s.star = some position then HelperBody.Makes (s.middle position) memory made else made = memory

theorem Prepares.agree (h : s.Prepares position memory made) :
    Memory.AgreeOn 4 s.head memory made := by
  rw [Prepares] at h
  split at h
  · exact h.kept
  · rw [h]
    exact .refl _ _ _

section

variable (h : s.At position frame memory)
include h

theorem At.assign (hprepares : s.Prepares position memory made)
    (hwritten : Written s.context.env s.heapStart name word frame made frame' memory')
    (hwrites : s.Writes position name) (hpart : s.part? position = some word) :
    s.At (position + 1) frame' memory' := by
  obtain ⟨hstart, hhead, -⟩ := s.bounds
  have hsame := value?_agree s.housed (hprepares.agree.mono (Nat.le_refl _) hstart) frame
  exact {
    assigned := by
      intro place hplace other hother
      rw [value?, hwritten.value, hsame]
      rcases Nat.lt_succ_iff_lt_or_eq.1 hplace with hbefore | rfl
      · rw [if_neg]
        · exact h.assigned place hbefore other hother
        · rintro rfl
          exact Nat.ne_of_lt hbefore (hwrites.place_unique hother)
      · rw [if_pos (hwrites.name_unique hother)]
        exact ⟨word, hpart, rfl⟩
    others := by
      intro other hnot
      rw [value?, hwritten.value, hsame, if_neg]
      · exact h.others other fun place hplace => hnot place (lt_succ_of_lt hplace)
      · rintro rfl
        exact hnot position (lt_succ_self _) hwrites
    temps := fun other hother hne => (hwritten.temps other hother).trans (h.temps other hother hne)
    counted := (hwritten.temps s.size s.apart.2.1).trans h.counted
    there := fun other => (hwritten.there other).trans (h.there other)
    kept := (h.kept.trans (hprepares.agree.mono s.housed.head (Nat.le_refl _))).trans
      (hwritten.kept s.heapStart s.head hhead (.inl (Nat.le_refl _)))
    untaken := by
      intro hnot
      have hplain : s.star ≠ some position :=
        fun hstar => hnot position ⟨hstar, lt_succ_self _, name, hwrites⟩
      rw [Prepares, if_neg hplain] at hprepares
      subst hprepares
      have huntaken : ∀ starred, ¬ s.Takes position starred := by
        rintro starred ⟨hstar, hbefore, hwrote⟩
        exact hnot starred ⟨hstar, lt_succ_of_lt hbefore, hwrote⟩
      obtain ⟨hheap, hpages⟩ := h.untaken huntaken
      exact ⟨hheap.agree (hwritten.kept 0 4 (by decide) (.inr (Nat.le_refl _))) hwritten.pages,
        hwritten.pages.trans hpages⟩
    taken := by
      rintro starred ⟨hstar, hbefore, hwrote⟩
      rw [Prepares, hstar] at hprepares
      split at hprepares
      · next hat =>
        cases hat
        exact hwritten.keeps hprepares.made hprepares.heap hstart
      · next hat =>
        subst hprepares
        have hearlier : starred < position :=
          Nat.lt_of_le_of_ne (le_of_lt_succ hbefore) fun he => hat (congrArg some he)
        obtain ⟨hlist, hheap⟩ := h.taken starred ⟨hstar, hearlier, hwrote⟩
        exact hwritten.keeps hlist hheap hstart }

/-! ### The words of positions -/

theorem elementOf_ends {index : Code}
    (hrun : (elementOf s.source index).run s.context start = (.ok code, later))
    (hindex : ∀ stack, Ends index ⟨s.runs memory, frame, stack⟩ .next
      ⟨s.runs memory, frame, Word.ofNat place :: stack⟩)
    (hplace : s.list.elements[place]? = some word) (stack : List Word) :
    Ends code ⟨s.runs memory, frame, stack⟩ .next ⟨s.runs memory, frame, word :: stack⟩ := by
  simp only [elementOf, bind_eq_ok_iff, pure_eq_ok_iff] at hrun
  obtain ⟨call, _, hhelper, rfl, -⟩ := hrun
  obtain rfl : .callHelper .listElementAddress = call := Except.ok.inj (congrArg Prod.fst hhelper)
  have hwords : (s.runs memory).memory.Holds (s.list.address + 4) s.list.words := h.list.words
  obtain ⟨hwithin, -⟩ := List.getElem?_eq_some_iff.1 hplace
  have hload := HelperBody.loadElement hwords h.limit hplace
  have hcall : Ends [.callHelper .listElementAddress]
      ⟨s.runs memory, frame, [Word.ofNat s.list.address, Word.ofNat place].reverse ++ stack⟩ .next
      ⟨s.runs memory, frame, Word.ofNat (s.list.address + 12 + 4 * place) :: stack⟩ :=
    .callHelper (HelperBody.listElementAddress_answers hwords h.limit hwithin) s.element rfl
  refine (HelperBody.localGet_ends h.source).append ((hindex _).append (hcall.append ?_))
  exact .straight (by simp [hload])

theorem plainPart_ends (hmatches : s.Matches) (hposition : position < s.count)
    (hplain : s.star ≠ some position)
    (hrun : (listPart s.source s.size s.count s.star position).run s.context start =
      (.ok code, later)) :
    ∃ word, s.part? position = some word ∧
      ∀ stack, Ends code ⟨s.runs memory, frame, stack⟩ .next
        ⟨s.runs memory, frame, word :: stack⟩ := by
  have hfront : ∀ stack, Ends [.const (Word.ofNat position)] ⟨s.runs memory, frame, stack⟩ .next
      ⟨s.runs memory, frame, Word.ofNat position :: stack⟩ := fun stack =>
    .straight rfl
  have hlength : s.length = s.list.elements.length := rfl
  cases hstar : s.star with
  | none =>
    simp only [Matches, hstar, isNone_none, if_true] at hmatches
    simp only [hstar, listPart] at hrun
    have hword := getElem?_eq_getElem (l := s.list.elements) (i := position) (by omega)
    exact ⟨_, by rw [part?, hstar]; exact hword, elementOf_ends h hrun hfront hword⟩
  | some starred =>
    simp only [Matches, required, hstar, isNone_some, Bool.false_eq_true, if_false] at hmatches
    have hother : position ≠ starred := fun he => hplain (hstar.trans (congrArg some he.symm))
    have hstarred := star_lt hstar
    simp only [hstar, listPart, if_neg hother] at hrun
    simp only [part?, hstar, if_neg hother]
    split at hrun
    · next hafter =>
      -- Positions after the starred one count back from the end.
      have hback : ∀ stack, Ends [.localGet s.size, .const (Word.ofNat (s.count - position)), .sub]
          ⟨s.runs memory, frame, stack⟩ .next
          ⟨s.runs memory, frame, Word.ofNat (s.length - (s.count - position)) ::
            stack⟩ := fun stack =>
        .straight
          (by simp [h.counted, ofNat_sub_ofNat (show s.count - position ≤ s.length by omega)])
      have hplace : s.length - (s.count - position) = s.length + position - s.count := by omega
      rw [hplace] at hback
      have hword := getElem?_eq_getElem (l := s.list.elements)
        (i := s.length + position - s.count) (by omega)
      rw [if_pos hafter]
      exact ⟨_, hword, elementOf_ends h hrun hback hword⟩
    · next hafter =>
      have hword := getElem?_eq_getElem (l := s.list.elements) (i := position) (by omega)
      rw [if_neg hafter]
      exact ⟨_, hword, elementOf_ends h hrun hfront hword⟩

theorem starredPart_ends (hmatches : s.Matches) (hroom : s.HasRoom) (hstar : s.star = some position)
    (hwrites : s.Writes position name)
    (hrun : (listPart s.source s.size s.count s.star position).run s.context start =
      (.ok code, later)) :
    ∃ made, HelperBody.Makes (s.middle position) memory made ∧
      ∀ stack, Ends code ⟨s.runs memory, frame, stack⟩ .next
        ⟨s.runs made, frame, Word.ofNat s.head :: stack⟩ := by
  have hstarred := star_lt hstar
  have hlength : s.length = s.list.elements.length := rfl
  simp only [Matches, required, hstar, isNone_some, Bool.false_eq_true, if_false] at hmatches
  simp only [hstar, listPart, if_true, bind_eq_ok_iff, pure_eq_ok_iff] at hrun
  obtain ⟨call, _, hhelper, rfl, -⟩ := hrun
  obtain rfl : .callHelper .listSlice = call := Except.ok.inj (congrArg Prod.fst hhelper)
  have huntaken : ∀ starred, ¬ s.Takes position starred := by
    rintro starred ⟨hstar', hbefore, -⟩
    rw [hstar] at hstar'
    exact Nat.ne_of_gt hbefore (Option.some.inj hstar')
  obtain ⟨hheap, hpages⟩ := h.untaken huntaken
  have hfree := hroom ⟨position, hstar, hstarred, name, hwrites⟩
  have hallowed := hfree.allowed
  rw [← hpages] at hallowed
  have hwords : (s.runs memory).memory.Holds (s.list.address + 4) s.list.words := h.list.words
  obtain ⟨made, hanswers, hmakes⟩ := HelperBody.listSlice_answers hwords s.below s.made.fits
    (by omega : position + (s.length - (s.count - 1)) ≤ _) ⟨hheap, hfree.counted, hallowed⟩
  refine ⟨made, hmakes, fun stack => ?_⟩
  have hend : s.length - (s.count - 1 - position) =
      position + (s.length - (s.count - 1)) := by omega
  have hargs : Ends [.localGet s.source, .const (Word.ofNat position), .localGet s.size,
      .const (Word.ofNat (s.count - 1 - position)), .sub] ⟨s.runs memory, frame, stack⟩ .next
      ⟨s.runs memory, frame, [Word.ofNat s.list.address, Word.ofNat position,
        Word.ofNat (position + (s.length - (s.count - 1)))].reverse ++ stack⟩ :=
    .straight (by
      simp [h.source, h.counted, ofNat_sub_ofNat (show s.count - 1 - position ≤ s.length by omega),
        hend])
  exact hargs.append (.callHelper hanswers s.slice rfl)

theorem position_ends (hmatches : s.Matches) (hroom : s.HasRoom) (hwrites : s.Writes position name)
    {between : Progress} (hvalue : (listPart s.source s.size
    s.count s.star position).run s.context start = (.ok value, between))
    (hrun : (assignTo (.id name) value).run s.context between = (.ok code, later))
    (stack : List Word) :
    ∃ frame' memory', Ends code ⟨s.runs memory, frame, stack⟩ .next
      ⟨s.runs memory', frame', stack⟩ ∧ s.At (position + 1) frame' memory' := by
  have hpart : ∃ word made, s.part? position = some word ∧ s.Prepares position memory made ∧
      made.size ≤ 2 ^ 32 ∧ ∀ stack, Ends value ⟨s.runs memory, frame, stack⟩ .next
        ⟨s.runs made, frame, word :: stack⟩ := by
    by_cases hstar : s.star = some position
    · obtain ⟨made, hmakes, hends⟩ := starredPart_ends h hmatches hroom hstar hwrites hvalue
      refine ⟨_, made, by rw [part?, hstar]; exact if_pos rfl, ?_, hmakes.heap.size_le, hends⟩
      rw [Prepares, if_pos hstar]
      exact hmakes
    · obtain ⟨word, hword, hends⟩ := plainPart_ends h hmatches hwrites.lt hstar hvalue
      exact ⟨word, memory, hword, by rw [Prepares, if_neg hstar], h.limit, hends⟩
  obtain ⟨word, made, hword, hprepares, hlimit, hends⟩ := hpart
  have hinside : s.heapStart ≤ made.size := by
    have hsize := hprepares.agree.size
    have habove := s.above
    have hwithin := h.list.words.inside
    omega
  obtain ⟨frame', memory', hassign, hwritten⟩ :=
    assignTo_ends (m := s.runs memory) h.housed hinside hlimit hrun stack hends
  exact ⟨frame', memory', hassign, h.assign hprepares hwritten hwrites hword⟩

end

/-! ### Whole patterns -/

theorem assignTo_lowers {slot : Slot} (hslot : slot ∈ s.slots) (hkeep : slot.ignore = false)
    (value : Code) (start : Progress) :
    ∃ code, (assignTo slot.target value).run s.context start = (.ok code, start) := by
  obtain ⟨name, htarget, hknown⟩ := s.targets slot hslot hkeep
  simp only [htarget, assignTo, bind_eq_ok_iff, context_eq_ok_iff]
  by_cases hlocal : s.context.env.isLocal name = true
  · exact ⟨_, s.context, start, ⟨rfl, rfl⟩, by rw [if_pos hlocal]; rfl⟩
  · obtain ⟨slot, hslot⟩ := isSome_iff_exists.1 (hknown.resolve_left hlocal)
    have hbelow := (s.housed.globals name slot hslot).2
    have hspace := s.bounds.2.2
    have hbytes : (UInt32.ofNat (4 * slot.toNat)).toNat = 4 * slot.toNat :=
      UInt32.toNat_ofNat_of_lt' (show _ < 2 ^ 32 by omega)
    refine ⟨[.constU (.ofNat (4 * slot.toNat))] ++ value ++ [.store 0], s.context, start,
      ⟨rfl, rfl⟩, ?_⟩
    rw [if_neg hlocal]
    simp only [bind_eq_ok_iff, ofResult_eq_ok_iff, pure_eq_ok_iff]
    exact ⟨_, start, ⟨Environment.globalAddress_eq_ok_iff.2 ⟨slot, hslot, hbytes⟩, rfl⟩, rfl, rfl⟩

/-- **Positions one after another** are lowered, and the code assigns them. The induction is on the
positions that are left. -/
theorem assignSlots_exact {done rest : List Slot} (hslots : s.slots = done ++ rest)
    (start : Progress) :
    ∃ code later, (assignSlots (listPart s.source s.size s.count s.star) done.length rest).run
        s.context start = (.ok code, later) ∧
      ∀ {frame memory}, s.Matches → s.HasRoom → s.At done.length frame memory → ∀ stack,
        ∃ frame' memory', Ends code ⟨s.runs memory, frame, stack⟩ .next
          ⟨s.runs memory', frame', stack⟩ ∧ s.At s.count frame' memory' := by
  induction rest generalizing done start with
  | nil =>
    refine ⟨[], start, rfl, fun {frame memory} _ _ h stack => ?_⟩
    rw [append_nil] at hslots
    rw [← hslots] at h
    exact ⟨frame, memory, .nil _, h⟩
  | cons slot rest ih =>
    have hat : s.slots[done.length]? = some slot := by
      rw [hslots, getElem?_append_right (Nat.le_refl _), Nat.sub_self]
      rfl
    have hslots' : s.slots = (done ++ [slot]) ++ rest := by rw [hslots, append_assoc]; rfl
    replace ih := fun start => ih hslots' start
    simp only [length_append, length_singleton] at ih
    rw [assignSlots]
    split
    · next hignore =>
      obtain ⟨code, later, hrun, hends⟩ := ih start
      refine ⟨code, later, hrun, fun hmatches hroom h => hends hmatches hroom (h.skip ?_)⟩
      rintro name ⟨slot', hslot', hkeep, -⟩
      obtain rfl : slot = slot' := Option.some.inj (hat.symm.trans hslot')
      rw [hignore] at hkeep
      exact Bool.noConfusion hkeep
    · next hignore =>
      have hkeep : slot.ignore = false := Bool.not_eq_true _ ▸ hignore
      have hslot := mem_of_getElem? hat
      obtain ⟨name, htarget, -⟩ := s.targets slot hslot hkeep
      obtain ⟨value, between, hvalue⟩ : ∃ value between, (listPart s.source s.size s.count s.star
          done.length).run s.context start = (.ok value, between) := by
        unfold listPart
        repeat' split
        all_goals exact ⟨_, _, rfl⟩
      obtain ⟨first, hfirst⟩ := s.assignTo_lowers hslot hkeep value between
      obtain ⟨more, later, hmore, hends⟩ := ih between
      refine ⟨first ++ more, later, ?_, fun hmatches hroom h stack => ?_⟩
      · simp only [bind_eq_ok_iff, pure_eq_ok_iff]
        exact ⟨value, between, hvalue, first, between, hfirst, more, later, hmore, rfl, rfl⟩
      · rw [htarget] at hfirst
        obtain ⟨frame₁, memory₁, hstep, hnext⟩ :=
          position_ends h hmatches hroom ⟨slot, hat, hkeep, htarget⟩ hvalue hfirst stack
        obtain ⟨frame₂, memory₂, hrest, hall⟩ := hends hmatches hroom hnext stack
        exact ⟨frame₂, memory₂, hstep.append hrest, hall⟩

variable (s)

/-- The code that compares the size of the list with the pattern. -/
def check : Code :=
  [.localGet s.source, .load Block.sizeOffset, .localSet s.size, .localGet s.size,
   .const (Word.ofNat s.required), .numeric (if s.star.isNone then .ne else .ltS),
   .when [.const (Word.ofNat s.required), .localGet s.size, .callIntrinsic .unpackError,
     .unreachable]]

theorem mismatch_eq (hshort : s.length < 2 ^ 31) :
    numeric (if s.star.isNone then .ne else .ltS) (Word.ofNat s.length) (Word.ofNat s.required) =
      .ok (Word.ofBool (¬ s.Matches)) := by
  have hcount : s.count < 2 ^ 31 := s.short
  cases hstar : s.star with
  | none =>
    have hsame : Word.ofNat s.length = Word.ofNat s.count ↔ s.length = s.count := by
      refine ⟨fun he => ?_, congrArg _⟩
      have hint := congrArg Int32.toInt he
      rw [toInt_ofNat_of_lt hshort, toInt_ofNat_of_lt hcount] at hint
      exact Int.ofNat_inj.1 hint
    simp [numeric, required, Matches, hstar, hsame]
  | some starred =>
    have hless := ofNat_lt_ofNat hshort (show s.count - 1 < 2 ^ 31 by omega)
    simp only [numeric, required, Matches, hstar, hless, isNone_some, Bool.false_eq_true, if_false,
      Nat.not_le]

theorem check_ends (stack : List Word) :
    Ends s.check ⟨s.machine, s.frame, stack⟩ (if s.Matches then .next
        else .trap (.unpackError (Word.ofNat s.required) (Word.ofNat s.length)))
      ⟨s.machine, s.frame.put s.size (Word.ofNat s.length), stack⟩ := by
  obtain ⟨hload, hshort⟩ := HelperBody.loadSize s.made.words s.heap.size_le
  have hsmall : s.length < 2 ^ 31 := by
    show s.list.elements.length < _
    omega
  have hread : (s.frame.put s.size (Word.ofNat s.length)).get? s.size =
      some (Word.ofNat s.length) :=
    (At.zero (s := s)).counted
  have htest : Ends [.localGet s.source, .load Block.sizeOffset, .localSet s.size, .localGet s.size,
      .const (Word.ofNat s.required), .numeric (if s.star.isNone then .ne else .ltS)]
      ⟨s.machine, s.frame, stack⟩ .next
      ⟨s.machine, s.frame.put s.size (Word.ofNat s.length), Word.ofBool (¬ s.Matches) :: stack⟩ :=
    .straight (by
      simp only [Exec.straight, step, State.push, s.sourced, hload, set?_eq, map_of_isSome s.sized]
      rw [← length]
      simp only [hread, s.mismatch_eq hsmall])
  split
  · next hmatches => exact htest.append (.skip _ (by simp [hmatches, Word.ofBool]))
  · next hmatches =>
    exact htest.append (.reports [.const (Word.ofNat s.required), .localGet s.size]
      (by simp [hmatches, Word.ofBool]) (by simp [hread]) rfl rfl)

/-- A list pattern is lowered to the check of the size and the code of its positions. -/
theorem listParts_lowers {codes : Code} (hsize : s.size = tempName start.temps)
    (hcodes : (assignSlots (listPart s.source s.size s.count s.star) 0 s.slots).run s.context
      { start with temps := start.temps + 1, intrinsics := start.intrinsics.insert .unpackError } =
        (.ok codes, later)) :
    (listParts s.slots s.source).run s.context start = (.ok (s.check ++ codes), later) := by
  have hpair : (if s.star.isNone then (s.count, NumericOp.ne) else (s.count - 1, .ltS)) =
      (s.required, if s.star.isNone then .ne else .ltS) := by
    rw [required]
    split <;> rfl
  rw [star, count] at hpair
  simp only [listParts, if_neg (Nat.not_lt.2 s.stars), hpair, bind_eq_ok_iff, newTemp_eq_ok_iff,
    pure_eq_ok_iff, ← hsize]
  exact ⟨_, _, ⟨rfl, rfl⟩, _, _, rfl, codes, later, hcodes, rfl, rfl⟩

end Splitting

/-- **List patterns** take a list apart exactly, in a body where no local has the name of a
temporary (`Context.Housed`). A size that does not match is reported, with all variables and the
memory as they were. Otherwise every position that is not ignored receives its part, no other
variable changes, and a starred position makes one fresh list at the old head. -/
theorem list_pattern_exact (s : Splitting) {pattern : Pattern} {element : Ty}
    {start : Lowering.Progress}
    (hslots : pattern.slots = s.slots) (hpattern : pattern.isDestructured = true)
    (hty : pattern.valueType = .list element) (hsize : s.size = Lowering.tempName start.temps) :
    ∃ code later, (Lowering.pattern pattern s.source).run s.context start = (.ok code, later) ∧
        ∀ stack, (¬ s.Matches → ∃ frame, Ends code ⟨s.machine, s.frame, stack⟩
            (.trap (.unpackError (Word.ofNat s.required) (Word.ofNat s.length)))
            ⟨s.machine, frame, stack⟩ ∧
          ∀ name, s.value? frame s.machine.memory name = s.value? s.frame s.machine.memory name) ∧
        (s.Matches → s.HasRoom → ∃ frame memory, Ends code ⟨s.machine, s.frame, stack⟩ .next
            ⟨{ s.machine with memory }, frame, stack⟩ ∧ s.At s.count frame memory) := by
  obtain ⟨codes, later, hcodes, hassigns⟩ := s.assignSlots_exact (nil_append _).symm _
  have hrun := s.listParts_lowers hsize hcodes
  rw [Lowering.pattern, if_pos hpattern, hty, hslots]
  refine ⟨_, later, hrun, fun stack => ⟨fun hmismatch => ?_, fun hmatches hroom => ?_⟩⟩
  · have hstops := s.check_ends stack
    rw [if_neg hmismatch] at hstops
    exact ⟨_, hstops.stop (by simp) codes, fun name => Splitting.At.zero.others name fun _ hplace =>
      absurd hplace (Nat.not_lt_zero _)⟩
  · have hpasses := s.check_ends stack
    rw [if_pos hmatches] at hpasses
    obtain ⟨frame, memory, hends, hall⟩ := hassigns hmatches hroom .zero stack
    exact ⟨frame, memory, hpasses.append hends, hall⟩

/-- A body with the globals `first` and `last` and the local `rest`. -/
def Lowering.Context.splitting : Lowering.Context where
  env := { globals := [("first", 1), ("last", 2)], nextSlot := 3, locals := ["rest"] }

theorem Lowering.Context.splitting_local (h : splitting.env.isLocal name = true) :
    name = "rest" := by
  simpa [splitting, Environment.isLocal] using h

theorem Lowering.Context.splitting_free : splitting.TempsFree := by
  intro name hname index he
  rw [splitting_local hname] at he
  have hlists := congrArg String.toList he
  rw [toList_tempName] at hlists
  simp at hlists

theorem Lowering.Context.splitting_targets :
    ∀ slot ∈ ([{ target := .id "first" }, { target := .id "rest", starred := true },
        { target := .id "last" }] : List Slot), slot.ignore = false →
          ∃ name, slot.target = .id name ∧
        (splitting.env.isLocal name = true ∨ (splitting.env.globals.lookup name).isSome) := by
  simp [splitting, Environment.isLocal]

/-- The pattern `first, *rest, last` is run on the list `[7, 8, 9, 10]`. -/
def Splitting.firstRest : Splitting where
  context := .splitting
  slots := [{ target := .id "first" }, { target := .id "rest", starred := true },
    { target := .id "last" }]
  list := ⟨16, 4, [7, 8, 9, 10]⟩
  slack := 0
  heapStart := 16
  head := 72
  source := Lowering.tempName 0
  size := Lowering.tempName 1
  machine :=
    { Machine.heaped with functions := [HelperBody.listElementAddress, HelperBody.listSlice 0] }
  frame := [("rest", 0), (Lowering.tempName 0, 16), (Lowering.tempName 1, 0)]
  housed := {
    free := Lowering.Context.splitting_free
    locals := fun name hname => by
      rw [Lowering.Context.splitting_local hname]
      rfl
    planned := ⟨by decide, by decide, by decide⟩
    head := by decide
    globals := fun name slot hslot => by
      have hcases : name = "first" ∧ slot = 1 ∨ name = "last" ∧ slot = 2 := by
        simpa [Lowering.Context.splitting] using mem_of_lookup hslot
      obtain ⟨-, rfl⟩ | ⟨-, rfl⟩ := hcases <;> decide }
  targets := Lowering.Context.splitting_targets
  distinct := by simp
  stars := by decide
  short := by decide
  made := Machine.heaped_list
  above := by decide
  below := by decide
  heap := Machine.heaped_heap
  element := rfl
  slice := rfl
  apart := by decide +kernel
  sourced := by decide +kernel
  sized := by decide +kernel

/-- The pattern `first, *rest, last` takes `[7, 8, 9, 10]` apart into its ends and a fresh list. -/
theorem Splitting.firstRest_splits :
    ∃ code later, (Lowering.pattern ⟨true, .list .number, firstRest.slots⟩ firstRest.source).run
        firstRest.context { temps := 1 } = (.ok code, later) ∧
      ∃ frame memory, Ends code ⟨firstRest.machine, firstRest.frame, []⟩ .next
          ⟨{ firstRest.machine with memory }, frame, []⟩ ∧
        firstRest.value? frame memory "first" = some 7 ∧
        firstRest.value? frame memory "last" = some 10 ∧
        firstRest.value? frame memory "rest" = some 72 ∧ memory.ListAt ⟨72, 2, [8, 9]⟩ := by
  obtain ⟨code, later, hrun, hends⟩ := list_pattern_exact firstRest
    (rfl : (⟨true, .list .number, firstRest.slots⟩ : Pattern).slots = _) rfl rfl
    (rfl : _ = Lowering.tempName ({ temps := 1 } : Lowering.Progress).temps)
  obtain ⟨frame, memory, hsplits, hall⟩ := (hends []).2 (by decide)
    fun _ => ⟨firstRest.heap, by decide, by decide +kernel⟩
  have hrest : firstRest.Writes 1 "rest" := ⟨_, rfl, rfl, rfl⟩
  obtain ⟨_, hseven, hfirst⟩ := hall.assigned 0 (by decide) "first" ⟨_, rfl, rfl, rfl⟩
  obtain ⟨_, hhead, hmiddle⟩ := hall.assigned 1 (by decide) "rest" hrest
  obtain ⟨_, hten, hlast⟩ := hall.assigned 2 (by decide) "last" ⟨_, rfl, rfl, rfl⟩
  cases hseven
  cases hhead
  cases hten
  exact ⟨code, later, hrun, frame, memory, hsplits, hfirst, hlast, hmiddle,
    (hall.taken 1 ⟨rfl, by decide, "rest", hrest⟩).1⟩

end TypedWasm
