import TypedWasm.Proofs.Exact.Copying
import TypedWasm.Proofs.Heap.Literals

/-!
# Lists that are joined

The helpers that join lists make one fresh block at the heap head: its size and bound are the sums
over the sources, its elements those of the sources in order. Copying a list is joining one list.
-/

namespace TypedWasm

open Block Exec TypedWasm.Frame List Lower Machine Memory Option Symbolic Word

variable {memory' : Memory} {m : Machine}

/-! ### Lists -/

/-- A list: where its block is, the room for elements and the elements. -/
structure Listed where
  address : Nat
  bound : Nat
  elements : List Word

variable {memory : Memory} {list : Listed}

def Listed.finish (list : Listed) : Nat := list.address + 4 * (list.bound + 3)

def Listed.words (list : Listed) : List Word :=
  Word.ofNat list.elements.length :: Word.ofNat list.bound :: list.elements

structure Memory.ListAt (memory : Memory) (list : Listed) : Prop where
  tag : memory.word list.address = listTag
  words : memory.Holds (list.address + 4) list.words
  fits : list.elements.length ≤ list.bound

/-! ### Headers of the sources -/

namespace HelperBody

variable {m : Machine} {frame : Frame} {stack : List Word} {values : List Nat} {offset : UInt32}
  {bound : Nat}

def joinNames : List String :=
  ["size", "bound", "bytes", "result", "filled", "src", "dst", "count", "i"]

/-- The sources are locals that hold lists, all of which end below the head. -/
def Sources (frame : Frame) (memory : Memory) (head : Nat) : List String → List Listed → Prop :=
  List.Forall₂ fun source list => source ∉ joinNames ∧
    frame.get? source = some (Word.ofNat list.address) ∧
    memory.Holds (list.address + 4) list.words ∧ list.finish ≤ head ∧
    list.elements.length ≤ list.bound

variable {sources : List String} {lists : List Listed} {head : Nat}

theorem Sources.keep {frame' : Frame} (h : Sources frame memory head sources lists)
    (hframe : ∀ name ∉ joinNames, frame'.get? name = frame.get? name) :
    Sources frame' memory head sources lists := by
  refine h.imp fun source list hsource => ?_
  obtain ⟨hname, hget, hlist⟩ := hsource
  exact ⟨hname, (hframe source hname).trans hget, hlist⟩

theorem sumParts_ends {acc : Nat}
    (h : List.Forall₂ (fun source value => ∃ address, frame.get? source = some address ∧
      m.loadWord address offset = .ok (Word.ofNat value)) sources values) :
    Ends (sources.flatMap fun source => [.localGet source, .load offset, .add])
      ⟨m, frame, Word.ofNat acc :: stack⟩ .next
        ⟨m, frame, Word.ofNat (acc + values.sum) :: stack⟩ := by
  induction h generalizing acc with
  | nil => exact .nil _
  | cons hsource _ ih =>
    obtain ⟨address, hget, hload⟩ := hsource
    rw [flatMap_cons, sum_cons, ← Nat.add_assoc]
    refine .after ?_ ih
    simp [hget, hload]

theorem sumHeaders_ends (stack : List Word) {total : String}
    (h : List.Forall₂ (fun source value => ∃ address, frame.get? source = some address ∧
      m.loadWord address offset = .ok (Word.ofNat value)) sources values)
    (htotal : (frame.get? total).isSome) :
    Ends (sumHeaders sources offset total) ⟨m, frame, stack⟩ .next
      ⟨m, frame.put total (Word.ofNat values.sum), stack⟩ := by
  rw [sumHeaders, append_assoc]
  refine .after (t := ⟨m, frame, Word.ofNat 0 :: stack⟩) rfl ?_
  refine (sumParts_ends h).append (.straight ?_)
  simp [htotal]

theorem Sources.headers (h : Sources frame m.memory head sources lists)
    (hsize : m.memory.size ≤ 2 ^ 32) (offset : UInt32) (index : Nat) {value : Listed → Nat}
    (hoffset : offset.toNat = 4 + 4 * index)
    (hvalue : ∀ list : Listed, list.words[index]? = some (Word.ofNat (value list))) :
    List.Forall₂ (fun source value => ∃ address, frame.get? source = some address ∧
      m.loadWord address offset = .ok (Word.ofNat value)) sources (lists.map value) := by
  rw [forall₂_map_right_iff]
  refine h.imp fun source list hsource => ?_
  obtain ⟨-, hget, hwords, -, -⟩ := hsource
  refine ⟨_, hget, ?_⟩
  have hinside := hwords.inside
  simp only [Listed.words, length_cons] at hinside
  exact loadWord_held hwords (hvalue list) (by omega) (by omega)

theorem Sources.not_mem (h : Sources frame memory head sources lists) {name : String}
    (hname : name ∈ joinNames) : name ∉ sources := by
  induction h with
  | nil => exact not_mem_nil
  | cons hsource _ ih =>
    rw [mem_cons, not_or]
    exact ⟨fun he => hsource.1 (he ▸ hname), ih⟩

theorem Sources.length_le (h : Sources frame memory head sources lists) :
    (lists.flatMap Listed.elements).length ≤ (lists.map Listed.bound).sum := by
  induction h with
  | nil => exact Nat.le_refl _
  | cons hsource _ ih =>
    obtain ⟨-, -, -, -, hfits⟩ := hsource
    rw [flatMap_cons, length_append, map_cons, sum_cons]
    exact Nat.add_le_add hfits ih

/-! ### Elements of the sources -/

/-- The locals while `filled` elements of the block at `result` are written. -/
structure Joining (frame : Frame) (result filled : Nat) : Prop where
  result : frame.get? "result" = some (Word.ofNat result)
  filled : frame.get? "filled" = some (Word.ofNat filled)
  there : ∀ name ∈ joinNames, (frame.get? name).isSome

theorem appendElements_ends (stack : List Word) {source : String} {result filled : Nat}
    (hsource : source ∉ joinNames) (hget : frame.get? source = some (Word.ofNat list.address))
    (hwords : m.memory.Holds (list.address + 4) list.words) (hframe : Joining frame result filled)
    (hsize : m.memory.size ≤ 2 ^ 32)
    (hroom : result + 12 + 4 * (filled + list.elements.length) ≤ m.memory.size) :
    ∃ frame', Ends (appendElements source) ⟨m, frame, stack⟩ .next
        ⟨{ m with memory :=
            m.memory.copy (list.address + 12) (result + 12 + 4 * filled) list.elements.length },
          frame', stack⟩ ∧
      Joining frame' result (filled + list.elements.length) ∧
      ∀ name ∉ joinNames, frame'.get? name = frame.get? name := by
  have hinside := hwords.inside
  simp only [Listed.words, length_cons] at hinside
  have hthere : ∀ name ∈ ["src", "dst", "count", "i"], (frame.get? name).isSome :=
    fun name hname => hframe.there name (by revert name; decide)
  obtain ⟨_, hdst⟩ := isSome_iff_exists.1 (hthere "dst" (by decide))
  have hcopies :=
    copies_put hthere (list.address + 12) (result + 12 + 4 * filled) list.elements.length
  have hcounted : list.words[0]? = some (Word.ofNat list.elements.length) := rfl
  have hload : m.loadWord (Word.ofNat list.address) sizeOffset =
      .ok (Word.ofNat list.elements.length) :=
    loadWord_held hwords hcounted rfl (by omega)
  have hother : source ≠ "src" ∧ source ≠ "dst" := by
    refine ⟨?_, ?_⟩ <;> rintro rfl <;> exact hsource (by decide)
  have hplace : result + headerSize.toNat + filled * wordSize.toNat = result + 12 + 4 * filled := by
    show result + 12 + filled * 4 = _
    omega
  have hrun : Ends (appendElements source) ⟨m, frame, stack⟩ .next
      ⟨{ m with memory :=
          m.memory.copy (list.address + 12) (result + 12 + 4 * filled) list.elements.length },
        ((((frame.put "src" (Word.ofNat (list.address + 12))).put "dst"
          (Word.ofNat (result + 12 + 4 * filled))).put "count"
          (Word.ofNat list.elements.length)).put "i" (Word.ofNat list.elements.length)).put "filled"
          (Word.ofNat (filled + list.elements.length)), stack⟩ := by
    rw [appendElements]
    simp only [append_assoc]
    refine .after (by simp [hget, hthere]; rfl) ?_
    refine (addressOf_ends (by simp [hframe.result]; rfl) (by simp [hframe.filled]; rfl)
      (by simp [hdst]; rfl)).append ?_
    refine .after (by simp [hother, hget, hload, hthere, hplace]; rfl) ?_
    refine (copyWords_ends hcopies hsize (by omega) (by omega)).append ?_
    refine .straight ?_
    simp [hthere, hframe.filled]
  refine ⟨_, hrun, ⟨?_, ?_, ?_⟩, ?_⟩
  · simp [hframe.result]
  · simp [hframe.filled]
  · simpa [-get?_put] using hframe.there
  · intro name hname
    simp only [joinNames, mem_cons, not_or] at hname
    simp [hname]

/-- The elements of all sources are copied, one source after another. The sources lie below the
block, so they are as they were before it was allocated. -/
theorem appendAll_ends (stack : List Word) {last : Nat} {header done : List Word}
    (h : Sources frame memory head sources lists)
    (hfilled : memory.Filled head last (header ++ done) m.memory) (hheader : header.length = 3)
    (hframe : Joining frame head done.length)
    (hroom : head + 4 * (3 + done.length + (lists.flatMap Listed.elements).length) ≤ last) :
    ∃ memory' frame', Ends (sources.flatMap appendElements) ⟨m, frame, stack⟩ .next
        ⟨{ m with memory := memory' }, frame', stack⟩ ∧
      frame'.get? "result" = some (Word.ofNat head) ∧
      memory.Filled head last (header ++ done ++ lists.flatMap Listed.elements) memory' := by
  induction sources generalizing lists m frame done with
  | nil =>
    cases h
    exact ⟨_, _, .nil _, hframe.result, by simpa using hfilled⟩
  | cons source sources ih =>
    obtain _ | ⟨⟨hsource, hget, hwords, hfinish, hfits⟩, hrest⟩ := h
    rename_i list lists
    rw [Listed.finish] at hfinish
    rw [flatMap_cons, length_append] at hroom
    have hinside := hfilled.heap.inside
    have hlength : list.words.length = list.elements.length + 2 := rfl
    have hthere := hwords.agree hfilled.kept (Nat.le_add_left _ _) (by omega)
    obtain ⟨frame', hends, hframe', hother⟩ :=
      appendElements_ends stack hsource hget hthere hframe hfilled.heap.size_le (by omega)
    have helements : memory.Holds (list.address + 12) list.elements := hwords.tail.tail
    have hcopied := hfilled.copy helements (by omega) (by omega) (by rw [length_append]; omega)
    have hplace : head + 4 * (header ++ done).length = head + 12 + 4 * done.length := by
      rw [length_append]
      omega
    rw [hplace, append_assoc] at hcopied
    rw [← length_append] at hframe'
    obtain ⟨memory', last', hends', hlast, hall⟩ :=
      ih (m := { m with memory := _ }) (Sources.keep hrest hother) hcopied hframe'
        (by rw [length_append]; omega)
    refine ⟨memory', last', hends.append hends', hlast, ?_⟩
    simpa only [flatMap_cons, append_assoc] using hall

/-! ### The fresh block -/

theorem newList_ends (frame : Frame) (stack : List Word) {size : String} {count : Nat}
    (hroom : m.HasRoom head (4 * (bound + 3))) (hcount : frame.get? size = some (Word.ofNat count))
    (hbound : frame.get? "bound" = some (Word.ofNat bound)) (hbytes : (frame.get? "bytes").isSome)
    (hresult : (frame.get? "result").isSome) (hother : size ≠ "bytes" ∧ size ≠ "result") :
    ∃ memory', Ends (newList size) ⟨m, frame, stack⟩ .next
        ⟨{ m with memory := memory' }, (frame.put "bytes" (Word.ofNat (4 * (bound + 3)))).put
          "result" (Word.ofNat head), stack⟩ ∧
      m.memory.Filled head (head + 4 * (bound + 3)) [listTag, Word.ofNat count, Word.ofNat bound]
        memory' := by
  have hthree : Word.ofUInt32 (headerSize / wordSize) = Word.ofNat 3 := rfl
  have hnone := hroom.opened
  have hfirst : head + 4 * 0 + 4 ≤ head + 4 * (bound + 3) := by omega
  have hsecond : head + 4 * 1 + 4 ≤ head + 4 * (bound + 3) := by omega
  have hthird : head + 4 * 2 + 4 ≤ head + 4 * (bound + 3) := by omega
  have htagged := hnone.store listTag hfirst
  have hsized := htagged.store (Word.ofNat count) hsecond
  have htag := hnone.storeWord m tagOffset listTag rfl hfirst
  have hsize := htagged.storeWord m sizeOffset (Word.ofNat count) rfl hsecond
  have hlast := hsized.storeWord m boundOffset (Word.ofNat bound) rfl hthird
  refine ⟨_, ?_, hsized.store (Word.ofNat bound) hthird⟩
  simp only [newList, append_assoc]
  refine .after (by simp [listBytes, hbound, hthree, Nat.mul_comm _ 4, hbytes]; rfl) ?_
    (by simp [listBytes, Instr.constU, Instr.add, Instr.mul, InstrOf.isAtomic])
  refine (hroom.bump_ends (.inr ⟨_, rfl, ?_⟩) stack).append ?_
  · simp [hbytes]
  refine .after (by simp [hresult]; rfl) ?_
  refine .straight ?_ (by simp [listHeader, InstrOf.isAtomic])
  simp only [listHeader, Exec.straight, step, State.push, get?_put, hresult, hcount, hbound, hother,
    String.reduceEq, if_true, if_false, map_of_isSome, htag, hsize, hlast]
  rfl

/-- Memory before and after a list is made at the head. -/
structure Makes (list : Listed) (memory memory' : Memory) : Prop where
  made : memory'.ListAt list
  heap : memory'.HeapAt list.finish
  kept : Memory.AgreeOn 4 list.address memory memory'

theorem Makes.ofFilled {elements : List Word} (h : memory.Filled head (head + 4 * (bound + 3))
      ([listTag, Word.ofNat elements.length, Word.ofNat bound] ++ elements) memory')
    (hfits : elements.length ≤ bound) : Makes ⟨head, bound, elements⟩ memory memory' :=
  ⟨⟨h.held.word 0 _ rfl, h.held.tail, hfits⟩, h.heap, h.kept⟩

/-- The bodies that join lists add up the headers and open the block of the result. -/
theorem openJoin_ends (stack : List Word) (h : Sources frame m.memory head sources lists)
    (hthere : ∀ name ∈ joinNames, (frame.get? name).isSome)
    (hroom : m.HasRoom head (4 * ((lists.map Listed.bound).sum + 3))) :
    ∃ memory' frame', Ends (sumHeaders sources sizeOffset "size" ++
          (sumHeaders sources boundOffset "bound" ++
          (newList "size" ++ [.const 0, .localSet "filled"])))
        ⟨m, frame, stack⟩ .next ⟨{ m with memory := memory' }, frame', stack⟩ ∧
      m.memory.Filled head (head + 4 * ((lists.map Listed.bound).sum + 3))
        [listTag, Word.ofNat (lists.flatMap Listed.elements).length,
          Word.ofNat (lists.map Listed.bound).sum] memory' ∧
      Joining frame' head 0 ∧ ∀ name ∉ joinNames, frame'.get? name = frame.get? name := by
  have hsize := hroom.heap.size_le
  have hcounts := h.headers hsize sizeOffset 0 rfl fun _ => rfl
  have hsummed := sumHeaders_ends stack hcounts (hthere "size" (by decide))
  rw [← length_flatMap] at hsummed
  have hstill : Sources (frame.put "size" (Word.ofNat (lists.flatMap Listed.elements).length))
      m.memory head sources lists := by
    refine h.keep fun name hname => ?_
    rw [get?_put, if_neg]
    rintro rfl
    exact hname (by decide)
  have hbounds := sumHeaders_ends stack (hstill.headers hsize boundOffset 1 rfl fun _ => rfl)
    (by simpa [-get?_put] using hthere "bound" (by decide))
  have hcount := hthere "size" (by decide)
  have hbound := hthere "bound" (by decide)
  have hfilled := hthere "filled" (by decide)
  have hresult := hthere "result" (by decide)
  have hcounted : ((frame.put "size" (Word.ofNat (lists.flatMap Listed.elements).length)).put
      "bound" (Word.ofNat (lists.map Listed.bound).sum)).get? "size" =
        some (Word.ofNat (lists.flatMap Listed.elements).length) := by
    simp [hcount]
  obtain ⟨opened, hopen, hopened⟩ := newList_ends _ stack hroom hcounted
    (by simp [hbound]) (by simpa [-get?_put] using hthere "bytes" (by decide)) (by simp [hresult])
    (by decide)
  have hrun := hsummed.append (hbounds.append (hopen.append
    (setZero_ends "filled" (by simp [hfilled]) stack)))
  refine ⟨_, _, hrun, hopened, ⟨?_, ?_, ?_⟩, fun name hname => ?_⟩
  · simp [hresult]
  · simp [hfilled]
  · simpa [-get?_put] using hthere
  · simp only [joinNames, mem_cons, not_or] at hname
    simp [hname]

/-- **The body that joins lists** makes one list with the elements of all. -/
theorem listJoin_ends (helper : Helper) (stack : List Word)
    (h : Sources frame m.memory head sources lists)
    (hthere : ∀ name ∈ joinNames, (frame.get? name).isSome)
    (hroom : m.HasRoom head (4 * ((lists.map Listed.bound).sum + 3))) :
    ∃ memory' frame', Ends (listJoin helper sources).body ⟨m, frame, stack⟩ .next
        ⟨{ m with memory := memory' }, frame', Word.ofNat head :: stack⟩ ∧
      Makes ⟨head, (lists.map Listed.bound).sum, lists.flatMap Listed.elements⟩ m.memory
        memory' := by
  obtain ⟨opened, frame', hopen, hopened, hframe, hother⟩ := openJoin_ends stack h hthere hroom
  have hfits := h.length_le
  have hstart : m.memory.Filled head (head + 4 * ((lists.map Listed.bound).sum + 3))
      ([listTag, Word.ofNat (lists.flatMap Listed.elements).length,
        Word.ofNat (lists.map Listed.bound).sum] ++ []) opened := hopened
  obtain ⟨memory', last, happend, hlast, hall⟩ :=
    appendAll_ends (m := { m with memory := opened }) stack (h.keep hother) hstart rfl hframe
      (by rw [length_nil]; omega)
  have hrun := hopen.append (happend.append (localGet_ends hlast))
  refine ⟨memory', last, ?_, .ofFilled hall hfits⟩
  simpa only [listJoin, append_assoc] using hrun

theorem listJoin_answers (helper : Helper) {addresses : List Word}
    (h : Sources (.ofCall (listJoin helper sources) addresses) m.memory head sources lists)
    (hroom : m.HasRoom head (4 * ((lists.map Listed.bound).sum + 3))) :
    ∃ memory', Answers m (listJoin helper sources) addresses (.ok (Word.ofNat head))
        { m with memory := memory' } ∧
      Makes ⟨head, (lists.map Listed.bound).sum, lists.flatMap Listed.elements⟩ m.memory
        memory' := by
  have hthere : ∀ name ∈ joinNames,
      ((Frame.ofCall (listJoin helper sources) addresses).get? name).isSome := by
    intro name hname
    rw [get?_ofCall_local (h.not_mem hname) hname]
    rfl
  obtain ⟨memory', frame', hbody, hmakes⟩ := listJoin_ends helper [] h hthere hroom
  exact ⟨memory', .ofBody hbody (.inl rfl) rfl, hmakes⟩

theorem listConcat_answers {a b : Listed} (ha : m.memory.ListAt a) (hb : m.memory.ListAt b)
    (hahead : a.finish ≤ head) (hbhead : b.finish ≤ head)
    (hroom : m.HasRoom head (4 * (a.bound + b.bound + 3))) (slack : UInt32) :
    ∃ memory', Answers m (Helper.listConcat.function slack)
      [Word.ofNat a.address, Word.ofNat b.address]
        (.ok (Word.ofNat head)) { m with memory := memory' } ∧
      Makes ⟨head, a.bound + b.bound, a.elements ++ b.elements⟩ m.memory memory' := by
  have hsources : Sources (.ofCall (listJoin .listConcat ["left", "right"])
      [Word.ofNat a.address, Word.ofNat b.address]) m.memory head ["left", "right"] [a, b] :=
    .cons ⟨by decide, rfl, ha.words, hahead, ha.fits⟩
      (.cons ⟨by decide, rfl, hb.words, hbhead, hb.fits⟩ .nil)
  obtain ⟨memory', hanswers, hmakes⟩ := listJoin_answers .listConcat hsources hroom
  rw [flatMap_cons, flatMap_cons, flatMap_nil, append_nil] at hmakes
  exact ⟨memory', hanswers, hmakes⟩

theorem listCopy_answers {a : Listed} (ha : m.memory.ListAt a) (hahead : a.finish ≤ head)
    (hroom : m.HasRoom head (4 * (a.bound + 3))) (slack : UInt32) :
    ∃ memory', Answers m (Helper.listCopy.function slack) [Word.ofNat a.address]
      (.ok (Word.ofNat head))
        { m with memory := memory' } ∧ Makes ⟨head, a.bound, a.elements⟩ m.memory memory' := by
  have hsources : Sources (.ofCall (listJoin .listCopy ["list"]) [Word.ofNat a.address])
      m.memory head ["list"] [a] := .cons ⟨by decide, rfl, ha.words, hahead, ha.fits⟩ .nil
  obtain ⟨memory', hanswers, hmakes⟩ := listJoin_answers .listCopy hsources hroom
  rw [flatMap_cons, flatMap_nil, append_nil] at hmakes
  exact ⟨memory', hanswers, hmakes⟩

end HelperBody

/-! ### Lists that share nothing -/

/-- The memory after a number of stores. -/
def Memory.stores (memory : Memory) (stores : List (Nat × Word)) : Memory :=
  stores.foldl (fun memory store => memory.setWord store.1 store.2) memory

theorem Memory.agreeOn_stores {low high : Nat} {stores : List (Nat × Word)}
    (hhigh : high ≤ addressEnd) (h : ∀ store ∈ stores, store.1 + 4 ≤ addressEnd ∧
      (store.1 + 4 ≤ low ∨ high ≤ store.1)) : AgreeOn low high memory (memory.stores stores) := by
  induction stores generalizing memory with
  | nil => exact .refl _ _ _
  | cons store stores ih =>
    obtain ⟨hend, hapart⟩ := h store mem_cons_self
    exact (agreeOn_setWord hend hhigh hapart _).trans (ih fun other hother =>
      h other (mem_cons_of_mem _ hother))

theorem Memory.size_stores (memory : Memory) (stores : List (Nat × Word)) :
    (memory.stores stores).size = memory.size := by
  induction stores generalizing memory with
  | nil => rfl
  | cons store stores ih =>
    rw [← size_setWord memory store.1 store.2]
    exact ih _

theorem Machine.readList_of_words (h : m.memory.Holds (list.address + 4) list.words)
    (hsize : m.memory.size ≤ 2 ^ 32) :
      m.readList (Word.ofNat list.address) = .ok list.elements := by
  have hinside := h.inside
  simp only [Listed.words, length_cons] at hinside
  exact readList_of_holds (by omega) (by omega) h

/-- A helper makes a list of its arguments: it returns the address of a well-formed list at the
head, which is moved past the list. Nothing below it is changed, and stores on either side of the
old head are not seen on the other. -/
structure Machine.MakesList (m : Machine) (helper : Helper) (lists : List Listed) (list : Listed)
    (memory' : Memory) : Prop where
  calls : ∃ cost, ∀ fuel, { m with fuel := cost + fuel }.call helper.name
    (lists.map fun source : Listed => Word.ofNat source.address) =
      (.ok (Word.ofNat list.address), { m with memory := memory', fuel })
  makes : HelperBody.Makes list m.memory memory'
  reads : ∀ stores, (∀ store ∈ stores, store.1 + 4 ≤ list.address) →
    { m with memory := memory'.stores stores }.readList (Word.ofNat list.address) =
      .ok list.elements
  sources : ∀ source ∈ lists, ∀ stores,
    (∀ store ∈ stores, list.address ≤ store.1 ∧ store.1 + 4 ≤ list.finish) →
      { m with memory := memory'.stores stores }.readList (Word.ofNat source.address) =
        .ok source.elements

theorem HelperBody.Makes.makesList {helper : Helper} {fn : Func} {lists : List Listed}
    (h : Makes list m.memory memory')
    (hanswers : Answers m fn (lists.map fun source => Word.ofNat source.address)
      (.ok (Word.ofNat list.address)) { m with memory := memory' })
    (hfn : m.function? helper.name = some fn)
    (hlists : ∀ source ∈ lists, m.memory.ListAt source ∧ source.finish ≤ list.address) :
    m.MakesList helper lists list memory' := by
  have hend : Memory.addressEnd = 2 ^ 34 := rfl
  have hheap := h.heap.below
  have hsize := h.heap.size_le
  have hfits := h.made.fits
  rw [heapEnd, Listed.finish] at hheap
  refine ⟨hanswers.call hfn, h, fun stores hstores => ?_, fun source hsource stores hstores => ?_⟩
  · have hagree : Memory.AgreeOn list.address list.finish memory' (memory'.stores stores) :=
      agreeOn_stores (by rw [Listed.finish]; omega) fun store hstore => by
        have := hstores store hstore
        omega
    refine readList_of_words (h.made.words.agree hagree (Nat.le_add_right _ _) ?_) ?_
    · simp only [Listed.words, Listed.finish, length_cons]
      omega
    · show (memory'.stores stores).size ≤ _
      rwa [size_stores]
  · obtain ⟨hlist, hbelow⟩ := hlists source hsource
    have hagree : Memory.AgreeOn 4 list.address m.memory (memory'.stores stores) :=
      h.kept.trans (agreeOn_stores (by omega) fun store hstore => by
        have := hstores store hstore
        rw [Listed.finish] at this
        omega)
    have hshort := hlist.fits
    rw [Listed.finish] at hbelow
    refine readList_of_words (hlist.words.agree hagree (Nat.le_add_left _ _) ?_) ?_
    · simp only [Listed.words, length_cons]
      omega
    · show (memory'.stores stores).size ≤ _
      rwa [size_stores]

theorem Lowering.listConcat_shortcut {leftEmpty rightEmpty : Bool} {left right : Lower Code}
    {context : Context} {start later : Progress} {code : Code}
    (hempty : (leftEmpty || rightEmpty) = true)
    (h : (listConcat leftEmpty rightEmpty left right).run context start = (.ok code, later)) :
    ∃ operand, ((if rightEmpty then left else right).run context start).1 = .ok operand ∧
      code = operand ++ [.callHelper .listCopy] := by
  rw [listConcat, if_pos (by rwa [Bool.or_comm])] at h
  cases rightEmpty
  all_goals
    simp only [if_true, if_false, Bool.false_eq_true, bind_eq_ok_iff, pure_eq_ok_iff] at h ⊢
    obtain ⟨operand, middle, hoperand, instr, last, hinstr, rfl, rfl⟩ := h
    cases hinstr
    exact ⟨operand, by rw [hoperand], rfl⟩

/-- **Joining lists, exactly.** Concatenation and copying, the same elements when one operand is
empty, and the code for an operand that is written as an empty list. -/
theorem list_concat_exact {m : Machine} {slack : UInt32} {head : Nat} {a b : Listed}
    (hconcat : m.function? Helper.listConcat.name = some (Helper.listConcat.function slack))
    (hcopy : m.function? Helper.listCopy.name = some (Helper.listCopy.function slack))
    (ha : m.memory.ListAt a) (hb : m.memory.ListAt b) (hahead : a.finish ≤ head)
    (hbhead : b.finish ≤ head) (hroom : m.HasRoom head (4 * (a.bound + b.bound + 3))) :
    (∃ memory', m.MakesList .listConcat [a, b] ⟨head, a.bound + b.bound, a.elements ++ b.elements⟩
      memory') ∧
    (∃ memory', m.MakesList .listCopy [a] ⟨head, a.bound, a.elements⟩ memory') ∧
    (b.elements = [] →
      (∃ memory', m.MakesList .listConcat [a, b] ⟨head, a.bound + b.bound, a.elements⟩ memory') ∧
      (∃ memory', m.MakesList .listConcat [b, a] ⟨head, b.bound + a.bound, a.elements⟩ memory')) ∧
    ∀ (leftEmpty rightEmpty : Bool) (left right : Lower Code) (context : Lowering.Context)
      (start later : Lowering.Progress) (code : Code), (leftEmpty || rightEmpty) = true →
      (Lowering.listConcat leftEmpty rightEmpty left right).run context start = (.ok code, later) →
      ∃ operand, ((if rightEmpty then left else right).run context start).1 = .ok operand ∧
        ∀ s frame stack, Ends operand s .next ⟨m, frame, Word.ofNat a.address :: stack⟩ →
          ∃ memory',
            Ends code s .next ⟨{ m with memory := memory' }, frame, Word.ofNat head :: stack⟩ ∧
            HelperBody.Makes ⟨head, a.bound, a.elements⟩ m.memory memory' := by
  have hboth : ∀ source ∈ [a, b], m.memory.ListAt source ∧ source.finish ≤ head := by
    simp [ha, hb, hahead, hbhead]
  have hcopied := HelperBody.listCopy_answers ha hahead (hroom.mono (by omega)) slack
  obtain ⟨joined, hjoin, hjoined⟩ := HelperBody.listConcat_answers ha hb hahead hbhead hroom slack
  obtain ⟨copied, hanswers, hmakes⟩ := hcopied
  refine ⟨⟨joined, hjoined.makesList hjoin hconcat hboth⟩,
    ⟨copied, hmakes.makesList hanswers hcopy (by simp [ha, hahead])⟩, fun hnone => ⟨?_, ?_⟩, ?_⟩
  · rw [hnone, append_nil] at hjoined
    exact ⟨joined, hjoined.makesList hjoin hconcat hboth⟩
  · rw [Nat.add_comm a.bound] at hroom
    obtain ⟨joined, hjoin, hjoined⟩ := HelperBody.listConcat_answers hb ha hbhead hahead hroom slack
    rw [hnone, nil_append] at hjoined
    exact ⟨joined, hjoined.makesList hjoin hconcat (by simp [ha, hb, hahead, hbhead])⟩
  · intro leftEmpty rightEmpty left right context start later code hempty hcode
    obtain ⟨operand, hoperand, rfl⟩ := Lowering.listConcat_shortcut hempty hcode
    exact ⟨operand, hoperand, fun s frame stack hrun =>
      ⟨copied, hrun.append (.callHelper hanswers hcopy rfl), hmakes⟩⟩

/-- A machine whose heap holds the lists `[7, 8, 9, 10]` and `[5]`, and an empty list after them. -/
def Machine.heaped : Machine where
  memory := ({ pages := 1 } : Memory).stores
    [(0, 72), (16, 1), (20, 4), (24, 4), (28, 7), (32, 8), (36, 9), (40, 10), (44, 1), (48, 1),
      (52, 1), (56, 5), (60, 1), (64, 0), (68, 0)]
  functions := [Helper.listConcat.function 0, Helper.listCopy.function 0]

theorem Machine.heaped_list : heaped.memory.ListAt ⟨16, 4, [7, 8, 9, 10]⟩ :=
  ⟨by decide +kernel, by decide +kernel, by decide⟩

theorem Machine.heaped_heap : heaped.memory.HeapAt 72 :=
  ⟨by decide +kernel, by decide, by decide, by decide +kernel, by decide +kernel⟩

/-- Two lists are joined in order, and adding the empty list on either side copies a list. -/
theorem Machine.heaped_joins :
    (∃ memory', heaped.MakesList .listConcat [⟨16, 4, [7, 8, 9, 10]⟩, ⟨44, 1, [5]⟩]
      ⟨72, 5, [7, 8, 9, 10, 5]⟩ memory') ∧
    (∃ memory', heaped.MakesList .listConcat [⟨44, 1, [5]⟩, ⟨60, 0, []⟩] ⟨72, 1, [5]⟩ memory') ∧
    (∃ memory', heaped.MakesList .listConcat [⟨60, 0, []⟩, ⟨44, 1, [5]⟩] ⟨72, 1, [5]⟩ memory') ∧
    ∃ memory', heaped.MakesList .listCopy [⟨44, 1, [5]⟩] ⟨72, 1, [5]⟩ memory' := by
  have hshort : heaped.memory.ListAt ⟨44, 1, [5]⟩ :=
    ⟨by decide +kernel, by decide +kernel, by decide⟩
  have hempty : heaped.memory.ListAt ⟨60, 0, []⟩ :=
    ⟨by decide +kernel, by decide +kernel, by decide⟩
  have hroom : heaped.HasRoom 72 (4 * (4 + 1 + 3)) := ⟨heaped_heap, by decide, by decide +kernel⟩
  have hconcat : heaped.function? Helper.listConcat.name = some (Helper.listConcat.function 0) :=
    rfl
  obtain ⟨hjoin, -⟩ :=
    list_concat_exact hconcat rfl heaped_list hshort (by decide) (by decide) hroom
  obtain ⟨-, hcopy, hboth, -⟩ := list_concat_exact hconcat rfl hshort hempty (by decide) (by decide)
    (hroom.mono (by decide))
  exact ⟨hjoin, (hboth rfl).1, (hboth rfl).2, hcopy⟩

end TypedWasm
