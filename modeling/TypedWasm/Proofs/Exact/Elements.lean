import TypedWasm.Proofs.Exact.Operands

/-!
# Lists as arrays

Reading and assigning elements by index, with bounds checked, behaves as an array of fixed length
does: an index inside reads or changes one element, and the first index outside is reported, with
everything as it was before.
-/

namespace TypedWasm

open Exec TypedWasm.Frame List Lower Lowering Machine Option

/-- An element is read, or assigned. Each operand comes with the word it stands for. -/
inductive Access where
  | read (key : Expr) (index : Word)
  | write (key : Expr) (index : Word) (value : Expr) (word : Word)

/-- What is seen of an array while it is accessed: the words that are read, the elements and the
stores by position, and the index that is reported, if one lies outside. -/
structure Replay where
  reads : List Word := []
  elements : List Word
  stores : List (Nat × Word) := []
  reported : Option Word := none

namespace Access

def index : Access → Word
  | read _ index => index
  | write _ index _ _ => index

/-- The position of an index that lies inside. -/
def position (access : Access) : Nat := access.index.toInt.toNat

/-- The index lies outside an array of `count` elements. -/
def Outside (count : Nat) (access : Access) : Prop :=
  access.index.toInt < 0 ∨ (count : Int) ≤ access.index.toInt

instance (count : Nat) (access : Access) : Decidable (access.Outside count) := by
  unfold Outside
  infer_instance

def after (elements : List Word) : Access → List Word
  | read _ _ => elements
  | access@(write _ _ _ word) => elements.set access.position word

def seen (elements : List Word) : Access → List Word
  | access@(read _ _) => [elements.getD access.position 0]
  | write _ _ _ _ => []

def stored : Access → List (Nat × Word)
  | read _ _ => []
  | access@(write _ _ _ word) => [(access.position, word)]

/-- What an array does with accesses one after another. -/
def replay (elements : List Word) : List Access → Replay
  | [] => { elements }
  | access :: rest =>
    if access.Outside elements.length then { elements, reported := some access.index }
    else
      let later := replay (access.after elements) rest
      { later with
        reads := access.seen elements ++ later.reads
        stores := access.stored ++ later.stores }

variable {access : Access} {elements : List Word}

theorem position_of_inside {count : Nat} (h : ¬ access.Outside count) :
    access.position < count ∧ access.index.toInt = access.position := by
  rw [Outside] at h
  rw [position]
  omega

@[simp] theorem length_after (access : Access) (elements : List Word) :
    (access.after elements).length = elements.length := by
  cases access with
  | read => rfl
  | write => exact length_set

@[simp] theorem reverse_seen (access : Access) (elements : List Word) :
    (access.seen elements).reverse = access.seen elements := by
  cases access <;> rfl

/-- A position holds the last word that was stored at it, or else its first element. -/
theorem getElem?_replay (elements : List Word) (accesses : List Access) {place : Nat}
    (hplace : place < elements.length) : (replay elements accesses).elements[place]? =
      ((replay elements accesses).stores.reverse.lookup place).or elements[place]? := by
  induction accesses generalizing elements with
  | nil => rfl
  | cons access rest ih =>
    rw [replay]
    split
    · rfl
    · have hlater := ih (access.after elements) (by simpa using hplace)
      rw [hlater, reverse_append, lookup_append, Option.or_assoc]
      cases access with
      | read => rfl
      | write key index value word =>
        rw [after, stored, reverse_singleton]
        generalize (write key index value word).position = spot
        by_cases hsame : place = spot
        · subst hsame
          rw [getElem?_set_self hplace, lookup_cons_self, some_or]
        · rw [getElem?_set_ne (Ne.symm hsame), lookup_cons, beq_false_of_ne hsame]
          rfl

end Access

/-- A list that a body uses: elements are checked, numbers are words, and the list lies below the
heap head. -/
structure ListUse where
  context : Context
  machine : Machine
  frame : Frame
  list : Listed
  head : Nat
  object : Expr
  item : Ty
  native : context.config.bigNumbers = false
  checked : context.config.listBoundsCheck = true
  free : context.TempsFree
  listed : object.ty = .list item
  made : machine.memory.ListAt list
  heap : machine.memory.HeapAt head
  below : list.finish ≤ head
  helper : machine.function? Helper.listElementAddress.name = some HelperBody.listElementAddress
  /-- The operand for the list stands for it, whatever its elements are. -/
  given : StandsFor context
    (fun place => list.address + 12 ≤ place ∧ place < list.address + 12 + 4 * list.elements.length)
    machine frame object (Word.ofNat list.address)

namespace ListUse

variable (use : ListUse)

def count : Nat := use.list.elements.length

def Places (place : Nat) : Prop :=
  use.list.address + 12 ≤ place ∧ place < use.list.address + 12 + 4 * use.list.elements.length

def place (position : Nat) : Nat := use.list.address + 12 + 4 * position

def storesOf (stores : List (Nat × Word)) : List (Nat × Word) :=
  stores.map fun store => (use.place store.1, store.2)

def runs (memory : Memory) : Machine := { use.machine with memory }

/-- An operand stands for a word, whatever the elements of the list are. -/
def Gives (operand : Expr) (word : Word) : Prop :=
  StandsFor use.context use.Places use.machine use.frame operand word

/-- The operands of an access stand for their words. -/
def Operands : Access → Prop
  | .read key index => use.Gives key index
  | .write key index value word => use.Gives key index ∧ use.Gives value word

/-- The code of an access. A read leaves the element, an assignment leaves nothing. -/
def access : Access → Lower Code
  | .read key _ => expr (.index use.item use.object key)
  | .write key _ value _ => stmt (.assign (.single (.index use.object key) use.item) value)

def accesses : List Access → Lower Code
  | [] => return []
  | first :: rest => do
    let code ← use.access first
    return code ++ (← accesses rest)

/-- Memory and locals while the list has the given elements. -/
structure At (elements : List Word) (memory : Memory) (frame : Frame) : Prop where
  meanwhile : Meanwhile use.context use.Places use.machine use.frame memory frame
  list : memory.ListAt { use.list with elements }
  heap : memory.HeapAt use.head
  length : elements.length = use.count

variable {use} {elements : List Word} {memory : Memory} {frame : Frame} {key : Expr} {index : Word}

theorem At.start (use : ListUse) : use.At use.list.elements use.machine.memory use.frame :=
  ⟨.start _ _ _ _, use.made, use.heap, rfl⟩

theorem At.assign (h : use.At elements memory frame) {position : Nat}
    (hposition : position < use.count) (word : Word) :
    use.At (elements.set position word) (memory.setWord (use.place position) word) frame := by
  have hinside := h.list.words.inside
  have hsize := h.heap.size_le
  have hlength := h.length
  have hend : Memory.addressEnd = 2 ^ 34 := rfl
  have hplace : use.place position = use.list.address + 12 + 4 * position := rfl
  have hwords : (Listed.words { use.list with elements }).length = elements.length + 2 := rfl
  rw [hwords] at hinside
  dsimp only at hinside
  have hbelow : Memory.AgreeOn 0 (use.list.address + 12) memory
      (memory.setWord (use.place position) word) :=
    Memory.agreeOn_setWord (by omega) (by omega) (.inr (by omega)) word
  have hset := h.list.words.set (by rw [hwords]; omega : position + 2 < _)
    (by rw [hwords]; dsimp only; omega) word
  refine ⟨⟨h.meanwhile.differ.setWord (by omega) (fun spot hlow hhigh => ?_) word,
    h.meanwhile.locals, h.meanwhile.there⟩, ⟨?_, ?_, ?_⟩, h.heap.setWord (by omega) (by omega) word,
    by rw [length_set, hlength]⟩
  · rw [count] at hposition
    exact ⟨by omega, by omega⟩
  · rw [hbelow.word (Nat.zero_le _) (by dsimp only; omega)]
    exact h.list.tag
  · have hthere : use.list.address + 4 + 4 * (position + 2) = use.place position := by omega
    rw [hthere] at hset
    simpa [Listed.words] using hset
  · rw [length_set]
    exact h.list.fits

theorem element_exact (access : Access) (hkey : use.Gives key access.index) (start : Progress) :
    ∃ code later, (elementAddress use.object key).run use.context start = (.ok code, later) ∧
      start.temps ≤ later.temps ∧ ∀ elements memory frame stack, use.At elements memory frame →
        (access.Outside use.count → Ends code ⟨use.runs memory, frame, stack⟩
          (.trap (.indexError access.index (Word.ofNat use.count)))
            ⟨use.runs memory, frame, stack⟩) ∧
        (¬ access.Outside use.count → Ends code ⟨use.runs memory, frame, stack⟩ .next
          ⟨use.runs memory, frame, Word.ofNat (use.place access.position) :: stack⟩) := by
  obtain ⟨objectCode, middle, hobject, htemps, hobjectEnds⟩ := use.given start
  obtain ⟨keyCode, later, hindex, htemps', hkeyEnds⟩ := hkey middle
  have hword : (indexWord key.ty (expr key)).run use.context middle = (.ok keyCode, later) := by
    simp only [indexWord, bind_eq_ok_iff, bigNumbers_eq_ok_iff]
    exact ⟨keyCode, later, hindex, false, later, ⟨use.native, rfl⟩, by simp⟩
  refine ⟨objectCode ++ keyCode ++ [.callHelper .listElementAddress],
    { later with helpers := later.helpers.insert .listElementAddress }, ?_,
    Nat.le_trans htemps htemps', fun elements memory frame stack h => ?_⟩
  · simp only [elementAddress, listElement, bind_eq_ok_iff, context_eq_ok_iff]
    refine ⟨objectCode, middle, hobject, keyCode, later, hword, use.context, later, ⟨rfl, rfl⟩, ?_⟩
    rw [if_pos use.checked]
    rfl
  · have hoperands : Ends (objectCode ++ keyCode) ⟨use.runs memory, frame, stack⟩ .next
        ⟨use.runs memory, frame, [Word.ofNat use.list.address, access.index].reverse ++ stack⟩ :=
      (hobjectEnds memory frame stack h.meanwhile).append (hkeyEnds memory frame _ h.meanwhile)
    have hanswers := HelperBody.listElementAddress_outcome (m := use.runs memory) h.list.words
      h.heap.size_le access.index
    rw [h.length] at hanswers
    split at hanswers
    · next houtside =>
      exact ⟨fun _ => hoperands.append (.callTrap hanswers use.helper rfl),
        fun hinside => absurd houtside hinside⟩
    · next hinside =>
      exact ⟨fun houtside => absurd houtside hinside,
        fun _ => hoperands.append (.callHelper hanswers use.helper rfl)⟩

/-- What the code of an access does, in every state of the list: an index outside is reported and
the memory stays as it was, and one inside does what it does to an array. -/
def Performs (use : ListUse) (access : Access) (code : Code) (temps : Nat) : Prop :=
  ∀ elements memory frame stack, use.At elements memory frame →
    (∀ temp < temps, (use.frame.get? (tempName temp)).isSome) → ∃ frame',
      (access.Outside use.count → use.At elements memory frame' ∧
        Ends code ⟨use.runs memory, frame, stack⟩
          (.trap (.indexError access.index (Word.ofNat use.count)))
            ⟨use.runs memory, frame', stack⟩) ∧
      (¬ access.Outside use.count →
        use.At (access.after elements) (memory.stores (use.storesOf access.stored)) frame' ∧
        Ends code ⟨use.runs memory, frame, stack⟩ .next
          ⟨use.runs (memory.stores (use.storesOf access.stored)), frame',
            access.seen elements ++ stack⟩)

theorem read_exact (hkey : use.Gives key index) (start : Progress) :
    ∃ code later, (use.access (.read key index)).run use.context start = (.ok code, later) ∧
      start.temps ≤ later.temps ∧ use.Performs (.read key index) code later.temps := by
  obtain ⟨code, later, hcode, htemps, hends⟩ := element_exact (.read key index) hkey start
  refine ⟨code ++ [.load 0], later, ?_, htemps, fun elements memory frame stack h _ => ?_⟩
  · simp only [access, expr, indexed, use.listed, bind_eq_ok_iff, pure_eq_ok_iff]
    exact ⟨code, later, hcode, rfl, rfl⟩
  · obtain ⟨hreported, haddress⟩ := hends elements memory frame stack h
    refine ⟨frame, fun houtside => ⟨h, ?_⟩, fun hinside => ⟨h, ?_⟩⟩
    · exact (hreported houtside).stop (by simp) _
    · obtain ⟨hposition, -⟩ := Access.position_of_inside hinside
      have helement : elements[(Access.read key index).position]? =
          some (elements.getD (Access.read key index).position 0) := by
        have hlength := h.length
        rw [getD_eq_getElem?_getD, getElem?_eq_getElem (by omega), getD_some]
      have hload :
          (use.runs memory).loadWord (Word.ofNat (use.place (Access.read key index).position)) 0 =
          .ok (elements.getD (Access.read key index).position 0) :=
        HelperBody.loadElement (m := use.runs memory) h.list.words h.heap.size_le helement
      refine (haddress hinside).append (.straight ?_)
      simp only [Exec.straight, step, hload]
      rfl

theorem write_exact {value : Expr} {word : Word} (hkey : use.Gives key index)
    (hvalue : use.Gives value word) (start : Progress) :
    ∃ code later, (use.access (.write key index value word)).run use.context start =
      (.ok code, later) ∧
      start.temps ≤ later.temps ∧ use.Performs (.write key index value word) code later.temps := by
  obtain ⟨valueCode, middle, hvalueCode, htemps, hvalueEnds⟩ :=
    hvalue { start with temps := start.temps + 1 }
  obtain ⟨code, later, hcode, htemps', hends⟩ :=
    element_exact (.write key index value word) hkey middle
  dsimp only at htemps
  refine ⟨valueCode ++ [.localSet (tempName start.temps)] ++
    (code ++ [.localGet (tempName start.temps)] ++ [.store 0]), later, ?_, by omega,
    fun elements memory frame stack h hthere => ?_⟩
  · have hassign :
        (assignTo (.index use.object key) [.localGet (tempName start.temps)]).run use.context
        middle = (.ok (code ++ [.localGet (tempName start.temps)] ++ [.store 0]), later) := by
      simp only [assignTo, use.listed, bind_eq_ok_iff, context_eq_ok_iff, pure_eq_ok_iff]
      exact ⟨use.context, middle, ⟨rfl, rfl⟩, code, later, hcode, rfl, rfl⟩
    simp only [access, stmt, pattern, Pattern.single, wholeValue, Bool.false_eq_true, if_false,
      bind_eq_ok_iff, newTemp_eq_ok_iff, pure_eq_ok_iff]
    exact ⟨_, _, ⟨rfl, rfl⟩, valueCode, middle, hvalueCode, _, later, hassign, rfl, rfl⟩
  · obtain ⟨old, hold⟩ : ∃ old, frame.get? (tempName start.temps) = some old := by
      rw [← isSome_iff_exists, h.meanwhile.there]
      exact hthere _ (by omega)
    have hkept : (frame.put (tempName start.temps) word).get? (tempName start.temps) =
        some word := by
      rw [get?_put, if_pos rfl, hold, map_some]
    have hset : Ends [.localSet (tempName start.temps)] ⟨use.runs memory, frame, word :: stack⟩
        .next ⟨use.runs memory, frame.put (tempName start.temps) word, stack⟩ :=
      .straight (by simp only [Exec.straight, step, set?_eq, hold, map_some])
    have hfirst := (hvalueEnds memory frame stack h.meanwhile).append hset
    have hnext : use.At elements memory (frame.put (tempName start.temps) word) :=
      ⟨h.meanwhile.putTemp use.free _ _, h.list, h.heap, h.length⟩
    obtain ⟨hreported, haddress⟩ := hends elements memory _ stack hnext
    refine ⟨_, fun houtside => ⟨hnext, hfirst.append ?_⟩, fun hinside => ?_⟩
    · rw [append_assoc]
      exact (hreported houtside).stop (by simp) _
    · obtain ⟨hposition, -⟩ := Access.position_of_inside hinside
      refine ⟨hnext.assign hposition word, hfirst.append ?_⟩
      have hfits := h.list.words.inside
      have hsize := h.heap.size_le
      have hlength := h.length
      simp only [Listed.words, length_cons] at hfits
      have hstore : (use.runs memory).storeWord
          (Word.ofNat (use.place (Access.write key index value word).position)) 0 word = .ok _ :=
        storeWord_ofNat (by rw [place]; omega)
          (by show use.place _ + 0 + 4 ≤ memory.size; rw [place]; omega) word
      rw [append_assoc]
      refine (haddress hinside).append (.straight ?_)
      simp only [cons_append, nil_append, Exec.straight, step, State.push, hkept, hstore]
      rfl

theorem access_exact (access : Access) (hoperands : use.Operands access) (start : Progress) :
    ∃ code later, (use.access access).run use.context start = (.ok code, later) ∧
      start.temps ≤ later.temps ∧ use.Performs access code later.temps := by
  cases access with
  | read => exact read_exact hoperands start
  | write => exact write_exact hoperands.1 hoperands.2 start

/-- How accesses end: the first index outside is reported. -/
def flow (use : ListUse) (outcome : Replay) : Flow :=
  outcome.reported.elim .next fun index => .trap (.indexError index (Word.ofNat use.count))

theorem accesses_exact (accesses : List Access)
    (hoperands : ∀ access ∈ accesses, use.Operands access) (start : Progress) :
    ∃ code later, (use.accesses accesses).run use.context start = (.ok code, later) ∧
      start.temps ≤ later.temps ∧ ∀ elements memory frame stack, use.At elements memory frame →
        (∀ temp < later.temps, (use.frame.get? (tempName temp)).isSome) → ∃ frame',
          let outcome := Access.replay elements accesses
          let memory' := memory.stores (use.storesOf outcome.stores)
          use.At outcome.elements memory' frame' ∧
            Ends code ⟨use.runs memory, frame, stack⟩ (use.flow outcome)
              ⟨use.runs memory', frame', outcome.reads.reverse ++ stack⟩ := by
  induction accesses generalizing start with
  | nil =>
    exact ⟨[], start, rfl, Nat.le_refl _, fun elements memory frame stack h _ =>
      ⟨frame, h, .straight rfl⟩⟩
  | cons access rest ih =>
    obtain ⟨first, middle, hfirst, htemps, hperforms⟩ :=
      access_exact access (hoperands access mem_cons_self) start
    obtain ⟨code, later, hcode, htemps', hends⟩ :=
      ih (fun next hnext => hoperands next (mem_cons_of_mem _ hnext)) middle
    refine ⟨first ++ code, later, ?_, Nat.le_trans htemps htemps',
      fun elements memory frame stack h hthere => ?_⟩
    · simp only [accesses, bind_eq_ok_iff, pure_eq_ok_iff]
      exact ⟨first, middle, hfirst, code, later, hcode, rfl, rfl⟩
    · obtain ⟨frame', houtside, hinside⟩ := hperforms elements memory frame stack h
        fun temp htemp => hthere temp (by omega)
      by_cases hcheck : access.Outside use.count
      · obtain ⟨hat, hstops⟩ := houtside hcheck
        refine ⟨frame', ?_⟩
        rw [Access.replay, if_pos (h.length.symm ▸ hcheck)]
        exact ⟨hat, hstops.stop (by simp) _⟩
      · obtain ⟨hat, hstep⟩ := hinside hcheck
        obtain ⟨frame'', hat', hrest⟩ := hends _ _ frame' (access.seen elements ++ stack) hat hthere
        refine ⟨frame'', ?_⟩
        rw [Access.replay, if_neg (h.length.symm ▸ hcheck)]
        dsimp only
        rw [storesOf, map_append, Memory.stores, foldl_append, reverse_append,
          Access.reverse_seen, append_assoc]
        exact ⟨hat', hstep.append hrest⟩

end ListUse

/-- **Lists are arrays**, in a body where no local has the name of a temporary (`ListUse.free`).
Element reads and assignments, one after another, do what they do to an array of the list's
elements. The words that are read are left, the first index outside is reported, and memory changes
by the stores before it alone: the list keeps its place, its bound and its length, and each element
is the last word that was stored at its position, or else what it was. -/
theorem list_accesses_exact (use : ListUse) (accesses : List Access)
    (hoperands : ∀ access ∈ accesses, use.Operands access) (start : Progress) :
    ∃ code later, (use.accesses accesses).run use.context start = (.ok code, later) ∧
      ((∀ temp < later.temps, (use.frame.get? (tempName temp)).isSome) → ∀ stack,
        let outcome := Access.replay use.list.elements accesses
        let memory := use.machine.memory.stores (use.storesOf outcome.stores)
        (∃ frame, Ends code ⟨use.machine, use.frame, stack⟩ (use.flow outcome)
            ⟨{ use.machine with memory }, frame, outcome.reads.reverse ++ stack⟩ ∧
          ∀ name, use.context.env.isLocal name = true → frame.get? name = use.frame.get? name) ∧
        memory.ListAt { use.list with elements := outcome.elements } ∧
        outcome.elements.length = use.list.elements.length ∧
        ∀ place < use.list.elements.length, outcome.elements[place]? =
          (outcome.stores.reverse.lookup place).or use.list.elements[place]?) := by
  obtain ⟨code, later, hcode, -, hends⟩ := ListUse.accesses_exact accesses hoperands start
  refine ⟨code, later, hcode, fun hthere stack => ?_⟩
  obtain ⟨frame, hat, hrun⟩ := hends _ _ _ stack (.start use) hthere
  exact ⟨⟨frame, hrun, hat.meanwhile.locals⟩, hat.list, hat.length, fun place hplace =>
    Access.getElem?_replay _ _ hplace⟩

theorem Context.splitting_rest : StandsFor .splitting (fun place => 28 ≤ place ∧ place < 44)
    { Machine.heaped with functions := [HelperBody.listElementAddress] }
    [("rest", 16), (tempName 0, 0)] (.id (.list .number) "rest") 16 :=
  standsFor_variable _ (Context.splitting_housed rfl)
    (fun _ hplace => Nat.le_trans (by decide) hplace.1) (by decide +kernel) (by decide +kernel) rfl

/-- The list `[7, 8, 9, 10]` in a local variable. -/
def ListUse.rest : ListUse where
  context := .splitting
  machine := { Machine.heaped with functions := [HelperBody.listElementAddress] }
  frame := [("rest", 16), (tempName 0, 0)]
  list := ⟨16, 4, [7, 8, 9, 10]⟩
  head := 72
  object := .id (.list .number) "rest"
  item := .number
  native := rfl
  checked := rfl
  free := Context.splitting_free
  listed := rfl
  made := heaped_list
  heap := heaped_heap
  below := Nat.le_add_right 44 28
  helper := rfl
  given := Context.splitting_rest

/-- An element is assigned and read, and then an index below the list is reported. -/
theorem ListUse.rest_accesses :
    ∃ code later, (rest.accesses [.write (.literal .number (.num 0)) 0
      (.literal .number (.num 5)) 5,
        .read (.literal .number (.num 0)) 0, .read (.literal .number (.num (-1)))
          (-1)]).run rest.context {} = (.ok code, later) ∧
      ∃ frame, Ends code ⟨rest.machine, rest.frame, []⟩ (.trap (.indexError (-1) 4))
        ⟨{ rest.machine with memory := rest.machine.memory.setWord 28 5 }, frame, [5]⟩ := by
  have hnumber : ∀ word : Word, rest.Gives (.literal .number (.num word.toInt)) word :=
    standsFor_number rfl
  obtain ⟨code, later, hcode, hends⟩ := list_accesses_exact rest
    [.write (.literal .number (.num 0)) 0 (.literal .number (.num 5)) 5,
      .read (.literal .number (.num 0)) 0, .read (.literal .number (.num (-1))) (-1)]
    (by simpa [ListUse.Operands] using ⟨⟨hnumber 0, hnumber 5⟩, hnumber 0, hnumber (-1)⟩) {}
  have hlater : later.temps = 1 := (congrArg (·.2.temps) hcode).symm
  obtain ⟨frame, hrun, -⟩ := (hends (fun temp htemp => by
    obtain rfl : temp = 0 := by omega
    rfl) []).1
  exact ⟨code, later, hcode, frame, hrun⟩

end TypedWasm
