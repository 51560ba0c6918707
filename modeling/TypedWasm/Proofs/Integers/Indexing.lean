import TypedWasm.Proofs.Exact.Splitting
import TypedWasm.Proofs.Integers.Boxes

/-!
# Indexing by big integers

Where numbers are heap objects, an index is unboxed before it is checked. An integer that no word
holds becomes the least word, which lies outside every list and every string, so the check is exact
on all integers.
-/

namespace TypedWasm

open Exec HelperBody List Lower Lowering Machine Word

theorem Word.toInt_unboxed (v : Int) : (Word.unboxed v).toInt = v ∧ -2 ^ 31 ≤ v ∧ v < 2 ^ 31 ∨
      (Word.unboxed v).toInt = -2 ^ 31 ∧ (v < -2 ^ 31 ∨ 2 ^ 31 ≤ v) := by
  rw [unboxed]
  split
  · next hfits =>
    refine .inl ⟨toInt_ofInt_of_fits hfits, ?_⟩
    simp [fits] at hfits
    omega
  · next hfits =>
    refine .inr ⟨rfl, ?_⟩
    simp [fits] at hfits
    omega

section Indexing

variable {context : Context} {progress middle later : Progress} {object key : Expr}
  {objectCode keyCode : Code}

theorem indexWord_boxed (hbig : context.config.bigNumbers = true) (hkey : key.ty = .number)
    (hindex : (expr key).run context middle = (.ok keyCode, later)) :
    ∃ after, (indexWord key.ty (expr key)).run context middle =
      (.ok (keyCode ++ [.callHelper .bignumToI32]), after) := by
  refine ⟨{ later with helpers := later.helpers.insert .bignumToI32 }, ?_⟩
  rw [indexWord, hkey]
  refine bind_eq_ok_iff.2 ⟨_, _, hindex, bind_eq_ok_iff.2 ⟨true, _,
    bigNumbers_eq_ok_iff.2 ⟨hbig, rfl⟩, ?_⟩⟩
  rfl

theorem index_lowers (ty : Ty) (hbig : context.config.bigNumbers = true) (hkey : key.ty = .number)
    (hobject : (expr object).run context progress = (.ok objectCode, middle))
    (hindex : (expr key).run context middle = (.ok keyCode, later)) :
    (object.ty = .string → ∃ after, (expr (.index ty object key)).run context progress =
      (.ok (objectCode ++ (keyCode ++ [.callHelper .bignumToI32]) ++ [.callHelper .strIndex]),
        after)) ∧
    (context.config.listBoundsCheck = true → (∃ element, object.ty = .list element) →
      ∃ after, (expr (.index ty object key)).run context progress =
        (.ok (objectCode ++ (keyCode ++ [.callHelper .bignumToI32]) ++
          [.callHelper .listElementAddress] ++ [.load 0]), after)) := by
  obtain ⟨after, hword⟩ := indexWord_boxed hbig hkey hindex
  refine ⟨fun hty => ?_, fun hcheck ⟨element, hty⟩ => ?_⟩
  · rw [expr, hty]
    exact ⟨_, bind_eq_ok_iff.2 ⟨_, _, hobject, bind_eq_ok_iff.2 ⟨_, _, hword, rfl⟩⟩⟩
  · have haddress : (listElement key.ty (expr object) (expr key)).run context progress =
        (.ok (objectCode ++ (keyCode ++ [.callHelper .bignumToI32]) ++
          [.callHelper .listElementAddress]),
          { after with helpers := after.helpers.insert .listElementAddress }) := by
      refine bind_eq_ok_iff.2 ⟨_, _, hobject, bind_eq_ok_iff.2 ⟨_, _, hword, ?_⟩⟩
      refine bind_eq_ok_iff.2 ⟨context, _, rfl, ?_⟩
      rw [if_pos hcheck]
      rfl
    rw [expr, hty]
    exact ⟨_, bind_eq_ok_iff.2 ⟨_, _, haddress, rfl⟩⟩

theorem len_lowers (ty : Ty) (hbig : context.config.bigNumbers = true)
    (hobject : (expr object).run context progress = (.ok objectCode, middle)) :
    (object.ty = .string → ∃ after, (expr (.builtin1 ty .len object)).run context progress =
      (.ok (objectCode ++ [.load Block.lengthOffset] ++ [.callHelper .bignumFromI32]), after)) ∧
    ((∃ element, object.ty = .list element) → ∃ after,
      (expr (.builtin1 ty .len object)).run context progress =
        (.ok (objectCode ++ [.load Block.sizeOffset] ++ [.callHelper .bignumFromI32]), after)) := by
  have hboxed : ∀ code : Code, (boxed code).run context middle =
      (.ok (code ++ [.callHelper .bignumFromI32]),
        { middle with helpers := middle.helpers.insert .bignumFromI32 }) := fun code =>
    bind_eq_ok_iff.2 ⟨true, _, bigNumbers_eq_ok_iff.2 ⟨hbig, rfl⟩, rfl⟩
  refine ⟨fun hty => ?_, fun ⟨element, hty⟩ => ?_⟩ <;>
    rw [expr, hty] <;>
    exact ⟨_, bind_eq_ok_iff.2 ⟨_, _, hobject, bind_eq_ok_iff.2 ⟨_, _, rfl, hboxed _⟩⟩⟩

end Indexing

section Runs

variable {objectCode keyCode : Code} {s : State} {m : Machine} {frame : Frame} {stack : List Word}
  {head place : Nat} {v : Int} {code : Code} {address : Nat}

theorem unboxing_ends (hfn : m.function? Helper.bignumToI32.name = some bignumToI32)
    (hv : m.memory.IntegerAt place v) (hsize : m.memory.size ≤ 2 ^ 32)
    (hrun : Ends (objectCode ++ keyCode) s .next
      ⟨m, frame, Word.ofNat place :: Word.ofNat address :: stack⟩) :
    Ends (objectCode ++ (keyCode ++ [.callHelper .bignumToI32])) s .next
      ⟨m, frame, [Word.ofNat address, Word.unboxed v].reverse ++ stack⟩ := by
  have hcall : Ends [.callHelper .bignumToI32]
      ⟨m, frame, [Word.ofNat place].reverse ++ (Word.ofNat address :: stack)⟩ .next
      ⟨m, frame, Word.unboxed v :: Word.ofNat address :: stack⟩ :=
    .callHelper (bignumToI32_answers hv hsize) hfn rfl
  rw [← append_assoc]
  exact hrun.append hcall

theorem listIndex_exact {list : Listed}
    (hfn : m.function? Helper.listElementAddress.name = some listElementAddress)
    (hlist : m.memory.ListAt list) (hsize : m.memory.size ≤ 2 ^ 32) (hrun : Ends code s .next
      ⟨m, frame, [Word.ofNat list.address, Word.unboxed v].reverse ++ stack⟩) :
    (∀ (spot : Nat) (element : Word), list.elements[spot]? = some element → v = spot →
      Ends (code ++ [.callHelper .listElementAddress] ++ [.load 0]) s .next
        ⟨m, frame, element :: stack⟩) ∧ (v < 0 ∨ list.elements.length ≤ v →
      Ends (code ++ [.callHelper .listElementAddress] ++ [.load 0]) s
        (.trap (.indexError (Word.unboxed v) (Word.ofNat list.elements.length)))
          ⟨m, frame, stack⟩) := by
  obtain ⟨-, hshort⟩ := loadSize hlist.words hsize
  have hanswers := listElementAddress_outcome hlist.words hsize (Word.unboxed v)
  have hword := toInt_unboxed v
  refine ⟨fun spot element helement hspot => ?_, fun houtside => ?_⟩
  · obtain ⟨hwithin, -⟩ := List.getElem?_eq_some_iff.1 helement
    have hv : (Word.unboxed v).toInt = spot := by omega
    have hload := loadElement hlist.words hsize helement
    rw [hv, if_neg (by omega), Int.toNat_natCast] at hanswers
    refine (hrun.append (.callHelper hanswers hfn rfl)).append ?_
    exact .straight (by simp only [Exec.straight, step, hload])
  · -- an integer that no word holds is negative as a word
    rw [if_pos (by omega)] at hanswers
    rw [append_assoc]
    exact hrun.append ((Ends.callTrap hanswers hfn rfl).stop (by simp) _)

/-- A string makes a string of the character at an index inside, and stops at any other. -/
theorem strIndex_exact {string : Spelled}
    (hfn : m.function? Helper.strIndex.name = some strIndex)
    (hstring : m.memory.StringAt string) (hsize : m.memory.size ≤ 2 ^ 32) (hrun : Ends code s .next
      ⟨m, frame, [Word.ofNat string.address, Word.unboxed v].reverse ++ stack⟩) :
    (∀ (spot : Nat) (char : Word), string.codes[spot]? = some char →
      v = spot ∨ v = spot - string.codes.length → string.finish ≤ head → m.HasRoom head 8 →
      ∃ memory', Ends (code ++ [.callHelper .strIndex]) s .next
          ⟨{ m with memory := memory' }, frame, Word.ofNat head :: stack⟩ ∧
        m.memory.Spells ⟨head, [char]⟩ memory') ∧
    (v < -string.codes.length ∨ string.codes.length ≤ v →
      Ends (code ++ [.callHelper .strIndex]) s
        (.trap (.indexError (Word.unboxed v) (Word.ofNat string.codes.length)))
          ⟨m, frame, stack⟩) := by
  obtain ⟨hshort, -⟩ := hstring.length_lt hsize
  have hword := toInt_unboxed v
  have hposition : Spelled.position string.codes.length (Word.unboxed v) =
      if (Word.unboxed v).toInt < 0 then (Word.unboxed v).toInt + string.codes.length
      else (Word.unboxed v).toInt := rfl
  refine ⟨fun spot char hchar hspot hhead hroom => ?_, fun houtside => ?_⟩
  · obtain ⟨hwithin, -⟩ := List.getElem?_eq_some_iff.1 hchar
    obtain ⟨memory', hanswers, hmakes⟩ := strIndex_answers hstring hhead hroom hchar
      (show Spelled.position _ (Word.unboxed v) = spot by rw [hposition]; split <;> omega)
    exact ⟨memory', hrun.append (.callHelper hanswers hfn rfl), hmakes⟩
  · -- a string is shorter than `2 ^ 31`, so the least word counts to before its start
    have hbeyond : Spelled.position string.codes.length (Word.unboxed v) < 0 ∨
        string.codes.length ≤ Spelled.position string.codes.length (Word.unboxed v) := by
      rw [hposition]
      split <;> omega
    exact hrun.append (.callTrap (strIndex_traps hstring hsize hbeyond) hfn rfl)

theorem length_exact {count : Nat} {offset : UInt32}
    (hfn : m.function? Helper.bignumFromI32.name = some bignumFromI32)
    (hroom : m.HasRoom head 8) (hcount : count < 2 ^ 31)
    (hload : m.loadWord (Word.ofNat address) offset = .ok (Word.ofNat count))
    (hrun : Ends objectCode s .next ⟨m, frame, Word.ofNat address :: stack⟩) :
    ∃ memory', Ends (objectCode ++ [.load offset] ++ [.callHelper .bignumFromI32]) s .next
        ⟨{ m with memory := memory' }, frame, Word.ofNat head :: stack⟩ ∧
      { m with memory := memory' }.readBigint (Word.ofNat head) = .ok count := by
  obtain ⟨memory', words, hanswers, hfilled, hv⟩ :=
    bignumFromI32_answers hroom (Word.ofNat count)
  rw [toInt_ofNat_of_lt hcount] at hv
  have hlength : Ends [.load offset] ⟨m, frame, Word.ofNat address :: stack⟩ .next
      ⟨m, frame, [Word.ofNat count].reverse ++ stack⟩ :=
    .straight (by simp only [Exec.straight, step, hload]; rfl)
  exact ⟨memory', (hrun.append hlength).append (.callHelper hanswers hfn rfl),
    readBigint_of_integerAt hv hfilled.heap.size_le⟩

end Runs

/-- **Indices and lengths are exact on all integers.** A list is read at `v` where `0 ≤ v < n`, and
a string where `-n ≤ v < n`. Any other index is reported, as itself if a word can hold it. Lengths
are boxed, and boxing and unboxing are inverse on words. -/
theorem bigint_indexing_exact {context : Context} {progress middle later : Progress} {ty : Ty}
    {object key : Expr} {objectCode keyCode : Code} {s : State} {m : Machine} {frame : Frame}
    {stack : List Word} {slack : UInt32} {head place : Nat} {v : Int}
    (hbig : context.config.bigNumbers = true) (hcheck : context.config.listBoundsCheck = true)
    (hkey : key.ty = .number)
    (hobject : (expr object).run context progress = (.ok objectCode, middle))
    (hindex : (expr key).run context middle = (.ok keyCode, later))
    (hloaded : ∀ helper ∈ [Helper.bignumToI32, .bignumFromI32, .listElementAddress, .strIndex],
      m.function? helper.name = some (helper.function slack))
    (hheap : m.memory.HeapAt head) (hv : m.memory.IntegerAt place v) :
    (∀ (list : Listed) (element : Ty), object.ty = .list element → m.memory.ListAt list →
      (Ends (objectCode ++ keyCode) s .next
          ⟨m, frame, Word.ofNat place :: Word.ofNat list.address :: stack⟩ →
        ∃ code after, (expr (.index ty object key)).run context progress = (.ok code, after) ∧
          (∀ (spot : Nat) (word : Word), list.elements[spot]? = some word → v = spot →
            Ends code s .next ⟨m, frame, word :: stack⟩) ∧
          (v < 0 ∨ list.elements.length ≤ v → Ends code s
            (.trap (.indexError (Word.unboxed v) (Word.ofNat list.elements.length)))
            ⟨m, frame, stack⟩)) ∧
      (Ends objectCode s .next ⟨m, frame, Word.ofNat list.address :: stack⟩ → m.HasRoom head 8 →
        ∃ code after memory', (expr (.builtin1 ty .len object)).run context progress =
          (.ok code, after) ∧
          Ends code s .next ⟨{ m with memory := memory' }, frame, Word.ofNat head :: stack⟩ ∧
          { m with memory := memory' }.readBigint (Word.ofNat head) = .ok list.elements.length)) ∧
    (∀ string : Spelled, object.ty = .string → m.memory.StringAt string →
      (Ends (objectCode ++ keyCode) s .next
          ⟨m, frame, Word.ofNat place :: Word.ofNat string.address :: stack⟩ →
        ∃ code after, (expr (.index ty object key)).run context progress = (.ok code, after) ∧
          (∀ (spot : Nat) (char : Word), string.codes[spot]? = some char →
            v = spot ∨ v = spot - string.codes.length → string.finish ≤ head → m.HasRoom head 8 →
            ∃ memory', Ends code s .next
                ⟨{ m with memory := memory' }, frame, Word.ofNat head :: stack⟩ ∧
              m.memory.Spells ⟨head, [char]⟩ memory') ∧
          (v < -string.codes.length ∨ string.codes.length ≤ v → Ends code s
            (.trap (.indexError (Word.unboxed v) (Word.ofNat string.codes.length)))
            ⟨m, frame, stack⟩)) ∧
      (Ends objectCode s .next ⟨m, frame, Word.ofNat string.address :: stack⟩ → m.HasRoom head 8 →
        ∃ code after memory', (expr (.builtin1 ty .len object)).run context progress =
          (.ok code, after) ∧
          Ends code s .next ⟨{ m with memory := memory' }, frame, Word.ofNat head :: stack⟩ ∧
          { m with memory := memory' }.readBigint (Word.ofNat head) = .ok string.codes.length)) ∧
    ∀ w : Word, m.HasRoom head 8 → ∃ memory',
      (∃ cost, ∀ fuel, { m with fuel := cost + fuel }.call Helper.bignumFromI32.name [w] =
        (.ok (Word.ofNat head), { m with memory := memory', fuel })) ∧
      { m with memory := memory' }.readBigint (Word.ofNat head) = .ok w.toInt ∧
      ∃ cost, ∀ fuel, { m with memory := memory', fuel := cost + fuel }.call Helper.bignumToI32.name
        [Word.ofNat head] = (.ok w, { m with memory := memory', fuel }) := by
  have hsize := hheap.size_le
  have hto := hloaded .bignumToI32 (by decide)
  have hfrom := hloaded .bignumFromI32 (by decide)
  obtain ⟨hstringCode, hlistCode⟩ := index_lowers ty hbig hkey hobject hindex
  obtain ⟨hstringLen, hlistLen⟩ := len_lowers ty hbig hobject
  refine ⟨fun list element hty hlist => ⟨fun hrun => ?_, fun hrun hroom => ?_⟩,
    fun string hty hstring => ⟨fun hrun => ?_, fun hrun hroom => ?_⟩, fun w hroom => ?_⟩
  · obtain ⟨after, hcode⟩ := hlistCode hcheck ⟨element, hty⟩
    exact ⟨_, after, hcode, listIndex_exact (hloaded .listElementAddress (by decide)) hlist hsize
      (unboxing_ends hto hv hsize hrun)⟩
  · obtain ⟨after, hcode⟩ := hlistLen ⟨element, hty⟩
    obtain ⟨hload, hshort⟩ := loadSize hlist.words hsize
    obtain ⟨memory', hlength⟩ := length_exact hfrom hroom (by omega) hload hrun
    exact ⟨_, after, memory', hcode, hlength⟩
  · obtain ⟨after, hcode⟩ := hstringCode hty
    exact ⟨_, after, hcode, strIndex_exact (hloaded .strIndex (by decide)) hstring hsize
      (unboxing_ends hto hv hsize hrun)⟩
  · obtain ⟨after, hcode⟩ := hstringLen hty
    obtain ⟨hshort, -⟩ := hstring.length_lt hsize
    obtain ⟨memory', hlength⟩ := length_exact hfrom hroom (by omega) (hstring.loadLength hsize) hrun
    exact ⟨_, after, memory', hcode, hlength⟩
  · obtain ⟨memory', words, hanswers, hfilled, hboxed⟩ := bignumFromI32_answers hroom w
    have hback : Answers { m with memory := memory' } bignumToI32 [Word.ofNat head] _ _ :=
      bignumToI32_answers hboxed hfilled.heap.size_le
    rw [unboxed_toInt] at hback
    exact ⟨memory', hanswers.call hfrom,
      readBigint_of_integerAt hboxed hfilled.heap.size_le, hback.call hto⟩

/-- A body with a list and an index, where numbers are big. -/
def Lowering.Context.indexing : Context where
  config := { numberRepr := .bigint }
  env := { locals := ["list", "index"] }

/-- A machine whose heap holds the list `[7]`, then the integers `2 ^ 64` and `0`. -/
def Machine.boxes : Machine where
  memory := ({ pages := 1 } : Memory).stores
    [(0, 52), (16, 1), (20, 1), (24, 1), (28, 7), (32, 3), (44, 1)]
  functions := [Helper.bignumToI32.function 0, Helper.bignumFromI32.function 0,
    Helper.listElementAddress.function 0, Helper.strIndex.function 0]

/-- The list `[7]` has an element at `0` and none at `2 ^ 64`. -/
theorem Machine.boxes_indexed :
    ∃ code after, (expr (.index .number (.id (.list .number) "list") (.id .number "index"))).run
        .indexing {} = (.ok code, after) ∧ Ends code ⟨boxes, [("list", 16), ("index", 48)], []⟩
        .next ⟨boxes, [("list", 16), ("index", 48)], [7]⟩ ∧
      Ends code ⟨boxes, [("list", 16), ("index", 32)], []⟩ (.trap (.indexError (-2147483648) 1))
        ⟨boxes, [("list", 16), ("index", 32)], []⟩ := by
  have hlist : boxes.memory.ListAt ⟨16, 1, [7]⟩ := ⟨by decide +kernel, by decide +kernel, by decide⟩
  have hheap : boxes.memory.HeapAt 52 :=
    ⟨by decide +kernel, by decide, by decide, by decide +kernel, by decide +kernel⟩
  have hlarge : boxes.memory.IntegerAt 32 (2 ^ 64) := by
    show Memory.Holds _ _ _
    decide +kernel
  have hzero : boxes.memory.IntegerAt 48 0 := by
    show Memory.Holds _ _ _
    decide +kernel
  have hloaded : ∀ helper ∈ [Helper.bignumToI32, .bignumFromI32, .listElementAddress, .strIndex],
      boxes.function? helper.name = some (helper.function 0) := by
    simp only [forall_mem_cons, not_mem_nil, false_imp_iff, implies_true, and_true]
    exact ⟨rfl, rfl, rfl, rfl⟩
  have hobject : (expr (.id (.list .number) "list")).run .indexing {} =
      (.ok [.localGet "list"], {}) := rfl
  have hkey : (expr (.id .number "index")).run .indexing {} = (.ok [.localGet "index"], {}) := rfl
  have hoperands : ∀ index : Word, Ends [.localGet "list", .localGet "index"]
      ⟨boxes, [("list", 16), ("index", index)], []⟩ .next
      ⟨boxes, [("list", 16), ("index", index)], [index, 16]⟩ := fun index =>
    .straight rfl
  obtain ⟨hindexed, -⟩ := bigint_indexing_exact rfl rfl rfl hobject hkey hloaded hheap hzero
  obtain ⟨code, after, hcode, hreads, -⟩ := (hindexed _ .number rfl hlist).1 (hoperands 48)
  obtain ⟨hindexed', -⟩ := bigint_indexing_exact rfl rfl rfl hobject hkey hloaded hheap hlarge
  obtain ⟨code', after', hcode', -, hstops⟩ := (hindexed' _ .number rfl hlist).1 (hoperands 32)
  obtain rfl : code = code' := Except.ok.inj (congrArg Prod.fst (hcode.symm.trans hcode'))
  exact ⟨code, after, hcode, hreads 0 7 rfl rfl, hstops (.inr (by decide))⟩

end TypedWasm
