import TypedWasm.Proofs.Data.Trees
import TypedWasm.Proofs.Heap.Literals
import TypedWasm.Proofs.Heap.Statements

/-!
# Nested data in memory

The block of a list or a tuple is reserved before its elements run, so the blocks of a tree lie with
the outer ones first, and nothing that runs in between writes a block that is not yet full.
-/

namespace TypedWasm

open Block List Machine Word

open Lower (bind_eq_ok_iff pure_eq_ok_iff)

variable {words : List Word} {types : List Ty} {element : Ty} {count : Nat}
  {items : Items (List.replicate count element)}

namespace Machine

variable {m : Machine} {base : Nat}

theorem readTuple_of_holds (hbase : base < 2 ^ 32) (h : m.memory.Holds base words) :
    m.readTuple (Word.ofNat base) words.length = .ok words := by
  rw [readTuple, toAddress_ofNat hbase]
  exact readWords_of_holds h

end Machine

section Decoding

variable {big : Bool} {m : Machine} {base : Nat}

theorem Data.shown_list {tag bound : Word} (hbase : base < 2 ^ 32) (hlength : words.length = count)
    (hcount : count < 2 ^ 32) (h : m.memory.Holds base ([tag, Word.ofNat count, bound] ++ words))
    (hitems : items.Shown big m words) : (Data.list items).Shown big m (Word.ofNat base) := by
  subst hlength
  obtain ⟨values, hdecode, hvalues⟩ := hitems
  refine ⟨.sequence values, ?_, hvalues⟩
  rw [decodeAll_replicate] at hdecode
  rw [decode, readList_of_holds hbase hcount h.tail]
  simp only [bind, Except.bind, hdecode]
  rfl

theorem Data.shown_tuple {items : Items types} (hbase : base < 2 ^ 32)
    (hlength : words.length = types.length) (h : m.memory.Holds base words)
    (hitems : items.Shown big m words) : (Data.tuple items).Shown big m (Word.ofNat base) := by
  obtain ⟨values, hdecode, hvalues⟩ := hitems
  refine ⟨.sequence values, ?_, hvalues⟩
  rw [decode, ← hlength, readTuple_of_holds hbase h]
  simp only [bind, Except.bind, hdecode]
  rfl

end Decoding

namespace Heap

open Exec Lowering

variable {value : Literal}

/-- The code of a tree delivers a word that is decoded to it. -/
def DataDelivers (hosted : Bool) (context : Context) {ty : Ty} (d : Data ty) : Prop :=
  ∀ progress later code, (expr d.expr).run context progress = (.ok code, later) →
    progress.temps ≤ later.temps ∧
      Delivers hosted code progress.temps later.temps (d.bytes context.config) d.lines
        (d.Shown context.config.bigNumbers)

/-- The code that stores a row writes words that are decoded to it. Its offsets all fit, so the row
is not too long. -/
def ItemsFill (hosted : Bool) (context : Context) (shift : Nat) (offsetOf : UInt32 → Checked UInt32)
    {types : List Ty} (items : Items types) : Prop :=
  ∀ temp index progress later code, temp < progress.temps → index ≤ 2 ^ 30 →
    (storeAll (tempName temp) offsetOf index items.exprs).run context progress = (.ok code, later) →
    progress.temps ≤ later.temps ∧ index + types.length ≤ 2 ^ 30 ∧
      Fills hosted temp (shift + index) types.length code progress.temps later.temps
        (items.bytes context.config) items.lines (items.Shown context.config.bigNumbers)

variable {hosted : Bool} {context : Context} {progress later : Progress} {code : Code}

theorem literal_delivers (printed : Bool)
    (h : (literal value).run context progress = (.ok code, later)) : progress.temps ≤ later.temps ∧
      Delivers hosted code progress.temps later.temps (value.bytes context.config) []
        ((Data.leaf value printed).Shown context.config.bigNumbers) := by
  cases value with
  | num value =>
    simp only [literal, bind_eq_ok_iff, bigNumbers_eq_ok_iff] at h
    obtain ⟨big, _, ⟨rfl, rfl⟩, h⟩ := h
    cases hbig : context.config.bigNumbers with
    | true =>
      rw [hbig, if_pos rfl] at h
      obtain ⟨htemps, hdelivers⟩ := bigintWords_delivers h
      refine ⟨by omega, ?_⟩
      rw [Literal.bytes, hbig, if_pos rfl]
      refine hdelivers.imp fun m word hword => ⟨.integer value, ?_, rfl, rfl⟩
      rw [Literal.ty, decode, if_pos rfl, hword]
      rfl
    | false =>
      rw [hbig, if_neg Bool.false_ne_true, nativeNumber] at h
      by_cases hfits : Word.fits value = true
      · rw [if_pos hfits, pure_eq_ok_iff] at h
        obtain ⟨rfl, rfl⟩ := h
        refine ⟨Nat.le_refl _, ?_⟩
        rw [Literal.bytes, hbig, if_neg Bool.false_ne_true]
        refine (const_delivers hosted _ _).imp ?_
        rintro m _ rfl
        exact ⟨.word (Word.ofInt value), rfl, rfl, toInt_ofInt_of_fits hfits⟩
      · rw [if_neg hfits] at h
        exact absurd h (by simp)
  | bool value =>
    obtain ⟨rfl, rfl⟩ := pure_eq_ok_iff.1 h
    refine ⟨Nat.le_refl _, (const_delivers hosted _ _).imp ?_⟩
    rintro m _ rfl
    exact ⟨.word (Word.ofBool value), rfl, rfl⟩
  | none =>
    obtain ⟨rfl, rfl⟩ := pure_eq_ok_iff.1 h
    refine ⟨Nat.le_refl _, (const_delivers hosted _ _).imp ?_⟩
    rintro m _ rfl
    exact ⟨.word 0, rfl, rfl⟩
  | string text =>
    obtain ⟨htemps, hdelivers⟩ := stringWords_delivers h
    refine ⟨by omega, hdelivers.imp fun m word hword => ⟨.text text, ?_, rfl⟩⟩
    rw [Literal.ty, decode, hword]
    rfl

theorem host_prints {called : Intrinsic}
    (h : (printer value.ty).run context progress = (.ok called, later)) :
    later = progress ∧ called.arity = 1 ∧ ∀ (m : Machine) word printed,
      (Data.leaf value printed).Shown context.config.bigNumbers m word →
      m.host called [word] = (.ok word, m.print value.line) := by
  cases value with
  | num value =>
    simp only [Literal.ty, printer, bind_eq_ok_iff, bigNumbers_eq_ok_iff, pure_eq_ok_iff] at h
    obtain ⟨_, _, ⟨rfl, rfl⟩, rfl, rfl⟩ := h
    refine ⟨rfl, by split <;> rfl, ?_⟩
    rintro m word printed ⟨found, hdecode, hreads⟩
    rw [Literal.ty, decode] at hdecode
    cases hbig : context.config.bigNumbers with
    | true =>
      rw [hbig, if_pos rfl] at hdecode
      rw [hbig] at hreads
      obtain ⟨found, hread, hdecode⟩ := Failing.bind_eq_ok_iff.1 hdecode
      cases hdecode
      obtain ⟨-, rfl⟩ := hreads
      simp only [if_true, host, hread]
      rfl
    | false =>
      rw [hbig, if_neg Bool.false_ne_true] at hdecode
      rw [hbig] at hreads
      cases hdecode
      obtain ⟨-, rfl⟩ := hreads
      rfl
  | bool value =>
    obtain ⟨rfl, rfl⟩ := pure_eq_ok_iff.1 h
    refine ⟨rfl, rfl, ?_⟩
    rintro m word printed ⟨found, hdecode, hreads⟩
    cases hdecode
    cases hreads
    cases value <;> rfl
  | none =>
    obtain ⟨rfl, rfl⟩ := pure_eq_ok_iff.1 h
    exact ⟨rfl, rfl, fun _ _ _ _ => rfl⟩
  | string text =>
    obtain ⟨rfl, rfl⟩ := pure_eq_ok_iff.1 h
    refine ⟨rfl, rfl, ?_⟩
    rintro m word printed ⟨found, hdecode, hreads⟩
    rw [Literal.ty, decode] at hdecode
    obtain ⟨found, hread, hdecode⟩ := Failing.bind_eq_ok_iff.1 hdecode
    cases hdecode
    cases hreads
    simp only [host, hread]
    rfl

theorem leaf_delivers (value : Literal) (printed : Bool) :
    DataDelivers hosted context (.leaf value printed) := by
  intro progress later code h
  cases printed with
  | false => exact literal_delivers false h
  | true =>
    have hprint : (builtin1 .print value.ty (literal value)).run context progress =
        (.ok code, later) := h
    simp only [builtin1, bind_eq_ok_iff, intrinsic_eq_ok_iff, pure_eq_ok_iff] at hprint
    obtain ⟨called, _, hprinter, argCode, middle, harg, _, _, ⟨rfl, rfl⟩, rfl, rfl⟩ := hprint
    obtain ⟨rfl, harity, hhost⟩ := host_prints hprinter
    obtain ⟨htemps, hdelivers⟩ := literal_delivers true harg
    refine ⟨htemps, ?_⟩
    refine hdelivers.apply [value.line] fun m frame stack word hword =>
      ⟨m.print value.line, word, ?_, rfl, rfl, Array.toList_push .., fun _ h => h⟩
    have hpop : popArgs? (word :: stack) 1 = some ([word], stack) :=
      popArgs?_reverse_append [word] stack
    show callHost called ⟨m, frame, word :: stack⟩ = _
    simp only [callHost, harity, hpop, hhost m word true hword, afterCall]

theorem storeHeader_fills (hosted : Bool) {temp first : Nat} (htemp : temp < first) (tag : Word)
    (size bound : UInt32) :
    Fills hosted temp 0 3 (storeHeader (tempName temp) tag size bound) first first
      0 [] fun _ words =>
      words = [tag, Word.ofUInt32 size, Word.ofUInt32 bound] := by
  have hword : ∀ (index : Nat) (offset : UInt32) (word : Word), offset.toNat = 4 * index →
      Fills hosted temp index 1 (storeWord (tempName temp) offset [.const word]) first first 0 []
        fun _ words => ∃ found, words = [found] ∧ found = word :=
    fun _ _ word hoffset => fills_store hoffset (const_delivers hosted first word)
  have htag := hword 0 Block.tagOffset tag rfl
  have hsize := hword 1 Block.sizeOffset (Word.ofUInt32 size) rfl
  have hbound := hword 2 Block.boundOffset (Word.ofUInt32 bound) rfl
  refine ((htag.append htemp (Nat.le_refl _) (Nat.le_refl _) hsize).append htemp (Nat.le_refl _)
    (Nat.le_refl _) hbound).imp ?_
  rintro m _ ⟨_, _, rfl, ⟨_, _, rfl, ⟨_, rfl, rfl⟩, _, rfl, rfl⟩, _, rfl, rfl⟩
  rfl

theorem list_delivers (hitems : ItemsFill hosted context 3 Block.listElement items) :
    DataDelivers hosted context (.list items) := by
  intro progress later code h
  have hlist : (collection Block.listTag items.exprs.length Block.listSize fun temp =>
      storeAll temp Block.listElement 0 items.exprs).run context progress = (.ok code, later) := by
    rw [← h, Data.expr, Expr.listOf, expr]
  simp only [collection, bind_eq_ok_iff, Lower.context_eq_ok_iff, Lower.ofChecked_eq_ok_iff,
    Prod.exists, allocate_eq_ok_iff, pure_eq_ok_iff] at hlist
  obtain ⟨_, _, ⟨rfl, rfl⟩, bound, _, ⟨hbound, rfl⟩, size, _, ⟨hsize, rfl⟩, _, _, _,
    ⟨rfl, rfl, rfl⟩, stored, _, hstored, rfl, rfl⟩ := hlist
  obtain ⟨htemps, hcount, hfills⟩ := hitems _ _ _ _ _ (Nat.lt_succ_self _) (Nat.zero_le _) hstored
  rw [Nat.zero_add] at hcount
  have hlength := items.length_exprs
  have hwords : (UInt32.ofNat items.exprs.length).toNat = items.exprs.length := by
    rw [UInt32.toNat_ofNat']
    exact Nat.mod_eq_of_lt (by omega)
  have hbytes : size.toNat =
      4 * (3 + (items.exprs.length + context.config.listGrowthSlack.toNat)) := by
    rw [toNat_listSize hsize, Offset.add_eq_ok_iff.1 hbound, hwords]
  have hboth := (storeHeader_fills hosted (Nat.lt_succ_self progress.temps) Block.listTag
    (UInt32.ofNat items.exprs.length) bound).append (Nat.lt_succ_self _) (Nat.le_refl _) htemps
      hfills
  refine ⟨Nat.le_trans (Nat.le_succ _) htemps, ?_⟩
  rw [Data.bytes, ← hbytes, append_assoc (Allocation.static size ++ _),
    ← Nat.zero_add (items.bytes _)]
  refine block_delivers (by omega) htemps hboth ?_
  rintro m base _ hbase hfound hholds ⟨_, words, rfl, rfl, hshown⟩
  rw [heapEnd] at hbase
  rw [length_append, length_cons, length_cons, length_singleton] at hfound
  have hcounted : Word.ofUInt32 (UInt32.ofNat items.exprs.length) = Word.ofNat count := by
    rw [ofUInt32_eq_ofNat, hwords, hlength, length_replicate]
  rw [hcounted] at hholds
  rw [length_replicate] at hfound hcount
  exact Data.shown_list (by omega) (by omega) (by omega) hholds hshown

theorem tuple_delivers {items : Items types}
    (hitems : ItemsFill hosted context 0 Block.tupleElement items) :
    DataDelivers hosted context (.tuple items) := by
  intro progress later code h
  have htuple : (tuple items.exprs.length fun temp =>
      storeAll temp Block.tupleElement 0 items.exprs).run context progress = (.ok code, later) := by
    rw [← h, Data.expr, Expr.tupleOf, expr]
  simp only [tuple, bind_eq_ok_iff, Lower.ofChecked_eq_ok_iff, Prod.exists, allocate_eq_ok_iff,
    pure_eq_ok_iff] at htuple
  obtain ⟨size, _, ⟨hsize, rfl⟩, _, _, _, ⟨rfl, rfl, rfl⟩, stored, _, hstored, rfl, rfl⟩ := htuple
  obtain ⟨htemps, hcount, hfills⟩ := hitems _ _ _ _ _ (Nat.lt_succ_self _) (Nat.zero_le _) hstored
  rw [Nat.zero_add] at hcount
  have hlength := items.length_exprs
  have hbytes : size.toNat = 4 * items.exprs.length := by
    rw [toNat_wordOffset hsize, UInt32.toNat_ofNat', Nat.mod_eq_of_lt (by omega)]
  refine ⟨Nat.le_trans (Nat.le_succ _) htemps, ?_⟩
  rw [Data.bytes, ← hbytes]
  refine block_delivers (by omega) htemps hfills ?_
  intro m base words hbase hfound hholds hshown
  rw [heapEnd] at hbase
  exact Data.shown_tuple (by omega) hfound hholds hshown

section Rows

variable {shift : Nat} {offsetOf : UInt32 → Checked UInt32}

theorem nil_fills : ItemsFill hosted context shift offsetOf .nil := by
  intro temp index progress later code _ hindex h
  obtain ⟨rfl, rfl⟩ := pure_eq_ok_iff.1 h
  refine ⟨Nat.le_refl _, hindex, (fills_nil hosted _ _ _).imp ?_⟩
  rintro m _ rfl
  exact Items.shown_nil

theorem cons_fills (hoffsets : Consecutive shift offsetOf) {ty : Ty} {first : Data ty}
    {rest : Items types} (hfirst : DataDelivers hosted context first)
    (hrest : ItemsFill hosted context shift offsetOf rest) :
    ItemsFill hosted context shift offsetOf (.cons first rest) := by
  intro temp index progress later code htemp hindex h
  rw [Items.exprs, storeAll] at h
  simp only [bind_eq_ok_iff, Lower.ofChecked_eq_ok_iff, pure_eq_ok_iff] at h
  obtain ⟨firstCode, middle, hcode, offset, _, ⟨hoffset, rfl⟩, restCode, _, hstored, rfl, rfl⟩ := h
  obtain ⟨hsmall, hplace⟩ := hoffsets.index hindex hoffset
  obtain ⟨htemps, hdelivers⟩ := hfirst _ _ _ hcode
  obtain ⟨htemps', hcount, hfills⟩ :=
    hrest _ _ _ _ _ (Nat.lt_of_lt_of_le htemp htemps) hsmall hstored
  have hboth := (fills_store hplace hdelivers).append htemp htemps htemps' hfills
  refine ⟨Nat.le_trans htemps htemps', by rw [length_cons]; omega, ?_⟩
  rw [length_cons, Nat.add_comm types.length]
  refine hboth.imp ?_
  rintro m _ ⟨_, words, rfl, ⟨word, rfl, hword⟩, hwords⟩
  exact Items.shown_cons hword hwords

end Rows

mutual

/-- **Trees.** The code of a tree delivers a word that is decoded to it. -/
theorem data_delivers {ty : Ty} (d : Data ty) : DataDelivers hosted context d := by
  cases d with
  | leaf value printed => exact leaf_delivers value printed
  | list items => exact list_delivers (items_fill (fun _ _ => toNat_listElement) items)
  | tuple items => exact tuple_delivers (items_fill consecutive_wordOffset items)

theorem items_fill {shift : Nat} {offsetOf : UInt32 → Checked UInt32}
    (hoffsets : Consecutive shift offsetOf) {types : List Ty} (items : Items types) :
    ItemsFill hosted context shift offsetOf items := by
  cases items with
  | nil => exact nil_fills
  | cons first rest => exact cons_fills hoffsets (data_delivers first) (items_fill hoffsets rest)

end

end Heap

open Heap in
/-- **Round trip.** A run of a tree on a fresh machine returns a word that is decoded, by the type
of the expression, to the tree. The printed leaves are printed from left to right, and the heap
grows by the bytes of the blocks. The run may stop for want of fuel or of pages only. -/
theorem data_round_trip {config : Config} (hcheck : config.check = .ok ())
    (hpages : config.minMemoryPages.toNat < 65536) {env : Environment} {ty : Ty} (d : Data ty)
    {u : CompiledUnit} (hcompile : compile config env d.expr.statement = .ok u)
    (hroom : config.heapStart.toNat + d.bytes config ≤ heapEnd) :
    ∃ m, start? config = .ok m ∧ ((m.runMain u).1 = .error .outOfFuel ∨
      ((m.runMain u).1 = .error .unreachable ∧
        65536 * config.pageLimit < config.heapStart.toNat + d.bytes config) ∨
      ∃ word value, (m.runMain u).1 = .ok word ∧
        (m.runMain u).2.decode config.bigNumbers d.expr.ty word = .ok value ∧
        d.Reads config.bigNumbers value ∧ (m.runMain u).2.output.toList = d.lines ∧
        (m.runMain u).2.heapHead = Word.ofNat (config.heapStart.toNat + d.bytes config)) := by
  obtain ⟨m, hstart, -⟩ := exists_start hcheck hpages
  obtain ⟨hlimit, houtput⟩ := limit_start hstart
  have hdelivers : ∀ (context : Lowering.Context) code later, context.config = config →
      (Lowering.expr d.expr).run context {} = (.ok code, later) →
      Delivers false code 0 later.temps (d.bytes config) d.lines (d.Shown config.bigNumbers) := by
    rintro context code later rfl hcode
    exact (data_delivers d _ _ _ hcode).2
  have hrun := Delivers.runMain hcompile hdelivers (heapAt_start hcheck hpages hstart).1 hroom
  rw [hlimit, houtput] at hrun
  refine ⟨m, hstart, ?_⟩
  rcases hrun with hfuel | ⟨trap, htrap, hmemory⟩ | ⟨word, hword, hheap, hlines, value, hdecode,
    hreads⟩
  · exact .inl hfuel
  · obtain ⟨rfl, hlimit⟩ := hmemory.unhosted
    exact .inr (.inl ⟨htrap, hlimit⟩)
  · rw [d.ty_expr]
    exact .inr (.inr ⟨word, value, hword, hdecode, hreads, by simpa using hlines, hheap.word⟩)

/-- The tree `(print(1099511627781), [["a", print("b")], []], None)`. -/
def Data.sample : Data (.tuple [.number, .list (.list .string), .none]) :=
  let letters : Items (List.replicate 2 .string) :=
    .cons (.leaf (.string "a") false) (.cons (.leaf (.string "b") true) .nil)
  let empty : Items (List.replicate 0 .string) := .nil
  let lists : Items (List.replicate 2 (.list .string)) :=
    .cons (.list letters) (.cons (.list empty) .nil)
  .tuple (.cons (.leaf (.num 1099511627781) true) (.cons (.list lists)
    (.cons (.leaf .none false) .nil)))

/-- Numbers are heap objects, and lists have room for two more elements. -/
def Data.sampleConfig : Config := { numberRepr := .bigint, listGrowthSlack := 2 }

theorem Data.sample_round_trips : ∃ u m value, compile sampleConfig {} sample.expr.statement =
      .ok u ∧ start? sampleConfig = .ok m ∧ (m.runMain u).1 = .ok 65536 ∧
      (m.runMain u).2.decode true sample.expr.ty 65536 = .ok value ∧ sample.Reads true value ∧
      (m.runMain u).2.output.toList = ["1099511627781", "b"] := by
  have houtcome : outcome? sampleConfig sample.expr.statement =
      some (.ok 65536, ["1099511627781", "b"]) := by
    decide +kernel
  obtain ⟨u, m, hu, hm, hrun⟩ := outcome?_eq_some_iff.1 houtcome
  obtain ⟨hvalue, hprinted⟩ := Prod.mk.inj hrun
  obtain ⟨m', hm', hends⟩ := data_round_trip rfl (by decide) sample hu (by decide)
  obtain rfl : m = m' := Except.ok.inj (hm.symm.trans hm')
  rw [hvalue] at hends
  rcases hends with hfuel | ⟨htrap, -⟩ | ⟨word, value, hword, hdecode, hreads, -⟩
  · cases hfuel
  · cases htrap
  · cases hword
    exact ⟨u, m, value, hu, hm, hvalue, hdecode, hreads, hprinted⟩

end TypedWasm
