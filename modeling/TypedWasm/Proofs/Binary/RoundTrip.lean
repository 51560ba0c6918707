import TypedWasm.Binary.Encode
import TypedWasm.Proofs.Binary.Decode

/-!
# Module bytes read back

What is written is read back, whatever bytes follow. The rule for each part of the format speaks of
its bytes followed by any others, so that the rules for parts give those for wholes.
-/

namespace TypedWasm

open List Nat

variable {bytes : List UInt8} {n bits : Nat}

namespace Decode

variable {α β : Type} {value : α} {rest : List UInt8} {values : List α}

/-- A reader takes a value off the front of its bytes and leaves the others. -/
def Reads (reader : Parser α) (bytes : List UInt8) (value : α) : Prop :=
  ∀ rest, reader.run (bytes ++ rest) = some (value, rest)

namespace Reads

variable {reader : Parser α} {result : β} {second : List UInt8}

theorem pure (value : α) : Reads (Pure.pure value) [] value := fun _ => rfl

theorem bind {next : α → Parser β} {first : List UInt8} (h : Reads reader first value)
    (hnext : Reads (next value) second result) :
      Reads (reader >>= next) (first ++ second) result := by
  intro rest
  rw [StateT.run_bind, append_assoc, h]
  exact hnext rest

theorem map (h : Reads reader bytes value) (place : α → β) :
    Reads (reader >>= fun value => Pure.pure (place value)) bytes (place value) := by
  have hmap : Reads (reader >>= fun value => Pure.pure (place value)) (bytes ++ []) (place value) :=
    h.bind (Reads.pure _)
  rwa [append_nil] at hmap

theorem byteThen {next : UInt8 → Parser β} {first : UInt8} (h : Reads (next first) second result) :
    Reads (byte >>= next) (first :: second) result := by
  have hfirst : Reads byte [first] first := fun _ => rfl
  exact hfirst.bind h

theorem guarded {condition : Prop} [Decidable condition] {next : Parser β} (hcondition : condition)
    (h : Reads next bytes result) : Reads (guard condition >>= fun _ => next) bytes result := by
  simpa [guard, hcondition] using h

theorem found {find : α → Option β} (h : Reads reader bytes value)
    (hfind : find value = some result) :
    Reads (reader >>= fun value => ofOption (find value)) bytes result := by
  have hresult : Reads (ofOption (find value)) [] result := by
    rw [hfind]
    exact Reads.pure result
  have hbind : Reads (reader >>= fun value => ofOption (find value)) (bytes ++ []) result :=
    h.bind hresult
  rwa [append_nil] at hbind

theorem whole (h : Reads reader bytes value) : whole reader bytes = some value := by
  have hrun := h []
  rw [append_nil] at hrun
  rw [Decode.whole, hrun]

end Reads

theorem expect_reads (expected : UInt8) : Reads (expect expected) [expected] () := by
  refine Reads.byteThen ?_
  simpa [guard] using Reads.pure ()

theorem toNat_byte (h : n < 256) : (UInt8.ofNat n).toNat = n :=
  UInt8.toNat_ofNat_of_lt' h

theorem unsigned_last (hn : n < 128) (hbits : n < 2 ^ bits) (rest : List UInt8) :
    unsigned bits (UInt8.ofNat n :: rest) = some (n, rest) := by
  rw [unsigned, toNat_byte (by omega), if_pos hn, if_pos hbits]

theorem unsigned_more {low high : Nat} (hlow : low < 128) (hbits : 7 < bits)
    (h : unsigned (bits - 7) bytes = some (high, rest)) :
    unsigned bits (UInt8.ofNat (low + 128) :: bytes) = some (128 * high + low, rest) := by
  rw [unsigned, toNat_byte (by omega), if_neg (by omega), if_pos hbits, h]
  simp

theorem seven_lt_of_pow (hn : 128 ≤ n) (hbits : n < 2 ^ bits) : 7 < bits := by
  by_contra hle
  have hpow : 2 ^ bits ≤ 2 ^ 7 := Nat.pow_le_pow_right (by decide) (by omega)
  omega

theorem unsigned_unsignedBytes (more : Nat) (hmore : n < 128 ^ (more + 1)) (hbits : n < 2 ^ bits)
    (rest : List UInt8) : unsigned bits (Leb128.unsignedBytes more n ++ rest) = some (n, rest) := by
  induction more generalizing n bits with
  | zero =>
    have hn : n < 128 := by simpa using hmore
    rw [Leb128.unsignedBytes, mod_eq_of_lt hn]
    exact unsigned_last hn hbits rest
  | succ more ih =>
    rw [Leb128.unsignedBytes]
    by_cases hn : n < 128
    · rw [if_pos hn]
      exact unsigned_last hn hbits rest
    · rw [if_neg hn]
      have hseven : 7 < bits := seven_lt_of_pow (by omega) hbits
      have hpow : 2 ^ bits = 128 * 2 ^ (bits - 7) := by
        rw [show (128 : Nat) = 2 ^ 7 from rfl, ← Nat.pow_add]
        congr 1
        omega
      have hhigh : n / 128 < 128 ^ (more + 1) := by
        rw [Nat.pow_succ] at hmore
        omega
      have hrest : unsigned (bits - 7) (Leb128.unsignedBytes more (n / 128) ++ rest) =
          some (n / 128, rest) := ih hhigh (by omega)
      have hread := unsigned_more (mod_lt n (by decide)) hseven hrest
      rwa [div_add_mod] at hread

theorem index_reads (h : n < 2 ^ 32) : Reads index (Leb128.unsigned n) n := by
  intro rest
  refine unsigned_unsignedBytes _ ?_ h rest
  -- The bytes before the last hold all but the highest group of seven bits.
  have hlog : n < 2 ^ (n.log2 + 1) := lt_log2_self
  have hpow : (2 : Nat) ^ (n.log2 + 1) ≤ 2 ^ (7 * (n.log2 / 7 + 1)) :=
    Nat.pow_le_pow_right (by decide) (by omega)
  rw [Nat.pow_mul] at hpow
  exact Nat.lt_of_lt_of_le hlog hpow

theorem index32_reads (n : UInt32) : Reads index32 (Leb128.unsigned n.toNat) n := by
  have h := (index_reads (UInt32.toNat_lt n)).map UInt32.ofNat
  rwa [UInt32.ofNat_toNat] at h

theorem signed_last {n : Int} (hn : -64 ≤ n ∧ n < 64)
    (hbits : -2 ^ (bits - 1) ≤ n ∧ n < 2 ^ (bits - 1))
    (rest : List UInt8) : signed bits (UInt8.ofNat (n % 128).toNat :: rest) = some (n, rest) := by
  have hcast : ((2 ^ (bits - 1) : Nat) : Int) = 2 ^ (bits - 1) := by push_cast; rfl
  rw [signed, toNat_byte (by omega)]
  by_cases hsign : 0 ≤ n
  · have hlow : ((n % 128).toNat : Int) = n := by omega
    rw [if_pos (by omega), if_pos (by omega), hlow]
  · have hlow : ((n % 128).toNat : Int) = n + 128 := by omega
    rw [if_neg (by omega), if_pos (by omega), if_pos (by omega), hlow, Int.add_sub_cancel]

theorem signed_more {low : Nat} {high : Int} (hlow : low < 128) (hbits : 7 < bits)
    (h : signed (bits - 7) bytes = some (high, rest)) :
    signed bits (UInt8.ofNat (low + 128) :: bytes) = some (128 * high + low, rest) := by
  rw [signed, toNat_byte (by omega), if_neg (by omega), if_neg (by omega), if_pos hbits, h]
  simp

theorem signed_signedBytes (more : Nat) {n : Int}
    (hmore : -(64 * 128 ^ more) ≤ n ∧ n < 64 * 128 ^ more)
    (hbits : -2 ^ (bits - 1) ≤ n ∧ n < 2 ^ (bits - 1)) (rest : List UInt8) :
    signed bits (Leb128.signedBytes more n ++ rest) = some (n, rest) := by
  induction more generalizing n bits with
  | zero =>
    rw [Leb128.signedBytes]
    exact signed_last (by simpa using hmore) hbits rest
  | succ more ih =>
    rw [Leb128.signedBytes]
    by_cases hn : -64 ≤ n ∧ n < 64
    · rw [if_pos hn]
      exact signed_last hn hbits rest
    · rw [if_neg hn]
      have hseven : 7 < bits := by
        by_contra hle
        have hpow : 2 ^ (bits - 1) ≤ 2 ^ 6 := Nat.pow_le_pow_right (by decide) (by omega)
        have hcast : (2 : Int) ^ (bits - 1) ≤ 2 ^ 6 := by exact_mod_cast hpow
        omega
      have hpow : (2 : Int) ^ (bits - 1) = 128 * 2 ^ (bits - 7 - 1) := by
        rw [show (128 : Int) = 2 ^ 7 from rfl, ← pow_add]
        congr 1
        omega
      have hhigh : -(64 * 128 ^ more) ≤ n / 128 ∧ n / 128 < 64 * 128 ^ more := by
        rw [pow_succ] at hmore
        omega
      have hrest : signed (bits - 7) (Leb128.signedBytes more (n / 128) ++ rest) =
          some (n / 128, rest) := ih hhigh (by omega)
      have hlow : (n % 128).toNat < 128 := by omega
      have hread := signed_more hlow hseven hrest
      rwa [Int.toNat_of_nonneg (by omega), Int.mul_ediv_add_emod] at hread

theorem signed_reads (value : Word) :
    Reads (signed 32) (Leb128.signed value.toInt) value.toInt := by
  intro rest
  refine signed_signedBytes _ ?_ ⟨value.le_toInt, value.toInt_lt⟩ rest
  have hlog : value.toInt.natAbs < 2 ^ (value.toInt.natAbs.log2 + 1) := lt_log2_self
  have hpow : (2 : Nat) ^ (value.toInt.natAbs.log2 + 1) ≤
      2 ^ (7 * (value.toInt.natAbs.log2 / 7 + 1)) :=
    Nat.pow_le_pow_right (by decide) (by omega)
  rw [Nat.pow_mul] at hpow
  have hbound : (value.toInt.natAbs : Int) < 128 ^ (value.toInt.natAbs.log2 / 7 + 1) := by
    exact_mod_cast Nat.lt_of_lt_of_le hlog hpow
  omega

section Repetition

variable {item : Parser α} {encode : α → List UInt8}

theorem many_reads (values : List α) (h : ∀ value ∈ values, Reads item (encode value) value) :
    Reads (many item values.length) (values.map encode).flatten values := by
  induction values with
  | nil => exact Reads.pure []
  | cons first rest ih =>
    have hrest := ih fun value hmem => h value (mem_cons_of_mem _ hmem)
    exact (h first mem_cons_self).bind (hrest.map (first :: ·))

theorem vector_reads (hcount : values.length < 2 ^ 32)
    (h : ∀ value ∈ values, Reads item (encode value) value) :
    Reads (vector item) (Leb128.unsigned values.length ++ (values.map encode).flatten) values :=
  (index_reads hcount).bind (many_reads values h)

theorem bytes_reads (hcount : bytes.length < 2 ^ 32) :
    Reads (vector byte) (Encode.sized bytes) bytes := by
  have hbyte : ∀ value ∈ bytes, Reads byte [value] value := fun _ _ _ => rfl
  have h := vector_reads hcount hbyte
  rwa [← flatMap_def, flatMap_singleton'] at h

theorem sized_reads {content : Parser α} (hcount : bytes.length < 2 ^ 32)
    (h : Reads content bytes value) : Reads (sized content) (Encode.sized bytes) value :=
  (bytes_reads hcount).found h.whole

end Repetition

@[simp] theorem unsigned_ne_nil (n : Nat) : Leb128.unsigned n ≠ [] := by
  rw [Leb128.unsigned]
  cases n.log2 / 7 with
  | zero => simp [Leb128.unsignedBytes]
  | succ more =>
    rw [Leb128.unsignedBytes]
    split <;> simp

@[simp] theorem sized_ne_nil (bytes : List UInt8) : Encode.sized bytes ≠ [] := by
  simp [Encode.sized]

theorem length_le_sized (bytes : List UInt8) : bytes.length ≤ (Encode.sized bytes).length := by
  simp [Encode.sized]

theorem length_le_flatten {items : List (List UInt8)} (h : ∀ bytes ∈ items, bytes ≠ []) :
    items.length ≤ items.flatten.length := by
  induction items with
  | nil => simp
  | cons first rest ih =>
    have hfirst := length_pos_iff.2 (h first mem_cons_self)
    have hrest := ih fun bytes hmem => h bytes (mem_cons_of_mem _ hmem)
    simp only [length_cons, flatten_cons, length_append]
    omega

/-- A section is read back when its bytes can be counted and its items are read back. -/
theorem sectionOf_reads {item : Parser α} {encode : α → List UInt8} (id : UInt8)
    (hcount : (Encode.Section.mk id (values.map encode)).content.length < 2 ^ 32)
    (hempty : ∀ bytes ∈ values.map encode, bytes ≠ [])
    (hitem : ∀ value ∈ values, (encode value).length < 2 ^ 32 → Reads item (encode value) value) :
    Reads (sectionOf id item) (Encode.Section.mk id (values.map encode)).bytes values := by
  have hcontent : (Encode.Section.mk id (values.map encode)).content =
      Leb128.unsigned values.length ++ (values.map encode).flatten := by
    simp [Encode.Section.content]
  have hflatten : (values.map encode).flatten.length < 2 ^ 32 := by
    rw [hcontent, length_append] at hcount
    omega
  have hvalues : values.length < 2 ^ 32 := by
    have hle := length_le_flatten hempty
    rw [length_map] at hle
    omega
  have hitems : ∀ value ∈ values, Reads item (encode value) value := by
    intro value hmem
    refine hitem value hmem (Nat.lt_of_le_of_lt ?_ hflatten)
    exact (sublist_flatten_of_mem (mem_map_of_mem hmem)).length_le
  have hbody : Reads (sized (vector item))
      (Encode.sized (Encode.Section.mk id (values.map encode)).content) values :=
    sized_reads hcount (hcontent ▸ vector_reads hvalues hitems)
  intro rest
  exact (if_pos rfl).trans ((expect_reads id).bind hbody rest)

theorem toList_loop_eq (bytes : ByteArray) (i : Nat) (read : List UInt8) :
    ByteArray.toList.loop bytes i read = read.reverse ++ bytes.data.toList.drop i := by
  fun_induction ByteArray.toList.loop bytes i read with
  | case1 i read hlt ih =>
    have hlt' : i < bytes.data.toList.length := hlt
    have hget : bytes.get! i = bytes.data.toList[i] := by
      rw [ByteArray.get!, getElem!_pos bytes.data i hlt]
      rfl
    rw [ih, drop_eq_getElem_cons hlt', hget]
    simp
  | case2 i read hge =>
    have hge' : bytes.data.toList.length ≤ i := Nat.le_of_not_lt hge
    rw [drop_eq_nil_of_le hge', append_nil]

theorem fromUTF8?_toUTF8 (text : String) :
    String.fromUTF8? text.toUTF8.toList.toByteArray = some text := by
  have hbytes : text.toUTF8.toList.toByteArray = text.toUTF8 := by
    ext1
    rw [data_toByteArray, ByteArray.toList, toList_loop_eq]
    rfl
  rw [hbytes]
  exact dif_pos text.isValidUTF8

theorem name_reads {text : String} (h : (Encode.name text).length < 2 ^ 32) :
    Reads name (Encode.name text) text :=
  (bytes_reads (Nat.lt_of_le_of_lt (length_le_sized _) h)).found (fromUTF8?_toUTF8 text)

end Decode

namespace Encode

mutual

/-- The indices in an instruction are below `2 ^ 32`. -/
def Fits : Op → Prop
  | .localGet index => index < 2 ^ 32
  | .localSet index => index < 2 ^ 32
  | .localTee index => index < 2 ^ 32
  | .call index => index < 2 ^ 32
  | .block body => AllFit body
  | .loop body => AllFit body
  | .cond _ thenBody elseBody => AllFit thenBody ∧ AllFit elseBody
  | _ => True

/-- The indices in a listing are below `2 ^ 32`. -/
def AllFit : List Op → Prop
  | [] => True
  | first :: rest => Fits first ∧ AllFit rest

end

end Encode

namespace Decode

open Encode (Fits AllFit)

variable {body : List Op} {count : Nat}

def Ending.byte : Ending → UInt8
  | .block => Encode.endByte
  | .branch => Encode.elseByte

theorem blockType_reads (yields : Bool) :
    Reads blockType [if yields then Encode.wordType else Encode.emptyType] yields := by
  cases yields <;> exact fun _ => rfl

theorem memoryOperand_reads (offset : UInt32) :
    Reads memoryOperand (Encode.memoryOperand offset) offset := by
  have halign : Reads index (Leb128.unsigned 2) 2 := index_reads (by decide)
  exact halign.bind ((index32_reads offset).guarded rfl)

theorem closed_reads {inner : Parser (List Op × Ending)} (h : Reads inner bytes (body, .block)) :
    Reads (closed inner) bytes body :=
  h.found rfl

/-- The bytes of an instruction start with its own byte, and the others read back as its operands
when listings inside of it may take as many steps as there are bytes. -/
def OpReads (i : Op) : Prop :=
  ∃ code bytes, Encode.op i = code :: bytes ∧ ending? code = none ∧
    ∀ depth, bytes.length ≤ depth → Reads (operands (listing depth) code) bytes i

theorem listing_cons_reads {first : Op} {rest : List Op} {ending : Ending} {depth : Nat}
    (hfirst : OpReads first) (hdepth : (Encode.op first).length ≤ depth + 1)
    (hrest : Reads (listing depth) bytes (rest, ending)) :
    Reads (listing (depth + 1)) (Encode.op first ++ bytes) (first :: rest, ending) := by
  obtain ⟨code, operandBytes, hop, hcode, hoperands⟩ := hfirst
  rw [hop] at hdepth ⊢
  refine Reads.byteThen ?_
  rw [hcode]
  refine (hoperands depth (by simpa using hdepth)).bind ?_
  exact hrest.map fun found => (first :: found.1, found.2)

mutual

theorem op_reads : ∀ i : Op, Fits i → OpReads i := by
  intro i hfits
  cases i with
  | const value =>
    refine ⟨0x41, _, rfl, rfl, fun depth _ => ?_⟩
    have h := (signed_reads value).map fun n => (.const (Word.ofInt n) : Op)
    rwa [show Word.ofInt value.toInt = value from Int32.ofInt_toInt value] at h
  | localGet index => exact ⟨0x20, _, rfl, rfl, fun _ _ => (index_reads hfits).map InstrOf.localGet⟩
  | localSet index => exact ⟨0x21, _, rfl, rfl, fun _ _ => (index_reads hfits).map InstrOf.localSet⟩
  | localTee index => exact ⟨0x22, _, rfl, rfl, fun _ _ => (index_reads hfits).map InstrOf.localTee⟩
  | load offset =>
      exact ⟨0x28, _, rfl, rfl, fun _ _ => (memoryOperand_reads offset).map InstrOf.load⟩
  | store offset =>
      exact ⟨0x36, _, rfl, rfl, fun _ _ => (memoryOperand_reads offset).map InstrOf.store⟩
  | numeric code => cases code <;> exact ⟨_, [], rfl, rfl, fun _ _ _ => rfl⟩
  | eqz => exact ⟨0x45, [], rfl, rfl, fun _ _ => Reads.pure _⟩
  | memorySize => exact ⟨0x3f, [0x00], rfl, rfl, fun _ _ _ => rfl⟩
  | memoryGrow => exact ⟨0x40, [0x00], rfl, rfl, fun _ _ _ => rfl⟩
  | call index => exact ⟨0x10, _, rfl, rfl, fun _ _ => (index_reads hfits).map InstrOf.call⟩
  | drop => exact ⟨0x1a, [], rfl, rfl, fun _ _ => Reads.pure _⟩
  | ret => exact ⟨0x0f, [], rfl, rfl, fun _ _ => Reads.pure _⟩
  | unreachable => exact ⟨0x00, [], rfl, rfl, fun _ _ => Reads.pure _⟩
  | nop => exact ⟨0x01, [], rfl, rfl, fun _ _ => Reads.pure _⟩
  | block body =>
    refine ⟨0x02, _, rfl, rfl, fun depth hdepth => ?_⟩
    have hinner := listing_reads body hfits .block depth (by simp at hdepth; omega)
    exact (expect_reads 0x40).bind ((closed_reads hinner).map InstrOf.block)
  | loop body =>
    refine ⟨0x03, _, rfl, rfl, fun depth hdepth => ?_⟩
    have hinner := listing_reads body hfits .block depth (by simp at hdepth; omega)
    exact (expect_reads 0x40).bind ((closed_reads hinner).map InstrOf.loop)
  | cond yields thenBody elseBody =>
    cases elseBody with
    | nil =>
      refine ⟨0x04, [if yields then Encode.wordType else Encode.emptyType] ++
        ((Encode.ops thenBody ++ [Ending.block.byte]) ++ []), by simp [Encode.op, Ending.byte], rfl,
        fun depth hdepth => ?_⟩
      have hthen := listing_reads thenBody hfits.1 .block depth (by simp at hdepth; omega)
      exact (blockType_reads yields).bind (hthen.bind (Reads.pure _))
    | cons first rest =>
      refine ⟨0x04, [if yields then Encode.wordType else Encode.emptyType] ++
        ((Encode.ops thenBody ++ [Ending.branch.byte]) ++
          (Encode.ops (first :: rest) ++ [Ending.block.byte])), by simp [Encode.op,
            Ending.byte], rfl,
        fun depth hdepth => ?_⟩
      simp only [length_append, length_singleton] at hdepth
      have hthen := listing_reads thenBody hfits.1 .branch depth (by omega)
      have helse := listing_reads (first :: rest) hfits.2 .block depth (by omega)
      refine (blockType_reads yields).bind (hthen.bind ?_)
      exact (closed_reads helse).map (InstrOf.cond yields thenBody)
  | br depth => exact ⟨0x0c, _, rfl, rfl, fun _ _ => (index32_reads depth).map InstrOf.br⟩
  | brIf depth => exact ⟨0x0d, _, rfl, rfl, fun _ _ => (index32_reads depth).map InstrOf.brIf⟩

theorem listing_reads : ∀ body : List Op, AllFit body → ∀ (ending : Ending) (depth : Nat),
    (Encode.ops body).length < depth →
      Reads (listing depth) (Encode.ops body ++ [ending.byte]) (body, ending) := by
  intro body hfits ending depth hdepth
  obtain ⟨depth, rfl⟩ : ∃ below, depth = below + 1 := ⟨depth - 1, by omega⟩
  cases body with
  | nil => cases ending <;> exact fun _ => rfl
  | cons first rest =>
    have hpos : 0 < (Encode.op first).length := by
      obtain ⟨code, bytes, hop, -⟩ := op_reads first hfits.1
      simp [hop]
    rw [Encode.ops, length_append] at hdepth
    rw [Encode.ops, append_assoc]
    refine listing_cons_reads (op_reads first hfits.1) (by omega) ?_
    exact listing_reads rest hfits.2 ending depth (by omega)

end

theorem expr_reads (hfits : AllFit body) :
    Reads expr (Encode.ops body ++ [Encode.endByte]) body := by
  intro rest
  have hdepth : (Encode.ops body).length <
      (Encode.ops body ++ [Encode.endByte] ++ rest).length := by
    simp only [length_append, length_singleton]
    omega
  exact closed_reads (listing_reads body hfits .block _ hdepth) rest

theorem words_reads (h : count < 2 ^ 32) :
    Reads (vector wordType) (Encode.sized (List.replicate count Encode.wordType))
      (List.replicate count ()) := by
  have hitem : ∀ value ∈ List.replicate count (), Reads wordType [Encode.wordType] value :=
    fun _ _ => expect_reads _
  have hcount : (List.replicate count ()).length < 2 ^ 32 := by simpa using h
  have hread := vector_reads hcount hitem
  simpa [Encode.sized] using hread

theorem funcType_reads {type : FuncType} (h : (Encode.funcType type).length < 2 ^ 32) :
    Reads funcType (Encode.funcType type) type := by
  obtain ⟨params, returnsValue⟩ := type
  have hparams : params < 2 ^ 32 := by
    have hle := length_le_sized (List.replicate params Encode.wordType)
    simp only [Encode.funcType, length_append, length_replicate] at h hle
    omega
  have hresults : (if returnsValue then [Encode.wordType] else []) =
      List.replicate (if returnsValue then 1 else 0) Encode.wordType := by
    cases returnsValue <;> rfl
  have hread : Reads (vector wordType)
      (Encode.sized (if returnsValue then [Encode.wordType] else []))
      (List.replicate (if returnsValue then 1 else 0) ()) := by
    rw [hresults]
    exact words_reads (by cases returnsValue <;> decide)
  rw [Encode.funcType, append_assoc]
  refine (expect_reads 0x60).bind ((words_reads hparams).bind ?_)
  rw [← append_nil (Encode.sized _)]
  refine hread.bind (Reads.guarded (by cases returnsValue <;> decide) ?_)
  cases returnsValue <;> simpa using Reads.pure _

theorem limits_reads (bounds : Limits) : Reads limits (Encode.limits bounds) bounds := by
  obtain ⟨minimum, maximum⟩ := bounds
  cases maximum with
  | none => exact Reads.byteThen ((index32_reads minimum).map (Limits.mk · none))
  | some maximum =>
    refine Reads.byteThen ((index32_reads minimum).bind ?_)
    exact (index32_reads maximum).map fun maximum => Limits.mk minimum (some maximum)

/-- The type index of an imported function is below `2 ^ 32`. -/
def ImportFits (entry : Import) : Prop :=
  ∀ typeIndex, entry.kind = .function typeIndex → typeIndex < 2 ^ 32

theorem importEntry_reads {entry : Import} (hfits : ImportFits entry)
    (h : (Encode.importEntry entry).length < 2 ^ 32) :
    Reads importEntry (Encode.importEntry entry) entry := by
  obtain ⟨owner, text, kind⟩ := entry
  simp only [Encode.importEntry, length_append] at h
  simp only [Encode.importEntry, append_assoc]
  refine (name_reads (by omega)).bind ((name_reads (by omega)).bind ?_)
  refine Reads.map ?_ (Import.mk owner text)
  cases kind with
  | function typeIndex => exact Reads.byteThen ((index_reads (hfits _ rfl)).map ImportKind.function)
  | memory bounds => exact Reads.byteThen ((limits_reads bounds).map ImportKind.memory)

def ExportFits (entry : Export) : Prop :=
  ∀ index, entry.kind = .function index → index < 2 ^ 32

theorem exportEntry_reads {entry : Export} (hfits : ExportFits entry)
    (h : (Encode.exportEntry entry).length < 2 ^ 32) :
    Reads exportEntry (Encode.exportEntry entry) entry := by
  obtain ⟨text, kind⟩ := entry
  simp only [Encode.exportEntry, length_append] at h
  simp only [Encode.exportEntry]
  refine (name_reads (by omega)).bind ?_
  refine Reads.map ?_ (Export.mk text)
  cases kind with
  | function index => exact Reads.byteThen ((index_reads (hfits _ rfl)).map ExportKind.function)
  | memory => exact fun _ => rfl

/-- The locals of a body and the indices in it are below `2 ^ 32`. -/
structure CodeFits (code : CodeEntry) : Prop where
  locals : code.locals < 2 ^ 32
  body : AllFit code.body

theorem localGroups_reads (h : count < 2 ^ 32) :
    Reads (vector localGroup) (Encode.localGroups count) (if count = 0 then [] else [count]) := by
  by_cases hzero : count = 0
  · subst hzero
    exact fun _ => rfl
  · have hgroup : ∀ value ∈ [count],
        Reads localGroup (Leb128.unsigned value ++ [Encode.wordType]) value := by
      intro value hmem
      obtain rfl := mem_singleton.1 hmem
      exact (index_reads h).bind ((expect_reads _).map fun _ => value)
    have hone : Leb128.unsigned 1 = [0x01] := rfl
    have hread := vector_reads (by simp) hgroup
    simpa [Encode.localGroups, hzero, hone] using hread

theorem codeEntry_reads {code : CodeEntry} (hfits : CodeFits code)
    (h : (Encode.codeEntry code).length < 2 ^ 32) :
      Reads codeEntry (Encode.codeEntry code) code := by
  obtain ⟨count, body⟩ := code
  have hsum : (if count = 0 then [] else [count]).sum = count := by
    by_cases hzero : count = 0 <;> simp [hzero]
  refine sized_reads (Nat.lt_of_le_of_lt (length_le_sized _) h) ?_
  rw [append_assoc]
  refine (localGroups_reads hfits.locals).bind (Reads.guarded ?_ ?_)
  · rw [hsum]
    exact hfits.locals
  · rw [hsum]
    exact (expr_reads hfits.body).map (CodeEntry.mk count)

theorem dataEntry_reads (h : (Encode.dataEntry bytes).length < 2 ^ 32) :
    Reads dataEntry (Encode.dataEntry bytes) bytes := by
  have hzero : Reads index [0x00] 0 := fun _ => rfl
  have haddress : Reads expr [0x41, 0x00, Encode.endByte] [.const 0] := fun _ => rfl
  have hle := length_le_sized bytes
  simp only [Encode.dataEntry, length_append] at h
  refine hzero.bind (Reads.guarded rfl (haddress.bind (Reads.guarded rfl ?_)))
  exact bytes_reads (by omega)

theorem expectAll_reads (bytes : List UInt8) : Reads (expectAll bytes) bytes () := by
  induction bytes with
  | nil => exact Reads.pure ()
  | cons first rest ih => exact (expect_reads first).bind ih

theorem atMostOne_reads (item : Option α) : Reads (atMostOne item.toList) [] item := by
  cases item <;> exact Reads.pure _

end Decode

namespace Module

open Decode Encode

/-- The counts and indices of a module are below `2 ^ 32`, and each of its functions has a body. -/
structure Fits (m : Module) : Prop where
  bytes : m.bytes.length < 2 ^ 32
  imports : ∀ entry ∈ m.imports, ImportFits entry
  functions : ∀ typeIndex ∈ m.functions, typeIndex < 2 ^ 32
  exports : ∀ entry ∈ m.exports, ExportFits entry
  codes : ∀ code ∈ m.codes, CodeFits code
  bodies : m.functions.length = m.codes.length

theorem content_length_lt {m : Module} (h : m.bytes.length < 2 ^ 32) {part : Section}
    (hpart : part ∈ m.sections) : part.content.length < 2 ^ 32 := by
  have hle : part.bytes.length ≤ (m.sections.flatMap Section.bytes).length :=
    (sublist_flatten_of_mem (mem_map_of_mem hpart)).length_le
  have hcontent := length_le_sized part.content
  simp only [Module.bytes, length_append] at h
  simp only [Section.bytes, length_cons] at hle
  omega

theorem items_ne_nil (m : Module) : ∀ part ∈ m.sections, ∀ bytes ∈ part.items, bytes ≠ [] := by
  have hlimits : ∀ bounds, Encode.limits bounds ≠ [] := by
    rintro ⟨minimum, _ | maximum⟩ <;> simp [Encode.limits]
  simp [sections, hlimits, Encode.funcType, Encode.importEntry, Encode.name, Encode.exportEntry,
    Encode.codeEntry, Encode.dataEntry]

theorem items_le_bytes (m : Module) :
    (m.sections.map fun part => part.items.length).sum ≤ m.bytes.length := by
  have hsections : ∀ parts : List Section, (∀ part ∈ parts, ∀ bytes ∈ part.items, bytes ≠ []) →
      (parts.map fun part => part.items.length).sum ≤ (parts.flatMap Section.bytes).length := by
    intro parts hempty
    induction parts with
    | nil => simp
    | cons part rest ih =>
      have hrest := ih fun part hmem => hempty part (mem_cons_of_mem _ hmem)
      have hitems := length_le_flatten (hempty part mem_cons_self)
      have hcontent := length_le_sized part.content
      rw [Section.content, length_append] at hcontent
      simp only [map_cons, sum_cons, flatMap_cons, length_append, Section.bytes,
        length_cons, Section.content]
      omega
  have hle := hsections m.sections m.items_ne_nil
  rw [Module.bytes, length_append]
  omega

/-- **Module bytes read back.** A module whose counts and indices fit is what its bytes decode
to. -/
theorem decode_bytes {m : Module} (h : m.Fits) : Module.decode m.bytes = some m := by
  have hcontent : ∀ part ∈ m.sections, part.content.length < 2 ^ 32 :=
    fun part hpart => content_length_lt h.bytes hpart
  have hempty := m.items_ne_nil
  simp only [sections, forall_mem_cons] at hcontent hempty
  obtain ⟨htypes, himports, hfunctions, hmemory, hexports, hcodes, hdata, -⟩ := hcontent
  obtain ⟨htypes', himports', hfunctions', hmemory', hexports', hcodes', hdata', -⟩ := hempty
  refine Reads.whole ?_
  simp only [Module.bytes, sections, flatMap_cons, flatMap_nil]
  refine (expectAll_reads _).bind ?_
  refine (sectionOf_reads 1 htypes htypes' fun _ _ => funcType_reads).bind ?_
  refine (sectionOf_reads 2 himports himports' fun entry hmem =>
    importEntry_reads (h.imports entry hmem)).bind ?_
  refine (sectionOf_reads 3 hfunctions hfunctions' fun typeIndex hmem _ =>
    index_reads (h.functions typeIndex hmem)).bind ?_
  refine (sectionOf_reads 5 hmemory hmemory' fun bounds _ _ => limits_reads bounds).bind ?_
  refine (sectionOf_reads 7 hexports hexports' fun entry hmem =>
    exportEntry_reads (h.exports entry hmem)).bind ?_
  refine (sectionOf_reads 10 hcodes hcodes' fun code hmem =>
    codeEntry_reads (h.codes code hmem)).bind ?_
  refine (sectionOf_reads 11 hdata hdata' fun _ _ => dataEntry_reads).bind ?_
  refine Reads.guarded h.bodies ?_
  exact (atMostOne_reads m.memory).bind ((atMostOne_reads m.data).bind (Reads.pure _))

end Module

end TypedWasm
