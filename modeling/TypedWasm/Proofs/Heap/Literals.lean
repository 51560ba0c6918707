import TypedWasm.Proofs.Heap.Delivery
import TypedWasm.Proofs.Scalar.Lowered

/-!
# Strings and big integers

A literal that is no plain word becomes a block of constants. Reading the block gives the literal
back, and so does reading a big integer that the host made.
-/

namespace TypedWasm

open Block Int Int32 List Nat UInt32 Word

variable {words : List Word} {text : String} {n value : Int}

namespace Limbs

theorem toNat_digits {count n : Nat} (h : n < base ^ count) : toNat (digits count n) = n := by
  induction count generalizing n with
  | zero =>
    have hzero : n = 0 := by simpa using h
    rw [digits, toNat, hzero]
  | succ count ih =>
    rw [digits]
    by_cases hzero : n = 0
    · rw [if_pos hzero, toNat, hzero]
    · have hrest : n / base < base ^ count := by
        rw [Nat.div_lt_iff_lt_mul (by decide), ← Nat.pow_succ]
        exact h
      have hdigit : (UInt32.ofNat (n % base)).toNat = n % base := by
        rw [toNat_ofNat']
        exact mod_eq_of_lt (mod_lt _ (by decide))
      rw [if_neg hzero, toNat, hdigit, ih hrest, mod_add_div]

theorem toNat_ofNat (n : Nat) : toNat (ofNat n) = n := by
  apply toNat_digits
  have hbase : base = 2 ^ 32 := rfl
  rw [hbase, ← Nat.pow_mul]
  calc n < 2 ^ (n.log2 + 1) := lt_log2_self
    _ ≤ 2 ^ (32 * (n.log2 / 32 + 1)) := Nat.pow_le_pow_right (by decide) (by omega)

theorem digits_zero (count : Nat) : digits count 0 = [] := by cases count <;> rfl

theorem ofNat_of_lt {n : Nat} (h : n < base) :
    ofNat n = if n = 0 then [] else [UInt32.ofNat n] := by
  rw [ofNat, digits, div_eq_of_lt h, digits_zero, mod_eq_of_lt h]

theorem ofInt_ne_nil (h : n ≠ 0) : ofInt n ≠ [] := by
  rw [ofInt, ofNat, digits, if_neg (natAbs_ne_zero.2 h)]
  exact cons_ne_nil _ _

theorem sign_signedCount (n : Int) : (signedCount n).sign = n.sign := by
  by_cases h : n = 0
  · rw [h]
    rfl
  · have hlength : ((ofInt n).length : Int).sign = 1 :=
      sign_eq_one_of_pos (by exact_mod_cast length_pos_of_ne_nil (ofInt_ne_nil h))
    rw [signedCount, Int.sign_mul, hlength, Int.mul_one, sign_sign]

theorem natAbs_signedCount (n : Int) : (signedCount n).natAbs = (ofInt n).length := by
  by_cases h : n = 0
  · rw [h]
    rfl
  · rw [signedCount, natAbs_mul, natAbs_sign_of_ne_zero h, natAbs_natCast, Nat.one_mul]

theorem toInt_ofInt (n : Int) : toInt (signedCount n) (ofInt n) = n := by
  rw [toInt, sign_signedCount, ofInt, toNat_ofNat, sign_mul_natAbs]

end Limbs

theorem toInt_ofInt_of_natAbs_lt (h : n.natAbs < 2 ^ 31) : (Word.ofInt n).toInt = n := by
  rw [Word.ofInt, toInt_ofInt_of_le] <;> omega

theorem Word.toInt_ofInt_of_fits (h : Word.fits n = true) : (Word.ofInt n).toInt = n := by
  simp only [Word.fits, Bool.and_eq_true, decide_eq_true_eq] at h
  rw [Word.ofInt, toInt_ofInt_of_le] <;> omega

namespace Machine

variable {m : Machine} {base : Nat}

theorem readBigint_of_holds (hbase : base < 2 ^ 32) (hlimbs : (Limbs.ofInt value).length < 2 ^ 31)
    (h : m.memory.Holds base (Lowering.bigintWords value)) :
    m.readBigint (Word.ofNat base) = .ok value := by
  have hcount : (Word.ofInt (Limbs.signedCount value)).toInt = Limbs.signedCount value :=
    toInt_ofInt_of_natAbs_lt (by rw [Limbs.natAbs_signedCount]; exact hlimbs)
  have hplace : effective (Word.ofNat base) Block.bigintHeader = base + 4 := by
    rw [effective, toAddress_ofNat hbase]
    rfl
  have hrest : m.memory.Holds (base + 4) ((Limbs.ofInt value).map Word.ofUInt32) := h.tail
  have hread := readWords_of_holds hrest
  rw [length_map] at hread
  have hback : ((Limbs.ofInt value).map Word.ofUInt32).map Int32.toUInt32 = Limbs.ofInt value := by
    simp [Word.ofUInt32, Function.comp_def]
  have hload : m.loadWord (Word.ofNat base) Block.countOffset =
      .ok (Word.ofInt (Limbs.signedCount value)) := loadWord_first h rfl hbase
  rw [readBigint, hload]
  simp only [bind, Except.bind, hcount, Limbs.natAbs_signedCount, hplace, hread, hback,
    Limbs.toInt_ofInt]
  rfl

theorem charOf_ofUInt32 (c : Char) : charOf (Word.ofUInt32 c.val) = c := by
  have hcode : (Word.ofUInt32 c.val).toAddress = c.toNat := by
    show (c.val.toInt32.toUInt32).toNat = c.val.toNat
    simp
  have hvalid : c.toNat < 0xD800 ∨ (0xDFFF < c.toNat ∧ c.toNat < 0x110000) := c.valid
  simp only [charOf, hcode]
  rw [if_pos hvalid, Char.ofNat_toNat]

/-- The characters of a string are read back from its block, whatever their codes are. -/
theorem readString_of_codes {codes : List Word} (hbase : base < 2 ^ 32)
    (hlength : codes.length < 2 ^ 32) (h : m.memory.Holds base (Word.ofNat codes.length :: codes)) :
    m.readString (Word.ofNat base) = .ok (String.ofList (codes.map charOf)) := by
  have hplace : effective (Word.ofNat base) Block.stringHeader = base + 4 := by
    rw [effective, toAddress_ofNat hbase]
    rfl
  have hread := readWords_of_holds h.tail
  have hload : m.loadWord (Word.ofNat base) Block.lengthOffset = .ok (Word.ofNat codes.length) :=
    loadWord_first h rfl hbase
  rw [readString, hload]
  simp only [bind, Except.bind, toAddress_ofNat hlength, hplace, hread]
  rfl

theorem readString_of_holds (hbase : base < 2 ^ 32) (hlength : text.toList.length < 2 ^ 32)
    (h : m.memory.Holds base
      (Word.ofNat text.toList.length :: text.toList.map fun c => Word.ofUInt32 c.val)) :
    m.readString (Word.ofNat base) = .ok text := by
  have hback : (text.toList.map fun c => Word.ofUInt32 c.val).map charOf = text.toList := by
    simp [charOf_ofUInt32, Function.comp_def]
  rw [← length_map] at hlength h
  rw [readString_of_codes hbase hlength h, hback, String.ofList_toList]

/-- The elements of a list are read back from its block. Its tag is not looked at. -/
theorem readList_of_holds {bound : Word} (hbase : base < 2 ^ 32) (hlength : words.length < 2 ^ 32)
    (h : m.memory.Holds (base + 4) (Word.ofNat words.length :: bound :: words)) :
    m.readList (Word.ofNat base) = .ok words := by
  have helements : effective (Word.ofNat base) Block.headerSize = base + 4 + 4 + 4 := by
    rw [effective, toAddress_ofNat hbase]
    rfl
  have hload : m.loadWord (Word.ofNat base) Block.sizeOffset = .ok (Word.ofNat words.length) :=
    loadWord_first h rfl hbase
  rw [readList, hload]
  simp only [bind, Except.bind, toAddress_ofNat hlength, helements]
  exact readWords_of_holds h.tail.tail

end Machine

theorem Offset.add_eq_ok_iff {a b sum : UInt32} :
    Offset.add a b = .ok sum ↔ sum.toNat = a.toNat + b.toNat := by
  have hbound := sum.toNat_lt
  have hsize : UInt32.size = 2 ^ 32 := rfl
  rw [Offset.add]
  split
  · next hfits =>
    rw [Except.ok.injEq, ← UInt32.toNat_inj, UInt32.toNat_add, mod_eq_of_lt (by omega)]
    exact eq_comm
  · next hfits =>
    constructor
    · intro h
      cases h
    · intro h
      omega

namespace Block

variable {index offset count size : UInt32}

theorem toNat_wordOffset (h : wordOffset index = .ok offset) : offset.toNat = 4 * index.toNat :=
  Offset.mul_wordSize_eq_ok_iff.1 h

theorem toNat_listElement (h : listElement index = .ok offset) :
    offset.toNat = 4 * (3 + index.toNat) := by
  obtain ⟨start, hstart, hsum⟩ := Failing.bind_eq_ok_iff.1 h
  have hheader : headerSize.toNat = 12 := rfl
  rw [Offset.add_eq_ok_iff.1 hsum, toNat_wordOffset hstart, hheader]
  omega

theorem toNat_stringSize (h : stringSize count = .ok size) :
    size.toNat = 4 * (1 + count.toNat) := by
  obtain ⟨words, hwords, hsize⟩ := Failing.bind_eq_ok_iff.1 h
  have hone : (1 : UInt32).toNat = 1 := rfl
  rw [toNat_wordOffset hsize, Offset.add_eq_ok_iff.1 hwords, hone, Nat.add_comm]

theorem toNat_listSize (h : listSize count = .ok size) : size.toNat = 4 * (3 + count.toNat) := by
  obtain ⟨words, hwords, hsize⟩ := Failing.bind_eq_ok_iff.1 h
  have hthree : (3 : UInt32).toNat = 3 := rfl
  rw [toNat_wordOffset hsize, Offset.add_eq_ok_iff.1 hwords, hthree, Nat.add_comm]

end Block

namespace Heap

open Lowering

variable {context : Context} {progress later : Progress} {code : Code} {hosted : Bool}
  {offsetOf : UInt32 → Checked UInt32} {shift : Nat}

theorem length_bigintWords (value : Int) :
    (bigintWords value).length = (Limbs.ofInt value).length + 1 := by
  rw [bigintWords, length_cons, length_map]

theorem allocate_eq_ok_iff {size : UInt32} {temp : String} :
    (allocate size).run context progress = (.ok (temp, code), later) ↔
      temp = tempName progress.temps ∧ code = Allocation.static size ++ [.localSet temp] ∧
        later = { progress with temps := progress.temps + 1 } := by
  simp [allocate, newTemp, Lower.run, bind, Lower.bind, Pure.pure, Lower.pure]
  constructor
  · rintro ⟨⟨rfl, rfl⟩, rfl⟩
    exact ⟨rfl, rfl, rfl⟩
  · rintro ⟨rfl, rfl, rfl⟩
    exact ⟨⟨rfl, rfl⟩, rfl⟩

/-- Offsets of words that follow `shift` others. -/
def Consecutive (shift : Nat) (offsetOf : UInt32 → Checked UInt32) : Prop :=
  ∀ index offset, offsetOf index = .ok offset → offset.toNat = 4 * (shift + index.toNat)

theorem consecutive_wordOffset : Consecutive 0 Block.wordOffset := by
  intro index offset hoffset
  rw [Nat.zero_add]
  exact toNat_wordOffset hoffset

theorem Consecutive.index (h : Consecutive shift offsetOf) {index : Nat} (hindex : index ≤ 2 ^ 30)
    {offset : UInt32} (hoffset : offsetOf (UInt32.ofNat index) = .ok offset) :
    index < 2 ^ 30 ∧ offset.toNat = 4 * (shift + index) := by
  have hvalue := h _ offset hoffset
  have hlt := offset.toNat_lt
  rw [toNat_ofNat', mod_eq_of_lt (by omega)] at hvalue
  exact ⟨by omega, hvalue⟩

/-- Constants stored one after another. Their offsets all fit, so they are not too many. -/
theorem storeConstants_fills (hosted : Bool) (temp first : Nat) (htemp : temp < first)
    {words : List Word} {index : Nat} (hindex : index ≤ 2 ^ 30)
    (h : (storeConstants (tempName temp) index words).run context progress = (.ok code, later)) :
    later = progress ∧ index + words.length ≤ 2 ^ 30 ∧
      Fills hosted temp index words.length code first first 0 [] fun _ found => found = words := by
  induction words generalizing index code with
  | nil =>
    rw [storeConstants, Lower.pure_eq_ok_iff] at h
    obtain ⟨rfl, rfl⟩ := h
    exact ⟨rfl, hindex, fills_nil _ _ _ _⟩
  | cons word rest ih =>
    simp only [storeConstants, Lower.bind_eq_ok_iff, Lower.ofChecked_eq_ok_iff,
      Lower.pure_eq_ok_iff] at h
    obtain ⟨offset, between, ⟨hoffset, rfl⟩, stored, _, hrest, rfl, rfl⟩ := h
    obtain ⟨hsmall, hplace⟩ := consecutive_wordOffset.index hindex hoffset
    rw [Nat.zero_add] at hplace
    obtain ⟨rfl, hcount, hfills⟩ := ih hsmall hrest
    have hstore : Fills hosted temp index 1 (storeWord (tempName temp) offset [.const word])
        first first 0 [] _ := fills_store hplace (const_delivers hosted first word)
    refine ⟨rfl, by rw [length_cons]; omega, ?_⟩
    have hboth := hstore.append htemp (Nat.le_refl _) (Nat.le_refl _) hfills
    rw [length_cons, Nat.add_comm rest.length]
    refine hboth.imp ?_
    rintro m _ ⟨_, _, rfl, ⟨_, rfl, rfl⟩, rfl⟩
    rfl

/-- What the code of a block of constants is: its words fit, and its size counts all of them. -/
theorem constantBlock_eq_ok {head : Word} {rest : List Word}
    (h : (constantBlock Block.stringSize (head :: rest)).run context progress = (.ok code, later)) :
    ∃ size stored, later.temps = progress.temps + 1 ∧ size.toNat = 4 * (rest.length + 1) ∧
      rest.length < 2 ^ 30 ∧ (storeConstants (tempName progress.temps) 0 (head :: rest)).run context
        { progress with temps := progress.temps + 1 } = (.ok stored, later) ∧
      code = Allocation.static size ++ [.localSet (tempName progress.temps)] ++ stored ++
        [.localGet (tempName progress.temps)] := by
  simp only [constantBlock, tail_cons, Lower.bind_eq_ok_iff, Lower.ofChecked_eq_ok_iff,
    Prod.exists, allocate_eq_ok_iff, Lower.pure_eq_ok_iff] at h
  obtain ⟨size, _, ⟨hsize, rfl⟩, _, _, _, ⟨rfl, rfl, rfl⟩, stored, _, hstored, rfl, rfl⟩ := h
  obtain ⟨rfl, hcount, -⟩ := storeConstants_fills true progress.temps _ (lt_succ_self _)
    (Nat.zero_le _) hstored
  rw [length_cons] at hcount
  refine ⟨size, stored, rfl, ?_, by omega, hstored, rfl⟩
  rw [toNat_stringSize hsize, toNat_ofNat', mod_eq_of_lt (by omega), Nat.add_comm 1]

theorem constantBlock_delivers {head : Word} {rest : List Word} {result : Machine → Word → Prop}
    (h : (constantBlock Block.stringSize (head :: rest)).run context progress = (.ok code, later))
    (hread : ∀ (m : Machine) base, base < 2 ^ 32 → rest.length < 2 ^ 30 →
      m.memory.Holds base (head :: rest) → result m (Word.ofNat base)) :
    later.temps = progress.temps + 1 ∧
      Delivers hosted code progress.temps later.temps (4 * (rest.length + 1)) [] result := by
  obtain ⟨size, stored, htemps, hsize, hcount, hstored, rfl⟩ := constantBlock_eq_ok h
  obtain ⟨rfl, -, hfills⟩ := storeConstants_fills hosted progress.temps (progress.temps + 1)
    (lt_succ_self _) (Nat.zero_le _) hstored
  rw [← hsize, ← Nat.add_zero size.toNat]
  refine ⟨rfl, block_delivers (Nat.le_of_eq hsize.symm) (lt_succ_self _) hfills ?_⟩
  rintro m base _ hbase - hholds rfl
  rw [heapEnd] at hbase
  exact hread m base (by omega) hcount hholds

theorem stringWords_delivers
    (h : (constantBlock Block.stringSize (stringWords text)).run context progress =
      (.ok code, later)) :
    later.temps = progress.temps + 1 ∧
      Delivers hosted code progress.temps later.temps (4 * (1 + text.toList.length)) []
        fun m word => m.readString word = .ok text := by
  rw [Nat.add_comm 1, ← length_map fun c : Char => Word.ofUInt32 c.val]
  refine constantBlock_delivers h fun m base hbase hcount hholds => ?_
  rw [length_map] at hcount
  exact Machine.readString_of_holds hbase (by omega) hholds

theorem bigintWords_delivers {value : Int}
    (h : (constantBlock Block.bigintSize (bigintWords value)).run context progress =
      (.ok code, later)) :
    later.temps = progress.temps + 1 ∧
      Delivers hosted code progress.temps later.temps (4 * (bigintWords value).length) []
        fun m word => m.readBigint word = .ok value := by
  refine constantBlock_delivers h fun m base hbase hcount hholds => ?_
  rw [length_map] at hcount
  exact Machine.readBigint_of_holds hbase (by omega) hholds

end Heap

end TypedWasm
