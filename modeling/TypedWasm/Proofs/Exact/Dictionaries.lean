import TypedWasm.Proofs.Exact.Blocks
import TypedWasm.Proofs.Exact.Strings

/-!
# Dictionaries

A dictionary is searched entry by entry, and the value of the first entry whose key matches is the
answer. The code of a dictionary literal stores the entries at the places where the search looks for
them.
-/

namespace TypedWasm

open Block Exec TypedWasm.Frame List Lower Machine Option Symbolic UInt32 Word

variable {entry : Word × Word} {index : Nat} {dict : Mapped}

/-- A dictionary: where its block is, for how many entries it has room, and its entries. -/
structure Mapped where
  address : Nat
  bound : Nat
  entries : List (Word × Word)

namespace Mapped

def pairs (entries : List (Word × Word)) : List Word :=
  entries.flatMap fun entry => [entry.1, entry.2]

def words (dict : Mapped) : List Word :=
  Word.ofNat dict.entries.length :: Word.ofNat dict.bound :: pairs dict.entries

def place (dict : Mapped) (index : Nat) : Nat := dict.address + 12 + 8 * index

@[simp] theorem length_pairs (entries : List (Word × Word)) :
    (pairs entries).length = 2 * entries.length := by
  induction entries with
  | nil => rfl
  | cons entry rest ih =>
    rw [pairs, flatMap_cons, length_append, ← pairs, ih]
    simp only [length_cons, length_nil]
    omega

theorem getElem?_pairs {entries : List (Word × Word)} (h : entries[index]? = some entry) :
    (pairs entries)[2 * index]? = some entry.1 ∧
      (pairs entries)[2 * index + 1]? = some entry.2 := by
  induction entries generalizing index with
  | nil => cases h
  | cons first rest ih =>
    cases index with
    | zero =>
      cases h
      exact ⟨rfl, rfl⟩
    | succ index => exact ih h

theorem getElem?_words (h : dict.entries[index]? = some entry) :
    dict.words[2 * index + 2]? = some entry.1 ∧ dict.words[2 * index + 3]? = some entry.2 :=
  getElem?_pairs h

/-- The value of the first entry whose key matches. If there is none, the key that was asked for is
reported. -/
def answer (entries : List (Word × Word)) (key : Word) (same : Word → Bool) : Except Trap Word :=
  match entries.find? fun entry => same entry.1 with
  | some entry => .ok entry.2
  | none => .error (.keyError key)

end Mapped

/-- A dictionary in memory. -/
structure Memory.DictAt (memory : Memory) (dict : Mapped) : Prop where
  tag : memory.word dict.address = Block.dictTag
  words : memory.Holds (dict.address + 4) dict.words
  fits : dict.entries.length ≤ dict.bound

section Reading

variable {m : Machine} {dict : Mapped} (h : m.memory.DictAt dict) (hsize : m.memory.size ≤ 2 ^ 32)
include h hsize

theorem Memory.DictAt.inside : dict.place dict.entries.length ≤ 2 ^ 32 := by
  have hinside := h.words.inside
  simp only [Mapped.words, length_cons, Mapped.length_pairs] at hinside
  rw [Mapped.place]
  omega

theorem Memory.DictAt.loadSize :
    m.loadWord (Word.ofNat dict.address) Block.sizeOffset =
      .ok (Word.ofNat dict.entries.length) := by
  have hinside := h.inside hsize
  rw [Mapped.place] at hinside
  have hsize : dict.words[0]? = some (Word.ofNat dict.entries.length) := rfl
  exact loadWord_held h.words hsize rfl (by omega)

theorem Memory.DictAt.loadEntry (hentry : dict.entries[index]? = some entry) :
    m.loadWord (Word.ofNat (dict.place index)) 0 = .ok entry.1 ∧
      m.loadWord (Word.ofNat (dict.place index)) wordSize = .ok entry.2 := by
  have hinside := h.inside hsize
  obtain ⟨hindex, -⟩ := List.getElem?_eq_some_iff.1 hentry
  obtain ⟨hkey, hvalue⟩ := Mapped.getElem?_words hentry
  rw [Mapped.place] at hinside
  refine ⟨loadWord_held h.words hkey ?_ ?_, loadWord_held h.words hvalue ?_ ?_⟩
  all_goals rw [Mapped.place]
  · show dict.address + 12 + 8 * index + 0 = _
    omega
  · omega
  · show dict.address + 12 + 8 * index + 4 = _
    omega
  · omega

end Reading

namespace HelperBody

variable {m : Machine} {frame : Frame} {dict : Mapped} {key flag : Word} {place : Nat}
    {same : Word → Bool}

/-- The locals of a search that has passed over `place` entries. -/
structure Searching (frame : Frame) (dict : Mapped) (key flag : Word) (place : Nat) : Prop where
  atDict : frame.get? "dict" = some (Word.ofNat dict.address)
  atKey : frame.get? "key" = some key
  atFlag : frame.get? "key_is_string" = some flag
  counts : Counts frame "i" "size" place dict.entries.length
  there : (frame.get? "entry").isSome

theorem Searching.next (h : Searching frame dict key flag place)
    (hplace : place < dict.entries.length) (entry : Word) :
    Searching ((frame.put "entry" entry).put "i" (Word.ofNat (place + 1))) dict key flag
      (place + 1) := by
  refine ⟨by simp [h.atDict], by simp [h.atKey], by simp [h.atFlag],
    ⟨by simp [h.counts.atIndex], by simp [h.counts.atCount], h.counts.small, hplace⟩,
    by simpa using h.there⟩

/-- The instruction that compares a key with the one that is asked for. -/
def matching (flag : Word) : Instr := if flag ≠ 0 then .callHelper .strEq else .numeric .eq

/-- Comparing tells whether a key matches, and changes nothing. -/
def Matches (m : Machine) (flag key : Word) (same : Word → Bool) (found : Word) : Prop :=
  ∀ frame, Ends [matching flag] ⟨m, frame, [key, found]⟩ .next
    ⟨m, frame, [Word.ofBool (same found)]⟩

/-- The locals once the address of an entry is known. -/
abbrev atEntry (frame : Frame) (dict : Mapped) (place : Nat) : Frame :=
  frame.put "entry" (Word.ofNat (dict.place place))

section Search

variable (hdict : m.memory.DictAt dict) (hsize : m.memory.size ≤ 2 ^ 32)
include hdict hsize

theorem matchEntry_ends (hframe : Searching frame dict key flag place)
    (hentry : dict.entries[place]? = some entry) (hmatches : Matches m flag key same entry.1) :
    Ends matchEntry ⟨m, frame, []⟩ .next
      ⟨m, atEntry frame dict place, [Word.ofBool (same entry.1)]⟩ := by
  obtain ⟨hplace, -⟩ := List.getElem?_eq_some_iff.1 hentry
  obtain ⟨old, hold⟩ := isSome_iff_exists.1 hframe.there
  have hload := (hdict.loadEntry hsize hentry).1
  have hat : (atEntry frame dict place).get? "entry" =
      some (Word.ofNat (dict.place place)) := by simp [hold]
  have hkey : (atEntry frame dict place).get? "key" = some key := by
    simp [hframe.atKey]
  have hflag : (atEntry frame dict place).get? "key_is_string" = some flag := by
    simp [hframe.atFlag]
  have hoperands : Ends [.localGet "entry", .load 0, .localGet "key"]
      ⟨m, atEntry frame dict place, []⟩ .next
      ⟨m, atEntry frame dict place, [key, entry.1]⟩ :=
    .straight (by simp [hat, hload, hkey])
  have hscale : dict.address + Block.headerSize.toNat + place * Block.entrySize.toNat =
      dict.place place := by
    show dict.address + 12 + place * 8 = dict.address + 12 + 8 * place
    omega
  have haddress : Ends (addressOf "dict" Block.headerSize "i" Block.entrySize "entry")
      ⟨m, frame, []⟩ .next _ :=
    addressOf_ends hframe.atDict hframe.counts.atIndex hold
  rw [hscale] at haddress
  rw [matchEntry, append_assoc]
  refine (leaveAt_stays hframe.counts hplace).append (haddress.append ?_)
  have hchosen : Ends [.localGet "key_is_string"] ⟨m, atEntry frame dict place, []⟩
      .next _ := localGet_ends hflag
  refine hchosen.append (.cond ?_ (by simp))
  have hcompare := hoperands.append (hmatches _)
  rw [matching] at hcompare
  split at hcompare
  · next hstring => rwa [if_pos hstring]
  · next hstring => rwa [if_neg hstring]

/-- The search from any entry on. The induction is on the entries that are left: a round goes on if
the entry does not match, and returns its value if it does. -/
theorem searchLoop_ends {rest : List (Word × Word)} (hrest : dict.entries.drop place = rest)
    (hmatches : ∀ entry ∈ rest, Matches m flag key same entry.1)
    (hframe : Searching frame dict key flag place) : ∃ frame', frame'.get? "key" = some key ∧
      Loops 0 searchRound ⟨m, frame, []⟩
        ((rest.find? fun entry => same entry.1).elim (.branch 0) fun _ => .ret)
      ⟨m, frame', ((rest.find? fun entry => same entry.1).map (·.2)).toList⟩ := by
  induction rest generalizing frame place with
  | nil =>
    have hwithin := hframe.counts.within
    obtain rfl : place = dict.entries.length := by
      have := drop_eq_nil_iff.1 hrest
      omega
    refine ⟨frame, hframe.atKey, .out ?_⟩
    simp only [searchRound, matchEntry, append_assoc]
    exact (leaveAt_leaves hframe.counts).stop (by simp) _
  | cons entry rest ih =>
    have hentry : dict.entries[place]? = some entry := by
      rw [← Nat.add_zero place, ← getElem?_drop, hrest]
      rfl
    obtain ⟨hplace, -⟩ := List.getElem?_eq_some_iff.1 hentry
    have hround := matchEntry_ends hdict hsize hframe hentry (hmatches entry mem_cons_self)
    cases hsame : same entry.1 with
    | true =>
      have hload := (hdict.loadEntry hsize hentry).2
      have hvalue : Ends [.when [.localGet "entry", .load wordSize, .ret]]
          ⟨m, atEntry frame dict place, [Word.ofBool (same entry.1)]⟩ .ret
          ⟨m, atEntry frame dict place, [entry.2]⟩ := by
        refine .cond ?_ (by simp)
        rw [if_pos (by rw [hsame]; decide)]
        have hloaded : Ends [.localGet "entry", .load wordSize]
            ⟨m, atEntry frame dict place, []⟩ .next
            ⟨m, atEntry frame dict place, [entry.2]⟩ :=
          .straight (by simp [hframe.there, hload])
        exact hloaded.append (.leave fun _ => rfl)
      have hbody := hround.append (hvalue.stop (by simp) (increment "i" ++ [.br 0]))
      have hfind : (entry :: rest).find? (fun entry => same entry.1) = some entry :=
        find?_cons_of_pos hsame
      rw [hfind, searchRound, append_assoc, append_assoc]
      exact ⟨_, by simp [hframe.atKey], .ret hbody⟩
    | false =>
      have hskip : Ends [.when [.localGet "entry", .load wordSize, .ret]]
          ⟨m, atEntry frame dict place, [Word.ofBool (same entry.1)]⟩ .next
          ⟨m, atEntry frame dict place, []⟩ :=
        .skip _ (ofBool_eq_zero.2 hsame)
      have hindex : (atEntry frame dict place).get? "i" = some (Word.ofNat place) := by
        simp [hframe.counts.atIndex]
      have hback : Ends [.br 0] ⟨m, (atEntry frame dict place).put "i"
          (Word.ofNat (place + 1)), []⟩ (.branch 0) _ := .leave fun _ => rfl
      have hbody := hround.append (hskip.append ((increment_ends hindex).append hback))
      obtain ⟨frame', hkey, hloop⟩ := ih (by rw [← tail_drop, hrest]; rfl)
        (fun next hnext => hmatches next (mem_cons_of_mem _ hnext)) (hframe.next hplace _)
      rw [find?_cons_of_neg (by simp [hsame])]
      rw [searchRound, append_assoc, append_assoc] at hloop ⊢
      exact ⟨frame', hkey, .again hbody hloop⟩

/-- **A search** answers with the first entry that matches, and changes no memory. -/
theorem dictGet_answers (hmatches : ∀ entry ∈ dict.entries, Matches m flag key same entry.1) :
    Answers m dictGet [Word.ofNat dict.address, key, flag]
      (Mapped.answer dict.entries key same) m := by
  have hinside := hdict.inside hsize
  have hload := hdict.loadSize hsize
  rw [Mapped.place] at hinside
  generalize hcall : Frame.ofCall dictGet [Word.ofNat dict.address, key, flag] = frame
  have hd : frame.get? "dict" = some (Word.ofNat dict.address) := hcall ▸ rfl
  have hk : frame.get? "key" = some key := hcall ▸ rfl
  have hf : frame.get? "key_is_string" = some flag := hcall ▸ rfl
  have hn : frame.get? "size" = some 0 := hcall ▸ rfl
  have hi : frame.get? "i" = some 0 := hcall ▸ rfl
  have he : frame.get? "entry" = some 0 := hcall ▸ rfl
  have hstart :
    Ends ([.localGet "dict", .load Block.sizeOffset, .localSet "size"] ++ [.const 0, .localSet "i"])
      ⟨m, frame, []⟩ .next
      ⟨m, (frame.put "size" (Word.ofNat dict.entries.length)).put "i" (Word.ofNat 0), []⟩ := by
    refine .after ?_ (setZero_ends "i" (by simp [hi]) [])
    simp [hd, hload, hn]
  have hsearch :
      Searching ((frame.put "size" (Word.ofNat dict.entries.length)).put "i" (Word.ofNat 0)) dict
      key flag 0 := by
    refine ⟨?_, ?_, ?_, ⟨?_, ?_, by omega, Nat.zero_le _⟩, by simp [he]⟩
    all_goals simp [hd, hk, hf, hn, hi]
  obtain ⟨last, hkey, hloop⟩ := searchLoop_ends hdict hsize drop_zero hmatches hsearch
  rw [Mapped.answer]
  subst hcall
  cases hfound : dict.entries.find? fun entry => same entry.1 with
  | some entry =>
    rw [hfound] at hloop
    have hbody := hstart.append ((Ends.blockReturn hloop).stop (by simp)
      [.localGet "key", .callIntrinsic .keyError, .unreachable])
    exact .ofBody hbody (.inr rfl) rfl
  | none =>
    rw [hfound] at hloop
    have htrap : Ends [.callIntrinsic .keyError] ⟨m, last, [key].reverse ++ []⟩
        (.trap (.keyError key)) ⟨m, last, []⟩ := .hostTrap [key] rfl rfl
    have hreport : Ends ([.localGet "key"] ++ ([.callIntrinsic .keyError] ++ [.unreachable]))
        ⟨m, last, []⟩ (.trap (.keyError key)) ⟨m, last, []⟩ :=
      (localGet_ends hkey).append (htrap.stop (by simp) _)
    exact .ofTrap (hstart.append ((Ends.blockLoop hloop).append hreport))

theorem dictGet_words (key : Word) :
    Answers m dictGet [Word.ofNat dict.address, key, 0]
      (Mapped.answer dict.entries key (· == key)) m := by
  refine dictGet_answers hdict hsize fun entry _ frame => .straight ?_ (by decide)
  simp [matching, ne_eq, not_true_eq_false]
  rfl

theorem dictGet_strings (codes : Word → List Word) (key : Word)
    (hstrings : ∀ found ∈ key :: dict.entries.map (·.1),
      m.memory.StringAt ⟨found.toAddress, codes found⟩)
    (hcompare : m.function? Helper.strEq.name = some strEq) :
    Answers m dictGet [Word.ofNat dict.address, key, 1]
      (Mapped.answer dict.entries key fun found => codes found = codes key) m := by
  refine dictGet_answers hdict hsize fun entry hentry frame => ?_
  have hfound := hstrings entry.1 (mem_cons_of_mem _ (mem_map_of_mem hentry))
  have hasked := hstrings key mem_cons_self
  have hanswers := strEq_answers hfound hasked hsize
  dsimp only at hanswers
  rw [← eq_ofNat, ← eq_ofNat] at hanswers
  exact .callHelper hanswers hcompare rfl

end Search

end HelperBody

theorem Offset.mul_eq_ok_iff {a b product : UInt32} :
    Offset.mul a b = .ok product ↔ product.toNat = a.toNat * b.toNat := by
  have hbound := product.toNat_lt
  have hsize : UInt32.size = 2 ^ 32 := rfl
  rw [Offset.mul]
  split
  · next hfits =>
    rw [Except.ok.injEq, ← UInt32.toNat_inj, UInt32.toNat_mul, Nat.mod_eq_of_lt hfits]
    exact eq_comm
  · next hfits =>
    constructor
    · intro h
      cases h
    · intro h
      omega

namespace Block

variable {index offset : UInt32}

theorem dictKey_eq_ok_iff : dictKey index = .ok offset ↔ offset.toNat = 12 + 8 * index.toNat := by
  have hheader : headerSize.toNat = 12 := rfl
  have hentry : entrySize.toNat = 8 := rfl
  simp only [dictKey, Failing.bind_eq_ok_iff, Offset.mul_eq_ok_iff, Offset.add_eq_ok_iff, hheader,
    hentry]
  constructor
  · rintro ⟨product, hproduct, hsum⟩
    omega
  · intro hoffset
    have hlimit := offset.toNat_lt
    have hproduct : (UInt32.ofNat (index.toNat * 8)).toNat = index.toNat * 8 :=
      toNat_ofNat_of_lt' (show _ < 2 ^ 32 by omega)
    exact ⟨_, hproduct, by omega⟩

theorem dictValue_eq_ok_iff : dictValue index = .ok offset ↔
    offset.toNat = 16 + 8 * index.toNat := by
  have hword : wordSize.toNat = 4 := rfl
  simp only [dictValue, Failing.bind_eq_ok_iff, dictKey_eq_ok_iff, Offset.add_eq_ok_iff, hword]
  constructor
  · rintro ⟨key, hkey, hsum⟩
    omega
  · intro hoffset
    have hlimit := offset.toNat_lt
    have hkey : (UInt32.ofNat (12 + 8 * index.toNat)).toNat = 12 + 8 * index.toNat :=
      toNat_ofNat_of_lt' (show _ < 2 ^ 32 by omega)
    exact ⟨_, hkey, by omega⟩

end Block

namespace Lowering

variable {context : Context} {start later : Progress} {code : Code} {entries : List (Expr × Expr)}

/-- The code of entries, each key before its value. -/
def entryParts : List (Expr × Expr) → Lower (List Code)
  | [] => return []
  | (key, value) :: rest => do
    let keyCode ← expr key
    let valueCode ← expr value
    return keyCode :: valueCode :: (← entryParts rest)

/-- Entries are stored as parts, and their offsets are those of the words after the header. They all
fit, so the entries are not too many. -/
theorem storeEntries_eq {temp : String} (hindex : index ≤ 2 ^ 29)
    (h : (storeEntries temp index entries).run context start = (.ok code, later)) :
    ∃ parts, (entryParts entries).run context start = (.ok parts, later) ∧
      parts.length = 2 * entries.length ∧ index + entries.length ≤ 2 ^ 29 ∧
      code = storeParts temp (3 + 2 * index) parts := by
  induction entries generalizing index start code with
  | nil =>
    obtain ⟨rfl, rfl⟩ := pure_eq_ok_iff.1 h
    exact ⟨[], rfl, rfl, hindex, rfl⟩
  | cons entry rest ih =>
    obtain ⟨key, value⟩ := entry
    simp only [storeEntries, Lower.bind_eq_ok_iff, ofChecked_eq_ok_iff, pure_eq_ok_iff] at h
    obtain ⟨keyCode, _, hkey, keyOffset, _, ⟨hkeyOffset, rfl⟩, valueCode, _, hvalue, valueOffset, _,
      ⟨hvalueOffset, rfl⟩, restCode, _, hrest, rfl, rfl⟩ := h
    have hsmall : (UInt32.ofNat index).toNat = index :=
      toNat_ofNat_of_lt' (show _ < 2 ^ 32 by omega)
    have hkeyPlace := dictKey_eq_ok_iff.1 hkeyOffset
    have hvaluePlace := dictValue_eq_ok_iff.1 hvalueOffset
    rw [hsmall] at hkeyPlace hvaluePlace
    have hlimit := valueOffset.toNat_lt
    obtain ⟨parts, hparts, hlength, hcount, rfl⟩ := ih (by omega : index + 1 ≤ 2 ^ 29) hrest
    refine ⟨keyCode :: valueCode :: parts, ?_, ?_, ?_, ?_⟩
    · simp only [entryParts, Lower.bind_eq_ok_iff, pure_eq_ok_iff]
      exact ⟨keyCode, _, hkey, valueCode, _, hvalue, parts, _, hparts, rfl, rfl⟩
    · simp only [length_cons]
      omega
    · rw [length_cons]
      omega
    · have hfirst : 4 * (3 + 2 * index) = keyOffset.toNat := by omega
      have hsecond : 4 * (3 + 2 * index + 1) = valueOffset.toNat := by omega
      rw [storeParts, storeParts, hfirst, hsecond, UInt32.ofNat_toNat, UInt32.ofNat_toNat,
        append_assoc]
      rfl

theorem dictLiteral_eq {ty : Ty}
    (h : (expr (.dict ty entries)).run context start = (.ok code, later)) :
    ∃ size parts, (entryParts entries).run context { start with temps := start.temps + 1 } =
        (.ok parts, later) ∧ parts.length = 2 * entries.length ∧
      size.toNat = 12 + 8 * (entries.length + context.config.listGrowthSlack.toNat) ∧
      code = blockCode (tempName start.temps) size
        (([Block.dictTag, Word.ofNat entries.length,
          Word.ofNat (entries.length + context.config.listGrowthSlack.toNat)].map fun word =>
            [.const word]) ++ parts) := by
  simp only [expr, collection, Lower.bind_eq_ok_iff, context_eq_ok_iff, ofChecked_eq_ok_iff,
    Prod.exists, Heap.allocate_eq_ok_iff, pure_eq_ok_iff] at h
  obtain ⟨_, _, ⟨rfl, rfl⟩, bound, _, ⟨hbound, rfl⟩, size, _, ⟨hsize, rfl⟩, _, _, _,
    ⟨rfl, rfl, rfl⟩, stored, _, hstored, rfl, rfl⟩ := h
  obtain ⟨parts, hparts, hlength, hcount, rfl⟩ := storeEntries_eq (Nat.zero_le _) hstored
  have hsmall : (UInt32.ofNat entries.length).toNat = entries.length :=
    toNat_ofNat_of_lt' (show _ < 2 ^ 32 by omega)
  have hroom := Offset.add_eq_ok_iff.1 hbound
  rw [hsmall] at hroom
  refine ⟨size, parts, hparts, hlength, by rw [dictKey_eq_ok_iff.1 hsize, hroom], ?_⟩
  have hcounted : Word.ofNat entries.length = Word.ofUInt32 (UInt32.ofNat entries.length) := by
    rw [ofUInt32_eq_ofNat, hsmall]
  rw [← hroom, hcounted, ← ofUInt32_eq_ofNat]
  simp only [blockCode, append_assoc]
  rfl

end Lowering

/-- An entry of a dictionary is at the offsets that its literal stores it at, and the search looks
there. -/
theorem Memory.DictAt.offsets {m : Machine} (h : m.memory.DictAt dict)
    (hsize : m.memory.size ≤ 2 ^ 32) (index : Nat) (entry : Word × Word)
    (hentry : dict.entries[index]? = some entry) :
    ∃ keyOffset valueOffset, Block.dictKey (.ofNat index) = .ok keyOffset ∧
      Block.dictValue (.ofNat index) = .ok valueOffset ∧
      dict.address + keyOffset.toNat = dict.place index ∧
      dict.address + valueOffset.toNat = dict.place index + wordSize.toNat ∧
      m.loadWord (Word.ofNat dict.address) keyOffset = .ok entry.1 ∧
      m.loadWord (Word.ofNat dict.address) valueOffset = .ok entry.2 := by
  have hinside := h.inside hsize
  have hword : wordSize.toNat = 4 := rfl
  obtain ⟨hindex, -⟩ := List.getElem?_eq_some_iff.1 hentry
  obtain ⟨hkey, hvalue⟩ := Mapped.getElem?_words hentry
  rw [Mapped.place] at hinside
  have hsmall : (UInt32.ofNat index).toNat = index := toNat_ofNat_of_lt' (show _ < 2 ^ 32 by omega)
  have hfirst : (UInt32.ofNat (12 + 8 * index)).toNat = 12 + 8 * index :=
    toNat_ofNat_of_lt' (show _ < 2 ^ 32 by omega)
  have hsecond : (UInt32.ofNat (16 + 8 * index)).toNat = 16 + 8 * index :=
    toNat_ofNat_of_lt' (show _ < 2 ^ 32 by omega)
  refine ⟨.ofNat (12 + 8 * index), .ofNat (16 + 8 * index), ?_, ?_, ?_, ?_, ?_, ?_⟩
  · rw [dictKey_eq_ok_iff, hfirst, hsmall]
  · rw [dictValue_eq_ok_iff, hsecond, hsmall]
  · rw [hfirst, Mapped.place]
    omega
  · rw [hsecond, Mapped.place]
    omega
  · exact loadWord_held h.words hkey (by rw [hfirst]; omega) (by omega)
  · exact loadWord_held h.words hvalue (by rw [hsecond]; omega) (by omega)

theorem Memory.DictAt.agree {memory memory' : Memory} (h : memory.DictAt dict) {low high : Nat}
    (hagree : AgreeOn low high memory memory') (hlow : low ≤ dict.address)
    (hhigh : dict.place dict.entries.length ≤ high) : memory'.DictAt dict := by
  rw [Mapped.place] at hhigh
  refine ⟨(hagree.word hlow (by omega)).trans h.tag, h.words.agree hagree (by omega) ?_, h.fits⟩
  simp only [Mapped.words, length_cons, Mapped.length_pairs]
  omega

open Lowering in
/-- **Dictionaries.** The code of a dictionary literal leaves a dictionary at the old head whose
entries are the words that its parts left, whatever else the parts do. As long as its block is kept,
a search for a key answers with the value of the first entry whose key is the same word, or the same
string, and otherwise reports the key. It changes nothing. -/
theorem dict_lookup_exact {context : Context} {start later : Progress} {code : Code} {ty : Ty}
    {entries : List (Expr × Expr)}
    (hcode : (expr (.dict ty entries)).run context start = (.ok code, later))
    {m : Machine} (frame : Frame) {head bound last : Nat}
    (hbound : bound = entries.length + context.config.listGrowthSlack.toNat)
    (hlast : last = head + (12 + 8 * bound))
    (hroom : m.HasRoom head (12 + 8 * bound))
    (hthere : (frame.get? (tempName start.temps)).isSome) :
    ∃ parts opened, (entryParts entries).run context { start with temps := start.temps + 1 } =
        (.ok parts, later) ∧
      m.memory.Filled head last [Block.dictTag, Word.ofNat entries.length, Word.ofNat bound]
        opened ∧
      ∀ found m₁ frame₁, Laid (tempName start.temps) head last 3 parts { m with memory := opened }
          (frame.put (tempName start.temps) (Word.ofNat head)) (Mapped.pairs found) m₁ frame₁ →
        (∀ stack, Ends code ⟨m, frame, stack⟩ .next ⟨m₁, frame₁, Word.ofNat head :: stack⟩) ∧
        ∀ m', Memory.AgreeOn head last m₁.memory m'.memory → m'.memory.size ≤ 2 ^ 32 →
          m'.memory.DictAt ⟨head, bound, found⟩ ∧
          (∀ key, Answers m' HelperBody.dictGet [Word.ofNat head, key, 0]
            (Mapped.answer found key (· == key)) m') ∧
          (m'.function? Helper.strEq.name = some HelperBody.strEq →
            ∀ key (codes : Word → List Word),
            (∀ string ∈ key :: found.map (·.1),
              m'.memory.StringAt ⟨string.toAddress, codes string⟩) →
            Answers m' HelperBody.dictGet [Word.ofNat head, key, 1]
              (Mapped.answer found key fun string => codes string = codes key) m') ∧
          ∀ index entry, found[index]? = some entry → ∃ keyOffset valueOffset,
            Block.dictKey (.ofNat index) = .ok keyOffset ∧ Block.dictValue (.ofNat index) =
            .ok valueOffset ∧ head + keyOffset.toNat = (⟨head, bound, found⟩ : Mapped).place index ∧
            head + valueOffset.toNat = (⟨head, bound, found⟩ : Mapped).place index +
            wordSize.toNat ∧ m'.loadWord (Word.ofNat head) keyOffset = .ok entry.1 ∧
            m'.loadWord (Word.ofNat head) valueOffset = .ok entry.2 := by
  obtain ⟨size, parts, hparts, hlength, hsize, rfl⟩ := dictLiteral_eq hcode
  rw [← hbound] at hsize ⊢
  rw [← hsize] at hroom hlast
  subst hlast
  obtain ⟨opened, hheader, hfilled⟩ := constants_laid m (tempName start.temps)
    (frame.put (tempName start.temps) (Word.ofNat head))
    [Block.dictTag, Word.ofNat entries.length, Word.ofNat bound] hroom.opened
    (by simp only [length_cons, length_nil]; omega)
  refine ⟨parts, opened, hparts, hfilled, fun found m₁ frame₁ hlaid => ?_⟩
  have hcount : found.length = entries.length := by
    have hwords := hlaid.length_eq
    rw [Mapped.length_pairs] at hwords
    omega
  have hends := blockCode_ends hroom hthere
    (by rw [length_append, hlength]; simp only [length_map, length_cons, length_nil]; omega)
    (hheader.append hlaid)
  refine ⟨fun stack => (hends stack).1, fun m' hagree hlimit => ?_⟩
  have hholds := (hends []).2
  have hdict : m₁.memory.DictAt ⟨head, bound, found⟩ := by
    refine ⟨hholds.word 0 _ rfl, ?_, ?_⟩
    · rw [Mapped.words, hcount]
      exact hholds.tail
    · dsimp only
      omega
  have hkept := hdict.agree hagree (Nat.le_refl _) (by rw [Mapped.place]; dsimp only; omega)
  have hwords := fun key => HelperBody.dictGet_words hkept hlimit key
  have hstrings := fun hcompare key codes h =>
    HelperBody.dictGet_strings hkept hlimit codes key h hcompare
  have hoffsets := fun index entry h => hkept.offsets hlimit index entry h
  dsimp only at hwords hstrings hoffsets
  exact ⟨hkept, hwords, hstrings, hoffsets⟩

open Lowering in
/-- The string `hi` is a key twice, and the first value is found. -/
theorem Machine.spelled_looks_up : ∃ code later m₁ frame₁,
      (expr (.dict (.dict .number .number) [(.literal .number (.num 16), .literal .number (.num 5)),
        (.literal .number (.num 16), .literal .number (.num 6))])).run {} {} = (.ok code, later) ∧
      Ends code ⟨spelled, [(tempName 0, 0)], []⟩ .next ⟨m₁, frame₁, [28]⟩ ∧
      Answers m₁ HelperBody.dictGet [28, 16, 1] (.ok 5) m₁ ∧
      Answers m₁ HelperBody.dictGet [28, 17, 0] (.error (.keyError 17)) m₁ := by
  have hroom : spelled.HasRoom 28 108 :=
    ⟨⟨by decide +kernel, by decide, by decide, by decide +kernel, by decide +kernel⟩, by decide,
      by decide +kernel⟩
  obtain ⟨code, later, hcode⟩ : ∃ code later,
      (expr (.dict (.dict .number .number) [(.literal .number (.num 16), .literal .number (.num 5)),
        (.literal .number (.num 16), .literal .number (.num 6))])).run {} {} = (.ok code, later) :=
          ⟨_, _, rfl⟩
  obtain ⟨parts, opened, hparts, hopened, hfound⟩ :=
    dict_lookup_exact hcode [(tempName 0, 0)] rfl rfl hroom rfl
  obtain rfl : [16, 5, 16, 6].map (fun word => [.const word]) = parts :=
    Except.ok.inj (congrArg (·.1) hparts)
  obtain ⟨memory, hlaid, hfilled⟩ :=
    constants_laid spelled (tempName 0) _ [16, 5, 16, 6] hopened (by decide)
  obtain ⟨hends, hanswers⟩ := hfound [(16, 5), (16, 6)] _ _ hlaid
  obtain ⟨-, hwords, hstrings, -⟩ := hanswers _ (.refl _ _ _) hfilled.heap.size_le
  have hstring : memory.StringAt ⟨16, [104, 105]⟩ :=
    Memory.Holds.agree (show spelled.memory.Holds 16 _ by decide +kernel) hfilled.kept (by decide)
      (by decide)
  refine ⟨code, later, _, _, hcode, hends [], hstrings rfl 16 (fun _ => [104, 105]) ?_, hwords 17⟩
  simpa using (show memory.StringAt ⟨Word.toAddress 16, _⟩ from hstring)

end TypedWasm
