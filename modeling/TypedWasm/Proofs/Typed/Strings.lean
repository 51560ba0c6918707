import TypedWasm.Proofs.Typed.Lists

/-!
# Helpers on strings, dictionaries and big integers

These helpers uphold the heap. Where a helper only reads, nothing is asked of what it reads.
-/

namespace TypedWasm.Typed

open Exec List Word

namespace Upholds

variable {setting : Setting} {fuel : Nat} {owner : String} {before rest : Code}
  {blocks : Blocks} {post : Post} {m : Machine} {locals : Frame} {stack : List Word}

theorem storeSlot {kind : Kind} {place i : Nat} {ty : Ty} {offset : UInt32} {value address : Word}
    (hne : address ≠ 0 ∨ before.getLast? ≠ some .add)
    (hat : address ≠ 0 → blocks place = some kind) (hslot : kind.slot? i = some ty)
    (hplace : address.toAddress + offset.toNat = place + 4 * i)
    (hvalue : address ≠ 0 → Describes setting blocks m → IsValue setting.env blocks ty value)
    (h : ∀ m', Upholds setting fuel owner (before ++ [.store offset]) rest blocks
      ⟨m', locals, stack⟩ post) : Upholds setting fuel owner before (.store offset :: rest) blocks
      ⟨m, locals, value :: address :: stack⟩ post := by
  refine store hne (fun haddress hdescribes => ?_) fun _ => h _
  have hpos := setting.heap_pos
  have hlow := (hdescribes.inside place kind (hat haddress)).2.1
  rw [Machine.effective, hplace]
  exact ⟨by omega, hdescribes.store (hat haddress) hslot (hvalue haddress hdescribes)⟩

theorem strIndex : Upholds setting fuel owner before HelperBody.strIndex.body blocks
    ⟨m, locals, stack⟩ (body fun blocks' word => IsValue setting.env blocks' .string word) := by
  have hsize : (Word.ofUInt32 Block.oneCharSize).toAddress = 4 * (1 + 1) := toAddress_ofUInt32 _
  simp only [HelperBody.strIndex, HelperBody.wordAt, append_assoc, cons_append, nil_append]
  refine localGet fun _ _ => load fun _ => set fun _ _ _ => localGet fun _ _ => set fun _ _ _ =>
    localGet fun _ _ => const (numeric fun _ _ => cond (fun _ t => t.stack = stack) ?_ ?_ ?_)
  · exact fun _ => localGet fun _ _ => localGet fun _ _ => numeric fun _ _ => set fun _ _ _ =>
      nil fun _ => rfl
  · exact fun _ => nil fun _ => rfl
  rintro blocks₁ ⟨m₁, frame₁, stack⟩ - rfl
  refine localGet fun _ _ => const (numeric fun _ _ => localGet fun _ _ => localGet fun _ _ =>
    numeric fun _ _ => numeric fun _ _ => cond (fun _ t => t.stack = stack) ?_ ?_ ?_)
  · exact fun _ => localGet fun _ _ => localGet fun _ _ => host₂ rfl fun _ _ _ => unreachable
  · exact fun _ => nil fun _ => rfl
  rintro blocks₂ ⟨m₂, frame₂, stack⟩ - rfl
  refine seq (bump (.inl rfl)) ?_
  rintro _ ⟨m₃, frame₃, _⟩ - ⟨rfl, rfl, result, rfl, hspare⟩
  rw [hsize] at hspare
  refine set fun frame₄ hframe₄ _ => seq (storeLength hframe₄ (.inl rfl) hspare
    (show (1 : Word).toAddress ≤ 1 from Nat.le_refl 1)) ?_
  rintro _ ⟨m₅, _, _⟩ - ⟨rfl, rfl, rfl⟩
  refine get hframe₄ (localGet fun _ _ => localGet fun _ _ => const (numeric fun _ _ =>
    numeric fun _ _ => load fun _ => ?_))
  refine storeSlot (.inl hspare.ne_zero) (fun _ => if_pos rfl) (if_pos ⟨Nat.le_refl 1, by decide⟩)
    rfl (fun _ _ => trivial) fun _ => get hframe₄ (nil fun _ word words hstack => ?_)
  cases hstack
  exact .inr ⟨1, if_pos rfl⟩

theorem strEq : Upholds setting fuel owner before HelperBody.strEq.body blocks ⟨m, locals, stack⟩
    (body fun _ _ => True) := by
  simp only [HelperBody.strEq, HelperBody.compareRound, HelperBody.leaveAt, HelperBody.wordAt,
    HelperBody.increment, cons_append, nil_append]
  refine localGet fun _ _ => load fun _ => set fun _ _ _ => localGet fun _ _ => localGet fun _ _ =>
    load fun _ => numeric fun _ _ => cond (fun _ t => t.stack = stack)
      (fun _ => const (ret fun _ _ _ _ => trivial)) (fun _ => nil fun _ => rfl) ?_
  rintro blocks₁ ⟨m₁, frame₁, stack⟩ - rfl
  refine const (set fun frame₂ _ _ =>
    blockLoop (fun _ t => t.stack = stack) (fun _ t => t.stack = stack) ?_ (fun _ => rfl) ?_)
  · rintro blocks₃ ⟨m₃, frame₃, stack⟩ - rfl
    refine localGet fun _ _ => localGet fun _ _ => numeric fun _ _ => brIf
      (fun _ _ => ⟨rfl, .inr ⟨rfl, rfl⟩⟩) fun _ => ?_
    refine localGet fun _ _ => localGet fun _ _ => const (numeric fun _ _ => numeric fun _ _ =>
      load fun _ => localGet fun _ _ => localGet fun _ _ => const (numeric fun _ _ =>
        numeric fun _ _ =>
        load fun _ => numeric fun _ _ => cond (fun _ t => t.stack = stack)
          (fun _ => const (ret fun _ _ _ _ => trivial)) (fun _ => nil fun _ => rfl) ?_))
    rintro blocks₄ ⟨m₄, frame₄, stack⟩ - rfl
    exact localGet fun _ _ => const (numeric fun _ _ => set fun _ _ _ => br fun _ =>
      ⟨rfl, .inl ⟨rfl, rfl⟩⟩)
  · rintro blocks₃ ⟨m₃, frame₃, stack⟩ - rfl
    exact const (nil fun _ _ _ _ => trivial)

section Sizing

variable {helper : Helper} (hhelper : helper ∈ Event.sizing) (howner : owner = helper.name)

include hhelper howner

theorem newText {length : String} {n : Word} (hlength : locals.get? length = some n)
    (hname : length ∉ ["bytes", "result"]) :
    Upholds setting fuel owner before (.localGet length :: .const 1 :: .add :: .constU wordSize ::
      .mul :: .localSet "bytes" :: (Allocation.dynamic "bytes" ++ (.localSet "result" ::
        [.localGet "result", .localGet length, .store Block.lengthOffset]))) blocks ⟨m, locals,
          stack⟩
      { next := fun blocks' t => t.stack = stack ∧ Agree ["bytes", "result"] locals t.locals ∧
          ∃ text : Word, t.locals.get? "result" = some text ∧
            blocks' text.toAddress = some (.text n.toAddress) } := by
  have hone : (1 : Word).toAddress = 1 := rfl
  refine get hlength (const (sum hhelper howner fun places hplaces => const
    (product hhelper howner fun bytes hbytes => set fun frame hframe hagree => ?_)))
  rw [hone] at hplaces
  rw [toAddress_wordSize] at hbytes
  refine seq (bump (.inr ⟨"bytes", rfl, hframe⟩)) ?_
  rintro blocks' ⟨m', frame', stack⟩ - ⟨rfl, rfl, text, rfl, hspare⟩
  rw [show bytes.toAddress = 4 * (1 + n.toAddress) by omega] at hspare
  refine set fun frame'' hframe' hagree' => ?_
  have hsame : Agree ["bytes", "result"] locals frame'' :=
    (hagree.mono (by decide)).trans (hagree'.mono (by decide))
  refine (storeLength hframe' (.inr ⟨length, rfl, hsame.get hlength hname⟩) hspare
    (Nat.le_refl _)).imp_next ?_
  rintro blocks'' t - ⟨hlocals, hstack, rfl⟩
  exact ⟨hstack, hlocals ▸ hsame, text, hlocals ▸ hframe', if_pos rfl⟩

theorem strConcat {left right : Word} (hleft : locals.get? "left" = some left)
    (hright : locals.get? "right" = some right)
    (hleftValue : IsValue setting.env blocks .string left)
    (hrightValue : IsValue setting.env blocks .string right) :
    Upholds setting fuel owner before HelperBody.strConcat.body blocks ⟨m, locals, stack⟩
      (body fun blocks' word => IsValue setting.env blocks' .string word) := by
  have hheader : (Word.ofUInt32 Block.stringHeader).toAddress = 4 := toAddress_ofUInt32 _
  simp only [HelperBody.strConcat, HelperBody.addressOf, append_assoc, cons_append, nil_append]
  refine assume fun hdescribes => ?_
  have htext : ∀ {word : Word}, IsValue setting.env blocks .string word → word ≠ 0 →
      ∃ room, blocks word.toAddress = some (.text room) ∧ room < 2 ^ 30 ∧
        (m.memory.word (Machine.effective word Block.lengthOffset)).toAddress ≤ room := by
    intro word hword hne
    obtain ⟨room, hat⟩ := hword.resolve_left hne
    have hbound := (hdescribes.inside _ _ hat).2.2
    have hhead := Describes.head_lt m
    rw [Kind.size] at hbound
    exact ⟨room, hat, by dsimp only at hbound; omega, (hdescribes.filled _ _ hat).headed⟩
  have hb : Binds locals.get? locals := fun _ _ h => h
  -- The lengths and the size of the block.
  refine get hleft (load fun hne => bind hb fun _ hb => ?_)
  obtain ⟨room, hat, hroom, hlength⟩ := htext hleftValue (hne (by simp [Instr.constU]))
  refine get (hb _ _ hright) (load fun hne => bind hb fun _ hb => ?_)
  obtain ⟨room', hat', hroom', hlength'⟩ := htext hrightValue (hne (by simp [Instr.constU]))
  generalize m.memory.word (Machine.effective left Block.lengthOffset) = n at *
  generalize m.memory.word (Machine.effective right Block.lengthOffset) = n' at *
  refine get (hb _ _ rfl) (get (hb _ _ rfl) (sum hhelper howner fun length hsum =>
    bind hb fun _ hb => seq (newText hhelper howner (hb _ _ rfl) (by decide)) ?_))
  rintro blocks₅ ⟨m₅, frame₅, stack⟩ hgrow ⟨rfl, hagree₅, result, hresult, hnew⟩
  replace hb : Binds _ frame₅ := (hb.agree hagree₅).cons hresult
  -- The characters of the left string.
  refine get (hb _ _ hleft) (const (sum hhelper howner fun src hsrc => bind hb fun _ hb => ?_))
  refine get (hb _ _ rfl) (const (sum hhelper howner fun dst hdst => bind hb fun _ hb => ?_))
  refine get (hb _ _ rfl) (bind hb fun _ hb => ?_)
  have hsrc' : src.toAddress = left.toAddress + 4 * 1 := by omega
  have hdst' : dst.toAddress = result.toAddress + 4 * 1 := by omega
  refine seq (copyWords hhelper howner (hb _ _ rfl) (hb _ _ rfl) (hb _ _ rfl) (by decide) (by omega)
    (hgrow _ _ hat) hsrc' (fun k hk => if_pos ⟨by omega, by omega⟩) hnew hdst'
    (fun k hk => if_pos ⟨by omega, by omega⟩)) ?_
  rintro _ ⟨m₉, frame₉, stack⟩ - ⟨rfl, rfl, hagree₉⟩
  replace hb : Binds _ frame₉ := hb.agree hagree₉
  -- The characters of the right string.
  refine get (hb _ _ hright) (const (sum hhelper howner fun src hsrc => bind hb fun _ hb => ?_))
  refine get (hb _ _ rfl) (const (sum hhelper howner fun start hstart => get (hb _ _ rfl) (const
    (product hhelper howner fun step hstep => sum hhelper howner fun dst hdst =>
      bind hb fun _ hb => ?_))))
  refine get (hb _ _ rfl) (bind hb fun _ hb => ?_)
  rw [toAddress_wordSize] at hstep
  have hsrc' : src.toAddress = right.toAddress + 4 * 1 := by omega
  have hdst' : dst.toAddress = result.toAddress + 4 * (1 + n.toAddress) := by omega
  refine seq (copyWords hhelper howner (hb _ _ rfl) (hb _ _ rfl) (hb _ _ rfl) (by decide) (by omega)
    (hgrow _ _ hat') hsrc' (fun k hk => if_pos ⟨by omega, by omega⟩) hnew hdst'
    (fun k hk => if_pos ⟨by omega, by omega⟩)) ?_
  rintro _ ⟨m₁₃, frame₁₃, stack⟩ - ⟨rfl, rfl, hagree₁₃⟩
  refine get (hb.agree hagree₁₃ _ _ rfl) (nil fun _ word words hstack => ?_)
  cases hstack
  exact .inr ⟨_, hnew⟩

end Sizing

theorem callHelper {helper : Helper} (args : List Word) {result : Blocks → Word → Prop}
    (hparams : (helper.function setting.slack).params.length = args.length)
    (hbody : ∀ fewer, Upholds setting fewer helper.name [] (helper.function setting.slack).body
      blocks ⟨m, Frame.ofCall (helper.function setting.slack) args, []⟩ (body result))
    (hrest : ∀ blocks' m' word, blocks.Grow blocks' → result blocks' word →
      Upholds setting fuel owner (before ++ [.callHelper helper]) rest blocks'
        ⟨m', locals, word :: stack⟩ post) :
    Upholds setting fuel owner before (.callHelper helper :: rest) blocks
      ⟨m, locals, args.reverse ++ stack⟩ post := by
  refine call (show (Callee.helper helper).function? = some helper.name from rfl)
    (fun fn hfn => ?_) hrest
  obtain rfl := setting.helpers helper fn hfn
  exact ⟨hparams, fun fewer _ => hbody fewer⟩

/-- The value at a key. Whatever the keys are, an entry of the dictionary is found or none is. -/
theorem dictGet {dict : Word} {key value : Ty} (hdict : locals.get? "dict" = some dict)
    (hvalue : IsValue setting.env blocks (.dict key value) dict) :
    Upholds setting fuel owner before HelperBody.dictGet.body blocks ⟨m, locals, stack⟩
      (body fun blocks' word => IsValue setting.env blocks' value word) := by
  have htwelve := toAddress_headerSize
  have height : (Word.ofUInt32 Block.entrySize).toAddress = 8 := toAddress_ofUInt32 _
  have hone : (1 : Word).toAddress = 1 := rfl
  simp only [HelperBody.dictGet, HelperBody.searchRound, HelperBody.matchEntry, HelperBody.leaveAt,
    HelperBody.addressOf, HelperBody.increment, cons_append, nil_append]
  refine assume fun hdescribes => get hdict (load fun hne => ?_)
  obtain ⟨room, hat⟩ := hvalue.resolve_left (hne (by simp [Instr.constU]))
  have hsize : (m.memory.word (Machine.effective dict Block.sizeOffset)).toAddress ≤ room :=
    (hdescribes.filled _ _ hat).headed
  have hbound := (hdescribes.inside _ _ hat).2.2
  have hhead := Describes.head_lt m
  rw [Kind.size] at hbound
  dsimp only at hbound
  generalize m.memory.word (Machine.effective dict Block.sizeOffset) = size at hsize ⊢
  refine set fun frame₁ hframe₁ hagree₁ => const (set fun frame₂ hframe₂ hagree₂ => blockLoop
    (fun _ t => t.stack = stack ∧ t.locals.get? "dict" = some dict ∧
      t.locals.get? "size" = some size ∧ ∃ i : Word, t.locals.get? "i" = some i ∧
        i.toAddress ≤ size.toAddress)
    (fun _ t => t.stack = stack) ?_ (fun _ => ⟨rfl, ?_, ?_, 0, hframe₂, Nat.zero_le _⟩) ?_)
  · rintro blocks₃ ⟨m₃, frame₃, stack⟩ hgrow ⟨rfl, hdict₃, hsize₃, i, hi, hle⟩
    refine get hi (get hsize₃ (numeric fun more hmore => brIf (fun _ _ => ⟨rfl, .inr ⟨rfl, rfl⟩⟩)
      fun hzero => ?_))
    cases hmore
    have hlt : i.toAddress < size.toAddress := by
      rw [ofBool_eq_zero, decide_eq_false_iff_not, ge_iff_le, Int32.not_le,
        lt_iff_toAddress_lt (by omega) (by omega)] at hzero
      exact hzero
    refine get hdict₃ (const (numeric fun start hstart => get hi (const (numeric fun step hstep =>
      numeric fun entry hentry => set fun frame₄ hframe₄ hagree₄ => ?_))))
    cases hstart
    cases hstep
    cases hentry
    have hplace : Word.toAddress (dict + Word.ofUInt32 Block.headerSize +
        i * Word.ofUInt32 Block.entrySize) = dict.toAddress + 4 * (3 + 2 * i.toAddress) := by
      rw [toAddress_add, toAddress_add, toAddress_mul, htwelve, height]
      omega
    have hkept : Agree ["entry"] frame₃ frame₄ := hagree₄
    refine localGet fun isString _ => cond (fun blocks' t => blocks₃.Grow blocks' ∧
      t.locals = frame₄ ∧ ∃ found, t.stack = found :: stack) ?_ ?_ ?_
    · exact fun _ => get hframe₄ (load fun _ => localGet fun _ _ => callHelper [_, _]
        rfl (fun _ => strEq) fun blocks' _ found hgrow' _ => nil fun _ => ⟨hgrow', rfl, found, rfl⟩)
    · exact fun _ => get hframe₄ (load fun _ => localGet fun _ _ => numeric fun found _ =>
        nil fun _ => ⟨.refl _, rfl, found, rfl⟩)
    rintro blocks₅ ⟨m₅, frame₄, _⟩ - ⟨hgrow₅, rfl, found, rfl⟩
    refine cond (fun _ t => t.locals = frame₄ ∧ t.stack = stack) (fun _ => ?_)
      (fun _ => nil fun _ => ⟨rfl, rfl⟩) ?_
    · refine get hframe₄ (load fun _ => assume fun hdescribes' => ret fun _ word words hstack => ?_)
      have hslot : (Kind.dict key value room).slot? (3 + 2 * i.toAddress + 1) = some value := by
        rw [Kind.slot?, if_pos ⟨by omega, by omega⟩, if_neg (by omega)]
      have hload := hdescribes'.load (hgrow₅ _ _ (hgrow _ _ hat)) hslot
      have hword : Machine.effective (dict + Word.ofUInt32 Block.headerSize +
          i * Word.ofUInt32 Block.entrySize) wordSize =
          dict.toAddress + 4 * (3 + 2 * i.toAddress + 1) := by
        rw [Machine.effective, hplace]
        rfl
      cases hstack
      rw [hword]
      exact hload
    · rintro blocks₆ ⟨m₆, frame₄, stack⟩ - ⟨rfl, rfl⟩
      refine get (hkept.get hi (by decide)) (const (numeric fun next hnext =>
        set fun frame₇ hframe₇ hagree₇ => br fun _ =>
          ⟨rfl, .inl ⟨rfl, rfl, ?_, ?_, next, hframe₇, ?_⟩⟩))
      · exact hagree₇.get (hkept.get hdict₃ (by decide)) (by decide)
      · exact hagree₇.get (hkept.get hsize₃ (by decide)) (by decide)
      · cases hnext
        rw [toAddress_add, hone]
        omega
  · exact hagree₂.get (hagree₁.get hdict (by decide)) (by decide)
  · exact hagree₂.get hframe₁ (by decide)
  · rintro blocks₃ ⟨m₃, frame₃, stack⟩ - rfl
    exact localGet fun _ _ => host (show [_].length = _ from rfl) fun _ _ _ => unreachable

theorem bignumFromI32 : Upholds setting fuel owner before HelperBody.bignumFromI32.body blocks
    ⟨m, locals, stack⟩ (body fun _ _ => True) := by
  have hsize : (Word.ofUInt32 Block.oneLimbSize).toAddress = 4 * [Ty.number, Ty.number].length :=
    toAddress_ofUInt32 _
  rw [show HelperBody.bignumFromI32.body = _ ++ _ from rfl]
  refine seq (bump (.inl rfl)) ?_
  rintro blocks' ⟨m', frame', stack⟩ - ⟨rfl, rfl, result, rfl, hspare⟩
  rw [hsize] at hspare
  refine registerParts (by simp) hspare (set fun frame hframe _ => get hframe (localGet fun _ _ =>
    const
    (numeric fun _ _ => localGet fun _ _ => const (numeric fun _ _ => numeric fun _ _ => ?_))))
  have hat : blocks'.add result.toAddress (.parts [.number, .number]) result.toAddress =
    some (.parts [.number, .number]) := if_pos rfl
  refine storeSlot (.inl hspare.ne_zero) (fun _ => hat) (i := 0) rfl rfl (fun _ _ => trivial)
    fun _ => ?_
  refine get hframe (localGet fun _ _ => const (numeric fun _ _ => cond
    (fun blocks'' t => blocks'' = blocks'.add result.toAddress (.parts [.number, .number]) ∧
      t.locals = frame ∧ ∃ magnitude, t.stack = magnitude :: result :: stack) ?_ ?_ ?_))
  · exact fun _ => const (localGet fun _ _ => numeric fun _ _ => nil fun _ => ⟨rfl, rfl, _, rfl⟩)
  · exact fun _ => localGet fun _ _ => nil fun _ => ⟨rfl, rfl, _, rfl⟩
  rintro blocks'' ⟨m'', frame, _⟩ - ⟨rfl, rfl, magnitude, rfl⟩
  exact storeSlot (.inl hspare.ne_zero) (fun _ => hat)
    (i := 1) rfl rfl (fun _ _ => trivial) fun _ =>
    get hframe (nil fun _ _ _ _ => trivial)

theorem bignumToI32 : Upholds setting fuel owner before HelperBody.bignumToI32.body blocks
    ⟨m, locals, stack⟩ (body fun _ _ => True) := by
  refine localGet fun _ _ => load fun _ => set fun _ _ _ => localGet fun _ _ => eqz (cond
    (fun _ _ => True) (fun _ => const (nil fun _ => trivial)) (fun _ => ?_) fun _ _ _ _ =>
      nil fun _ _ _ _ => trivial)
  refine localGet fun _ _ => load fun _ => set fun _ _ _ => localGet fun _ _ =>
    const (numeric fun _ _ =>
    localGet fun _ _ => const (numeric fun _ _ => numeric fun _ _ => localGet fun _ _ => const
      (numeric fun _ _ => numeric fun _ _ => cond (fun _ _ => True)
        (fun _ => const (nil fun _ => trivial)) (fun _ => ?_) fun _ _ _ _ => nil fun _ => trivial)))
  exact localGet fun _ _ => const (numeric fun _ _ => cond (fun _ _ => True)
    (fun _ => const (localGet fun _ _ => numeric fun _ _ => nil fun _ => trivial))
    (fun _ => localGet fun _ _ => nil fun _ => trivial) fun _ _ _ _ => nil fun _ => trivial)

end Upholds

/-- A helper upholds the heap on arguments of some types, and gives a result as asked for. -/
def Serves (setting : Setting) (helper : Helper) (types : List Ty) (result : Blocks → Word → Prop) :
    Prop :=
  (helper.function setting.slack).params.length = types.length ∧ ∀ fuel blocks m words,
    List.Forall₂ (IsValue setting.env blocks) types words →
    Upholds setting fuel helper.name [] (helper.function setting.slack).body blocks
      ⟨m, Frame.ofCall (helper.function setting.slack) words, []⟩ (Upholds.body result)

namespace Serves

variable {setting : Setting} {item first second third key value : Ty}

theorem exists_room {blocks : Blocks} {word : Word}
    (h : IsValue setting.env blocks (.list item) word) :
    ∃ room, word = 0 ∨ blocks word.toAddress = some (.list item room) :=
  h.elim (fun hzero => ⟨0, .inl hzero⟩) fun ⟨room, hat⟩ => ⟨room, .inr hat⟩

theorem listCopy : Serves setting .listCopy [.list item]
    fun blocks word => IsValue setting.env blocks (.list item) word := by
  refine ⟨rfl, fun fuel blocks m words hwords => ?_⟩
  rcases hwords with _ | ⟨hlist, _ | _⟩
  obtain ⟨room, hroom⟩ := exists_room hlist
  exact .listJoin (by decide) rfl (.cons ⟨by decide, _, rfl, hroom⟩ .nil)

theorem listConcat : Serves setting .listConcat [.list item, .list item]
    fun blocks word => IsValue setting.env blocks (.list item) word := by
  refine ⟨rfl, fun fuel blocks m words hwords => ?_⟩
  rcases hwords with _ | ⟨hleft, _ | ⟨hright, _ | _⟩⟩
  obtain ⟨room, hroom⟩ := exists_room hleft
  obtain ⟨room', hroom'⟩ := exists_room hright
  exact .listJoin (by decide) rfl
    (.cons ⟨by decide, _, rfl, hroom⟩ (.cons ⟨by decide, _, rfl, hroom'⟩ .nil))

theorem listElementAddress : Serves setting .listElementAddress [.list item, second]
    fun blocks word => Upholds.IsElement blocks item word := by
  refine ⟨rfl, fun fuel blocks m words hwords => ?_⟩
  rcases hwords with _ | ⟨hlist, _ | ⟨_, _ | _⟩⟩
  exact .listElementAddress rfl rfl hlist

theorem strIndex : Serves setting .strIndex [first, second]
    fun blocks word => IsValue setting.env blocks .string word :=
  ⟨rfl, fun _ _ _ _ _ => .strIndex⟩

theorem strEq : Serves setting .strEq [first, second] fun _ _ => True :=
  ⟨rfl, fun _ _ _ _ _ => .strEq⟩

theorem strConcat : Serves setting .strConcat [.string, .string]
    fun blocks word => IsValue setting.env blocks .string word := by
  refine ⟨rfl, fun fuel blocks m words hwords => ?_⟩
  rcases hwords with _ | ⟨hleft, _ | ⟨hright, _ | _⟩⟩
  exact .strConcat (show Helper.strConcat ∈ _ by decide) rfl rfl rfl hleft hright

theorem dictGet : Serves setting .dictGet [.dict key value, second, third]
    fun blocks word => IsValue setting.env blocks value word := by
  refine ⟨rfl, fun fuel blocks m words hwords => ?_⟩
  rcases hwords with _ | ⟨hdict, _ | ⟨_, _ | ⟨_, _ | _⟩⟩⟩
  exact .dictGet rfl hdict

theorem bignumFromI32 : Serves setting .bignumFromI32 [first] fun _ _ => True :=
  ⟨rfl, fun _ _ _ _ _ => .bignumFromI32⟩

theorem bignumToI32 : Serves setting .bignumToI32 [first] fun _ _ => True :=
  ⟨rfl, fun _ _ _ _ _ => .bignumToI32⟩

end Serves

end TypedWasm.Typed
