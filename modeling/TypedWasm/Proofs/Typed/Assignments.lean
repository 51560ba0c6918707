import TypedWasm.Proofs.Typed.Expressions

/-!
# Consistent assignments

Assigning a value to a consistent pattern upholds the heap and leaves the locals with values of
their types. The value sits in a temporary, so what is known of it outlives the targets assigned in
between.
-/

namespace TypedWasm.Typed

open Exec List Lowering Word

variable {name : String} {before : Code} {blocks : Blocks} {found item : Ty}
  {begun position size required source : Nat} {frame : Frame} {slots : List Slot}

/-- The temporaries made before `start` stay. -/
def TempsKept (start : Nat) (frame frame' : Frame) : Prop :=
  ∀ i, i < start → frame'.get? (tempName i) = frame.get? (tempName i)

namespace TempsKept

variable {start later : Nat} {frame' frame'' : Frame}

theorem refl (start : Nat) (frame : Frame) : TempsKept start frame frame := fun _ _ => rfl

theorem trans (h : TempsKept start frame frame') (h' : TempsKept start frame' frame'') :
    TempsKept start frame frame'' := fun i hi => (h' i hi).trans (h i hi)

theorem mono (h : TempsKept later frame frame') (hle : start ≤ later) :
    TempsKept start frame frame' :=
  fun i hi => h i (by omega)

theorem of_kept (h : Kept start frame frame') : TempsKept start frame frame' :=
  fun i hi => h _ fun j hj hname => by
    have := tempName_injective hname
    omega

theorem of_agree (h : Agree [name] frame frame') (hname : ∀ i, name ≠ tempName i) :
    TempsKept start frame frame' := fun i _ => h _ (by simpa using (hname i).symm)

end TempsKept

/-- A condition that depends on blocks, which stay, and on the temporaries before `start`. -/
def Stable (start : Nat) (given : Blocks → Frame → Prop) : Prop :=
  ∀ blocks blocks' frame frame', given blocks frame → blocks.Grow blocks' →
    TempsKept start frame frame' → given blocks' frame'

namespace Site

variable {site : Site} {given : Blocks → Frame → Prop} {code value : Code}
  {ty : Ty} {stack : List Word} {address place : UInt32} {m : Machine}

/-- Code that pushes a value of a type where a condition holds, and does not end in a sum. -/
def Supplies (site : Site) (given : Blocks → Frame → Prop) (code : Code) (ty : Ty) : Prop :=
  (∃ last, code.getLast? = some last ∧ last ≠ .add) ∧ ∀ before blocks m frame stack,
    given blocks frame →
    Upholds site.setting site.fuel site.owner before code blocks ⟨m, frame, stack⟩
      { next := fun blocks' t => t.locals = frame ∧
          ∃ word, t.stack = word :: stack ∧ site.Value ty blocks' word }

/-- Code that assigns where a condition holds: locals keep values of their types, and temporaries
made before stay. -/
def Assigns (site : Site) (start : Nat) (given : Blocks → Frame → Prop) (code : Code) : Prop :=
  ∀ before blocks m frame stack, site.Fits blocks frame → given blocks frame →
    Upholds site.setting site.fuel site.owner before code blocks ⟨m, frame, stack⟩
      { next := fun blocks' t => site.Fits blocks' t.locals ∧ TempsKept start frame t.locals ∧
          t.stack = stack }

theorem Supplies.getLast? (h : site.Supplies given code ty) :
    (before ++ code).getLast? ≠ some .add := by
  obtain ⟨⟨last, hlast, hne⟩, -⟩ := h
  rw [getLast?_append, hlast]
  exact fun hsome => hne (Option.some.inj hsome)

theorem Fits.set {frame' : Frame} {word : Word} (h : site.Fits blocks frame)
    (hword : frame'.get? name = some word) (hagree : Agree [name] frame frame')
    (hfound : site.typing.locals.lookup name = some found) (hvalue : site.Value found blocks word) :
    site.Fits blocks frame' := by
  intro other ty word' hty hother
  by_cases hname : other = name
  · subst hname
    cases hfound.symm.trans hty
    cases hword.symm.trans hother
    exact hvalue
  · rw [hagree other (by simpa using hname)] at hother
    exact h other ty word' hty hother

theorem assign_local (hvalue : site.Supplies given value ty)
    (hfound : site.typing.locals.lookup name = some found) (htakes : found.Takes ty) (start : Nat) :
    site.Assigns start given (value ++ [.localSet name]) := by
  intro before blocks m frame stack hfits hgiven
  have hplain := site.names _ (mem_of_lookup hfound)
  refine .seq (hvalue.2 _ _ _ _ _ hgiven) ?_
  rintro blocks' ⟨m', frame, _⟩ hgrow ⟨rfl, word, rfl, hword⟩
  refine .set fun frame' hframe hagree => .nil fun _ => ⟨?_, ?_, rfl⟩
  · exact (hfits.kept hgrow (.refl 0 _)).set hframe hagree hfound (hword.takes htakes)
  · exact .of_agree hagree fun i hname => not_dollarless_tempName i (hname ▸ hplain)

theorem storeGlobal_upholds (locals : Blocks → Frame → Prop)
    (hfound : site.setting.globals name = some found)
    (haddress : site.setting.env.globalAddress name = .ok address) (htakes : found.Takes ty)
    (hvalue : ∀ before stack, Upholds site.setting site.fuel site.owner before value blocks
      ⟨m, frame, stack⟩
      { next := fun blocks' t => locals blocks' t.locals ∧
          ∃ word, t.stack = word :: stack ∧ site.Value ty blocks' word }) :
    Upholds site.setting site.fuel site.owner before ([.constU address] ++ value ++ [.store 0])
      blocks
      ⟨m, frame, stack⟩ { next := fun blocks' t => locals blocks' t.locals ∧ t.stack = stack } := by
  have hplace : Machine.effective (Word.ofUInt32 address) 0 = address.toNat :=
    congrArg (· + 0) (toAddress_ofUInt32 address)
  obtain ⟨hlow, -⟩ := site.setting.placed name address haddress
  have hne : Word.ofUInt32 address ≠ 0 := by
    intro hzero
    rw [hzero] at hplace
    have : Machine.effective 0 0 = 0 := rfl
    omega
  simp only [cons_append, nil_append]
  refine .const (.seq (hvalue _ _) ?_)
  rintro blocks' ⟨m', frame', _⟩ hgrow ⟨hlocals, word, rfl, hword⟩
  refine .store (.inl hne) (fun _ hdescribes => ?_) fun _ => .nil fun _ => ⟨hlocals, rfl⟩
  rw [hplace]
  exact ⟨hlow, hdescribes.storeGlobal haddress hfound (hword.takes htakes)⟩

theorem assign_global (hvalue : site.Supplies given value ty)
    (hfound : site.setting.globals name = some found)
    (haddress : site.setting.env.globalAddress name = .ok address) (htakes : found.Takes ty)
    (start : Nat) : site.Assigns start given ([.constU address] ++ value ++ [.store 0]) := by
  intro before blocks m frame stack hfits hgiven
  refine (storeGlobal_upholds (fun _ frame' => frame' = frame) hfound haddress htakes fun _ _ =>
    hvalue.2 _ _ _ _ _ hgiven).imp_next ?_
  rintro blocks' ⟨m', frame, _⟩ hgrow ⟨rfl, rfl⟩
  exact ⟨hfits.kept hgrow (.refl 0 _), .refl _ _, rfl⟩

theorem assign_part {object : Code} {result : Blocks → Word → Prop}
    (hobject : site.Leaves begun object result) (hvalue : site.Supplies given value ty)
    (hstable : Stable begun given)
    (hgrow : ∀ blocks blocks' word, result blocks word → blocks.Grow blocks' → result blocks' word)
    (hpart : ∀ blocks m word, Describes site.setting blocks m → result blocks word → word ≠ 0 →
      ∃ start kind i found, blocks start = some kind ∧ kind.slot? i = some found ∧
        found.Takes ty ∧ Machine.effective word place = start + 4 * i) :
    site.Assigns begun given (object ++ value ++ [.store place]) := by
  intro before blocks m frame stack hfits hgiven
  rw [append_assoc]
  refine .seq (hobject _ _ _ _ _ hfits) ?_
  rintro blocks₁ ⟨m₁, frame₁, _⟩ hgrow₁ ⟨hkept₁, address, rfl, haddress⟩
  refine .seq (hvalue.2 _ _ _ _ _ (hstable _ _ _ _ hgiven hgrow₁ (.of_kept hkept₁))) ?_
  rintro blocks₂ ⟨m₂, frame₁, _⟩ hgrow₂ ⟨rfl, word, rfl, hword⟩
  have hfits₂ := hfits.kept (hgrow₁.trans hgrow₂) hkept₁
  refine .store (.inr hvalue.getLast?) (fun hne hdescribes => ?_) fun _ => .nil fun _ =>
    ⟨hfits₂, .of_kept hkept₁, rfl⟩
  obtain ⟨start, kind, i, found, hat, hslot, htakes, hplace⟩ :=
    hpart _ _ _ hdescribes (hgrow _ _ _ haddress hgrow₂) hne
  have hpos := site.setting.heap_pos
  have hlow := (hdescribes.inside _ _ hat).2.1
  rw [hplace]
  exact ⟨by omega, hdescribes.store hat hslot (hword.takes htakes)⟩

theorem assignTo_assigns {target : Target} (hstable : Stable begun given)
    (hvalue : site.Supplies given value ty) (htarget : target.Consistent site.typing ty) :
    site.Gives begun (assignTo target value) (site.Assigns begun given) := by
  refine .context ?_
  dsimp only
  cases target with
  | id name =>
    obtain ⟨found, hfound, htakes⟩ := htarget
    dsimp only
    rcases typeOf?_cases hfound with ⟨hlocal, hty⟩ | ⟨hglobal, hty⟩
    · rw [if_pos hlocal]
      exact .pure (assign_local hvalue hty htakes _)
    · rw [if_neg hglobal, globalAddress_eq]
      exact .result fun address haddress => .pure (assign_global hvalue hty haddress htakes _)
  | lookup object field =>
    obtain ⟨hobject, hfield⟩ := htarget
    have heval := expr_evaluates object hobject begun
    dsimp only
    cases hty : object.ty with
    | cls cls =>
      obtain ⟨found, hfound, htakes⟩ := hfield cls hty
      rw [site.typing_env] at hfound
      rw [hty] at heval
      refine .lookup fun offset hoffset => heval.bind fun _ hleaves => .checked fun place hplace =>
        .pure (assign_part hleaves hvalue hstable (fun _ _ _ hword hgrow => hword.grow hgrow)
          fun blocks m word hdescribes hword hne => ?_)
      obtain ⟨kind, i, hat, hslot, hbytes⟩ := field_slot hdescribes hword hne hfound hoffset hplace
      exact ⟨_, kind, i, found, hat, hslot, htakes, by rw [Machine.effective, hbytes]⟩
    | _ => exact .fail
  | index object key =>
    obtain ⟨hobject, hkey, hitem⟩ := htarget
    have heval := expr_evaluates object hobject
    dsimp only
    cases hty : object.ty with
    | list item =>
      rw [hty] at heval
      refine (listElement_gives heval (expr_evaluates key hkey) begun).bind fun _ hleaves =>
        .pure (assign_part hleaves hvalue hstable ?_ fun blocks m word _ hword _ => ?_)
      · rintro blocks blocks' word ⟨place, room, i, hat, hi, hword⟩ hgrow
        exact ⟨place, room, i, hgrow _ _ hat, hi, hword⟩
      · obtain ⟨place, kind, i, hat, hslot, hplace⟩ := element_slot hword
        exact ⟨place, kind, i, item, hat, hslot, hitem item hty, hplace⟩
    | _ => exact .fail

theorem assigns_nil : site.Assigns begun given [] :=
  fun _ _ _ frame _ hfits _ => .nil fun _ => ⟨hfits, .refl _ frame, rfl⟩

theorem Assigns.append {code' : Code} (h : site.Assigns begun given code)
    (h' : site.Assigns begun given code') (hstable : Stable begun given) :
    site.Assigns begun given (code ++ code') := by
  intro before blocks m frame stack hfits hgiven
  refine .seq (h _ _ _ _ _ hfits hgiven) ?_
  rintro blocks₁ ⟨m₁, frame₁, stack⟩ hgrow₁ ⟨hfits₁, hkept₁, rfl⟩
  refine (h' _ _ _ _ _ hfits₁ (hstable _ _ _ _ hgiven hgrow₁ hkept₁)).imp_next ?_
  rintro blocks₂ t - ⟨hfits₂, hkept₂, hstack⟩
  exact ⟨hfits₂, hkept₁.trans hkept₂, hstack⟩

theorem assignSlots_assigns {valueAt : Nat → Lower Code} (hstable : Stable begun given)
    (hslots : ∀ k slot, slots[k]? = some slot → slot.ignore = false → ∃ ty,
      slot.target.Consistent site.typing ty ∧
        site.Gives begun (valueAt (position + k)) fun code => site.Supplies given code ty) :
    site.Gives begun (assignSlots valueAt position slots) (site.Assigns begun given) := by
  induction slots generalizing position with
  | nil => exact .pure assigns_nil
  | cons slot rest ih =>
    have hrest : site.Gives begun (assignSlots valueAt (position + 1) rest)
        (site.Assigns begun given) := by
      refine ih fun k other hother => ?_
      rw [show position + 1 + k = position + (k + 1) by omega]
      exact hslots (k + 1) other hother
    rw [assignSlots]
    cases hignore : slot.ignore with
    | true => exact hrest
    | false =>
      obtain ⟨ty, htarget, hsupplies⟩ := hslots 0 slot rfl hignore
      exact hsupplies.bind fun _ hsupply => (assignTo_assigns hstable hsupply htarget).bind
        fun _ hassigns => hrest.bind fun _ hassigns' => .pure (hassigns.append hassigns' hstable)

/-- A temporary holds a value of a type. -/
def Holding (site : Site) (source : Nat) (ty : Ty) (blocks : Blocks) (frame : Frame) : Prop :=
  ∃ word, frame.get? (tempName source) = some word ∧ site.Value ty blocks word

theorem stable_holding (hsource : source < begun) (ty : Ty) :
    Stable begun (site.Holding source ty) := by
  rintro blocks blocks' frame frame' ⟨word, hword, hvalue⟩ hgrow hkept
  exact ⟨word, (hkept source hsource).trans hword, hvalue.grow hgrow⟩

theorem part_supplies {objectTy : Ty}
    (hpart : ∀ blocks m word, Describes site.setting blocks m → site.Value objectTy blocks word →
      word ≠ 0 → ∃ kind i, blocks word.toAddress = some kind ∧ kind.slot? i = some ty ∧
        place.toNat = 4 * i) :
    site.Supplies (site.Holding source objectTy) [.localGet (tempName source), .load place] ty := by
  refine ⟨⟨.load place, rfl, by simp [Instr.add]⟩, ?_⟩
  rintro before blocks m frame stack ⟨word, hword, hvalue⟩
  refine .assume fun hdescribes => .get hword (.load fun hne => .nil fun _ => ⟨rfl, _, rfl, ?_⟩)
  obtain ⟨kind, i, hat, hslot, hbytes⟩ :=
    hpart _ _ _ hdescribes hvalue (hne (by simp [Instr.constU]))
  rw [Machine.effective, hbytes]
  exact hdescribes.load hat hslot

/-- Every position that is not ignored may be given its part of a value. -/
def PartsFit (site : Site) (slots : List Slot) (ty : Ty) : Prop :=
  ∀ position slot part, slots[position]? = some slot → slot.ignore = false →
    site.typing.part? ty position slot.starred = some part →
    slot.target.Consistent site.typing part

section Parts

variable {slot : Slot}

theorem rejectStarred_gives {source : String} :
    site.Gives begun (rejectStarred slots source) fun _ => True := by
  rw [rejectStarred]
  split
  · exact .fail
  · exact .pure trivial

theorem instanceParts_assigns {cls : String} (hsource : source < begun)
    (hslots : site.PartsFit slots (.cls cls)) :
    site.Gives begun (instanceParts cls slots (tempName source))
      (site.Assigns begun (site.Holding source (.cls cls))) := by
  refine rejectStarred_gives.bind fun _ _ => .context (.lookup fun layout hlayout => ?_)
  obtain ⟨hlookup, htypes⟩ := classLayout_eq_ok hlayout
  dsimp only
  split
  · exact .fail
  · next hlength =>
    refine assignSlots_assigns (stable_holding hsource _) fun k slot hslot hignore => ?_
    have hk := (List.getElem?_eq_some_iff.1 hslot).1
    have hfield : layout.fields[k]? = some layout.fields[k] := getElem?_eq_getElem (by omega)
    obtain ⟨hposition, -⟩ := site.layout cls layout hlookup k _ hfield
    have hty : (layout.fields.map (·.ty))[k]? = some layout.fields[k].ty := by
      rw [getElem?_map, hfield]
      rfl
    refine ⟨layout.fields[k].ty, hslots k slot _ hslot hignore ?_, ?_⟩
    · rw [Typing.part?, site.typing_env, htypes]
      exact hty
    · rw [Nat.zero_add, hfield]
      dsimp only
      rw [hposition]
      refine .checked fun place hplace =>
        .pure (part_supplies fun _ _ _ hdescribes hvalue hne => ?_)
      obtain ⟨types, htypes', hat⟩ := hvalue.resolve_left hne
      cases htypes.symm.trans htypes'
      exact ⟨_, k, part_slot hdescribes hat hty hplace⟩

theorem tupleParts_assigns {items : List Ty} (hsource : source < begun)
    (hslots : site.PartsFit slots (.tuple items)) :
    site.Gives begun (tupleParts items.length slots (tempName source))
      (site.Assigns begun (site.Holding source (.tuple items))) := by
  refine rejectStarred_gives.bind fun _ _ => ?_
  split
  · exact .fail
  · next hlength =>
    refine assignSlots_assigns (stable_holding hsource _) fun k slot hslot hignore => ?_
    have hk := (List.getElem?_eq_some_iff.1 hslot).1
    have hty : items[k]? = some items[k] := getElem?_eq_getElem (by omega)
    refine ⟨items[k], hslots k slot _ hslot hignore hty, ?_⟩
    rw [Nat.zero_add]
    exact .checked fun place hplace => .pure (part_supplies fun _ _ _ hdescribes hvalue hne =>
      ⟨_, k, part_slot hdescribes (hvalue.resolve_left hne) hty hplace⟩)

/-- What is known of a list that is taken apart: its size is in a temporary and leaves as many
elements as the positions beside a starred one take. -/
def Measured (source size required : Nat) (item : Ty) (blocks : Blocks) (frame : Frame) : Prop :=
  ∃ (list n : Word) (room : Nat), frame.get? (tempName source) = some list ∧
    frame.get? (tempName size) = some n ∧ blocks list.toAddress = some (.list item room) ∧
    n.toAddress ≤ room ∧ room < 2 ^ 30 ∧ required ≤ n.toAddress

theorem stable_measured (hsource : source < begun) (hsize : size < begun) (item : Ty) :
    Stable begun (Measured source size required item) := by
  rintro blocks blocks' frame frame' ⟨list, n, room, hlist, hn, hat, hroom⟩ hgrow hkept
  exact ⟨list, n, room, (hkept _ hsource).trans hlist, (hkept _ hsize).trans hn, hgrow _ _ hat,
    hroom⟩

theorem elementOf_supplies {index : Code}
    (hindex : ∀ before blocks m frame stack, Upholds site.setting site.fuel site.owner before index
      blocks ⟨m, frame, stack⟩
      { next := fun _ t => t.locals = frame ∧ ∃ word, t.stack = word :: stack }) :
    site.Gives begun (elementOf (tempName source) index) fun code =>
      site.Supplies (Measured source size required item) code item := by
  refine .helper (.pure ⟨⟨.load 0, by rw [getLast?_append]; rfl, by simp [Instr.add]⟩, ?_⟩)
  rintro before blocks m frame stack ⟨list, n, room, hlist, -, hat, -⟩
  simp only [cons_append, nil_append]
  refine .get hlist (.seq (hindex _ _ _ _ _) ?_)
  rintro blocks₁ ⟨m₁, frame, _⟩ hgrow₁ ⟨rfl, word, rfl⟩
  have hvalue : site.Value (.list item) blocks₁ list := .inr ⟨room, hgrow₁ _ _ hat⟩
  have hnumber : site.Value .number blocks₁ word := trivial
  refine .callHelper [list, word] rfl (fun fewer => Serves.listElementAddress.2 _ _ _ _
    (.cons hvalue (.cons hnumber .nil))) fun blocks₂ m₂ address _ haddress => ?_
  obtain ⟨place, kind, i, hplace, hslot, heffective⟩ := element_slot haddress
  refine .assume fun hdescribes => .load fun _ => .nil fun _ => ⟨rfl, _, rfl, ?_⟩
  rw [heffective]
  exact hdescribes.load hplace hslot

theorem slice_supplies {count starred : Nat} (hstarred : starred < count)
    (hcount : count < 2 ^ 31) :
    site.Gives begun (listPart (tempName source) (tempName size) count (some starred) starred)
      fun code => site.Supplies (Measured source size (count - 1) item) code (.list item) := by
  simp only [listPart, if_true]
  refine .helper (.pure ⟨⟨.callHelper .listSlice, rfl, by simp [Instr.add, Instr.callHelper]⟩, ?_⟩)
  rintro before blocks m frame stack ⟨list, n, room, hlist, hn, hat, hroom, hsmall, hrequired⟩
  have hstart : (Word.ofNat starred).toAddress = starred := toAddress_ofNat (by omega)
  have hafter : (Word.ofNat (count - 1 - starred)).toAddress = count - 1 - starred :=
    toAddress_ofNat (by omega)
  refine .get hlist (.const (.get hn (.const (.numeric fun stop hstop => ?_))))
  cases hstop
  have hend : (n - Word.ofNat (count - 1 - starred)).toAddress =
      n.toAddress - (count - 1 - starred) := by
    rw [toAddress_sub (by omega), hafter]
  refine .callHelper [list, Word.ofNat starred,
    n - Word.ofNat (count - 1 - starred)] rfl (fun fewer =>
    .listSlice (show Helper.listSlice ∈ _ by decide) rfl rfl rfl rfl hat (by omega) (by omega))
    fun _ _ word _ hword => .nil fun _ => ⟨rfl, word, rfl, hword⟩

theorem starred_iff (hstars : slots.countP (·.starred) ≤ 1) (hslot : slots[position]? = some slot) :
    slot.starred = true ↔ slots.findIdx? (·.starred) = some position := by
  induction slots generalizing position with
  | nil => simp at hslot
  | cons first rest ih =>
    rw [countP_cons] at hstars
    rw [findIdx?_cons]
    cases hfirst : first.starred with
    | true =>
      rw [hfirst, if_pos rfl] at hstars
      have hnone : rest.countP (·.starred) = 0 := by omega
      rw [countP_eq_zero] at hnone
      cases position with
      | zero =>
        cases hslot
        simpa using hfirst
      | succ position => simpa using hnone slot (mem_of_getElem? hslot)
    | false =>
      rw [hfirst, if_neg (by decide)] at hstars
      cases position with
      | zero =>
        cases hslot
        simp [hfirst]
      | succ position => simpa using ih hstars hslot

theorem listPart_supplies (hstars : slots.countP (·.starred) ≤ 1) (hcount : slots.length < 2 ^ 31)
    (hslot : slots[position]? = some slot)
    (hrequired : (slots.findIdx? (·.starred)).isSome → required = slots.length - 1) :
    site.Gives begun (listPart (tempName source) (tempName size) slots.length
      (slots.findIdx? (·.starred)) position) fun code =>
      site.Supplies (Measured source size required item) code
        (if slot.starred then .list item else item) := by
  have hposition := (List.getElem?_eq_some_iff.1 hslot).1
  have hconst : ∀ (word : Word) before blocks m frame stack,
      Upholds site.setting site.fuel site.owner before [.const word] blocks ⟨m, frame, stack⟩
        { next := fun _ t => t.locals = frame ∧ ∃ word, t.stack = word :: stack } :=
    fun word _ _ _ _ _ => .const (.nil fun _ => ⟨rfl, word, rfl⟩)
  have hstarred := starred_iff hstars hslot
  cases hstar : slots.findIdx? (·.starred) with
  | none =>
    rw [hstar] at hstarred
    rw [if_neg (by simpa using hstarred.not)]
    exact elementOf_supplies (hconst _)
  | some starred =>
    rw [hstar, Option.some.injEq] at hstarred
    by_cases hsame : position = starred
    · subst hsame
      rw [hrequired (by rw [hstar]; rfl), if_pos (hstarred.2 rfl)]
      exact slice_supplies hposition hcount
    · rw [if_neg (fun hslot => hsame (hstarred.1 hslot).symm)]
      simp only [listPart]
      rw [if_neg hsame]
      split
      · refine elementOf_supplies fun before blocks m frame stack => ?_
        exact .localGet fun _ _ => .const (.numeric fun word _ => .nil fun _ => ⟨rfl, word, rfl⟩)
      · exact elementOf_supplies (hconst _)

theorem measured_upholds {enough : Nat} {mismatch : NumericOp}
    (hsource : source < size) (hfits : site.Fits blocks frame)
    (hholding : site.Holding source (.list item) blocks frame)
    (henough : ∀ n : Word, n.toAddress < 2 ^ 30 →
      Exec.numeric mismatch n (Word.ofNat required) = .ok 0 → enough ≤ n.toAddress) :
    Upholds site.setting site.fuel site.owner before
      [.localGet (tempName source), .load Block.sizeOffset, .localSet (tempName size),
        .localGet (tempName size), .const (Word.ofNat required), .numeric mismatch,
        .when [.const (Word.ofNat required), .localGet (tempName size),
          .callIntrinsic .unpackError, .unreachable]] blocks ⟨m, frame, stack⟩
      { next := fun blocks' t => site.Fits blocks' t.locals ∧ Kept size frame t.locals ∧
          t.stack = stack ∧ Measured source size enough item blocks' t.locals } := by
  obtain ⟨list, hlist, hvalue⟩ := hholding
  refine .assume fun hdescribes => .get hlist (.load fun hne => .set fun frame' hn hagree =>
    .get hn (.const (.numeric fun wrong hwrong => ?_)))
  obtain ⟨room, hat⟩ := hvalue.resolve_left (hne (by simp [Instr.constU]))
  have hsize := (hdescribes.filled _ _ hat).headed.1
  have hbound := (hdescribes.inside _ _ hat).2.2
  have hhead := Describes.head_lt m
  rw [Kind.size] at hbound
  dsimp only at hbound
  have hkept : Kept size frame frame' := .of_agree hagree (Nat.le_refl _)
  refine .cond (fun blocks' t => blocks' = blocks ∧ t.locals = frame' ∧ t.stack = stack ∧ wrong = 0)
    (fun _ => .const (.get hn (.host₂ rfl fun _ _ _ => .unreachable)))
    (fun hzero => .nil fun _ => ⟨rfl, rfl, rfl, hzero⟩) ?_
  rintro blocks' ⟨m', frame', stack'⟩ - ⟨rfl, rfl, rfl, rfl⟩
  refine .nil fun _ => ⟨hfits.kept (.refl _) hkept, hkept, rfl, list, _, room,
    hkept.temp hsource hlist, hn, hat, hsize, by omega, henough _ ?_ hwrong⟩
  exact Nat.lt_of_le_of_lt hsize (by omega)

theorem listParts_assigns (hsource : source < begun) (hcount : slots.length < 2 ^ 31)
    (hslots : site.PartsFit slots (.list item)) :
    site.Gives begun (listParts slots (tempName source))
      (site.Assigns begun (site.Holding source (.list item))) := by
  simp only [listParts]
  split
  · exact .fail
  next hstars =>
  refine .newTemp fun size hsize => ?_
  -- Only a starred position needs to know how many elements there are.
  have hparts : ∀ enough (required : Nat) (mismatch : NumericOp),
      ((slots.findIdx? (·.starred)).isSome → enough = slots.length - 1) →
      (∀ n : Word, n.toAddress < 2 ^ 30 →
        Exec.numeric mismatch n (Word.ofNat required) = .ok 0 → enough ≤ n.toAddress) →
      site.Gives (size + 1) (intrinsic .unpackError >>= fun unpackError =>
        assignSlots (listPart (tempName source) (tempName size) slots.length
          (slots.findIdx? (·.starred))) 0 slots >>= fun code => pure
        ([.localGet (tempName source), .load Block.sizeOffset, .localSet (tempName size),
          .localGet (tempName size), .const (Word.ofNat required), .numeric mismatch,
          .when [.const (Word.ofNat required), .localGet (tempName size), unpackError,
            .unreachable]] ++ code)) (site.Assigns begun (site.Holding source (.list item))) := by
    intro enough required mismatch henough hmismatch
    have hstable : Stable (size + 1) (Measured source size enough item) :=
      stable_measured (by omega) (Nat.lt_succ_self _) item
    refine .intrinsic ((assignSlots_assigns hstable fun k slot hslot hignore =>
      ⟨_, hslots k slot _ hslot hignore rfl, ?_⟩).bind fun slotCode hassigns => .pure
        fun before blocks m frame stack hfits hholding => ?_)
    · rw [Nat.zero_add]
      exact listPart_supplies (by omega) hcount hslot henough
    · refine .seq (measured_upholds (by omega) hfits hholding hmismatch) ?_
      rintro blocks₁ ⟨m₁, frame₁, stack⟩ hgrow₁ ⟨hfits₁, hkept₁, rfl, hmeasured⟩
      refine (hassigns _ _ _ _ _ hfits₁ hmeasured).imp_next ?_
      rintro blocks₂ t - ⟨hfits₂, hkept₂, hstack⟩
      exact ⟨hfits₂, (TempsKept.of_kept (hkept₁.mono hsize)).trans (hkept₂.mono (by omega)), hstack⟩
  cases hstar : slots.findIdx? (·.starred) with
  | none =>
    rw [hstar] at hparts
    exact hparts 0 _ _ (by simp) fun _ _ _ => Nat.zero_le _
  | some starred =>
    rw [hstar] at hparts
    refine hparts (slots.length - 1) (slots.length - 1) .ltS (fun _ => rfl) fun n hn hequal => ?_
    have hrequired : (Word.ofNat (slots.length - 1)).toAddress = slots.length - 1 :=
      toAddress_ofNat (by omega)
    have hless := ofBool_eq_zero.1 (Except.ok.inj hequal)
    rw [decide_eq_false_iff_not, lt_iff_toAddress_lt (by omega) (by omega), hrequired] at hless
    omega

end Parts

theorem wholeValue_assigns (hsource : source < begun)
    (hslots : ∀ slot ∈ slots, slot.ignore = false → slot.target.Consistent site.typing ty) :
    site.Gives begun (wholeValue slots (tempName source))
      (site.Assigns begun (site.Holding source ty)) := by
  rw [wholeValue.eq_def]
  split
  · next slot =>
    split
    · exact .fail
    split
    · exact .pure assigns_nil
    next hignore =>
    refine assignTo_assigns (stable_holding hsource ty)
      ⟨⟨.localGet _, rfl, by simp [Instr.add]⟩, ?_⟩
      (hslots slot (mem_singleton.2 rfl) (Bool.not_eq_true _ ▸ hignore))
    rintro before blocks m frame stack ⟨word, hword, hvalue⟩
    exact .get hword (.nil fun _ => ⟨rfl, word, rfl, hvalue⟩)
  · exact .fail

theorem pattern_assigns {pattern : Pattern} (hsource : source < begun)
    (hpattern : pattern.Consistent site.typing ty) :
    site.Gives begun (Lowering.pattern pattern (tempName source))
      (site.Assigns begun (site.Holding source ty)) := by
  rw [Pattern.Consistent] at hpattern
  rw [Lowering.pattern]
  split
  · next hdestructured =>
    rw [if_pos hdestructured] at hpattern
    obtain ⟨hcount, htakes, hslots⟩ := hpattern
    have hholding : ∀ code, site.Assigns begun (site.Holding source pattern.valueType) code →
        site.Assigns begun (site.Holding source ty) code := by
      rintro code hassigns before blocks m frame stack hfits ⟨word, hword, hvalue⟩
      exact hassigns _ _ _ _ _ hfits ⟨word, hword, hvalue.takes htakes⟩
    cases hty : pattern.valueType with
    | cls name =>
      rw [hty] at hholding hslots
      exact (instanceParts_assigns hsource hslots).imp hholding
    | tuple items =>
      rw [hty] at hholding hslots
      exact (tupleParts_assigns hsource hslots).imp hholding
    | list item =>
      rw [hty] at hholding hslots
      exact (listParts_assigns hsource hcount hslots).imp hholding
    | _ => exact .fail
  · next hdestructured =>
    rw [if_neg hdestructured] at hpattern
    exact wholeValue_assigns hsource hpattern

end Site

end TypedWasm.Typed
