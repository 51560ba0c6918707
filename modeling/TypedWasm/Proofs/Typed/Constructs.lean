import TypedWasm.Proofs.Destructuring
import TypedWasm.Proofs.Typed.Sites

/-!
# The constructs of expressions

The code of each construct leaves a value of its type and upholds the heap, if the code of its parts
does so.
-/

namespace TypedWasm.Typed.Site

open Block Exec List Lowering Nat Option UInt32 Word
open Lower (bind_eq_ok_iff context_eq_ok_iff ofChecked_eq_ok_iff pure_eq_ok_iff)

variable {name cls field : String} {found item argTy ty : Ty} {progress later start : Progress}
  {op : BinaryOp} {signature : Signature} {blocks : Blocks} {word : Word} {place : UInt32}
  {code : Code} {types : List Ty} {object : Lower Code} {context : Context}
  {offset : UInt32} {items : List Ty} {objectTy : Ty} {instr : Instr} {middle : Nat} {m : Machine}

variable {site : Site}

/-! ### Literals and names -/

theorem stringWords_evaluates (text : String) :
    site.Evaluates (constantBlock Block.stringSize (stringWords text)) .string := by
  refine fun start => .checked fun size hsize => .allocate fun temp htemp => ?_
  -- the length makes the block a string, so it is stored apart from the characters
  have hwords : site.Gives (temp + 1) (storeConstants (tempName temp) 0 (stringWords text))
      fun code => ∃ stored, code = storeWord (tempName temp) Block.lengthOffset
        [.constU (UInt32.ofNat text.toList.length)] ++ stored ∧ 1 + text.toList.length ≤ 2 ^ 30 ∧
        ∀ kind, (∀ k < text.toList.length, kind.slot? (1 + k) = some .number) →
          site.Stores temp stored kind := by
    refine .checked fun offset hoffset => ?_
    obtain rfl : Block.lengthOffset = offset := Except.ok.inj hoffset
    refine (storeConstants_gives (by omega)).bind fun stored hstored => .pure ⟨stored, rfl, ?_⟩
    rwa [length_map] at hstored
  refine hwords.bind ?_
  rintro _ ⟨stored, rfl, hcount, hstores⟩
  rw [stringWords, tail_cons, length_map] at hsize
  have hlength : (UInt32.ofNat text.toList.length).toNat = text.toList.length := by
    rw [toNat_ofNat']
    exact mod_eq_of_lt (by omega)
  rw [← append_assoc]
  refine .pure ((((builds_text (toNat_stringSize hsize)).stores (hstores _ fun k hk => ?_)).leaves
    htemp).imp fun blocks word hreserved => ?_)
  · exact if_pos ⟨by omega, by omega⟩
  · exact .inr ⟨_, (hreserved (by simp [Kind.size])).2⟩

theorem bigintWords_evaluates (value : Int) :
    site.Evaluates (constantBlock Block.bigintSize (bigintWords value)) .number := by
  refine fun start => .checked fun size hsize => .allocate fun temp htemp => ?_
  refine (storeConstants_gives (Nat.zero_le _)).bind fun stored ⟨hcount, hstores⟩ => .pure ?_
  have hbytes := toNat_stringSize hsize
  have hwords : (bigintWords value).length = (bigintWords value).tail.length + 1 := rfl
  rw [toNat_ofNat', mod_eq_of_lt (by omega)] at hbytes
  have hparts : size.toNat = 4 * (List.replicate (bigintWords value).length Ty.number).length := by
    rw [length_replicate]
    omega
  refine (((builds_parts site hparts).stores (hstores _ fun k hk => ?_)).leaves htemp).plain rfl
  rw [Kind.slot?, getElem?_replicate, if_pos (by omega)]

theorem literal_evaluates (value : Literal) : site.Evaluates (literal value) value.ty := by
  intro start
  cases value with
  | num number =>
    refine .bigNumbers fun big => ?_
    split
    · exact bigintWords_evaluates number start
    · rw [nativeNumber]
      split
      · exact .pure ((leaves_const site start _).plain rfl)
      · exact .fail
  | bool value => exact .pure ((leaves_const site start _).plain rfl)
  | none => exact .pure (leaves_const site start _)
  | string text => exact stringWords_evaluates text start

theorem isLocal_iff (name : String) :
    site.context.env.isLocal name = true ↔ (site.typing.locals.lookup name).isSome := by
  rw [site.env_eq, lookup_isSome_iff_mem]
  simp [Environment.isLocal, Environment.enter]

theorem globalAddress_eq (name : String) :
    site.context.env.globalAddress name = site.setting.env.globalAddress name := by
  rw [site.env_eq]
  rfl

theorem typeOf?_cases (h : site.typing.typeOf? name = some found) :
    (site.context.env.isLocal name = true ∧ site.typing.locals.lookup name = some found) ∨
      (¬ site.context.env.isLocal name = true ∧ site.setting.globals name = some found) := by
  rw [isLocal_iff]
  rw [Typing.typeOf?] at h
  cases hlookup : site.typing.locals.lookup name with
  | some ty =>
    rw [hlookup] at h
    exact .inl ⟨rfl, h⟩
  | none =>
    rw [hlookup, site.typing_globals] at h
    exact .inr ⟨by simp, h⟩

theorem nameValue_evaluates (hfound : site.typing.typeOf? name = some found) :
    site.Evaluates (nameValue name) found := by
  refine fun start => .context ?_
  rcases typeOf?_cases hfound with ⟨hlocal, hty⟩ | ⟨hglobal, hty⟩
  · rw [if_pos hlocal]
    exact .pure fun _ blocks m frame stack hfits => .localGet fun word hword => .nil fun _ =>
      ⟨.refl _ frame, word, rfl, hfits name found word hty hword⟩
  · rw [if_neg hglobal]
    refine .result fun address haddress => .pure fun _ blocks m frame stack _ => ?_
    rw [globalAddress_eq] at haddress
    refine .assume fun hdescribes =>
      .const (.load fun _ => .nil fun _ => ⟨.refl _ frame, _, rfl, ?_⟩)
    have hplace : Machine.effective (Word.ofUInt32 address) 0 = address.toNat :=
      congrArg (· + 0) (toAddress_ofUInt32 address)
    rw [hplace]
    exact hdescribes.globals name address found haddress hty

/-! ### Operators -/

section Operators

variable {left right : Lower Code} {leftTy rightTy : Ty} {result : Blocks → Word → Prop}
  {operandTy : Ty}

theorem bothOperands_evaluates (hleft : site.Evaluates left leftTy)
    (hright : site.Evaluates right rightTy) :
    site.EvaluatesAll (bothOperands left right) [leftTy, rightTy] := fun start =>
  (hleft start).bind fun _ h => (hright start).bind fun _ h' => .pure (h.all.append h'.all)

theorem LeavesAll.numeric {start : Nat} (h : site.LeavesAll start code types)
    (htypes : types.length = 2) (op : NumericOp) :
    site.Leaves start (code ++ [.numeric op]) fun _ _ => True := by
  refine h.followed fun before blocks m frame stack words _ hwords => ?_
  rw [hwords.length_eq] at htypes
  obtain ⟨a, b, rfl⟩ := length_eq_two.1 htypes
  exact .numeric fun word _ => .nil fun _ => ⟨rfl, word, rfl, trivial⟩

theorem Leaves.eqz {start : Nat} (h : site.Leaves start code result) :
    site.Leaves start (code ++ [.eqz]) fun _ _ => True := by
  intro before blocks m frame stack hfits
  refine .seq (h _ _ _ _ _ hfits) ?_
  rintro blocks' ⟨m', frame', _⟩ - ⟨hkept, word, rfl, -⟩
  exact .eqz (.nil fun _ => ⟨hkept, _, rfl, trivial⟩)

theorem listCopy_evaluates {source : Lower Code}
    (hsource : site.Evaluates source (.list item)) :
    site.Evaluates (do return (← source) ++ [← Lowering.helper .listCopy]) (.list item) :=
  fun start => (hsource start).bind fun _ h => .helper (.pure (h.all.helper .listCopy))

theorem listConcat_evaluates (leftEmpty rightEmpty : Bool)
    (hleft : site.Evaluates left (.list item)) (hright : site.Evaluates right (.list item)) :
    site.Evaluates (listConcat leftEmpty rightEmpty left right) (.list item) := by
  intro start
  rw [listConcat]
  split
  · split
    · exact listCopy_evaluates hleft start
    · exact listCopy_evaluates hright start
  · refine .newTemp fun i hi => .newTemp fun j hj => (hright _).bind fun rightCode hleaves =>
      (hleft _).bind fun leftCode hleaves' =>
        .helper (.pure fun before blocks m frame stack hfits => ?_)
    simp only [append_assoc, cons_append, nil_append]
    refine .seq (hleaves _ _ _ _ _ hfits) ?_
    rintro blocks₁ ⟨m₁, frame₁, _⟩ hgrow₁ ⟨hkept₁, second, rfl, hsecond⟩
    refine .set fun frame₂ hframe₂ hagree₂ => ?_
    have hkept₂ : Kept start frame frame₂ := (hkept₁.mono (by omega)).trans (.of_agree hagree₂ hi)
    refine .seq (hleaves' _ _ _ _ _ (hfits.kept hgrow₁ hkept₂)) ?_
    rintro blocks₃ ⟨m₃, frame₃, _⟩ hgrow₃ ⟨hkept₃, first, rfl, hfirst⟩
    refine .set fun frame₄ hframe₄ hagree₄ => ?_
    have hkept₄ : Kept start frame₂ frame₄ :=
      (hkept₃.mono (by omega)).trans (.of_agree hagree₄ (by omega))
    have hsecond₄ : frame₄.get? (tempName i) = some second := by
      refine hagree₄.get (hkept₃.temp (by omega) hframe₂) ?_
      intro hmem
      have := tempName_injective (mem_singleton.1 hmem)
      omega
    refine .get hframe₄ (.get hsecond₄ (.callHelper [first, second] rfl (fun fewer =>
      Serves.listConcat.2 _ _ _ _ (.cons hfirst (.cons (hsecond.grow hgrow₃) .nil)))
      fun blocks' _ word _ hword => .nil fun _ => ⟨hkept₂.trans hkept₄, word, rfl, hword⟩))

theorem stringOp_evaluates (hgives : op.Gives .string rightTy ty)
    (hleft : site.Evaluates left .string)
    (hright : site.Evaluates right rightTy) :
      site.Evaluates (stringOp op .string left right) ty := by
  refine fun start => (bothOperands_evaluates hleft hright start).bind fun operands h => ?_
  cases op with
  | plus =>
    obtain ⟨hright, hty⟩ := hgives
    have htakes : List.Forall₂ Ty.Takes [.string, .string] [.string, rightTy] :=
      .cons (.refl _) (.cons hright .nil)
    exact .helper (.pure (((h.takes htakes).helper .strConcat).takes hty))
  | eq => exact .helper (.pure ((h.helper .strEq).plain hgives.2))
  | ne =>
    refine .helper (.pure ?_)
    rw [show operands ++ [Instr.callHelper .strEq, .eqz] = operands ++ [Instr.callHelper .strEq] ++
      [.eqz] by simp]
    exact (h.helper .strEq).eqz.plain hgives.2
  | _ => exact .fail

theorem wordOp_evaluates (hty : ty.isPlain = true) (hleft : site.Evaluates left leftTy)
    (hright : site.Evaluates right rightTy) :
      site.Evaluates (wordOp op operandTy left right) ty := by
  refine fun start => (bothOperands_evaluates hleft hright start).bind fun operands h =>
    .bigNumbers fun big => ?_
  split
  · next found hfound =>
    refine .intrinsic (.pure ((h.host ?_).plain hty))
    split at hfound
    · cases op <;> cases hfound <;> rfl
    · cases hfound
  · exact .pure ((h.numeric rfl _).plain hty)

theorem Leaves.choose {start : Nat} {test thenCode elseCode : Code}
    {result' : Blocks → Word → Prop} (htest : site.Leaves start test result)
    (hthen : site.Leaves start thenCode result') (helse : site.Leaves start elseCode result') :
    site.Leaves start (test ++ [.choose thenCode elseCode]) result' := by
  intro before blocks m frame stack hfits
  refine .seq (htest _ _ _ _ _ hfits) ?_
  rintro blocks₁ ⟨m₁, frame₁, _⟩ hgrow₁ ⟨hkept₁, word, rfl, -⟩
  have hfits₁ := hfits.kept hgrow₁ hkept₁
  refine .cond (fun blocks' t => Kept start frame₁ t.locals ∧
    ∃ word, t.stack = word :: stack ∧ result' blocks' word)
    (fun _ => (hthen _ _ _ _ _ hfits₁).imp_next fun _ _ _ h => h)
    (fun _ => (helse _ _ _ _ _ hfits₁).imp_next fun _ _ _ h => h) ?_
  rintro blocks₂ t - ⟨hkept₂, hword⟩
  exact .nil fun _ => ⟨hkept₁.trans hkept₂, hword⟩

theorem binary_evaluates (leftEmpty rightEmpty : Bool) (hgives : op.Gives leftTy rightTy ty)
    (hleft : site.Evaluates left leftTy) (hright : site.Evaluates right rightTy) :
    site.Evaluates (binary op leftTy leftEmpty rightEmpty left right) ty := by
  cases op with
  | and =>
    refine fun start => (hleft start).bind fun _ h => (hright.takes hgives start).bind fun _ h' =>
      .pure (h.choose h' ((leaves_const site start 0).imp ?_))
    rintro blocks _ rfl
    exact isValue_zero _ _ _
  | or =>
    exact fun start => (hleft start).bind fun _ h => (hright.takes (.inl hgives) start).bind
      fun _ h' => .pure (h.choose ((leaves_const site start 1).plain hgives) h')
  | is =>
    exact fun start => (bothOperands_evaluates hleft hright start).bind fun _ h =>
      .pure ((h.numeric rfl _).plain hgives)
  | plus =>
    cases leftTy with
    | list item =>
      exact (listConcat_evaluates leftEmpty rightEmpty hleft (hright.takes hgives.1)).takes hgives.2
    | string => exact stringOp_evaluates hgives hleft hright
    | _ =>
      simp only [binary]
      exact wordOp_evaluates hgives hleft hright
  | _ =>
    cases leftTy with
    | list item => exact fun _ => .fail
    | string => exact stringOp_evaluates hgives hleft hright
    | _ =>
      simp only [binary]
      exact wordOp_evaluates hgives hleft hright

theorem unary_evaluates (op : UnaryOp) (hty : ty.isPlain = true) {operand : Lower Code}
    (hoperand : site.Evaluates operand operandTy) : site.Evaluates (unary op operand) ty := by
  intro start
  cases op with
  | neg =>
    refine .bigNumbers fun big => ?_
    split
    · exact (literal_evaluates (.num 0) start).bind fun _ h => (hoperand start).bind fun _ h' =>
        .intrinsic (.pure (((h.all.append h'.all).host rfl).plain hty))
    · have hzero : site.Leaves start [.const 0] (site.Value .number) :=
        (leaves_const site start 0).plain rfl
      exact (hoperand start).bind fun _ h =>
        .pure (((hzero.all.append h.all).numeric rfl _).plain hty)
  | not => exact (hoperand start).bind fun _ h => .pure (h.eqz.plain hty)

end Operators

/-! ### Calls and builtins -/

section Calls

variable {args : Lower Code}

theorem call_evaluates (hsignature : site.typing.signatures name = some signature)
    (hargs : site.EvaluatesAll args types) (htypes : List.Forall₂ Ty.Takes signature.params types)
    (hty : ty.Takes signature.result) : site.Evaluates (Lowering.call name args) ty := by
  refine fun start => (hargs start).bind fun _ h => .userCall fun other hother hhonours => .pure ?_
  cases hsignature.symm.trans hother
  exact ((h.takes htypes).user hhonours).takes hty

theorem methodCall_evaluates {method : String}
    (hsignature : site.typing.signatures (mangled cls method) = some signature)
    (hobject : site.Evaluates object (.cls cls)) (hargs : site.EvaluatesAll args types)
    (htypes : List.Forall₂ Ty.Takes signature.params (.cls cls :: types))
    (hty : ty.Takes signature.result) :
    site.Evaluates (methodCall (.cls cls) method object args) ty := by
  refine fun start => (hobject start).bind fun _ h => (hargs start).bind fun _ h' =>
    .userCall fun other hother hhonours => .pure ?_
  cases hsignature.symm.trans hother
  exact (((h.all.append h').takes htypes).user hhonours).takes hty

theorem printer_gives (argTy : Ty) (start : Nat) :
    site.Gives start (printer argTy) fun print => print.arity = 1 ∧ ∀ m arg word,
      (Machine.host m print [arg]).1 = .ok word → word = arg := by
  have hprints : ∀ (m : Machine) (arg : Word) text word,
      (m.printing arg text).1 = .ok word → word = arg := by
    rintro m arg (_ | _) word hword
    · cases hword
    · cases hword
      rfl
  cases argTy with
  | number =>
    refine .bigNumbers fun big => .pure ?_
    split
    · exact ⟨rfl, fun m arg word => hprints m arg _ word⟩
    · exact ⟨rfl, fun m arg word => hprints m arg _ word⟩
  | string | bool | none => exact .pure ⟨rfl, fun m arg word => hprints m arg _ word⟩
  | _ => exact .fail

theorem Leaves.boxed {start : Nat} (h : site.Leaves start code (site.Value argTy))
    (hty : ty.isPlain = true) :
    site.Gives start (Lowering.boxed code) fun boxed =>
      site.Leaves start boxed (site.Value ty) := by
  refine .bigNumbers fun big => ?_
  split
  · exact .helper (.pure ((h.all.helper .bignumFromI32).plain hty))
  · exact .pure (h.plain hty)

theorem Leaves.length {start : Nat} (h : site.Leaves start code (site.Value argTy)) :
    site.Gives start (lengthOf argTy) fun lengthCode =>
      site.Leaves start (code ++ lengthCode) (site.Value .number) := by
  have hload : ∀ offset, site.Leaves start (code ++ [.load offset]) (site.Value .number) := by
    intro offset
    refine h.all.followed fun before blocks m frame stack words _ hwords => ?_
    rcases hwords with _ | ⟨_, _ | _⟩
    exact .load fun _ => .nil fun _ => ⟨rfl, _, rfl, trivial⟩
  cases argTy with
  | list | dict | string => exact .pure (hload _)
  | tuple elements =>
    refine .pure (h.all.followed fun before blocks m frame stack words _ hwords => ?_)
    rcases hwords with _ | ⟨_, _ | _⟩
    exact .drop (.const (.nil fun _ => ⟨rfl, _, rfl, trivial⟩))
  | _ => exact .fail

theorem builtin1_evaluates {name : Builtin1} {arg : Lower Code}
    (hty : if name = .print then ty.Takes argTy else ty.isPlain = true)
    (harg : site.Evaluates arg argTy) : site.Evaluates (builtin1 name argTy arg) ty := by
  intro start
  cases name with
  | print =>
    refine (printer_gives argTy start).bind fun print ⟨harity, hback⟩ => (harg start).bind
      fun _ h => .intrinsic (.pure ((h.all.host harity.symm).imp ?_))
    rintro blocks word ⟨m, words, _ | ⟨hword, _ | _⟩, hresult⟩
    rw [hback m _ word hresult]
    exact hword.takes hty
  | abs =>
    refine .bigNumbers fun big => ?_
    split
    · exact .fail
    · exact (harg start).bind fun _ h => .intrinsic (.pure ((h.all.host rfl).plain hty))
  | len => exact (harg start).bind fun _ h => h.length.bind fun _ h' => h'.boxed hty

theorem builtin2_evaluates (name : Builtin2) {left right : Lower Code} {leftTy rightTy : Ty}
    (hty : ty.isPlain = true) (hleft : site.Evaluates left leftTy)
    (hright : site.Evaluates right rightTy) : site.Evaluates (builtin2 name left right) ty := by
  refine fun start => .bigNumbers fun big => ?_
  split
  · exact .fail
  · refine (bothOperands_evaluates hleft hright start).bind fun _ h =>
      .intrinsic (.pure ((h.host ?_).plain hty))
    cases name <;> rfl

end Calls

/-! ### Instances and tuples -/

theorem part_slot {setting : Setting} {i : Nat} (hdescribes : Describes setting blocks m)
    (hat : types = [] ∨ blocks word.toAddress = some (.parts types)) (hty : types[i]? = some ty)
    (hplace : Block.wordOffset (UInt32.ofNat i) = .ok place) :
    blocks word.toAddress = some (.parts types) ∧ (Kind.parts types).slot? i = some ty ∧
      place.toNat = 4 * i := by
  have hi := (List.getElem?_eq_some_iff.1 hty).1
  have hne : types ≠ [] := ne_nil_of_length_pos (by omega)
  have hblock := hat.resolve_left hne
  have hinside := (hdescribes.inside _ _ hblock).2.2
  have hhead := Describes.head_lt m
  rw [Kind.size] at hinside
  refine ⟨hblock, hty, ?_⟩
  rw [toNat_wordOffset hplace, toNat_ofNat', mod_eq_of_lt (by omega)]

theorem classLayout_eq_ok {layout : ClassLayout}
    (h : site.context.env.classLayout cls = .ok layout) :
    site.setting.env.classes.lookup cls = some layout ∧
      site.setting.env.fieldTypes? cls = some (layout.fields.map (·.ty)) := by
  have hlookup : site.setting.env.classes.lookup cls = some layout := by
    rw [site.env_eq, Environment.classLayout] at h
    split at h
    · next found hfound =>
      cases h
      exact hfound
    · cases h
  refine ⟨hlookup, ?_⟩
  rw [Environment.fieldTypes?, hlookup]
  rfl

theorem exists_field {env : Environment} (h : env.fieldOffset cls field = .ok offset) :
    ∃ (layout : ClassLayout) (found : FieldLayout) (i : Nat), env.classes.lookup cls = some layout ∧
      layout.field? field = some found ∧
      layout.fields[i]? = some found ∧ found.offset = offset := by
  rw [Environment.fieldOffset, Failing.bind_eq_ok_iff] at h
  obtain ⟨layout, hlayout, h⟩ := h
  rw [Environment.classLayout] at hlayout
  split at hlayout
  · next found hfound =>
    cases hlayout
    split at h
    · next entry hentry =>
      cases h
      obtain ⟨i, hi⟩ := mem_iff_getElem?.1 (mem_of_find?_eq_some hentry)
      exact ⟨layout, entry, i, hfound, hentry, hi, rfl⟩
    · cases h
  · cases hlayout

theorem field_slot (hdescribes : Describes site.setting blocks m)
    (hvalue : site.Value (.cls cls) blocks word) (hne : word ≠ 0)
    (hfield : site.setting.env.fieldType? cls field = some ty)
    (hoffset : site.context.env.fieldOffset cls field = .ok offset)
    (hplace : Block.instanceField offset = .ok place) :
    ∃ kind i, blocks word.toAddress = some kind ∧ kind.slot? i = some ty ∧ place.toNat = 4 * i := by
  rw [site.env_eq] at hoffset
  obtain ⟨layout, found, i, hlayout, hfound, hi, rfl⟩ := exists_field hoffset
  obtain ⟨hposition, -⟩ := site.layout cls layout hlayout i found hi
  obtain ⟨types, htypes, hat⟩ := hvalue.resolve_left hne
  have hlookup : site.setting.env.classes.lookup cls = some layout := hlayout
  rw [Environment.fieldTypes?, hlookup] at htypes
  rw [Environment.fieldType?, hlookup] at hfield
  cases htypes
  simp only [bind_some, hfound, map_some, Option.some.injEq] at hfield
  subst hfield
  rw [hposition] at hplace
  have hty : (layout.fields.map (·.ty))[i]? = some found.ty := by rw [getElem?_map, hi]; rfl
  obtain ⟨hblock, hslot, hbytes⟩ := part_slot hdescribes hat hty hplace
  exact ⟨_, i, hblock, hslot, hbytes⟩

/-- Code whose last instruction is not the constant the allocator reads the head with. -/
def Ends (code : Code) : Prop :=
  ∃ last, code.getLast? = some last ∧ last ≠ .constU heapHeadAddress

theorem Ends.getLast? {before : Code} (h : Ends code) :
    (before ++ code).getLast? ≠ some (.constU heapHeadAddress) := by
  obtain ⟨last, hlast, hne⟩ := h
  rw [getLast?_append, hlast]
  exact fun hsome => hne (Option.some.inj hsome)

/-- A step of lowering that gives such code only. -/
def EndsWell (context : Context) (lower : Lower Code) : Prop :=
  ∀ progress code later, lower.run context progress = (.ok code, later) → Ends code

theorem EndsWell.gives {start : Nat} {given : Code → Prop} (h : EndsWell site.context object)
    (hgiven : site.Gives start object given) :
    site.Gives start object fun code => Ends code ∧ given code :=
  fun progress code later hle hrun =>
    (hgiven progress code later hle hrun).imp_right fun hcode => ⟨h progress code later hrun, hcode⟩

theorem Leaves.part {start : Nat} (h : site.Leaves start code (site.Value objectTy))
    (hends : Ends code)
    (hpart : ∀ blocks m word, Describes site.setting blocks m → site.Value objectTy blocks word →
      word ≠ 0 → ∃ kind i, blocks word.toAddress = some kind ∧ kind.slot? i = some ty ∧
        place.toNat = 4 * i) : site.Leaves start (code ++ [.load place]) (site.Value ty) := by
  intro before blocks m frame stack hfits
  refine .seq (h _ _ _ _ _ hfits) ?_
  rintro blocks₁ ⟨m₁, frame₁, _⟩ - ⟨hkept₁, word, rfl, hword⟩
  refine .assume fun hdescribes => .load fun hne => .nil fun _ => ⟨hkept₁, _, rfl, ?_⟩
  obtain ⟨kind, i, hat, hslot, hbytes⟩ := hpart _ _ _ hdescribes hword (hne hends.getLast?)
  rw [Machine.effective, hbytes]
  exact hdescribes.load hat hslot

theorem fieldLookup_evaluates (hfield : site.setting.env.fieldType? cls field = some found)
    (hty : ty.Takes found) (hobject : site.Evaluates object (.cls cls))
    (hends : EndsWell site.context object) :
    site.Evaluates (fieldLookup (.cls cls) field object) ty := by
  refine fun start => .context (.lookup fun offset hoffset => ?_)
  refine (hends.gives (hobject start)).bind fun code ⟨hcode, h⟩ => .checked fun place hplace =>
    .pure ?_
  refine (h.part hcode fun blocks m word hdescribes hvalue hne => ?_).takes hty
  exact field_slot hdescribes hvalue hne hfield hoffset hplace

theorem storeDefaults_gives {temp index : Nat} {fields : List FieldLayout} (hindex : index ≤ 2 ^ 30)
    (hfields : ∀ k field, fields[k]? = some field →
      field.offset = UInt32.ofNat (index + k) ∧ field.ty.Takes field.default.ty) :
    site.Gives (temp + 1) (storeDefaults (tempName temp) fields) fun code =>
      index + fields.length ≤ 2 ^ 30 ∧ ∀ kind,
        (∀ k field, fields[k]? = some field → kind.slot? (index + k) = some field.ty) →
        site.Stores temp code kind := by
  induction fields generalizing index with
  | nil => exact .pure ⟨hindex, fun kind _ => stores_nil temp kind⟩
  | cons field rest ih =>
    refine (literal_evaluates field.default _).bind fun default h => .checked fun offset hoffset =>
      ?_
    obtain ⟨hposition, htakes⟩ := hfields 0 field rfl
    rw [hposition, Nat.add_zero] at hoffset
    obtain ⟨hsmall, hplace⟩ := Heap.consecutive_wordOffset.index hindex hoffset
    have hrest : ∀ k other, rest[k]? = some other →
        other.offset = UInt32.ofNat (index + 1 + k) ∧ other.ty.Takes other.default.ty := by
      intro k other hother
      rw [show index + 1 + k = index + (k + 1) by omega]
      exact hfields (k + 1) other hother
    refine (ih hsmall hrest).bind fun stored ⟨hcount, hstores⟩ => .pure ⟨?_, fun kind hslots => ?_⟩
    · rw [length_cons]
      omega
    · have hstore := h.stores (hslots 0 field rfl) (by rw [hplace, Nat.zero_add, Nat.add_zero])
        fun _ _ hword => hword.takes htakes
      refine hstore.append (hstores kind fun k other hother => ?_)
      rw [show index + 1 + k = index + (k + 1) by omega]
      exact hslots (k + 1) other hother

theorem value_of_reserved (htypes : site.setting.env.fieldTypes? cls = some types)
    (h : Reserved blocks word (.parts types)) : site.Value (.cls cls) blocks word := by
  refine .inr ⟨types, htypes, ?_⟩
  by_cases hnil : types = []
  · exact .inl hnil
  · exact .inr (h (length_pos_of_ne_nil hnil)).2

theorem Builds.initialised {start temp : Nat} {args : Code} {fields : List Ty}
    (h : site.Builds temp code (.parts fields)) (hle : start ≤ temp)
    (hfields : site.setting.env.fieldTypes? cls = some fields)
    (hargs : site.LeavesAll (temp + 1) args types)
    (htypes : List.Forall₂ Ty.Takes signature.params (.cls cls :: types))
    (hhonours : Honours site.setting site.fuel (mangled cls initMethod) signature) :
    site.Leaves start (code ++ [.localGet (tempName temp)] ++ args ++
      [.callUser (mangled cls initMethod), .drop] ++ [.localGet (tempName temp)])
      (site.Value (.cls cls)) := by
  intro before blocks m frame stack hfits
  simp only [append_assoc, cons_append, nil_append]
  refine .seq (h _ _ _ _ _ hfits) ?_
  rintro blocks₁ ⟨m₁, frame₁, stack⟩ hgrow₁ ⟨hkept₁, rfl, address, haddress, hreserved⟩
  refine .get haddress (.seq (hargs _ _ _ _ _ (hfits.kept hgrow₁ hkept₁)) ?_)
  rintro blocks₂ ⟨m₂, frame₂, _⟩ hgrow₂ ⟨hkept₂, words, rfl, hwords⟩
  have hinstance := value_of_reserved hfields (hreserved.grow hgrow₂)
  have hparams := forall₂_takes htypes (.cons hinstance hwords)
  rw [show words.reverse ++ address :: stack = (address :: words).reverse ++ stack by simp]
  refine .call (show (Callee.user (mangled cls initMethod)).function? = some _ from rfl)
    (hhonours.call hparams) fun blocks₃ m₃ _ hgrow₃ _ => .drop (.get
      (hkept₂.temp (lt_succ_self _) haddress) (.nil fun _ =>
        ⟨(hkept₁.trans (hkept₂.mono (le_succ _))).mono hle, address, rfl, ?_⟩))
  exact hinstance.grow hgrow₃

theorem construct_evaluates {argCount : Nat} {args : Lower Code}
    (hargs : site.EvaluatesAll args types)
    (hinit : ∀ signature, site.typing.signatures (mangled cls initMethod) = some signature →
      List.Forall₂ Ty.Takes signature.params (.cls cls :: types)) :
    site.Evaluates (construct cls argCount args) (.cls cls) := by
  refine fun start => .context (.lookup fun layout hlayout => .checked fun size hsize =>
    .allocate fun temp htemp => ?_)
  obtain ⟨hlookup, hfields⟩ := classLayout_eq_ok hlayout
  have hpositions : ∀ k field, layout.fields[k]? = some field →
      field.offset = UInt32.ofNat (0 + k) ∧ field.ty.Takes field.default.ty := by
    intro k field hfield
    rw [Nat.zero_add]
    exact site.layout cls layout hlookup k field hfield
  refine (storeDefaults_gives (Nat.zero_le _) hpositions).bind fun defaults ⟨hcount, hstores⟩ => ?_
  have hbytes : size.toNat = 4 * (layout.fields.map (·.ty)).length := by
    rw [toNat_wordOffset hsize, toNat_ofNat', mod_eq_of_lt (by omega), length_map]
  have hslots : ∀ k field, layout.fields[k]? = some field →
      (Kind.parts (layout.fields.map (·.ty))).slot? (0 + k) = some field.ty := by
    intro k field hfield
    rw [Nat.zero_add, Kind.slot?, getElem?_map, hfield]
    rfl
  have hbuilds := (builds_parts site hbytes).stores (hstores _ hslots)
  split
  · refine (hargs _).bind fun argCode h => .userCall fun signature hsignature hhonours => .pure ?_
    exact hbuilds.initialised htemp hfields h (hinit signature hsignature) hhonours
  · split
    · exact .pure ((hbuilds.leaves htemp).imp fun _ _ hword => value_of_reserved hfields hword)
    · exact .fail

/-! ### Indexing -/

section Indexing

variable {key : Lower Code} {keyTy : Ty} {literalKey : Option Int}

theorem indexWord_evaluates (hkey : site.Evaluates key keyTy) :
    site.Evaluates (indexWord keyTy key) .number := by
  refine fun start => (hkey start).bind fun _ h => .bigNumbers fun big => ?_
  split
  · exact .helper (.pure ((h.all.helper .bignumToI32).plain rfl))
  · exact .pure (h.plain rfl)

theorem listElement_gives (hobject : site.Evaluates object (.list item))
    (hkey : site.Evaluates key keyTy) (start : Nat) :
    site.Gives start (listElement keyTy object key) fun code =>
      site.Leaves start code fun blocks word => Upholds.IsElement blocks item word := by
  refine (hobject start).bind fun _ h => (indexWord_evaluates hkey start).bind fun _ h' =>
    .context ?_
  rw [if_pos site.checked]
  exact .helper (.pure ((h.all.append h'.all).helper .listElementAddress))

theorem element_slot (h : Upholds.IsElement blocks item word) :
    ∃ place kind i, blocks place = some kind ∧ kind.slot? i = some item ∧
      Machine.effective word 0 = place + 4 * i := by
  obtain ⟨place, room, i, hat, hi, hword⟩ := h
  exact ⟨place, .list item room, 3 + i, hat, if_pos ⟨by omega, by omega⟩, hword⟩

theorem Leaves.element {start : Nat}
    (h : site.Leaves start code fun blocks word => Upholds.IsElement blocks item word) :
    site.Leaves start (code ++ [.load 0]) (site.Value item) := by
  intro before blocks m frame stack hfits
  refine .seq (h _ _ _ _ _ hfits) ?_
  rintro blocks₁ ⟨m₁, frame₁, _⟩ - ⟨hkept₁, word, rfl, hword⟩
  obtain ⟨place, kind, i, hat, hslot, hplace⟩ := element_slot hword
  refine .assume fun hdescribes => .load fun _ => .nil fun _ => ⟨hkept₁, _, rfl, ?_⟩
  rw [hplace]
  exact hdescribes.load hat hslot

theorem tupleElement_evaluates
    (hindexes : (Ty.tuple items).Indexes site.typing.picks literalKey keyTy ty)
    (hobject : site.Evaluates object (.tuple items)) (hkey : site.Evaluates key keyTy)
    (hends : EndsWell site.context object) :
    site.Evaluates (tupleElement (.tuple items) items.length literalKey keyTy object key) ty := by
  refine fun start => (hends.gives (hobject start)).bind fun code ⟨hcode, h⟩ => ?_
  rw [Ty.Indexes] at hindexes
  cases hposition : literalKey.filter fits64 with
  | some position =>
    rw [hposition] at hindexes
    dsimp only at hindexes ⊢
    generalize (if position < 0 then position + (items.length : Int) else position) = place
      at hindexes ⊢
    split
    · exact .fail
    · next hinside =>
      refine .checked fun offset hoffset => .pure ?_
      have hitem : items[place.toNat]? = some items[place.toNat] := getElem?_eq_getElem (by omega)
      refine (h.part hcode fun blocks m word hdescribes hvalue hne => ?_).takes (hindexes _ hitem)
      exact ⟨_, _, part_slot hdescribes (hvalue.resolve_left hne) hitem hoffset⟩
  | none =>
    rw [hposition] at hindexes
    refine (indexWord_evaluates hkey start).bind fun _ h' => .pure ((h.all.append h'.all).followed
      fun before blocks m frame stack words _ hwords => ?_)
    rcases hwords with _ | ⟨_, _ | ⟨_, _ | _⟩⟩
    exact .const (.numeric fun _ _ => .numeric fun _ _ => .load fun _ => .nil fun _ =>
      ⟨rfl, _, rfl, isValue_of_isPlain (site.picks_plain _ _ hindexes) _⟩)

theorem dictLookup_evaluates {dictKey value : Ty}
    (hobject : site.Evaluates object (.dict dictKey value))
    (hkey : site.Evaluates key keyTy) : site.Evaluates (dictLookup dictKey object key) value := by
  refine fun start => .bigNumbers fun big => ?_
  split
  · exact .fail
  · refine (hobject start).bind fun objectCode h => (hkey start).bind fun keyCode h' =>
      .helper (.pure ?_)
    have hflag : site.Leaves start [.const (Word.ofBool dictKey.isString)] (site.Value .bool) :=
      (leaves_const site _ _).plain rfl
    rw [show objectCode ++ keyCode ++
      [.const (Word.ofBool dictKey.isString), .callHelper .dictGet] =
      objectCode ++ keyCode ++ [.const (Word.ofBool dictKey.isString)] ++
        [.callHelper .dictGet] by simp]
    exact ((h.all.append h'.all).append hflag.all).helper .dictGet

theorem indexed_evaluates (hindexes : objectTy.Indexes site.typing.picks literalKey keyTy ty)
    (hobject : site.Evaluates object objectTy) (hkey : site.Evaluates key keyTy)
    (hends : ∀ items, objectTy = .tuple items → EndsWell site.context object) :
    site.Evaluates (indexed objectTy literalKey keyTy object key) ty := by
  cases objectTy with
  | string =>
    exact fun start => (hobject start).bind fun _ h => (indexWord_evaluates hkey start).bind
      fun _ h' => .helper (.pure (((h.all.append h'.all).helper .strIndex).takes hindexes))
  | list item =>
    exact fun start => (listElement_gives hobject hkey start).bind fun _ h =>
      .pure (h.element.takes hindexes)
  | tuple items => exact tupleElement_evaluates hindexes hobject hkey (hends items rfl)
  | dict dictKey value => exact (dictLookup_evaluates hobject hkey).takes hindexes.1
  | _ => exact fun _ => .fail

end Indexing

/-! ### Collections -/

/-- Steps of lowering that fill a block which has room for all parts. -/
def Fills (site : Site) (parts : String → Lower Code) (count : Nat) (kind : Nat → Kind) :
    Prop :=
  ∀ temp, site.Gives (temp + 1) (parts (tempName temp)) fun code =>
    count ≤ 2 ^ 30 ∧ ∀ room, count ≤ room → site.Stores temp code (kind room)

section Collections

variable {count : Nat} {kind : Nat → Kind} {parts : String → Lower Code}

theorem collection_gives {tag : Word} {sizeOf : UInt32 → Checked UInt32}
    (hparts : site.Fills parts count kind) (hheader : ∀ room, (kind room).headerSize = 3)
    (hsize : ∀ bound size, sizeOf bound = .ok size → size.toNat = 4 * (kind bound.toNat).size)
    (hheaded : ∀ (memory : Memory) place room, (memory.word (place + 4)).toAddress ≤ room →
      (memory.word (place + 8)).toAddress = room → (kind room).Headed memory place) (start : Nat) :
    site.Gives start (collection tag count sizeOf parts) fun code => ∃ room,
      site.Leaves start code fun blocks word => Reserved blocks word (kind room) := by
  refine .context (.checked fun bound hbound => .checked fun size hbytes =>
    .allocate fun temp htemp =>
    (hparts temp).bind fun stored ⟨hcount, hstores⟩ => .pure ⟨bound.toNat, ?_⟩)
  have hsmall : (UInt32.ofNat count).toNat = count := by
    rw [toNat_ofNat']
    exact mod_eq_of_lt (by omega)
  have hroom := Offset.add_eq_ok_iff.1 hbound
  rw [hsmall] at hroom
  refine ((builds_header (hsize bound size hbytes) (hheader _) fun memory place hn hb => ?_).stores
    (hstores bound.toNat (by omega))).leaves htemp
  refine hheaded memory place _ ?_ ?_
  · rw [hn, toAddress_ofUInt32, hsmall]
    omega
  · rw [hb, toAddress_ofUInt32]

theorem tuple_gives (hparts : site.Fills parts items.length fun _ => .parts items) (start : Nat) :
    site.Gives start (tuple items.length parts) fun code =>
      site.Leaves start code fun blocks word => Reserved blocks word (.parts items) := by
  refine .checked fun size hbytes => .allocate fun temp htemp =>
    (hparts temp).bind fun stored ⟨hcount, hstores⟩ => .pure ?_
  have hsize : size.toNat = 4 * items.length := by
    rw [toNat_wordOffset hbytes, toNat_ofNat', mod_eq_of_lt (by omega)]
  exact ((builds_parts site hsize).stores (hstores _ (Nat.le_refl _))).leaves htemp

end Collections

end TypedWasm.Typed.Site
