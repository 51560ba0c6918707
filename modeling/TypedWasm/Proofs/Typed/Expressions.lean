import TypedWasm.Proofs.Typed.Constructs

/-!
# Consistent expressions

The code of a consistent expression leaves a value of the type that the expression carries, and
upholds the heap.
-/

namespace TypedWasm

open Block List

open Lower (bind_eq_ok_iff pure_eq_ok_iff)

namespace Block

variable {index offset count size : UInt32}

theorem toNat_dictKey (h : dictKey index = .ok offset) :
    offset.toNat = 4 * (3 + 2 * index.toNat) := by
  obtain ⟨start, hstart, hsum⟩ := Failing.bind_eq_ok_iff.1 h
  have hheader : headerSize.toNat = 12 := rfl
  have hentry : entrySize.toNat = 8 := rfl
  rw [Offset.mul, hentry] at hstart
  split at hstart
  · next hfits =>
    cases hstart
    rw [Offset.add_eq_ok_iff.1 hsum, hheader, UInt32.toNat_mul, hentry, Nat.mod_eq_of_lt hfits]
    omega
  · cases hstart

theorem toNat_dictValue (h : dictValue index = .ok offset) :
    offset.toNat = 4 * (3 + 2 * index.toNat + 1) := by
  obtain ⟨start, hstart, hsum⟩ := Failing.bind_eq_ok_iff.1 h
  have hword : wordSize.toNat = 4 := rfl
  rw [Offset.add_eq_ok_iff.1 hsum, toNat_dictKey hstart, hword]
  omega

theorem toNat_dictSize (h : dictSize count = .ok size) : size.toNat = 4 * (3 + 2 * count.toNat) :=
  toNat_dictKey h

end Block

namespace Typed.Site

open Exec Lowering

variable {site : Site} {ty : Ty}

theorem ends_append (front : Code) {last : Instr} (h : last ≠ .constU heapHeadAddress := by
      simp [Instr.constU, Instr.choose, Instr.callUser, Instr.callHelper, Instr.callIntrinsic]) :
    Ends (front ++ [last]) := ⟨last, by simp, h⟩

namespace EndsWell

variable {α : Type} {context : Context}

theorem pure {code : Code} (h : Ends code) : EndsWell context (Pure.pure code) := by
  intro progress found later hrun
  obtain ⟨rfl, -⟩ := pure_eq_ok_iff.1 hrun
  exact h

theorem fail {fault : Fault} : EndsWell context (Lower.fail fault) :=
  fun _ _ _ hrun => absurd hrun (by simp)

theorem bind {step : Lower α} {next : α → Lower Code}
    (h : ∀ value, EndsWell context (next value)) : EndsWell context (step >>= next) := by
  intro progress code later hrun
  obtain ⟨value, between, -, hrest⟩ := bind_eq_ok_iff.1 hrun
  exact h value between code later hrest

theorem userCall {name : String} {front : Code} :
    EndsWell context (Lowering.userCall name >>= fun call => Pure.pure (front ++ [call])) := by
  intro progress code later hrun
  simp only [Lowering.userCall, bind_eq_ok_iff] at hrun
  obtain ⟨_, _, ⟨_, _, -, hcall⟩, hcode⟩ := hrun
  split at hcall
  · obtain ⟨rfl, -⟩ := pure_eq_ok_iff.1 hcall
    exact pure (ends_append front) _ _ _ hcode
  · exact absurd hcall (by simp)

end EndsWell

/-- Whether values of a type are blocks of parts. -/
def HasParts (ty : Ty) : Prop := (∃ cls, ty = .cls cls) ∨ ∃ items, ty = .tuple items

theorem HasParts.not_isPlain (h : HasParts ty) (hplain : ty.isPlain = true) : False := by
  rcases h with ⟨_, rfl⟩ | ⟨_, rfl⟩ <;> cases hplain

theorem HasParts.not_takes {source : Ty} (h : HasParts ty) (htakes : ty.Takes source)
    (hne : source ≠ .none) (hsource : ¬ HasParts source) : False := by
  rcases htakes with hplain | rfl | rfl
  · exact h.not_isPlain hplain
  · exact hsource h
  · exact hne rfl

theorem HasParts.op_eq_and {op : BinaryOp} {left right : Ty} (h : HasParts ty)
    (hgives : op.Gives left right ty) : op = .and := by
  have hlist : ∀ item, ¬ HasParts (.list item) := by simp [HasParts]
  have hstring : ¬ HasParts .string := by simp [HasParts]
  cases op with
  | and => rfl
  | or | is => exact (h.not_isPlain hgives).elim
  | plus =>
    cases left with
    | list item => exact (h.not_takes hgives.2 (by simp) (hlist item)).elim
    | string => exact (h.not_takes hgives.2 (by simp) hstring).elim
    | _ => exact (h.not_isPlain hgives).elim
  | _ =>
    cases left with
    | string => exact (h.not_isPlain hgives.2).elim
    | _ => exact (h.not_isPlain hgives).elim

/-- The code of an instance or tuple does not end in a constant: no literal is one. -/
theorem expr_ends {e : Expr} (hconsistent : e.Consistent site.typing) (hparts : HasParts e.ty) :
    EndsWell site.context (expr e) := by
  cases e with
  | literal ty value =>
    have hty : ty = value.ty := hconsistent
    rcases hparts with ⟨_, hparts⟩ | ⟨_, hparts⟩ <;> cases value <;> cases hty.symm.trans hparts
  | id ty name =>
    refine .bind fun _ => ?_
    dsimp only
    split
    · exact .pure (ends_append [])
    · exact .bind fun _ => .pure (ends_append [_])
  | binary ty op left right =>
    obtain rfl := hparts.op_eq_and hconsistent.2.2
    exact .bind fun _ => .bind fun _ => .pure (ends_append _)
  | unary ty op operand => exact (hparts.not_isPlain hconsistent.2).elim
  | call ty name args => exact .bind fun _ => .userCall
  | builtin1 ty name arg =>
    cases name with
    | print =>
      exact .bind fun _ => .bind fun _ => fun _ =>
        (.pure (ends_append _) : EndsWell site.context _) _
    | abs | len => exact (hparts.not_isPlain hconsistent.2).elim
  | builtin2 ty name left right => exact (hparts.not_isPlain hconsistent.2.2).elim
  | construct ty cls args =>
    refine .bind fun _ => .bind fun _ => .bind fun _ => .bind fun _ => .bind fun _ => ?_
    split
    · exact .bind fun _ => .bind fun _ => .pure (ends_append _)
    · split
      · exact .pure (ends_append _)
      · exact .fail
  | methodCall ty object method args => exact .bind fun _ => .bind fun _ => .bind fun _ => .userCall
  | index ty object key =>
    obtain ⟨-, -, hindexes⟩ := hconsistent
    simp only [expr]
    cases hty : object.ty with
    | string =>
      rw [hty] at hindexes
      exact (hparts.not_takes hindexes (by simp) (by simp [HasParts])).elim
    | list item => exact .bind fun _ => .pure (ends_append _)
    | tuple items =>
      refine .bind fun _ => ?_
      split
      · dsimp only
        split <;> split
        all_goals first | exact .fail | exact .bind fun _ => .pure (ends_append _)
      · exact .bind fun _ => .pure ⟨.load 0, by simp, by simp [Instr.constU]⟩
    | dict dictKey value =>
      refine .bind fun _ => ?_
      split
      · exact .fail
      · refine .bind fun _ => .bind fun _ => fun _ => (.pure ?_ : EndsWell site.context _) _
        exact ⟨.callHelper .dictGet, by simp, by simp [Instr.constU, Instr.callHelper]⟩
    | _ => exact .fail
  | lookup | list | dict =>
    exact .bind fun _ => .bind fun _ => .bind fun _ => .bind fun _ => .bind fun _ =>
      .pure (ends_append _)
  | tuple ty elements => exact .bind fun _ => .bind fun _ => .bind fun _ => .pure (ends_append _)

theorem exists_item {items : List Ty} {elements : List Expr}
    (h : List.Forall₂ Ty.Takes items (elements.map Expr.ty)) {k : Nat} {e : Expr}
    (he : elements[k]? = some e) : ∃ item, items[k]? = some item ∧ item.Takes e.ty := by
  induction elements generalizing items k with
  | nil => cases he
  | cons first rest ih =>
    cases h with
    | @cons item _ items _ hfirst hrest =>
      cases k with
      | zero =>
        cases he
        exact ⟨item, rfl, hfirst⟩
      | succ k => exact ih hrest he

mutual

/-- **Consistent expressions** uphold the heap and leave a value of their type. -/
theorem expr_evaluates : (e : Expr) → e.Consistent site.typing → site.Evaluates (expr e) e.ty := by
  intro e h
  cases e with
  | literal ty value =>
    have hty : ty = value.ty := h
    simp only [expr, Expr.ty, hty]
    exact literal_evaluates value
  | id ty name =>
    obtain ⟨found, hfound, hty⟩ := h
    simp only [expr]
    exact (nameValue_evaluates hfound).takes hty
  | binary ty op left right =>
    obtain ⟨hleft, hright, hgives⟩ := h
    simp only [expr]
    exact binary_evaluates _ _ hgives (expr_evaluates left hleft) (expr_evaluates right hright)
  | unary ty op operand =>
    obtain ⟨hoperand, hty⟩ := h
    simp only [expr]
    exact unary_evaluates op hty (expr_evaluates operand hoperand)
  | call ty name args =>
    obtain ⟨hargs, signature, hsignature, htypes, hty⟩ := h
    simp only [expr]
    exact call_evaluates hsignature (exprs_evaluates args hargs) htypes hty
  | builtin1 ty name arg =>
    obtain ⟨harg, hty⟩ := h
    simp only [expr]
    exact builtin1_evaluates hty (expr_evaluates arg harg)
  | builtin2 ty name left right =>
    obtain ⟨hleft, hright, hty⟩ := h
    simp only [expr]
    exact builtin2_evaluates name hty (expr_evaluates left hleft) (expr_evaluates right hright)
  | construct ty cls args =>
    obtain ⟨hargs, hty, hinit⟩ := h
    simp only [expr]
    exact (construct_evaluates (exprs_evaluates args hargs) hinit).takes hty
  | methodCall ty object method args =>
    obtain ⟨hobject, hargs, hmethod⟩ := h
    simp only [expr]
    have heval := expr_evaluates object hobject
    cases hcls : object.ty with
    | cls cls =>
      obtain ⟨signature, hsignature, htypes, hty⟩ := hmethod cls hcls
      rw [hcls] at heval htypes
      exact methodCall_evaluates hsignature heval (exprs_evaluates args hargs) htypes hty
    | _ => exact fun _ => .fail
  | lookup ty object field =>
    obtain ⟨hobject, hfield⟩ := h
    simp only [expr]
    have heval := expr_evaluates object hobject
    cases hcls : object.ty with
    | cls cls =>
      obtain ⟨found, hfound, hty⟩ := hfield cls hcls
      rw [hcls] at heval
      rw [site.typing_env] at hfound
      exact fieldLookup_evaluates hfound hty heval (expr_ends hobject (.inl ⟨cls, hcls⟩))
    | _ => exact fun _ => .fail
  | index ty object key =>
    obtain ⟨hobject, hkey, hindexes⟩ := h
    simp only [expr]
    exact indexed_evaluates hindexes (expr_evaluates object hobject) (expr_evaluates key hkey)
      fun items hitems => expr_ends hobject (.inr ⟨items, hitems⟩)
  | list ty elements =>
    obtain ⟨helements, item, hty, htakes⟩ := h
    have hfills : site.Fills (fun temp => storeAll temp Block.listElement 0 elements)
        elements.length (fun room => .list item room) := by
      refine fun temp => (storeAll_gives (fun _ _ => toNat_listElement) elements helements 0
        (Nat.zero_le _)).imp fun code ⟨hcount, hstores⟩ => ⟨by omega, fun room hroom => ?_⟩
      refine hstores _ fun k e he => ⟨item, ?_, htakes e (mem_of_getElem? he)⟩
      have hk := (List.getElem?_eq_some_iff.1 he).1
      exact if_pos ⟨by omega, by omega⟩
    refine fun start => (collection_gives hfills (fun _ => rfl) (fun _ _ => toNat_listSize)
      (fun _ _ _ hsize hbound => ⟨hsize, hbound⟩) start).imp fun code ⟨room, hleaves⟩ =>
        hleaves.imp fun blocks word hreserved => ?_
    rw [show (Expr.list ty elements).ty = .list item from hty]
    exact .inr ⟨room, (hreserved (by simp [Kind.size])).2⟩
  | tuple ty elements =>
    obtain ⟨helements, items, hty, htakes⟩ := h
    have hlength : elements.length = items.length := by
      rw [htakes.length_eq, length_map]
    have hfills : site.Fills (fun temp => storeAll temp Block.tupleElement 0 elements) items.length
        (fun _ => .parts items) := by
      refine fun temp => (storeAll_gives Heap.consecutive_wordOffset elements helements 0
        (Nat.zero_le _)).imp fun code ⟨hcount, hstores⟩ => ⟨by omega, fun room hroom => ?_⟩
      refine hstores _ fun k e he => ?_
      rw [Nat.zero_add]
      exact exists_item htakes he
    intro start
    simp only [expr, hlength]
    refine (tuple_gives hfills start).imp fun code hleaves =>
      hleaves.imp fun blocks word hreserved => ?_
    rw [show (Expr.tuple ty elements).ty = .tuple items from hty]
    by_cases hnil : items = []
    · exact .inr (.inl hnil)
    · exact .inr (.inr (hreserved (length_pos_of_ne_nil hnil)).2)
  | dict ty entries =>
    obtain ⟨hentries, keyTy, valueTy, hty, htakes⟩ := h
    have hfills : site.Fills (fun temp => storeEntries temp 0 entries) entries.length
        (fun room => .dict keyTy valueTy room) := by
      refine fun temp => (storeEntries_gives entries hentries htakes 0 (Nat.zero_le _)).imp
        fun code ⟨hcount, hstores⟩ => ⟨by omega, fun room hroom => hstores room (by omega)⟩
    refine fun start => (collection_gives hfills (fun _ => rfl) (fun _ _ => toNat_dictSize)
      (fun _ _ _ hsize _ => hsize) start).imp fun code ⟨room, hleaves⟩ =>
        hleaves.imp fun blocks word hreserved => ?_
    rw [show (Expr.dict ty entries).ty = .dict keyTy valueTy from hty]
    exact .inr ⟨room, (hreserved (by simp [Kind.size])).2⟩

theorem exprs_evaluates : (es : List Expr) → Expr.AllConsistent site.typing es →
    site.EvaluatesAll (exprs es) (es.map Expr.ty) := by
  intro es h start
  cases es with
  | nil => exact .pure (leavesAll_nil site start)
  | cons first rest =>
    obtain ⟨hfirst, hrest⟩ := h
    exact (expr_evaluates first hfirst start).bind fun _ h =>
      (exprs_evaluates rest hrest start).bind fun _ h' => .pure (h.all.append h')

theorem storeAll_gives {temp shift : Nat} {offsetOf : UInt32 → Checked UInt32}
    (hoffsets : Heap.Consecutive shift offsetOf) : (es : List Expr) →
    Expr.AllConsistent site.typing es → ∀ index, index ≤ 2 ^ 30 →
    site.Gives (temp + 1) (storeAll (tempName temp) offsetOf index es) fun code =>
      index + es.length ≤ 2 ^ 30 ∧ ∀ kind,
        (∀ k e, es[k]? = some e → ∃ ty, kind.slot? (shift + index + k) = some ty ∧ ty.Takes e.ty) →
        site.Stores temp code kind := by
  intro es h index hindex
  cases es with
  | nil => exact .pure ⟨hindex, fun kind _ => stores_nil temp kind⟩
  | cons first rest =>
    obtain ⟨hfirst, hrest⟩ := h
    refine (expr_evaluates first hfirst _).bind fun code hleaves => .checked fun offset hoffset =>
      ?_
    obtain ⟨hsmall, hplace⟩ := hoffsets.index hindex hoffset
    refine (storeAll_gives hoffsets rest hrest (index + 1) hsmall).bind fun _ ⟨hcount, hstores⟩ =>
      .pure ⟨by rw [length_cons]; omega, fun kind hslots => ?_⟩
    obtain ⟨ty, hslot, htakes⟩ := hslots 0 first rfl
    have hstore := hleaves.stores hslot hplace fun _ _ hword => hword.takes htakes
    refine hstore.append (hstores kind fun k e he => ?_)
    rw [show shift + (index + 1) + k = shift + index + (k + 1) by omega]
    exact hslots (k + 1) e he

theorem storeEntries_gives {temp : Nat} {keyTy valueTy : Ty} : (entries : List (Expr × Expr)) →
    Expr.EntriesConsistent site.typing entries →
    (∀ entry ∈ entries, keyTy.Takes entry.1.ty ∧ valueTy.Takes entry.2.ty) → ∀ index, index ≤
    2 ^ 30 → site.Gives (temp + 1) (storeEntries (tempName temp) index entries) fun code =>
      index + entries.length ≤ 2 ^ 30 ∧ ∀ room, index + entries.length ≤ room →
        site.Stores temp code (.dict keyTy valueTy room) := by
  intro entries h htakes index hindex
  match entries with
  | [] => exact .pure ⟨hindex, fun room _ => stores_nil temp _⟩
  | (key, value) :: rest =>
    obtain ⟨hkey, hvalue, hrest⟩ := h
    obtain ⟨hkeyTakes, hvalueTakes⟩ := htakes _ mem_cons_self
    refine (expr_evaluates key hkey _).bind fun _ hleaves => .checked fun keyOffset hkeyOffset =>
      (expr_evaluates value hvalue _).bind fun _ hleaves' =>
        .checked fun valueOffset hvalueOffset => ?_
    have hkeyPlace := toNat_dictKey hkeyOffset
    have hvaluePlace := toNat_dictValue hvalueOffset
    have hlt := keyOffset.toNat_lt
    rw [UInt32.toNat_ofNat', Nat.mod_eq_of_lt (by omega)] at hkeyPlace hvaluePlace
    refine (storeEntries_gives rest hrest (fun entry hentry =>
      htakes entry (mem_cons_of_mem _ hentry)) (index + 1) (by omega)).bind
      fun _ ⟨hcount, hstores⟩ => .pure ⟨by rw [length_cons]; omega, fun room hroom => ?_⟩
    rw [length_cons] at hroom
    have hkeySlot : (Kind.dict keyTy valueTy room).slot? (3 + 2 * index) = some keyTy := by
      rw [Kind.slot?, if_pos ⟨by omega, by omega⟩, if_pos (by omega)]
    have hvalueSlot : (Kind.dict keyTy valueTy room).slot? (3 + 2 * index + 1) = some valueTy := by
      rw [Kind.slot?, if_pos ⟨by omega, by omega⟩, if_neg (by omega)]
    have hstore := hleaves.stores hkeySlot hkeyPlace fun _ _ hword => hword.takes hkeyTakes
    have hstore' := hleaves'.stores hvalueSlot hvaluePlace fun _ _ hword => hword.takes hvalueTakes
    exact (hstore.append hstore').append (hstores room (by omega))

end

end Typed.Site

end TypedWasm
