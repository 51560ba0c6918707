import TypedWasm.Layout.Saved
import TypedWasm.Proofs.Json.Forms

/-!
# Round trips through JSON

A unit goes through JSON text unchanged. So does an environment, apart from the names of its scope,
as long as no type of a field nests deeper than saved text may.
-/

namespace TypedWasm

open Environment TypedWasm.Expr Json List Option

open Json (Plain PlainItems PlainMembers IsList)
open Json (required? then_none then_some uint32?)

variable {α : Type} {read : Json → Option α} (parameter : Parameter) (literal : Literal)
  (program : Program) (init : VarInit) (cls : ClassDef) (slot : Slot) (fn : FunDef)

mutual

theorem Ty.spells_toJson (ty : Ty) : ty.Spells ty.toJson := by
  match ty with
  | .number | .bool | .string | .none => exact ⟨_, rfl, rfl, trivial⟩
  | .cls name => exact ⟨_, rfl, rfl, _, rfl, rfl⟩
  | .list element => exact ⟨_, rfl, rfl, _, rfl, element.spells_toJson⟩
  | .tuple elements => exact ⟨_, rfl, rfl, _, rfl, _, rfl, Ty.allSpell_toJson elements⟩
  | .dict key value => exact ⟨_, rfl, rfl, ⟨_, rfl, key.spells_toJson⟩, _, rfl, value.spells_toJson⟩

theorem Ty.allSpell_toJson (tys : List Ty) : Ty.AllSpell tys (Ty.listToJson tys) := by
  match tys with
  | [] => rfl
  | ty :: rest => exact ⟨_, _, rfl, ty.spells_toJson, Ty.allSpell_toJson rest⟩

end

theorem Literal.spells_toJson : literal.Spells literal.toJson := by
  cases literal with
  | num | bool | string => exact ⟨_, rfl, ⟨_, rfl, rfl⟩, _, rfl, rfl⟩
  | none => exact ⟨_, rfl, ⟨_, rfl, rfl⟩, rfl⟩

theorem Expr.isTyped_typed (ty : Ty) (tag : String) {fields : Json.Members}
    {P : Json.Members → Prop} (htag : fields.filter (·.1 == tagKey) = []) (h : P fields) :
    Expr.IsTyped ty tag P (typed ty (.variant tag fields)) := by
  have hother : fields.filter (·.1 != tagKey) = fields := by
    rw [filter_eq_self]
    intro member hmember
    have := filter_eq_nil_iff.1 htag member hmember
    simpa using this
  refine ⟨_, rfl, ⟨_, rfl, ty.spells_toJson⟩, _, rfl, _, rfl, ?_, ?_⟩
  · rw [filter_cons_of_pos (by simp), htag]
  · rw [filter_cons_of_neg (by simp), hother]
    exact h

mutual

theorem Expr.spells_toJson (expr : Expr) : expr.Spells expr.toJson := by
  match expr with
  | .literal ty value => exact isTyped_typed ty _ rfl ⟨_, rfl, value.spells_toJson⟩
  | .id ty name => exact isTyped_typed ty _ rfl ⟨_, rfl, rfl⟩
  | .binary ty op left right | .builtin2 ty op left right =>
    exact isTyped_typed ty _ rfl
      ⟨⟨_, rfl, rfl⟩, ⟨_, rfl, left.spells_toJson⟩, _, rfl, right.spells_toJson⟩
  | .unary ty op operand | .builtin1 ty op operand =>
    exact isTyped_typed ty _ rfl ⟨⟨_, rfl, rfl⟩, _, rfl, operand.spells_toJson⟩
  | .call ty name args =>
    exact isTyped_typed ty _ rfl ⟨⟨_, rfl, rfl⟩, _, rfl, _, rfl, allSpell_toJson args⟩
  | .construct ty cls args =>
    exact isTyped_typed ty _ rfl ⟨⟨_, rfl, rfl⟩, .inl ⟨_, rfl, _, rfl, allSpell_toJson args⟩⟩
  | .methodCall ty object method args =>
    exact isTyped_typed ty _ rfl
      ⟨⟨_, rfl, object.spells_toJson⟩, ⟨_, rfl, rfl⟩, _, rfl, _, rfl, allSpell_toJson args⟩
  | .lookup ty object field =>
    exact isTyped_typed ty _ rfl ⟨⟨_, rfl, object.spells_toJson⟩, _, rfl, rfl⟩
  | .index ty object key =>
    exact isTyped_typed ty _ rfl ⟨⟨_, rfl, object.spells_toJson⟩, _, rfl, key.spells_toJson⟩
  | .list ty elements | .tuple ty elements =>
    exact isTyped_typed ty _ rfl ⟨_, rfl, _, rfl, allSpell_toJson elements⟩
  | .dict ty entries =>
    exact isTyped_typed ty _ rfl ⟨_, rfl, _, rfl, entriesSpell_toJson entries⟩

theorem Expr.allSpell_toJson (exprs : List Expr) : Expr.AllSpell exprs (listToJson exprs) := by
  match exprs with
  | [] => rfl
  | expr :: rest => exact ⟨_, _, rfl, expr.spells_toJson, allSpell_toJson rest⟩

theorem Expr.entriesSpell_toJson (entries : List (Expr × Expr)) :
    Expr.EntriesSpell entries (entriesToJson entries) := by
  match entries with
  | [] => rfl
  | (key, value) :: rest =>
    exact ⟨_, _, _, rfl, key.spells_toJson, value.spells_toJson, entriesSpell_toJson rest⟩

end

theorem Target.spells_toJson (target : Target) : target.Spells target.toJson := by
  cases target with
  | id name => exact ⟨_, rfl, rfl, _, rfl, rfl⟩
  | lookup object field => exact ⟨_, rfl, rfl, ⟨_, rfl, object.spells_toJson⟩, _, rfl, rfl⟩
  | index object key =>
      exact ⟨_, rfl, rfl, ⟨_, rfl, object.spells_toJson⟩, _, rfl, key.spells_toJson⟩

theorem forall₂_map {R : α → Json → Prop} {write : α → Json} (h : ∀ a, R a (write a))
    (elements : List α) : List.Forall₂ R elements (elements.map write) := by
  rw [forall₂_map_right_iff]
  exact forall₂_same.2 fun a _ => h a

theorem Slot.spells_toJson : slot.Spells slot.toJson :=
  ⟨_, rfl, ⟨_, rfl, slot.target.spells_toJson⟩, .inl ⟨_, rfl, rfl⟩, .inl ⟨_, rfl, rfl⟩⟩

theorem Pattern.spells_toJson (pattern : Pattern) : pattern.Spells pattern.toJson :=
  ⟨_, rfl, ⟨_, rfl, rfl⟩, ⟨_, rfl, pattern.valueType.spells_toJson⟩, _, rfl, _, rfl,
    forall₂_map Slot.spells_toJson _⟩

mutual

theorem Stmt.spells_toJson (stmt : Stmt) : stmt.Spells stmt.toJson := by
  match stmt with
  | .ret value | .expr value => exact ⟨_, rfl, rfl, _, rfl, value.spells_toJson⟩
  | .assign pattern value =>
    exact ⟨_, rfl, rfl, ⟨_, rfl, pattern.spells_toJson⟩, _, rfl, value.spells_toJson⟩
  | .cond test thenBody elseBody =>
    exact ⟨_, rfl, rfl, ⟨_, rfl, test.spells_toJson⟩,
      ⟨_, rfl, _, rfl, Stmt.allSpell_toJson thenBody⟩, _, rfl, _, rfl,
        Stmt.allSpell_toJson elseBody⟩
  | .loop test body =>
    exact ⟨_, rfl, rfl, ⟨_, rfl, test.spells_toJson⟩, _, rfl, _, rfl, Stmt.allSpell_toJson body⟩
  | .pass => exact ⟨_, rfl, rfl, trivial⟩

theorem Stmt.allSpell_toJson (stmts : List Stmt) : Stmt.AllSpell stmts (Stmt.listToJson stmts) := by
  match stmts with
  | [] => rfl
  | stmt :: rest => exact ⟨_, _, rfl, stmt.spells_toJson, Stmt.allSpell_toJson rest⟩

end

theorem VarInit.spells_toJson : init.Spells init.toJson :=
  ⟨_, rfl, ⟨_, rfl, rfl⟩, ⟨_, rfl, init.ty.spells_toJson⟩, _, rfl, init.value.spells_toJson⟩

theorem Parameter.spells_toJson : parameter.Spells parameter.toJson :=
  ⟨_, rfl, ⟨_, rfl, rfl⟩, _, rfl, parameter.ty.spells_toJson⟩

theorem FunDef.spells_toJson : fn.Spells fn.toJson :=
  ⟨_, rfl, ⟨_, rfl, rfl⟩, ⟨_, rfl, _, rfl, forall₂_map Parameter.spells_toJson _⟩,
    .inl ⟨_, rfl, _, rfl, forall₂_map VarInit.spells_toJson _⟩, _, rfl, _, rfl,
    Stmt.allSpell_toJson fn.body⟩

theorem ClassDef.spells_toJson : cls.Spells cls.toJson :=
  ⟨_, rfl, ⟨_, rfl, rfl⟩, ⟨_, rfl, _, rfl, forall₂_map VarInit.spells_toJson _⟩,
    .inl ⟨_, rfl, _, rfl, forall₂_map FunDef.spells_toJson _⟩⟩

theorem Program.spells_toJson : program.Spells program.toJson :=
  ⟨_, rfl, .inl ⟨_, rfl, _, rfl, forall₂_map VarInit.spells_toJson _⟩,
    .inl ⟨_, rfl, _, rfl, forall₂_map FunDef.spells_toJson _⟩,
    .inl ⟨_, rfl, _, rfl, forall₂_map ClassDef.spells_toJson _⟩,
    .inl ⟨_, rfl, _, rfl, Stmt.allSpell_toJson program.stmts⟩⟩

theorem Json.plainItems_map {write : α → Json} (h : ∀ a, (write a).Plain) (elements : List α) :
    PlainItems (elements.map write) := by
  induction elements with
  | nil => exact trivial
  | cons a rest ih => exact ⟨h a, ih⟩

theorem Json.plain_uint32 (value : UInt32) : (int value.toNat).Plain := by
  have hlt := value.toNat_lt
  rw [Plain]
  omega

theorem Json.plain_ofInteger (n : Int) : (ofInteger n).Plain := by
  have hsign : -1 ≤ n.sign ∧ n.sign ≤ 1 := by
    rcases Int.lt_trichotomy n 0 with h | h | h
    · rw [Int.sign_eq_neg_one_of_neg h]
      decide
    · rw [h]
      decide
    · rw [Int.sign_eq_one_of_pos h]
      decide
  exact ⟨⟨by omega, by omega⟩, plainItems_map plain_uint32 _, trivial⟩

mutual

theorem Ty.plain_toJson (ty : Ty) : ty.toJson.Plain := by
  match ty with
  | .number | .bool | .string | .none => exact ⟨trivial, trivial⟩
  | .cls name => exact ⟨trivial, trivial, trivial⟩
  | .list element => exact ⟨trivial, element.plain_toJson, trivial⟩
  | .tuple elements => exact ⟨trivial, Ty.plain_listToJson elements, trivial⟩
  | .dict key value => exact ⟨trivial, key.plain_toJson, value.plain_toJson, trivial⟩

theorem Ty.plain_listToJson (tys : List Ty) : PlainItems (Ty.listToJson tys) := by
  match tys with
  | [] => exact trivial
  | ty :: rest => exact ⟨ty.plain_toJson, Ty.plain_listToJson rest⟩

end

theorem Literal.plain_toJson : literal.toJson.Plain := by
  cases literal with
  | num value => exact ⟨trivial, plain_ofInteger value, trivial⟩
  | bool | string => exact ⟨trivial, trivial, trivial⟩
  | none => exact ⟨trivial, trivial⟩

mutual

theorem Expr.plain_toJson (expr : Expr) : expr.toJson.Plain := by
  match expr with
  | .literal ty value => exact ⟨ty.plain_toJson, ⟨trivial, value.plain_toJson, trivial⟩, trivial⟩
  | .id ty name => exact ⟨ty.plain_toJson, ⟨trivial, trivial, trivial⟩, trivial⟩
  | .binary ty op left right | .builtin2 ty op left right =>
    exact ⟨ty.plain_toJson, ⟨trivial, trivial, left.plain_toJson, right.plain_toJson, trivial⟩,
      trivial⟩
  | .unary ty op operand | .builtin1 ty op operand =>
    exact ⟨ty.plain_toJson, ⟨trivial, trivial, operand.plain_toJson, trivial⟩, trivial⟩
  | .call ty name args | .construct ty name args =>
    exact ⟨ty.plain_toJson, ⟨trivial, trivial, plain_listToJson args, trivial⟩, trivial⟩
  | .methodCall ty object method args =>
    exact ⟨ty.plain_toJson,
      ⟨trivial, object.plain_toJson, trivial, plain_listToJson args, trivial⟩, trivial⟩
  | .lookup ty object field =>
    exact ⟨ty.plain_toJson, ⟨trivial, object.plain_toJson, trivial, trivial⟩, trivial⟩
  | .index ty object key =>
    exact ⟨ty.plain_toJson, ⟨trivial, object.plain_toJson, key.plain_toJson, trivial⟩, trivial⟩
  | .list ty elements | .tuple ty elements =>
    exact ⟨ty.plain_toJson, ⟨trivial, plain_listToJson elements, trivial⟩, trivial⟩
  | .dict ty entries =>
    exact ⟨ty.plain_toJson, ⟨trivial, plain_entriesToJson entries, trivial⟩, trivial⟩

theorem Expr.plain_listToJson (exprs : List Expr) : PlainItems (listToJson exprs) := by
  match exprs with
  | [] => exact trivial
  | expr :: rest => exact ⟨expr.plain_toJson, plain_listToJson rest⟩

theorem Expr.plain_entriesToJson (entries : List (Expr × Expr)) :
    PlainItems (entriesToJson entries) := by
  match entries with
  | [] => exact trivial
  | (key, value) :: rest =>
    exact ⟨⟨key.plain_toJson, value.plain_toJson, trivial⟩, plain_entriesToJson rest⟩

end

theorem Slot.plain_toJson : slot.toJson.Plain := by
  have htarget : slot.target.toJson.Plain := by
    cases slot.target with
    | id name => exact ⟨trivial, trivial, trivial⟩
    | lookup object field => exact ⟨trivial, object.plain_toJson, trivial, trivial⟩
    | index object key => exact ⟨trivial, object.plain_toJson, key.plain_toJson, trivial⟩
  exact ⟨htarget, trivial, trivial, trivial⟩

mutual

theorem Stmt.plain_toJson (stmt : Stmt) : stmt.toJson.Plain := by
  match stmt with
  | .ret value | .expr value => exact ⟨trivial, value.plain_toJson, trivial⟩
  | .assign pattern value =>
    exact ⟨trivial, ⟨trivial, pattern.valueType.plain_toJson,
      plainItems_map Slot.plain_toJson _, trivial⟩, value.plain_toJson, trivial⟩
  | .cond test thenBody elseBody =>
    exact ⟨trivial, test.plain_toJson, Stmt.plain_listToJson thenBody,
      Stmt.plain_listToJson elseBody, trivial⟩
  | .loop test body => exact ⟨trivial, test.plain_toJson, Stmt.plain_listToJson body, trivial⟩
  | .pass => exact ⟨trivial, trivial⟩

theorem Stmt.plain_listToJson (stmts : List Stmt) : PlainItems (Stmt.listToJson stmts) := by
  match stmts with
  | [] => exact trivial
  | stmt :: rest => exact ⟨stmt.plain_toJson, Stmt.plain_listToJson rest⟩

end

theorem VarInit.plain_toJson : init.toJson.Plain :=
  ⟨trivial, init.ty.plain_toJson, init.value.plain_toJson, trivial⟩

theorem Parameter.plain_toJson : parameter.toJson.Plain :=
  ⟨trivial, parameter.ty.plain_toJson, trivial⟩

theorem FunDef.plain_toJson : fn.toJson.Plain :=
  ⟨trivial, plainItems_map Parameter.plain_toJson _, plainItems_map VarInit.plain_toJson _,
    Stmt.plain_listToJson fn.body, trivial⟩

theorem ClassDef.plain_toJson : cls.toJson.Plain :=
  ⟨trivial, plainItems_map VarInit.plain_toJson _, plainItems_map FunDef.plain_toJson _,
    trivial⟩

theorem Program.plain_toJson : program.toJson.Plain :=
  ⟨plainItems_map VarInit.plain_toJson _, plainItems_map FunDef.plain_toJson _,
    plainItems_map ClassDef.plain_toJson _, Stmt.plain_listToJson program.stmts, trivial⟩

theorem Ty.ofSaved?_toJson (ty : Ty) : Ty.ofSaved? ty.toJson =
    if ty.toJson.depth ≤ savedTypeDepth then some ty else Option.none := by
  rw [Ty.ofSaved?, isSound_of_plain _ ty.plain_toJson, Ty.ofJson?,
    Ty.readAt?_spells ty.spells_toJson .outer]
  simp

/-- The type of a saved field does not nest too deep. -/
def FieldLayout.Savable (field : FieldLayout) : Prop := field.ty.toJson.depth ≤ savedTypeDepth

instance (field : FieldLayout) : Decidable field.Savable := inferInstanceAs (Decidable (_ ≤ _))

theorem FieldLayout.ofJson?_toJson (field : FieldLayout) :
    FieldLayout.ofJson? field.toJson = if field.Savable then some field else none := by
  have hty : Ty.ofSaved? field.ty.toJson = if field.Savable then some field.ty else none :=
    field.ty.ofSaved?_toJson
  rw [FieldLayout.toJson]
  generalize hmembers : [("name", str field.name), ("ty", field.ty.toJson),
    ("offset", int field.offset.toNat), ("default", field.default.toJson)] = members
  have hname : Json.Has members "name" (· = .str field.name) := ⟨_, hmembers ▸ rfl, rfl⟩
  have htype : Json.Has members "ty" (· = field.ty.toJson) := ⟨_, hmembers ▸ rfl, rfl⟩
  have hoffset : Json.Has members "offset" (· = .int field.offset.toNat) := ⟨_, hmembers ▸ rfl, rfl⟩
  have hdefault : Json.Has members "default" field.default.Spells :=
    ⟨_, hmembers ▸ rfl, field.default.spells_toJson⟩
  have hrecord : (obj members).record? ["name", "ty", "offset", "default"] = some members :=
    record?_of_once (by simp [hname.once, htype.once, hoffset.once, hdefault.once])
  have hreadName : required? members "name" str? = some field.name :=
    hname.required (by rintro _ rfl _; rfl)
  have hreadOffset : required? members "offset" uint32? = some field.offset :=
    hoffset.required (by rintro _ rfl _; exact uint32?_toNat _)
  have hreadDefault : required? members "default" Literal.ofJson? = some field.default :=
    hdefault.required fun _ hjson _ => Literal.readAt?_spells hjson .outer
  by_cases h : field.Savable
  · rw [if_pos h] at hty ⊢
    have hreadType : required? members "ty" Ty.ofSaved? = some field.ty :=
      htype.required (by rintro _ rfl _; exact hty)
    exact then_some hrecord <| then_some hreadName <| then_some hreadType <|
      then_some hreadOffset <| then_some hreadDefault rfl
  · rw [if_neg h] at hty ⊢
    have hreadType : required? members "ty" Ty.ofSaved? = none := by
      obtain ⟨_, hlookup, rfl, -⟩ := htype.lookup
      rw [required?, hlookup, bind_some, hty]
    exact then_none hrecord <| then_none hreadName <| none_then hreadType

theorem Json.mapM_map_eq_none {β : Type} {read : β → Option α} {write : α → β} {elements : List α}
    {a : α} (hmem : a ∈ elements) (h : read (write a) = none) :
      (elements.map write).mapM read = none := by
  induction elements with
  | nil => cases hmem
  | cons b rest ih =>
    rw [map_cons, mapM_cons]
    rcases mem_cons.1 hmem with rfl | hrest
    · rw [h]
      rfl
    · rw [ih hrest]
      cases read (write b) <;> rfl

namespace ClassLayout

def Savable (layout : ClassLayout) : Prop := ∀ field ∈ layout.fields, field.Savable

instance (layout : ClassLayout) : Decidable layout.Savable :=
  inferInstanceAs (Decidable (∀ field ∈ layout.fields, field.Savable))

theorem ofJson?_toJson (layout : ClassLayout) :
    ClassLayout.ofJson? layout.toJson = if layout.Savable then some layout else none := by
  by_cases h : layout.Savable
  · have hfields : (layout.fields.map FieldLayout.toJson).mapM FieldLayout.ofJson? =
        some layout.fields :=
      mapM_map fun field hfield => by rw [field.ofJson?_toJson, if_pos (h field hfield)]
    have hmethods : (layout.methods.map str).mapM str? = some layout.methods :=
      mapM_map fun _ _ => rfl
    rw [if_pos h]
    exact then_some rfl <| then_some hfields <| then_some hmethods rfl
  · obtain ⟨field, hfield, hdeep⟩ : ∃ field ∈ layout.fields, ¬ field.Savable := by
      simpa [Savable] using h
    have hfields : (layout.fields.map FieldLayout.toJson).mapM FieldLayout.ofJson? = none :=
      mapM_map_eq_none hfield (by rw [field.ofJson?_toJson, if_neg hdeep])
    rw [if_neg h]
    exact then_none rfl <| none_then hfields

end ClassLayout

theorem Json.foldl_distinct (entries kept : List (String × α))
    (h : ((kept ++ entries).map (·.1)).Nodup) :
    entries.foldl (fun kept entry => kept.filter (·.1 != entry.1) ++ [entry]) kept =
      kept ++ entries := by
  induction entries generalizing kept with
  | nil => simp
  | cons entry rest ih =>
    have hother : kept.filter (·.1 != entry.1) = kept := by
      rw [filter_eq_self]
      intro other hmem
      rw [map_append, nodup_append] at h
      simpa using h.2.2 other.1 (mem_map_of_mem hmem) entry.1 (by simp)
    rw [foldl_cons, hother, ih (kept ++ [entry]) (by simpa using h)]
    simp

theorem Json.map?_map {write : α → Json} {entries : List (String × α)}
    (hkeys : (entries.map (·.1)).Nodup)
    (h : ∀ entry ∈ entries, read (write entry.2) = some entry.2) :
    map? read (.obj (entries.map fun entry => (entry.1, write entry.2))) = some entries := by
  have hread : (entries.map fun entry => (entry.1, write entry.2)).mapM
      (fun member => do return (member.1, ← read member.2)) = some entries :=
    mapM_map fun entry hentry => by
      rw [h entry hentry]
      rfl
  refine then_some hread ?_
  have hkept := foldl_distinct entries [] (by simpa using hkeys)
  exact congrArg some hkept

theorem Json.map?_map_eq_none {write : α → Json} {entries : List (String × α)} {entry : String × α}
    (hmem : entry ∈ entries) (h : read (write entry.2) = none) :
    map? read (.obj (entries.map fun entry => (entry.1, write entry.2))) = none := by
  have hread : (entries.map fun entry => (entry.1, write entry.2)).mapM
      (fun member => do return (member.1, ← read member.2)) = none :=
    mapM_map_eq_none hmem (by
      rw [h]
      rfl)
  show Option.bind _ _ = none
  rw [hread, bind_none]

namespace Environment

variable {env : Environment}

/-- The types of the fields of all classes do not nest too deep to be saved. -/
def Savable (env : Environment) : Prop := ∀ entry ∈ env.classes, entry.2.Savable

instance (env : Environment) : Decidable env.Savable :=
  inferInstanceAs (Decidable (∀ entry ∈ env.classes, entry.2.Savable))

/-- No name is declared twice. -/
structure Distinct (env : Environment) : Prop where
  globals : (env.globals.map (·.1)).Nodup
  classes : (env.classes.map (·.1)).Nodup

theorem ofJson?_toJson (h : env.Distinct) :
    ofJson? env.toJson = if env.Savable then some env.leave else none := by
  have hreadMap := @map?_map UInt32 uint32? (fun slot => .int slot.toNat) env.globals
    h.globals fun entry _ => uint32?_toNat entry.2
  rw [toJson]
  generalize hclassMap : obj (env.classes.map fun entry => (entry.1, entry.2.toJson)) = classMap
  generalize hglobalMap : obj (env.globals.map fun entry => (entry.1, int entry.2.toNat)) =
    globalMap at hreadMap ⊢
  generalize hmembers : [("globals", globalMap), ("classes", classMap),
    ("offset", int env.nextSlot.toNat)] = members
  have hglobals : Json.Has members "globals" (· = globalMap) := ⟨_, hmembers ▸ rfl, rfl⟩
  have hclasses : Json.Has members "classes" (· = classMap) := ⟨_, hmembers ▸ rfl, rfl⟩
  have hoffset : Json.Has members "offset" (· = .int env.nextSlot.toNat) := ⟨_, hmembers ▸ rfl, rfl⟩
  have hrecord : (obj members).record? ["globals", "classes", "offset"] = some members :=
    record?_of_once (by simp [hglobals.once, hclasses.once, hoffset.once])
  have hreadGlobals : required? members "globals" (map? uint32?) = some env.globals :=
    hglobals.required (by rintro _ rfl _; exact hreadMap)
  have hreadOffset : required? members "offset" uint32? = some env.nextSlot :=
    hoffset.required (by rintro _ rfl _; exact uint32?_toNat _)
  by_cases hsavable : env.Savable
  · have hreadClasses : required? members "classes" (map? ClassLayout.ofJson?) =
        some env.classes := by
      refine hclasses.required ?_
      rintro _ rfl _
      rw [← hclassMap]
      exact map?_map h.classes fun entry hentry => by
        rw [ClassLayout.ofJson?_toJson, if_pos (hsavable entry hentry)]
    rw [if_pos hsavable]
    exact then_some hrecord <| then_some hreadGlobals <| then_some hreadClasses <|
      then_some hreadOffset rfl
  · obtain ⟨entry, hentry, hdeep⟩ : ∃ entry ∈ env.classes, ¬ entry.2.Savable := by
      simpa [Savable] using hsavable
    have hreadClasses : required? members "classes" (map? ClassLayout.ofJson?) = none := by
      obtain ⟨_, hlookup, rfl, -⟩ := hclasses.lookup
      rw [required?, hlookup, bind_some, ← hclassMap]
      exact map?_map_eq_none hentry (by rw [ClassLayout.ofJson?_toJson, if_neg hdeep])
    rw [if_neg hsavable]
    exact then_none hrecord <| then_none hreadGlobals <| none_then hreadClasses

theorem plain_toJson (env : Environment) : env.toJson.Plain := by
  have hmap : ∀ {α : Type} {write : α → Json} (entries : List (String × α)),
      (∀ a, (write a).Plain) →
        PlainMembers (entries.map fun entry => (entry.1, write entry.2)) := by
    intro α write entries hwrite
    induction entries with
    | nil => exact trivial
    | cons entry rest ih => exact ⟨hwrite entry.2, ih⟩
  have hfield : ∀ field : FieldLayout, field.toJson.Plain := fun field =>
    ⟨trivial, field.ty.plain_toJson, plain_uint32 _, field.default.plain_toJson, trivial⟩
  have hclass : ∀ layout : ClassLayout, layout.toJson.Plain := fun layout =>
    ⟨plainItems_map hfield _, @plainItems_map _ str (fun _ => trivial) _, trivial⟩
  exact ⟨hmap env.globals plain_uint32, hmap env.classes hclass, plain_uint32 _, trivial⟩

/-- A saved environment is restored without the names of its scope, unless a type nests too deep. -/
theorem restore_save (h : env.Distinct) : restore env.save =
    if env.Savable then .ok env.leave else .error .unreadableEnvironment := by
  rw [restore, save, scan?_render env.plain_toJson, bind_some, ofJson?_toJson h]
  by_cases hsavable : env.Savable
  · rw [if_pos hsavable, if_pos hsavable]
  · rw [if_neg hsavable, if_neg hsavable]

end Environment

/-- The text of a form of a unit is read as that unit, unless it nests too deep. -/
theorem Program.read?_render {program : Program} {json : Json} (h : program.Spells json)
    (hplain : json.Plain) :
    read? json.render = if json.depth ≤ textDepth then some program else none := by
  rw [read?, parse?_render hplain, bind_some, ofJson?_spells h]

/-- Programs and environments go through JSON. The tree written for a unit is read as that unit, and
so is every form of it, where other members stand in objects and fields that hold their default are
left out. The text of such a tree is read as the unit if no more containers are open at once than
text may have, and what is written for a unit is refused if more are. An environment is restored
from what was saved of it, without the names of its scope, if no type of a field nests deeper than
saved text may; if one does, nothing is restored. -/
theorem json_round_trip (program : Program) {env : Environment} (h : env.Distinct) :
    program.Spells program.toJson ∧
      (∀ json, program.Spells json → Program.ofJson? json = some program ∧
        (json.Plain → json.depth ≤ textDepth →
          Program.read? json.render = some program)) ∧
      Program.read? program.toJson.render =
        (if program.toJson.depth ≤ textDepth then some program else none) ∧
      Environment.restore env.save =
        if env.Savable then .ok env.leave else .error .unreadableEnvironment := by
  refine ⟨program.spells_toJson, fun json hspells => ⟨Program.ofJson?_spells hspells, ?_⟩,
    Program.read?_render program.spells_toJson program.plain_toJson, restore_save h⟩
  intro hplain hdepth
  rw [Program.read?_render hspells hplain, if_pos hdepth]

namespace RoundTrip

def making : Program where
  stmts := [.expr (.construct (.cls "Node") "Node" [])]

/-- A form of the unit: fields with defaults are left out, and members stand in it that are no
field. -/
def noted : Json :=
  .obj [("version", .int 2), ("stmts", .arr [
    .obj [("line", .int 3), ("value", .obj [
      ("ty", .obj [("tag", .str "class"), ("note", .null), ("name", .str "Node")]),
      ("kind", .obj [("class", .str "Node"), ("tag", .str "construct"), ("column", .int 7)])]),
      ("tag", .str "expr")]])]

/-- An environment with a scope. -/
def entered : Environment where
  globals := [("first", 1), ("items", 2)]
  classes := [("Node", {
    fields := [{ name := "next", ty := .list (.cls "Node"), offset := 0, default := .none }]
    methods := ["length"] })]
  nextSlot := 3
  locals := ["index"]

theorem noted_spells : making.Spells noted :=
  ⟨_, rfl, .inr ⟨rfl, rfl⟩, .inr ⟨rfl, rfl⟩, .inr ⟨rfl, rfl⟩, .inl ⟨_, rfl, _, rfl, _, _, rfl,
    ⟨_, rfl, rfl, _, rfl, _, rfl, ⟨_, rfl, _, rfl, rfl, _, rfl, rfl⟩, _, rfl, _, rfl, rfl,
      ⟨_, rfl, rfl⟩, .inr ⟨rfl, rfl⟩⟩, rfl⟩⟩

theorem noted_round_trip :
    making.Spells noted ∧ Program.ofJson? noted = some making ∧
      Program.read? noted.render = some making ∧ entered.Distinct ∧
      Environment.restore entered.save = .ok entered.leave := by
  have hdistinct : entered.Distinct := ⟨by decide, by decide⟩
  obtain ⟨-, hforms, -, hrestored⟩ := json_round_trip making hdistinct
  obtain ⟨htree, htext⟩ := hforms noted noted_spells
  have hplain : noted.Plain := by simp [noted, Plain, PlainItems, PlainMembers]
  exact ⟨noted_spells, htree, htext hplain (by decide), hdistinct,
    hrestored.trans (if_pos (by decide))⟩

def nested : Nat → Ty
  | 0 => .number
  | levels + 1 => .list (nested levels)

/-- An environment with a field whose type nests one level deeper than saved text may. -/
def deep : Environment where
  classes := [("Node", {
    fields := [{ name := "items", ty := nested savedTypeDepth, offset := 0, default := .none }] })]

def negated : Nat → Expr
  | 0 => .literal .number (.num 1)
  | levels + 1 => .unary .number .neg (negated levels)

/-- What was saved of an environment is not always restored, and what was written for a unit is not
always read. -/
theorem deep_not_restored :
    deep.Distinct ∧ Environment.restore deep.save = .error .unreadableEnvironment ∧
      Program.read? (Program.toJson { stmts := [.ret (negated 60)] }).render = none := by
  have hdistinct : deep.Distinct := ⟨by decide, by decide⟩
  refine ⟨hdistinct, (restore_save hdistinct).trans (if_neg (by decide +kernel)), ?_⟩
  rw [Program.read?_render (Program.spells_toJson _) (Program.plain_toJson _)]
  exact if_neg (by decide +kernel)

end RoundTrip

end TypedWasm
