import TypedWasm.Proofs.Heap.Literals
import TypedWasm.Proofs.Json.Text
import TypedWasm.Source.JsonForm

/-!
# Forms of a program

A program has more forms than the one that is written: an object may hold further members, in any
order, and a field that holds its declared default may be left out. Every form is read as the
program it is a form of.
-/

namespace TypedWasm

open Int List Option

variable {json : Json} {tag : String}

/-! ### Forms -/

namespace Json

abbrev Members := List (String × Json)

/-- A field stands once among the members, and its value is as asked. -/
def Has (members : Members) (name : String) (P : Json → Prop) : Prop :=
  ∃ value, members.filter (·.1 == name) = [(name, value)] ∧ P value

/-- A field stands once among the members, or it holds its default and is left out. -/
def May (members : Members) (name : String) (isDefault : Prop) (P : Json → Prop) : Prop :=
  Has members name P ∨ isDefault ∧ members.filter (·.1 == name) = []

/-- The form of a record: an object whose members are as asked. -/
def IsRecord (P : Members → Prop) (json : Json) : Prop := ∃ members, json = .obj members ∧ P members

/-- The form of a variant: an object with a tag, whose other members are as asked. -/
def IsVariant (tag : String) (P : Members → Prop) (json : Json) : Prop :=
  ∃ members, json = .obj members ∧ members.filter (·.1 == tagKey) = [(tagKey, .str tag)] ∧
    P (members.filter (·.1 != tagKey))

/-- The form of a list: an array whose items are as asked. -/
def IsList (P : List Json → Prop) (json : Json) : Prop := ∃ items, json = .arr items ∧ P items

end Json

open Json (Has May IsRecord IsVariant IsList)

mutual

def Ty.Spells : Ty → Json → Prop
  | .number => IsVariant "number" fun _ => True
  | .bool => IsVariant "bool" fun _ => True
  | .string => IsVariant "string" fun _ => True
  | .none => IsVariant "none" fun _ => True
  | .cls name => IsVariant "class" fun fields => Has fields "name" (· = .str name)
  | .list element => IsVariant "list" fun fields => Has fields "elem" element.Spells
  | .tuple elements => IsVariant "tuple" fun fields =>
    Has fields "elems" (IsList (Ty.AllSpell elements))
  | .dict key value => IsVariant "dict" fun fields =>
    Has fields "key" key.Spells ∧ Has fields "value" value.Spells

def Ty.AllSpell : List Ty → List Json → Prop
  | [] => fun items => items = []
  | ty :: rest => fun items => ∃ first others, items = first :: others ∧ ty.Spells first ∧
    Ty.AllSpell rest others

end

def Literal.Spells (literal : Literal) : Json → Prop :=
  IsRecord fun members => match literal with
    | .num value => Has members "tag" (· = .str "num") ∧ Has members "value" (· = .ofInteger value)
    | .bool value => Has members "tag" (· = .str "bool") ∧ Has members "value" (· = .bool value)
    | .none => Has members "tag" (· = .str "none") ∧ members.filter (·.1 == "value") = []
    | .string value => Has members "tag" (· = .str "string") ∧ Has members "value" (· = .str value)

/-- The form of an expression of a type and kind. -/
def Expr.IsTyped (ty : Ty) (tag : String) (P : Json.Members → Prop) : Json → Prop :=
  IsRecord fun members => Has members "ty" ty.Spells ∧ Has members "kind" (IsVariant tag P)

mutual

def Expr.Spells : Expr → Json → Prop
  | .literal ty value => IsTyped ty "literal" fun fields => Has fields "value" value.Spells
  | .id ty name => IsTyped ty "id" fun fields => Has fields "name" (· = .str name)
  | .binary ty op left right => IsTyped ty "bin_op" fun fields =>
    Has fields "op" (· = .str op.name) ∧ Has fields "left" left.Spells ∧
      Has fields "right" right.Spells
  | .unary ty op operand => IsTyped ty "uni_op" fun fields =>
    Has fields "op" (· = .str op.name) ∧ Has fields "expr" operand.Spells
  | .call ty name args => IsTyped ty "call" fun fields =>
    Has fields "name" (· = .str name) ∧ Has fields "args" (IsList (Expr.AllSpell args))
  | .builtin1 ty name arg => IsTyped ty "builtin1" fun fields =>
    Has fields "name" (· = .str name.name) ∧ Has fields "arg" arg.Spells
  | .builtin2 ty name left right => IsTyped ty "builtin2" fun fields =>
    Has fields "name" (· = .str name.name) ∧ Has fields "left" left.Spells ∧
      Has fields "right" right.Spells
  | .construct ty cls args => IsTyped ty "construct" fun fields =>
    Has fields "class" (· = .str cls) ∧ May fields "args" (args = []) (IsList (Expr.AllSpell args))
  | .methodCall ty object method args => IsTyped ty "method_call" fun fields =>
    Has fields "obj" object.Spells ∧ Has fields "method" (· = .str method) ∧
      Has fields "args" (IsList (Expr.AllSpell args))
  | .lookup ty object field => IsTyped ty "lookup" fun fields =>
    Has fields "obj" object.Spells ∧ Has fields "field" (· = .str field)
  | .index ty object key => IsTyped ty "bracket_lookup" fun fields =>
    Has fields "obj" object.Spells ∧ Has fields "key" key.Spells
  | .list ty elements => IsTyped ty "list_expr" fun fields =>
    Has fields "contents" (IsList (Expr.AllSpell elements))
  | .tuple ty elements => IsTyped ty "tuple_expr" fun fields =>
    Has fields "contents" (IsList (Expr.AllSpell elements))
  | .dict ty entries => IsTyped ty "dict" fun fields =>
    Has fields "entries" (IsList (Expr.EntriesSpell entries))

def Expr.AllSpell : List Expr → List Json → Prop
  | [] => fun items => items = []
  | expr :: rest => fun items =>
    ∃ first others, items = first :: others ∧ expr.Spells first ∧ Expr.AllSpell rest others

def Expr.EntriesSpell : List (Expr × Expr) → List Json → Prop
  | [] => fun items => items = []
  | (key, value) :: rest => fun items => ∃ first second others,
    items = .arr [first, second] :: others ∧ key.Spells first ∧ value.Spells second ∧
      Expr.EntriesSpell rest others

end

def Target.Spells : Target → Json → Prop
  | .id name => IsVariant "id" fun fields => Has fields "name" (· = .str name)
  | .lookup object field => IsVariant "lookup" fun fields =>
    Has fields "obj" object.Spells ∧ Has fields "field" (· = .str field)
  | .index object key => IsVariant "bracket_lookup" fun fields =>
    Has fields "obj" object.Spells ∧ Has fields "key" key.Spells

def Slot.Spells (slot : Slot) : Json → Prop := IsRecord fun members =>
  Has members "target" slot.target.Spells ∧
    May members "starred" (slot.starred = false) (· = .bool slot.starred) ∧
    May members "ignore" (slot.ignore = false) (· = .bool slot.ignore)

def Pattern.Spells (pattern : Pattern) : Json → Prop := IsRecord fun members =>
  Has members "is_destructured" (· = .bool pattern.isDestructured) ∧
    Has members "value_type" pattern.valueType.Spells ∧
    Has members "targets" (IsList (List.Forall₂ Slot.Spells pattern.slots))

mutual

def Stmt.Spells : Stmt → Json → Prop
  | .ret value => IsVariant "return" fun fields => Has fields "value" value.Spells
  | .assign pattern value => IsVariant "assign" fun fields =>
    Has fields "destructure" pattern.Spells ∧ Has fields "value" value.Spells
  | .expr value => IsVariant "expr" fun fields => Has fields "value" value.Spells
  | .cond test thenBody elseBody => IsVariant "if" fun fields => Has fields "cond" test.Spells ∧
    Has fields "thn" (IsList (Stmt.AllSpell thenBody)) ∧
    Has fields "els" (IsList (Stmt.AllSpell elseBody))
  | .loop test body => IsVariant "while" fun fields => Has fields "cond" test.Spells ∧
    Has fields "body" (IsList (Stmt.AllSpell body))
  | .pass => IsVariant "pass" fun _ => True

def Stmt.AllSpell : List Stmt → List Json → Prop
  | [] => fun items => items = []
  | stmt :: rest => fun items =>
    ∃ first others, items = first :: others ∧ stmt.Spells first ∧ Stmt.AllSpell rest others

end

def VarInit.Spells (init : VarInit) : Json → Prop := IsRecord fun members =>
  Has members "name" (· = .str init.name) ∧ Has members "ty" init.ty.Spells ∧
    Has members "value" init.value.Spells

def Parameter.Spells (parameter : Parameter) : Json → Prop := IsRecord fun members =>
  Has members "name" (· = .str parameter.name) ∧ Has members "ty" parameter.ty.Spells

def FunDef.Spells (fn : FunDef) : Json → Prop := IsRecord fun members =>
  Has members "name" (· = .str fn.name) ∧
    Has members "parameters" (IsList (List.Forall₂ Parameter.Spells fn.parameters)) ∧
    May members "inits" (fn.inits = []) (IsList (List.Forall₂ VarInit.Spells fn.inits)) ∧
    Has members "body" (IsList (Stmt.AllSpell fn.body))

def ClassDef.Spells (cls : ClassDef) : Json → Prop := IsRecord fun members =>
  Has members "name" (· = .str cls.name) ∧
    Has members "fields" (IsList (List.Forall₂ VarInit.Spells cls.fields)) ∧
    May members "methods" (cls.methods = []) (IsList (List.Forall₂ FunDef.Spells cls.methods))

/-- The forms of a unit: other members may stand in every object, and a field that holds its default
may be left out. -/
def Program.Spells (program : Program) : Json → Prop := IsRecord fun members =>
  May members "inits" (program.inits = []) (IsList (List.Forall₂ VarInit.Spells program.inits)) ∧
    May members "funs" (program.funs = []) (IsList (List.Forall₂ FunDef.Spells program.funs)) ∧
    May members "classes" (program.classes = [])
      (IsList (List.Forall₂ ClassDef.Spells program.classes)) ∧
    May members "stmts" (program.stmts = []) (IsList (Stmt.AllSpell program.stmts))

/-! ### Reading fields -/

namespace Json

open Json (required? optional? listOf?)

variable {β : Type} {names : List String} {b : β}

variable {members : Members} {name : String} {P : Json → Prop} {α : Type} {read : Json → Option α}
  {a : α}

theorem lookup_eq_head? (members : Members) (name : String) :
    members.lookup name = (members.filter (·.1 == name)).head?.map (·.2) := by
  induction members with
  | nil => rfl
  | cons member rest ih =>
    obtain ⟨key, value⟩ := member
    by_cases hkey : key = name
    · simp [hkey]
    · have hother : (name == key) = false := by simpa using Ne.symm hkey
      simp [lookup_cons, hother, hkey, ih]

theorem depth_le_of_mem {key : String} {value : Json} (h : (key, value) ∈ members) :
    value.depth ≤ depthMembers members := by
  induction members with
  | nil => cases h
  | cons member rest ih =>
    obtain ⟨_, _⟩ := member
    rw [depthMembers]
    rcases mem_cons.1 h with heq | hrest
    · cases heq
      exact Nat.le_max_left _ _
    · exact Nat.le_trans (ih hrest) (Nat.le_max_right _ _)

theorem depthMembers_filter_le (members : Members) (keep : String × Json → Bool) :
    depthMembers (members.filter keep) ≤ depthMembers members := by
  induction members with
  | nil => exact Nat.le_refl _
  | cons member rest ih =>
    obtain ⟨key, value⟩ := member
    rw [filter_cons]
    split
    · rw [depthMembers, depthMembers]
      omega
    · rw [depthMembers]
      omega

theorem Has.once (h : Has members name P) : (members.filter (·.1 == name)).length ≤ 1 := by
  obtain ⟨value, hfilter, -⟩ := h
  rw [hfilter, length_singleton]

theorem Has.lookup (h : Has members name P) :
    ∃ value, members.lookup name = some value ∧ P value ∧ value.depth ≤ depthMembers members := by
  obtain ⟨value, hfilter, hvalue⟩ := h
  have hmem : (name, value) ∈ members.filter (·.1 == name) := by simp [hfilter]
  refine ⟨value, ?_, hvalue, depth_le_of_mem (mem_filter.1 hmem).1⟩
  rw [lookup_eq_head?, hfilter]
  rfl

theorem Has.required (h : Has members name P)
    (hread : ∀ value, P value → value.depth ≤ depthMembers members → read value = some a) :
    required? members name read = some a := by
  obtain ⟨value, hlookup, hvalue, hdepth⟩ := h.lookup
  rw [required?, hlookup, bind_some, hread value hvalue hdepth]

theorem May.once {isDefault : Prop} (h : May members name isDefault P) :
    (members.filter (·.1 == name)).length ≤ 1 := by
  rcases h with hfield | ⟨-, hnone⟩
  · exact hfield.once
  · rw [hnone]
    exact Nat.zero_le _

theorem May.optional {default : α} (h : May members name (a = default) P)
    (hread : ∀ value, P value → value.depth ≤ depthMembers members → read value = some a) :
    optional? members name default read = some a := by
  rcases h with hfield | ⟨rfl, hnone⟩
  · obtain ⟨value, hlookup, hvalue, hdepth⟩ := hfield.lookup
    simp only [optional?, hlookup]
    exact hread value hvalue hdepth
  · have hlookup : members.lookup name = none := by
      rw [lookup_eq_head?, hnone]
      rfl
    simp only [optional?, hlookup]

theorem record?_of_once (h : ∀ name ∈ names, (members.filter (·.1 == name)).length ≤ 1) :
    (Json.obj members).record? names = some members := by
  rw [record?, if_pos]
  simpa using h

theorem then_some {x : Option α} {next : α → Option β} (hx : x = some a) (hnext : next a = some b) :
    (x >>= next) = some b := by
  rw [hx]
  exact hnext

theorem record_then {next : Members → Option β}
    (h : ∀ name ∈ names, (members.filter (·.1 == name)).length ≤ 1)
    (hnext : next members = some b) : ((Json.obj members).record? names >>= next) = some b :=
  then_some (record?_of_once h) hnext

theorem Has.andThen {next : α → Option β} (h : Has members name P)
    (hread : ∀ value, P value → value.depth ≤ depthMembers members → read value = some a)
    (hnext : next a = some b) : (required? members name read >>= next) = some b :=
  then_some (h.required hread) hnext

theorem Has.textThen {text : String} {next : String → Option β}
    (h : Has members name (· = .str text)) (hnext : next text = some b) :
    (required? members name str? >>= next) = some b :=
  h.andThen (by rintro _ rfl _; rfl) hnext

theorem May.andThen {default : α} {next : α → Option β} (h : May members name (a = default) P)
    (hread : ∀ value, P value → value.depth ≤ depthMembers members → read value = some a)
    (hnext : next a = some b) : (optional? members name default read >>= next) = some b :=
  then_some (h.optional hread) hnext

theorem then_none {x : Option α} {next : α → Option β} (hx : x = some a) (hnext : next a = none) :
    (x >>= next) = none := by
  rw [hx]
  exact hnext

theorem none_then {x : Option α} {next : α → Option β} (hx : x = none) : (x >>= next) = none := by
  rw [hx]
  rfl

theorem IsVariant.tagged {Q : Members → Prop} (h : IsVariant tag Q json) (place : Place)
    (tags : List String) : ∃ fields, json.tagged? place tags = some (tag, .obj fields) ∧
      Q fields ∧ depthMembers fields < json.depth := by
  obtain ⟨members, rfl, htag, hfields⟩ := h
  refine ⟨_, ?_, hfields, Nat.lt_succ_of_le (depthMembers_filter_le _ _)⟩
  rw [tagged?, htag]
  rfl

theorem IsList.listOf {R : α → Json → Prop} {elements : List α}
    (h : IsList (List.Forall₂ R elements) json) (hread : ∀ a item, R a item → read item = some a) :
    listOf? read json = some elements := by
  obtain ⟨items, rfl, hitems⟩ := h
  rw [listOf?]
  induction hitems with
  | nil => rfl
  | cons hfirst _ ih =>
    rw [mapM_cons, hread _ _ hfirst, ih]
    rfl

end Json

open Json (then_some required? record?_of_once record_then listOf?)

/-! ### Types -/

namespace Ty

mutual

theorem read_spells (ty : Ty) {json : Json} (h : ty.Spells json) {depth : Nat}
    (hdepth : json.depth ≤ depth) (place : Json.Place) : read place depth json = some ty := by
  obtain ⟨depth, rfl⟩ : ∃ less, depth = less + 1 := by
    have hpos : 0 < json.depth := by
      cases ty with
      | _ => obtain ⟨fields, -, -, hless⟩ := Json.IsVariant.tagged h place tags; omega
    exact ⟨depth - 1, by omega⟩
  match ty with
  | .number | .bool | .string | .none =>
    obtain ⟨fields, htag, -, -⟩ := Json.IsVariant.tagged h place tags
    rw [read, htag]
    rfl
  | .cls name =>
    obtain ⟨fields, htag, hname, -⟩ := Json.IsVariant.tagged h place tags
    have hread : required? fields "name" Json.str? = some name :=
      hname.required (by rintro _ rfl _; rfl)
    rw [read, htag]
    simp [record?_of_once, hname.once, hread]
  | .list element =>
    obtain ⟨fields, htag, helem, hless⟩ := Json.IsVariant.tagged h place tags
    have hread : required? fields "elem" (read .inner depth) = some element :=
      helem.required fun value hvalue hle => read_spells element hvalue (by omega) .inner
    rw [read, htag]
    simp [record?_of_once, helem.once, hread]
  | .tuple elements =>
    obtain ⟨fields, htag, helems, hless⟩ := Json.IsVariant.tagged h place tags
    have hread : required? fields "elems" (listOf? (read .inner depth)) = some elements := by
      refine helems.required ?_
      rintro _ ⟨items, rfl, hitems⟩ hle
      rw [Json.depth] at hle
      exact mapM_spells elements hitems (by omega)
    rw [read, htag]
    simp [record?_of_once, helems.once, hread]
  | .dict key value =>
    obtain ⟨fields, htag, ⟨hkey, hvalue⟩, hless⟩ := Json.IsVariant.tagged h place tags
    have hreadKey : required? fields "key" (read .inner depth) = some key :=
      hkey.required fun json hjson hle => read_spells key hjson (by omega) .inner
    have hreadValue : required? fields "value" (read .inner depth) = some value :=
      hvalue.required fun json hjson hle => read_spells value hjson (by omega) .inner
    rw [read, htag]
    simp [record?_of_once, hkey.once, hvalue.once, hreadKey, hreadValue]

theorem mapM_spells (tys : List Ty) {items : List Json} (h : AllSpell tys items) {depth : Nat}
    (hdepth : Json.depthItems items ≤ depth) : items.mapM (read .inner depth) = some tys := by
  match tys with
  | [] =>
    cases h
    rfl
  | ty :: rest =>
    obtain ⟨first, others, rfl, hfirst, hothers⟩ := h
    rw [Json.depthItems] at hdepth
    rw [mapM_cons, read_spells ty hfirst (by omega) .inner, mapM_spells rest hothers (by omega)]
    rfl

end

end Ty

theorem Ty.readAt?_spells {ty : Ty} (h : ty.Spells json) (place : Json.Place) :
    Ty.readAt? place json = some ty :=
  read_spells ty h (Nat.le_refl _) place

/-! ### Literals and operators -/

theorem Json.uint32?_toNat (value : UInt32) : Json.uint32? (.int value.toNat) = some value := by
  have hlt := value.toNat_lt
  rw [Json.uint32?, if_pos ⟨by omega, by omega⟩]
  simp

theorem Json.mapM_map {α β : Type} {read : β → Option α} {write : α → β} {elements : List α}
    (h : ∀ a ∈ elements, read (write a) = some a) :
      (elements.map write).mapM read = some elements := by
  induction elements with
  | nil => rfl
  | cons a rest ih =>
    rw [map_cons, mapM_cons, h a (mem_cons_self ..), ih fun b hb => h b (mem_cons_of_mem _ hb)]
    rfl

theorem Json.integer?_ofInteger (n : Int) : (Json.ofInteger n).integer? = some n := by
  have hsign : n.sign = -1 ∨ n.sign = 0 ∨ n.sign = 1 := by
    rcases Int.lt_trichotomy n 0 with h | h | h
    · exact .inl (sign_eq_neg_one_of_neg h)
    · exact .inr (.inl (by rw [h]; rfl))
    · exact .inr (.inr (sign_eq_one_of_pos h))
  rw [Json.ofInteger, Json.integer?, if_pos hsign, listOf?,
    Json.mapM_map fun limb _ => Json.uint32?_toNat limb, map_some, Limbs.toInt,
    sign_sign, Limbs.ofInt, Limbs.toNat_ofNat, sign_mul_natAbs]

theorem Literal.readAt?_spells {literal : Literal} (h : literal.Spells json) (place : Json.Place) :
    Literal.readAt? place json = some literal := by
  obtain ⟨members, rfl, hmembers⟩ := h
  have hread : ∀ {tag : String} {value : Json},
      Has members "tag" (· = .str tag) → Has members "value" (· = value) →
      Literal.readAt? place (.obj members) = Literal.ofParts? tag (some value) := by
    intro tag value htag hvalue
    have hchoice : required? members "tag" (Json.choice? place) = some tag :=
      htag.required (by rintro _ rfl _; rfl)
    obtain ⟨found, hlookup, rfl, -⟩ := hvalue.lookup
    simp [Literal.readAt?, record?_of_once, htag.once, hvalue.once, hchoice, hlookup]
  cases literal with
  | num value =>
    rw [hread hmembers.1 hmembers.2]
    simp [Literal.ofParts?, Json.integer?_ofInteger]
  | bool value | string value =>
    rw [hread hmembers.1 hmembers.2]
    rfl
  | none =>
    obtain ⟨htag, hvalue⟩ := hmembers
    have hchoice : required? members "tag" (Json.choice? place) = some "none" :=
      htag.required (by rintro _ rfl _; rfl)
    have hlookup : members.lookup "value" = Option.none := by
      rw [Json.lookup_eq_head?, hvalue]
      rfl
    simp [Literal.readAt?, record?_of_once, htag.once, hvalue, hchoice, hlookup, Literal.ofParts?]

theorem BinaryOp.readAt?_name (op : BinaryOp) (place : Json.Place) :
    BinaryOp.readAt? place (.str op.name) = some op := by
  cases op <;> rfl

theorem UnaryOp.readAt?_name (op : UnaryOp) (place : Json.Place) :
    UnaryOp.readAt? place (.str op.name) = some op := by
  cases op <;> rfl

theorem Builtin1.readAt?_name (builtin : Builtin1) (place : Json.Place) :
    Builtin1.readAt? place (.str builtin.name) = some builtin := by
  cases builtin <;> rfl

theorem Builtin2.readAt?_name (builtin : Builtin2) (place : Json.Place) :
    Builtin2.readAt? place (.str builtin.name) = some builtin := by
  cases builtin <;> rfl

/-! ### Expressions -/

namespace Expr

/-- The parts of an expression: reading it gets to its type, its tag and the fields beside the
tag. -/
theorem IsTyped.parts {ty : Ty} {P : Json.Members → Prop} (h : IsTyped ty tag P json)
    (place : Json.Place) : ∃ fields, (∀ {next : Ty → String × Json → Option Expr} {expr : Expr},
        next ty (tag, .obj fields) = some expr → (json.record? ["ty", "kind"] >>= fun members =>
          required? members "ty" (Ty.readAt? place) >>= fun ty =>
          required? members "kind" (Json.tagged? place tags) >>= next ty) = some expr) ∧
      P fields ∧ Json.depthMembers fields + 1 < json.depth := by
  obtain ⟨members, rfl, hty, hkind⟩ := h
  obtain ⟨kind, hlookup, hvariant, hdepth⟩ := hkind.lookup
  obtain ⟨fields, htagged, hfields, hless⟩ := hvariant.tagged place tags
  have hreadTy : required? members "ty" (Ty.readAt? place) = some ty :=
    hty.required fun value hvalue _ => Ty.readAt?_spells hvalue place
  have hreadKind : required? members "kind" (Json.tagged? place tags) =
      some (tag, .obj fields) := by
    rw [required?, hlookup, bind_some, htagged]
  refine ⟨fields, fun hnext => ?_, hfields, ?_⟩
  · exact then_some (record?_of_once (by simp [hty.once, hkind.once])) <|
      then_some hreadTy <| then_some hreadKind hnext
  · rw [Json.depth]
    omega

mutual

theorem read_spells (expr : Expr) {json : Json} (h : expr.Spells json) {depth : Nat}
    (hdepth : json.depth ≤ depth) (place : Json.Place) : read place depth json = some expr := by
  obtain ⟨depth, rfl⟩ : ∃ less, depth = less + 1 := by
    have hpos : 0 < json.depth := by
      cases expr with
      | _ => obtain ⟨_, -, -, hless⟩ := IsTyped.parts h place; omega
    exact ⟨depth - 1, by omega⟩
  match expr with
  | .literal ty value =>
    obtain ⟨fields, hopens, hvalue, hless⟩ := IsTyped.parts h place
    exact hopens <| record_then (by simp [hvalue.once]) <|
      hvalue.andThen (fun json hjson _ => Literal.readAt?_spells hjson .inner) rfl
  | .id ty name =>
    obtain ⟨fields, hopens, hname, hless⟩ := IsTyped.parts h place
    exact hopens <| record_then (by simp [hname.once]) <| hname.textThen rfl
  | .binary ty op left right | .builtin2 ty op left right =>
    obtain ⟨fields, hopens, ⟨hop, hleft, hright⟩, hless⟩ := IsTyped.parts h place
    exact hopens <| record_then (by simp [hop.once, hleft.once, hright.once]) <|
      hop.andThen (by rintro _ rfl _; exact op.readAt?_name .inner) <|
      hleft.andThen (fun json hjson _ => read_spells left hjson (by omega) .inner) <|
      hright.andThen (fun json hjson _ => read_spells right hjson (by omega) .inner) rfl
  | .unary ty op operand | .builtin1 ty op operand =>
    obtain ⟨fields, hopens, ⟨hop, hoperand⟩, hless⟩ := IsTyped.parts h place
    exact hopens <| record_then (by simp [hop.once, hoperand.once]) <|
      hop.andThen (by rintro _ rfl _; exact op.readAt?_name .inner) <|
      hoperand.andThen (fun json hjson _ => read_spells operand hjson (by omega) .inner) rfl
  | .call ty name args | .construct ty name args =>
    obtain ⟨fields, hopens, ⟨hname, hargs⟩, hless⟩ := IsTyped.parts h place
    exact hopens <| record_then (by simp [hname.once, hargs.once]) <| hname.textThen <|
      hargs.andThen (fun json hjson _ => listOf?_spells args hjson (by omega)) rfl
  | .methodCall ty object method args =>
    obtain ⟨fields, hopens, ⟨hobject, hmethod, hargs⟩, hless⟩ := IsTyped.parts h place
    exact hopens <| record_then (by simp [hobject.once, hmethod.once, hargs.once]) <|
      hobject.andThen (fun json hjson _ => read_spells object hjson (by omega) .inner) <|
      hmethod.textThen <| hargs.andThen (fun json hjson _ => listOf?_spells args hjson (by omega))
        rfl
  | .lookup ty object field =>
    obtain ⟨fields, hopens, ⟨hobject, hfield⟩, hless⟩ := IsTyped.parts h place
    exact hopens <| record_then (by simp [hobject.once, hfield.once]) <|
      hobject.andThen (fun json hjson _ => read_spells object hjson (by omega) .inner) <|
      hfield.textThen rfl
  | .index ty object key =>
    obtain ⟨fields, hopens, ⟨hobject, hkey⟩, hless⟩ := IsTyped.parts h place
    exact hopens <| record_then (by simp [hobject.once, hkey.once]) <|
      hobject.andThen (fun json hjson _ => read_spells object hjson (by omega) .inner) <|
      hkey.andThen (fun json hjson _ => read_spells key hjson (by omega) .inner) rfl
  | .list ty elements | .tuple ty elements =>
    obtain ⟨fields, hopens, helements, hless⟩ := IsTyped.parts h place
    exact hopens <| record_then (by simp [helements.once]) <|
      helements.andThen (fun json hjson _ => listOf?_spells elements hjson (by omega)) rfl
  | .dict ty entries =>
    obtain ⟨fields, hopens, hentries, hless⟩ := IsTyped.parts h place
    have hreadEntries : required? fields "entries" (listOf? (Json.pair? (read .inner depth))) =
        some entries := by
      refine hentries.required ?_
      rintro _ ⟨items, rfl, hitems⟩ hle
      rw [Json.depth] at hle
      exact mapM_entries entries hitems (by omega)
    exact hopens <| record_then (by simp [hentries.once]) <| then_some hreadEntries rfl

theorem listOf?_spells (exprs : List Expr) {json : Json} (h : IsList (AllSpell exprs) json)
    {depth : Nat} (hdepth : json.depth ≤ depth) :
      listOf? (read .inner depth) json = some exprs := by
  obtain ⟨items, rfl, hitems⟩ := h
  rw [Json.depth] at hdepth
  rw [listOf?]
  match exprs with
  | [] =>
    cases hitems
    rfl
  | expr :: rest =>
    obtain ⟨first, others, rfl, hfirst, hothers⟩ := hitems
    rw [Json.depthItems] at hdepth
    have hrest := listOf?_spells rest ⟨others, rfl, hothers⟩
      (by rw [Json.depth]; omega : (Json.arr others).depth ≤ depth)
    rw [listOf?] at hrest
    rw [mapM_cons, read_spells expr hfirst (by omega) .inner, hrest]
    rfl

theorem mapM_entries (entries : List (Expr × Expr)) {items : List Json}
    (h : EntriesSpell entries items) {depth : Nat} (hdepth : Json.depthItems items ≤ depth) :
    items.mapM (Json.pair? (read .inner depth)) = some entries := by
  match entries with
  | [] =>
    cases h
    rfl
  | (key, value) :: rest =>
    obtain ⟨first, second, others, rfl, hfirst, hsecond, hothers⟩ := h
    simp only [Json.depthItems, Json.depth] at hdepth
    have hpair : Json.pair? (read .inner depth) (.arr [first, second]) = some (key, value) := by
      rw [Json.pair?, read_spells key hfirst (by omega) .inner,
        read_spells value hsecond (by omega) .inner]
      rfl
    rw [mapM_cons, hpair, mapM_entries rest hothers (by omega)]
    rfl

end

theorem readAt?_spells {expr : Expr} (h : expr.Spells json) (place : Json.Place) :
    readAt? place json = some expr :=
  read_spells expr h (Nat.le_refl _) place

end Expr

/-! ### Statements -/

theorem Target.readAt?_spells {target : Target} (h : target.Spells json) (place : Json.Place) :
    Target.readAt? place json = some target := by
  cases target with
  | id name =>
    rw [Target.Spells] at h
    obtain ⟨fields, htag, hname, -⟩ := h.tagged place tags
    exact then_some htag <| record_then (by simp [hname.once]) <| hname.textThen rfl
  | lookup object field =>
    rw [Target.Spells] at h
    obtain ⟨fields, htag, ⟨hobject, hfield⟩, -⟩ := h.tagged place tags
    exact then_some htag <| record_then (by simp [hobject.once, hfield.once]) <|
      hobject.andThen (fun _ hjson _ => Expr.readAt?_spells hjson .inner) <| hfield.textThen rfl
  | index object key =>
    rw [Target.Spells] at h
    obtain ⟨fields, htag, ⟨hobject, hkey⟩, -⟩ := h.tagged place tags
    exact then_some htag <| record_then (by simp [hobject.once, hkey.once]) <|
      hobject.andThen (fun _ hjson _ => Expr.readAt?_spells hjson .inner) <|
      hkey.andThen (fun _ hjson _ => Expr.readAt?_spells hjson .inner) rfl

theorem Slot.readAt?_spells {slot : Slot} (h : slot.Spells json) (place : Json.Place) :
    Slot.readAt? place json = some slot := by
  obtain ⟨members, rfl, htarget, hstarred, hignore⟩ := h
  exact record_then (by simp [htarget.once, hstarred.once, hignore.once]) <|
    htarget.andThen (fun _ hjson _ => Target.readAt?_spells hjson place) <|
    hstarred.andThen (by rintro _ rfl _; rfl) <| hignore.andThen (by rintro _ rfl _; rfl) rfl

theorem Pattern.readAt?_spells {pattern : Pattern} (h : pattern.Spells json) (place : Json.Place) :
    Pattern.readAt? place json = some pattern := by
  obtain ⟨members, rfl, hdestructured, htype, hslots⟩ := h
  exact record_then (by simp [hdestructured.once, htype.once, hslots.once]) <|
    hdestructured.andThen (by rintro _ rfl _; rfl) <|
    htype.andThen (fun _ hjson _ => Ty.readAt?_spells hjson place) <|
    hslots.andThen (fun _ hjson _ => hjson.listOf fun _ _ hslot => Slot.readAt?_spells hslot place)
      rfl

namespace Stmt

mutual

theorem read_spells (stmt : Stmt) {json : Json} (h : stmt.Spells json) {depth : Nat}
    (hdepth : json.depth ≤ depth) (place : Json.Place) : read place depth json = some stmt := by
  obtain ⟨depth, rfl⟩ : ∃ less, depth = less + 1 := by
    have hpos : 0 < json.depth := by
      cases stmt with
      | _ =>
        rw [Spells] at h
        obtain ⟨_, -, -, hless⟩ := h.tagged place tags
        omega
    exact ⟨depth - 1, by omega⟩
  match stmt with
  | .ret value | .expr value =>
    rw [Spells] at h
    obtain ⟨fields, htag, hvalue, hless⟩ := h.tagged place tags
    exact then_some htag <| record_then (by simp [hvalue.once]) <|
      hvalue.andThen (fun _ hjson _ => Expr.readAt?_spells hjson .inner) rfl
  | .assign pattern value =>
    rw [Spells] at h
    obtain ⟨fields, htag, ⟨hpattern, hvalue⟩, hless⟩ := h.tagged place tags
    exact then_some htag <| record_then (by simp [hpattern.once, hvalue.once]) <|
      hpattern.andThen (fun _ hjson _ => Pattern.readAt?_spells hjson .inner) <|
      hvalue.andThen (fun _ hjson _ => Expr.readAt?_spells hjson .inner) rfl
  | .cond test thenBody elseBody =>
    rw [Spells] at h
    obtain ⟨fields, htag, ⟨htest, hthen, helse⟩, hless⟩ := h.tagged place tags
    exact then_some htag <| record_then (by simp [htest.once, hthen.once, helse.once]) <|
      htest.andThen (fun _ hjson _ => Expr.readAt?_spells hjson .inner) <|
      hthen.andThen (fun _ hjson _ => listOf?_spells thenBody hjson (by omega)) <|
      helse.andThen (fun _ hjson _ => listOf?_spells elseBody hjson (by omega)) rfl
  | .loop test body =>
    rw [Spells] at h
    obtain ⟨fields, htag, ⟨htest, hbody⟩, hless⟩ := h.tagged place tags
    exact then_some htag <| record_then (by simp [htest.once, hbody.once]) <|
      htest.andThen (fun _ hjson _ => Expr.readAt?_spells hjson .inner) <|
      hbody.andThen (fun _ hjson _ => listOf?_spells body hjson (by omega)) rfl
  | .pass =>
    rw [Spells] at h
    obtain ⟨fields, htag, -, -⟩ := h.tagged place tags
    exact then_some htag rfl

theorem listOf?_spells (stmts : List Stmt) {json : Json} (h : IsList (AllSpell stmts) json)
    {depth : Nat} (hdepth : json.depth ≤ depth) :
      listOf? (read .inner depth) json = some stmts := by
  obtain ⟨items, rfl, hitems⟩ := h
  rw [Json.depth] at hdepth
  rw [listOf?]
  match stmts with
  | [] =>
    cases hitems
    rfl
  | stmt :: rest =>
    obtain ⟨first, others, rfl, hfirst, hothers⟩ := hitems
    rw [Json.depthItems] at hdepth
    have hrest := listOf?_spells rest ⟨others, rfl, hothers⟩
      (by rw [Json.depth]; omega : (Json.arr others).depth ≤ depth)
    rw [listOf?] at hrest
    rw [mapM_cons, read_spells stmt hfirst (by omega) .inner, hrest]
    rfl

end

theorem ofJson?_spells {stmt : Stmt} (h : stmt.Spells json) : ofJson? json = some stmt :=
  read_spells stmt h (Nat.le_refl _) .outer

theorem allSpell_iff (stmts : List Stmt) (items : List Json) :
    AllSpell stmts items ↔ List.Forall₂ Stmt.Spells stmts items := by
  induction stmts generalizing items with
  | nil => rw [AllSpell, forall₂_nil_left_iff]
  | cons stmt rest ih =>
    rw [AllSpell, forall₂_cons_left_iff]
    constructor
    · rintro ⟨first, others, rfl, hfirst, hothers⟩
      exact ⟨first, others, hfirst, (ih others).1 hothers, rfl⟩
    · rintro ⟨first, others, hfirst, hothers, rfl⟩
      exact ⟨first, others, rfl, hfirst, (ih others).2 hothers⟩

theorem listOf?_ofJson? {stmts : List Stmt} (h : IsList (AllSpell stmts) json) :
    listOf? ofJson? json = some stmts := by
  obtain ⟨items, rfl, hitems⟩ := h
  exact Json.IsList.listOf ⟨items, rfl, (allSpell_iff stmts items).1 hitems⟩
    fun _ _ hstmt => ofJson?_spells hstmt

end Stmt

/-! ### Units -/

theorem VarInit.ofJson?_spells {init : VarInit} (h : init.Spells json) :
    VarInit.ofJson? json = some init := by
  obtain ⟨members, rfl, hname, hty, hvalue⟩ := h
  exact record_then (by simp [hname.once, hty.once, hvalue.once]) <| hname.textThen <|
    hty.andThen (fun _ hjson _ => Ty.readAt?_spells hjson .outer) <|
    hvalue.andThen (fun _ hjson _ => Literal.readAt?_spells hjson .outer) rfl

theorem Parameter.ofJson?_spells {parameter : Parameter} (h : parameter.Spells json) :
    Parameter.ofJson? json = some parameter := by
  obtain ⟨members, rfl, hname, hty⟩ := h
  exact record_then (by simp [hname.once, hty.once]) <| hname.textThen <|
    hty.andThen (fun _ hjson _ => Ty.readAt?_spells hjson .outer) rfl

theorem FunDef.ofJson?_spells {fn : FunDef} (h : fn.Spells json) :
    FunDef.ofJson? json = some fn := by
  obtain ⟨members, rfl, hname, hparameters, hinits, hbody⟩ := h
  exact record_then (by simp [hname.once, hparameters.once, hinits.once, hbody.once]) <|
    hname.textThen <|
    hparameters.andThen (fun _ hjson _ => hjson.listOf fun _ _ => Parameter.ofJson?_spells) <|
    hinits.andThen (fun _ hjson _ => hjson.listOf fun _ _ => VarInit.ofJson?_spells) <|
    hbody.andThen (fun _ hjson _ => Stmt.listOf?_ofJson? hjson) rfl

theorem ClassDef.ofJson?_spells {cls : ClassDef} (h : cls.Spells json) :
    ClassDef.ofJson? json = some cls := by
  obtain ⟨members, rfl, hname, hfields, hmethods⟩ := h
  exact record_then (by simp [hname.once, hfields.once, hmethods.once]) <| hname.textThen <|
    hfields.andThen (fun _ hjson _ => hjson.listOf fun _ _ => VarInit.ofJson?_spells) <|
    hmethods.andThen (fun _ hjson _ => hjson.listOf fun _ _ => FunDef.ofJson?_spells) rfl

theorem Program.ofJson?_spells {program : Program} (h : program.Spells json) :
    Program.ofJson? json = some program := by
  obtain ⟨members, rfl, hinits, hfuns, hclasses, hstmts⟩ := h
  exact record_then (by simp [hinits.once, hfuns.once, hclasses.once, hstmts.once]) <|
    hinits.andThen (fun _ hjson _ => hjson.listOf fun _ _ => VarInit.ofJson?_spells) <|
    hfuns.andThen (fun _ hjson _ => hjson.listOf fun _ _ => FunDef.ofJson?_spells) <|
    hclasses.andThen (fun _ hjson _ => hjson.listOf fun _ _ => ClassDef.ofJson?_spells) <|
    hstmts.andThen (fun _ hjson _ => Stmt.listOf?_ofJson? hjson) rfl

end TypedWasm
