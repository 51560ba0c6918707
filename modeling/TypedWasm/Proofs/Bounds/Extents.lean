import TypedWasm.Proofs.Heap.Literals

/-!
# Extents of syntax

How large a piece of syntax is, in nodes, and which literals stand in it. Where there are few nodes,
the offsets and sizes of blocks that they give rise to are computed within 32 bits.
-/

namespace TypedWasm

open Failing List Nat

mutual

def Ty.nodes : Ty → Nat
  | .list element => 1 + element.nodes
  | .tuple elements => 1 + Ty.allNodes elements
  | .dict key value => 1 + key.nodes + value.nodes
  | _ => 1

def Ty.allNodes : List Ty → Nat
  | [] => 0
  | first :: rest => first.nodes + Ty.allNodes rest

end

/-- How many nodes a piece of syntax has, and which literals stand in it. -/
structure Extent where
  nodes : Nat := 0
  literals : List Literal := []

namespace Extent

instance : Append Extent where
  append first second := ⟨first.nodes + second.nodes, first.literals ++ second.literals⟩

def node (ty : Ty) : Extent := { nodes := 1 + ty.nodes }

def literal (value : Literal) : Extent := { nodes := 1, literals := [value] }

def all {α : Type} (extent : α → Extent) : List α → Extent
  | [] => {}
  | first :: rest => extent first ++ all extent rest

end Extent

namespace Expr

mutual

def extent : Expr → Extent
  | .literal ty value => .node ty ++ .literal value
  | .id ty _ => .node ty
  | .binary ty _ left right => .node ty ++ (extent left ++ extent right)
  | .unary ty _ operand => .node ty ++ extent operand
  | .call ty _ args => .node ty ++ extents args
  | .builtin1 ty _ arg => .node ty ++ extent arg
  | .builtin2 ty _ left right => .node ty ++ (extent left ++ extent right)
  | .construct ty _ args => .node ty ++ extents args
  | .methodCall ty object _ args => .node ty ++ (extent object ++ extents args)
  | .lookup ty object _ => .node ty ++ extent object
  | .index ty object key => .node ty ++ (extent object ++ extent key)
  | .list ty elements => .node ty ++ extents elements
  | .tuple ty elements => .node ty ++ extents elements
  | .dict ty entries => .node ty ++ entryExtents entries

def extents : List Expr → Extent
  | [] => {}
  | first :: rest => extent first ++ extents rest

def entryExtents : List (Expr × Expr) → Extent
  | [] => {}
  | (key, value) :: rest => extent key ++ extent value ++ entryExtents rest

end

end Expr

def Target.extent : Target → Extent
  | .id _ => { nodes := 1 }
  | .lookup object _ => { nodes := 1 } ++ object.extent
  | .index object key => { nodes := 1 } ++ (object.extent ++ key.extent)

def Pattern.extent (pattern : Pattern) : Extent :=
  .node pattern.valueType ++ Extent.all (·.target.extent) pattern.slots

namespace Stmt

mutual

def extent : Stmt → Extent
  | .ret value => { nodes := 1 } ++ value.extent
  | .assign pattern value => { nodes := 1 } ++ (pattern.extent ++ value.extent)
  | .expr value => { nodes := 1 } ++ value.extent
  | .cond test thenBody elseBody =>
    { nodes := 1 } ++ (test.extent ++ (extents thenBody ++ extents elseBody))
  | .loop test body => { nodes := 1 } ++ (test.extent ++ extents body)
  | .pass => { nodes := 1 }

def extents : List Stmt → Extent
  | [] => {}
  | first :: rest => extent first ++ extents rest

end

end Stmt

def VarInit.extent (init : VarInit) : Extent := .node init.ty ++ .literal init.value

def FunDef.extent (fn : FunDef) : Extent :=
  { nodes := 1 } ++ (Extent.all (fun parameter => .node parameter.ty) fn.parameters ++
    (Extent.all VarInit.extent fn.inits ++ Stmt.extents fn.body))

def ClassDef.extent (cls : ClassDef) : Extent :=
  { nodes := 1 } ++ (Extent.all VarInit.extent cls.fields ++ Extent.all FunDef.extent cls.methods)

def Program.extent (program : Program) : Extent :=
  { nodes := 1 } ++ (Extent.all VarInit.extent program.inits ++
    (Extent.all FunDef.extent program.funs ++
      (Extent.all ClassDef.extent program.classes ++ Stmt.extents program.stmts)))

/-- A literal with a block: the words of a string, or of a number that is a heap object, have
addresses. -/
def Literal.Fits (config : Config) : Literal → Prop
  | .num value => config.bigNumbers = true → (Limbs.ofInt value).length + 1 < 2 ^ 30
  | .string text => text.toList.length + 1 < 2 ^ 30
  | .bool _ | .none => True

instance (config : Config) (value : Literal) : Decidable (value.Fits config) :=
  match value with
  | .num _ => inferInstanceAs (Decidable (_ → _))
  | .string _ => inferInstanceAs (Decidable (_ < _))
  | .bool _ | .none => .isTrue trivial

namespace Extent

/-- Fewer than `2²⁰` nodes, and a block for each literal. -/
structure Small (config : Config) (extent : Extent) : Prop where
  nodes : extent.nodes < 2 ^ 20
  literals : ∀ value ∈ extent.literals, value.Fits config

variable {config : Config} {first second : Extent}

@[simp] theorem nodes_append : (first ++ second).nodes = first.nodes + second.nodes := rfl

theorem Small.left (h : (first ++ second).Small config) : first.Small config := by
  have hnodes := h.nodes
  rw [nodes_append] at hnodes
  exact ⟨by omega, fun value hvalue => h.literals value (mem_append_left _ hvalue)⟩

theorem Small.right (h : (first ++ second).Small config) : second.Small config := by
  have hnodes := h.nodes
  rw [nodes_append] at hnodes
  exact ⟨by omega, fun value hvalue => h.literals value (mem_append_right _ hvalue)⟩

theorem Small.of_mem {α : Type} {extent : α → Extent} {items : List α}
    (h : (all extent items).Small config) {item : α} (hitem : item ∈ items) :
    (extent item).Small config := by
  induction items with
  | nil => cases hitem
  | cons first rest ih =>
    rcases mem_cons.1 hitem with rfl | hrest
    · exact h.left
    · exact ih h.right hrest

theorem length_le_nodes {α : Type} {extent : α → Extent} (hone : ∀ item, 1 ≤ (extent item).nodes)
    (items : List α) : items.length ≤ (all extent items).nodes := by
  induction items with
  | nil => exact Nat.le_refl _
  | cons first rest ih =>
    have hfirst := hone first
    rw [all, nodes_append, length_cons]
    omega

end Extent

theorem Ty.one_le_nodes (ty : Ty) : 1 ≤ ty.nodes := by
  cases ty <;> simp [Ty.nodes, Nat.add_assoc]

theorem Ty.length_le_allNodes (elements : List Ty) : elements.length ≤ Ty.allNodes elements := by
  induction elements with
  | nil => exact Nat.le_refl _
  | cons first rest ih =>
    have hfirst := first.one_le_nodes
    rw [Ty.allNodes, length_cons]
    omega

theorem Expr.ty_nodes_lt (e : Expr) : e.ty.nodes < e.extent.nodes := by
  cases e <;> simp [Expr.extent, Expr.ty, Extent.node] <;> omega

theorem Expr.length_le_extents (es : List Expr) : es.length ≤ (Expr.extents es).nodes := by
  induction es with
  | nil => exact Nat.le_refl _
  | cons first rest ih =>
    have hfirst := first.ty_nodes_lt
    rw [Expr.extents, Extent.nodes_append, length_cons]
    omega

theorem Expr.length_le_entryExtents (entries : List (Expr × Expr)) :
    entries.length ≤ (Expr.entryExtents entries).nodes := by
  induction entries with
  | nil => exact Nat.le_refl _
  | cons entry rest ih =>
    have hkey := entry.1.ty_nodes_lt
    rw [Expr.entryExtents, Extent.nodes_append, Extent.nodes_append, length_cons]
    omega

theorem Target.one_le_nodes (target : Target) : 1 ≤ target.extent.nodes := by
  cases target <;> simp [Target.extent]

theorem VarInit.one_le_nodes (init : VarInit) : 1 ≤ init.extent.nodes := by
  simp only [VarInit.extent, Extent.nodes_append, Extent.node]
  omega

theorem Offset.exists_add {a b : UInt32} (h : a.toNat + b.toNat < 2 ^ 32) :
    ∃ sum, Offset.add a b = .ok sum ∧ sum.toNat = a.toNat + b.toNat :=
  ⟨_, if_pos h, (UInt32.toNat_add a b).trans (mod_eq_of_lt h)⟩

theorem Offset.exists_mul {a b : UInt32} (h : a.toNat * b.toNat < 2 ^ 32) :
    ∃ product, Offset.mul a b = .ok product ∧ product.toNat = a.toNat * b.toNat :=
  ⟨_, if_pos h, (UInt32.toNat_mul a b).trans (mod_eq_of_lt h)⟩

namespace Block

variable {index : UInt32}

theorem exists_wordOffset (h : index.toNat < 2 ^ 30) :
    ∃ offset, wordOffset index = .ok offset ∧ offset.toNat = 4 * index.toNat := by
  have hword : wordSize.toNat = 4 := rfl
  obtain ⟨offset, hoffset, hvalue⟩ := @Offset.exists_mul index wordSize (by rw [hword]; omega)
  exact ⟨offset, hoffset, by rw [hvalue, hword, Nat.mul_comm]⟩

theorem exists_behind {place : Checked UInt32} {start header : UInt32} (hstart : place = .ok start)
    (h : header.toNat + start.toNat < 2 ^ 32) :
    ∃ offset, (do Offset.add header (← place)) = Except.ok offset ∧
      offset.toNat = header.toNat + start.toNat := by
  obtain ⟨offset, hoffset, hvalue⟩ := Offset.exists_add h
  exact ⟨offset, bind_eq_ok_iff.2 ⟨start, hstart, hoffset⟩, hvalue⟩

theorem exists_size {header : UInt32} (h : index.toNat + header.toNat < 2 ^ 30) :
    ∃ size, (do wordOffset (← Offset.add index header)) = Except.ok size := by
  obtain ⟨words, hwords, hvalue⟩ := @Offset.exists_add index header (by omega)
  obtain ⟨size, hsize, -⟩ := @exists_wordOffset words (by omega)
  exact ⟨size, bind_eq_ok_iff.2 ⟨words, hwords, hsize⟩⟩

theorem exists_listElement (h : index.toNat + 3 < 2 ^ 30) :
    ∃ offset, listElement index = .ok offset := by
  obtain ⟨start, hstart, hvalue⟩ := @exists_wordOffset index (by omega)
  have hheader : headerSize.toNat = 12 := rfl
  obtain ⟨offset, hoffset, -⟩ := @exists_behind _ _ headerSize hstart (by omega)
  exact ⟨offset, hoffset⟩

theorem exists_dictKey (h : index.toNat + 1 < 2 ^ 29) :
    ∃ offset, dictKey index = .ok offset ∧ offset.toNat = 12 + 8 * index.toNat := by
  have hentry : entrySize.toNat = 8 := rfl
  have hheader : headerSize.toNat = 12 := rfl
  obtain ⟨start, hstart, hvalue⟩ := @Offset.exists_mul index entrySize (by rw [hentry]; omega)
  rw [hentry] at hvalue
  obtain ⟨offset, hoffset, hsum⟩ := @exists_behind _ _ headerSize hstart (by omega)
  exact ⟨offset, hoffset, by omega⟩

theorem exists_dictValue (h : index.toNat + 2 < 2 ^ 29) :
    ∃ offset, dictValue index = .ok offset := by
  obtain ⟨key, hkey, hvalue⟩ := @exists_dictKey index (by omega)
  have hword : wordSize.toNat = 4 := rfl
  obtain ⟨offset, hoffset, -⟩ := @Offset.exists_add key wordSize (by omega)
  exact ⟨offset, bind_eq_ok_iff.2 ⟨key, hkey, hoffset⟩⟩

end Block

/-- A class layout that leaves room for the addresses of its fields. -/
structure ClassLayout.Room (config : Config) (layout : ClassLayout) : Prop where
  count : layout.fields.length < 2 ^ 20
  offsets : ∀ field ∈ layout.fields, field.offset.toNat < 2 ^ 20
  defaults : ∀ field ∈ layout.fields, field.default.Fits config

/-- A configuration and an environment that leave room for addresses: lists do not reserve too many
places past their contents, and slots and class layouts are small. -/
structure Environment.Room (config : Config) (env : Environment) : Prop where
  slack : config.listGrowthSlack.toNat + 2 ^ 20 < 2 ^ 29
  globals : ∀ name slot, env.globals.lookup name = some slot → slot.toNat < 2 ^ 30
  classes : ∀ name layout, env.classes.lookup name = some layout → layout.Room config

namespace Environment.Room

variable {config : Config} {env : Environment} (h : env.Room config) {cls : String}

include h

theorem globalAddress (name : String) (overflow : Overflow) :
    env.globalAddress name ≠ .error (.overflow overflow) := by
  rw [Environment.globalAddress, Environment.globalSlot]
  cases hslot : env.globals.lookup name with
  | none => simp [Bind.bind, Except.bind]
  | some slot =>
    obtain ⟨address, haddress, -⟩ := Block.exists_wordOffset (h.globals name slot hslot)
    rw [Block.wordOffset] at haddress
    simp [Bind.bind, Except.bind, haddress]

theorem classLayout {layout : ClassLayout} (hlayout : env.classLayout cls = .ok layout) :
    layout.Room config := by
  rw [Environment.classLayout] at hlayout
  split at hlayout
  · next hlookup =>
    cases hlayout
    exact h.classes cls layout hlookup
  · cases hlayout

theorem instanceField {field : String} {offset : UInt32}
    (hoffset : env.fieldOffset cls field = .ok offset) :
    ∃ place, Block.instanceField offset = .ok place := by
  obtain ⟨layout, hlayout, hfield⟩ := bind_eq_ok_iff.1 hoffset
  split at hfield
  · next found hfound =>
    cases hfield
    have hsmall := (h.classLayout hlayout).offsets found (mem_of_find?_eq_some hfound)
    obtain ⟨place, hplace, -⟩ := @Block.exists_wordOffset found.offset (by omega)
    exact ⟨place, hplace⟩
  · cases hfield

end Environment.Room

namespace Block

theorem toNat_ofNat_le (n : Nat) : (UInt32.ofNat n).toNat ≤ n := by
  rw [UInt32.toNat_ofNat']
  exact mod_le _ _

theorem exists_wordPlace {i : Nat} (hi : i < 2 ^ 30) :
    ∃ offset, wordOffset (UInt32.ofNat i) = .ok offset := by
  have hle := toNat_ofNat_le i
  obtain ⟨offset, hoffset, -⟩ := @exists_wordOffset (UInt32.ofNat i) (by omega)
  exact ⟨offset, hoffset⟩

theorem exists_listPlace (i : Nat) (hi : i < 2 ^ 20) :
    ∃ offset, listElement (UInt32.ofNat i) = .ok offset := by
  have hle := toNat_ofNat_le i
  exact exists_listElement (by omega)

theorem exists_tuplePlace (i : Nat) (hi : i < 2 ^ 20) :
    ∃ offset, tupleElement (UInt32.ofNat i) = .ok offset :=
  exists_wordPlace (by omega)

end Block

end TypedWasm
