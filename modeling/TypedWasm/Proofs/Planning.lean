import Mathlib.Data.List.Dedup
import TypedWasm.Proofs.Compiling
import TypedWasm.Proofs.Globals

/-!
# Layouts over whole sessions

A session extends one environment unit by unit. Globals take the slots from one on without a gap, in
the order in which their names first occur, classes keep the fields they were first declared with,
and nothing that a unit added is changed by a later one.
-/

namespace TypedWasm

open Failing List

open Failing (bind_eq_ok_iff)

variable {names declared : List String} {name : String} {cls : ClassDef} {classes : List ClassDef}
  {program : Program} {units : List Program}

/-- How many names occur before the first occurrence of a name, each counted once. -/
def distinctBefore (names : List String) (name : String) : Nat :=
  (names.takeWhile (· ≠ name)).dedup.length

theorem takeWhile_append_of_mem {more : List String} (h : name ∈ names) :
    (names ++ more).takeWhile (· ≠ name) = names.takeWhile (· ≠ name) := by
  induction names with
  | nil => cases h
  | cons first rest ih =>
    by_cases hfirst : first = name
    · simp [hfirst]
    · have hrest : name ∈ rest := (mem_cons.1 h).resolve_left fun he => hfirst he.symm
      simpa [hfirst] using ih hrest

theorem takeWhile_append_self (h : name ∉ names) :
    (names ++ [name]).takeWhile (· ≠ name) = names := by
  rw [takeWhile_append_of_pos fun other hother => ?_]
  · simp
  · simpa using fun he : other = name => h (he ▸ hother)

theorem distinctBefore_append_of_mem (h : name ∈ names) (more : List String) :
    distinctBefore (names ++ more) name = distinctBefore names name := by
  rw [distinctBefore, takeWhile_append_of_mem h, distinctBefore]

theorem length_dedup_concat_of_notMem (h : name ∉ names) :
    (names ++ [name]).dedup.length = names.dedup.length + 1 := by
  rw [(perm_append_singleton name names).dedup.length_eq, dedup_cons_of_notMem h, length_cons]

theorem length_dedup_concat_of_mem (h : name ∈ names) :
    (names ++ [name]).dedup.length = names.dedup.length := by
  rw [(perm_append_singleton name names).dedup.length_eq, dedup_cons_of_mem h]

namespace Environment

variable {env env' : Environment}

/-! ### Globals -/

/-- The names declared so far have the slots from one on, in the order of first declaration. -/
structure Dense (env : Environment) (declared : List String) : Prop where
  planned : env.Planned
  known : ∀ name, (env.globals.lookup name).isSome ↔ name ∈ declared
  slot : ∀ name slot, env.globals.lookup name = some slot →
    slot.toNat = 1 + distinctBefore declared name
  onto : ∀ place, 1 ≤ place → place < env.nextSlot.toNat →
    ∃ name slot, env.globals.lookup name = some slot ∧ slot.toNat = place
  next : env.nextSlot.toNat = 1 + declared.dedup.length

theorem dense_empty : Dense {} [] where
  planned := planned_empty
  known := fun _ => by simp
  slot := nofun
  onto := fun place hlow hhigh => absurd hhigh (Nat.not_lt.2 hlow)
  next := rfl

theorem Dense.addGlobal (hdense : env.Dense declared) (h : env.addGlobal name = .ok env') :
    env'.Dense (declared ++ [name]) := by
  have hplanned := hdense.planned.addGlobal h
  rcases addGlobal_cases h with ⟨hmem, rfl⟩ | ⟨hnew, hglobals, hnext⟩
  · have hdeclared : name ∈ declared := (hdense.known name).1 (lookup_isSome_iff_mem.2 hmem)
    refine ⟨hplanned, fun other => ?_, fun other slot hslot => ?_, hdense.onto, ?_⟩
    · rw [hdense.known]
      simp only [mem_append, mem_singleton]
      exact ⟨.inl, fun hother => hother.elim id fun he => he ▸ hdeclared⟩
    · have hother : other ∈ declared := (hdense.known other).1 (by rw [hslot]; rfl)
      rw [distinctBefore_append_of_mem hother]
      exact hdense.slot other slot hslot
    · rw [length_dedup_concat_of_mem hdeclared]
      exact hdense.next
  · have hdeclared : name ∉ declared := fun hmem =>
      hnew (lookup_isSome_iff_mem.1 ((hdense.known name).2 hmem))
    have hlookup : ∀ other, env'.globals.lookup other =
        (env.globals.lookup other).or (if other = name then some env.nextSlot else none) := by
      intro other
      rw [hglobals, lookup_append, lookup_cons_eq, lookup_nil]
    have hkeeps : ∀ other slot, env.globals.lookup other = some slot →
        env'.globals.lookup other = some slot := by
      intro other slot hslot
      rw [hlookup, hslot]
      rfl
    have hfresh : env'.globals.lookup name = some env.nextSlot := by
      rw [hlookup, lookup_eq_none_of_notMem hnew, if_pos rfl]
      rfl
    refine ⟨hplanned, fun other => ?_, fun other slot hslot => ?_, fun place hlow hhigh => ?_, ?_⟩
    · rw [hlookup, Option.isSome_or, Bool.or_eq_true, hdense.known]
      by_cases he : other = name <;> simp [he]
    · rw [hlookup] at hslot
      rcases Option.or_eq_some_iff.1 hslot with hold | ⟨-, hslot⟩
      · have hother : other ∈ declared := (hdense.known other).1 (by rw [hold]; rfl)
        rw [distinctBefore_append_of_mem hother]
        exact hdense.slot other slot hold
      · by_cases he : other = name
        · rw [if_pos he, Option.some.injEq] at hslot
          rw [he, ← hslot, distinctBefore, takeWhile_append_self hdeclared]
          exact hdense.next
        · rw [if_neg he] at hslot
          cases hslot
    · by_cases hplace : place < env.nextSlot.toNat
      · obtain ⟨other, slot, hslot, hnat⟩ := hdense.onto place hlow hplace
        exact ⟨other, slot, hkeeps other slot hslot, hnat⟩
      · exact ⟨name, env.nextSlot, hfresh, by omega⟩
    · rw [length_dedup_concat_of_notMem hdeclared, hnext, hdense.next, Nat.add_assoc]

theorem Dense.addGlobals (hdense : env.Dense declared) (h : env.addGlobals names = .ok env') :
    env'.Dense (declared ++ names) := by
  induction names generalizing env declared with
  | nil =>
    cases h
    rwa [append_nil]
  | cons name rest ih =>
    obtain ⟨between, hfirst, hrest⟩ := bind_eq_ok_iff.1 h
    simpa using ih (hdense.addGlobal hfirst) hrest

theorem Dense.exists_addGlobals (hdense : env.Dense declared)
    (hcount : (declared ++ names).dedup.length < UInt32.size - 1) :
    ∃ env', env.addGlobals names = .ok env' := by
  induction names generalizing env declared with
  | nil => exact ⟨env, rfl⟩
  | cons name rest ih =>
    have hfirst : ∃ between, env.addGlobal name = .ok between := by
      rw [Environment.addGlobal]
      split
      · exact ⟨_, rfl⟩
      · next hlookup =>
        have hdeclared : name ∉ declared := by
          rw [← hdense.known, hlookup]
          exact Bool.false_ne_true
        have hless : (declared ++ [name]).dedup.length ≤
            (declared ++ name :: rest).dedup.length := by
          refine (nodup_dedup _).length_le_of_subset fun other hother => ?_
          rw [mem_dedup] at hother ⊢
          simp only [mem_append, mem_cons, not_mem_nil, or_false] at hother ⊢
          tauto
        rw [length_dedup_concat_of_notMem hdeclared] at hless
        have hfits : env.nextSlot.toNat + (1 : UInt32).toNat < UInt32.size := by
          rw [hdense.next, UInt32.toNat_one]
          omega
        rw [Offset.add, if_pos hfits]
        exact ⟨_, rfl⟩
    obtain ⟨between, hbetween⟩ := hfirst
    obtain ⟨env', henv'⟩ := ih (hdense.addGlobal hbetween) (by simpa using hcount)
    exact ⟨env', bind_eq_ok_iff.2 ⟨between, hbetween, henv'⟩⟩

/-! ### Classes -/

def firstDeclared (classes : List ClassDef) (name : String) : Option ClassDef :=
  classes.find? (·.name == name)

theorem firstDeclared_concat (classes : List ClassDef) (cls : ClassDef) (name : String) :
    firstDeclared (classes ++ [cls]) name =
      (firstDeclared classes name).or (if name = cls.name then some cls else none) := by
  rw [firstDeclared, find?_append, firstDeclared]
  by_cases h : name = cls.name
  · simp [h]
  · have hne : (cls.name == name) = false := beq_false_of_ne fun he => h he.symm
    simp [h, hne]

/-- Classes are recorded once, with the fields of their first declarations. -/
structure Recorded (env : Environment) (declared : List ClassDef) : Prop where
  names : (env.classes.map (·.1)).Nodup
  fields : ∀ name, (env.classes.lookup name).map (·.fields) =
    (firstDeclared declared name).map fun cls => ClassLayout.ofFields cls.fields

theorem recorded_empty : Recorded {} [] := ⟨nodup_nil, fun _ => rfl⟩

theorem declared_ofFields (fields : List VarInit) :
    (ClassLayout.ofFields fields).map ClassLayout.declared = fields := by
  refine ext_getElem (by simp [ClassLayout.ofFields]) fun index _ _ => ?_
  simp [ClassLayout.ofFields, ClassLayout.declared]

theorem addClass_cases (h : env.addClass cls = .ok env') :
    (∃ layout, env.classes.lookup cls.name = some layout ∧
        layout.fields.map ClassLayout.declared = cls.fields ∧ env' = { env with
          classes :=
  setClass env.classes cls.name (layout.addMethods (cls.methods.map (·.name))) }) ∨
      (env.classes.lookup cls.name = none ∧
        env' = { env with classes := env.classes ++ [(cls.name, .ofClass cls)] }) := by
  rw [addClass] at h
  split at h
  · next layout hlookup =>
    split at h
    · next hsame =>
      cases h
      exact .inl ⟨layout, hlookup, eq_of_beq hsame, rfl⟩
    · cases h
  · next hlookup =>
    cases h
    exact .inr ⟨hlookup, rfl⟩

theorem names_setClass (classes : List (String × ClassLayout)) (name : String)
    (layout : ClassLayout) : (setClass classes name layout).map (·.1) = classes.map (·.1) := by
  rw [setClass, map_map]
  refine map_congr_left fun entry _ => ?_
  by_cases h : entry.1 = name <;> simp [h]

theorem lookup_setClass (classes : List (String × ClassLayout)) (name other : String)
    (layout : ClassLayout) :
    (setClass classes name layout).lookup other =
      if other = name then (classes.lookup name).map fun _ => layout
      else classes.lookup other := by
  induction classes with
  | nil => simp [setClass]
  | cons entry rest ih =>
    obtain ⟨known, old⟩ := entry
    have hcons : setClass ((known, old) :: rest) name layout =
        (known, if known = name then layout else old) :: setClass rest name layout := by
      by_cases hknown : known = name <;> simp [setClass, hknown]
    rw [hcons, lookup_cons_eq, lookup_cons_eq, lookup_cons_eq, ih]
    by_cases hother : other = name
    · by_cases hknown : known = name
      · simp [hother, hknown]
      · have hne : ¬ name = known := fun he => hknown he.symm
        simp [hother, hne]
    · by_cases hknown : other = known
      · have hne : ¬ known = name := fun he => hother (hknown.trans he)
        simp [hknown, hne]
      · simp [hother, hknown]

theorem setClass_self {classes : List (String × ClassLayout)} (hnames : (classes.map (·.1)).Nodup)
    {layout : ClassLayout} (h : classes.lookup name = some layout) :
    setClass classes name layout = classes := by
  rw [setClass]
  conv_rhs => rw [← map_id classes]
  refine map_congr_left fun entry hentry => ?_
  by_cases hname : entry.1 = name
  · have hlookup : classes.lookup entry.1 = some entry.2 := lookup_of_mem_of_nodup hnames hentry
    rw [hname, h, Option.some.injEq] at hlookup
    simp [← hname, hlookup]
  · simp [hname]

theorem Recorded.addClass {declared : List ClassDef} (hrecorded : env.Recorded declared)
    (h : env.addClass cls = .ok env') : env'.Recorded (declared ++ [cls]) := by
  rcases addClass_cases h with ⟨layout, hlookup, hsame, rfl⟩ | ⟨hlookup, rfl⟩
  · refine ⟨(names_setClass _ _ _).symm ▸ hrecorded.names, fun name => ?_⟩
    have hfields := hrecorded.fields name
    rw [lookup_setClass, firstDeclared_concat]
    by_cases hname : name = cls.name
    · -- The class is known, so an earlier declaration is its first.
      rw [hname, hlookup] at hfields
      obtain ⟨first, hfirst, hlayout⟩ := Option.map_eq_some_iff.1 hfields.symm
      simp only [hname, if_true, hlookup, hfirst, Option.map_some, Option.some_or, hlayout]
      rfl
    · simpa [hname] using hfields
  · refine ⟨?_, fun name => ?_⟩
    · rw [map_append]
      refine hrecorded.names.append (nodup_singleton cls.name) ?_
      rw [map_singleton, disjoint_singleton]
      exact fun hmem => absurd (lookup_isSome_iff_mem.2 hmem) (by simp [hlookup])
    · have hfields := hrecorded.fields name
      rw [lookup_append, firstDeclared_concat, lookup_cons_eq, lookup_nil]
      by_cases hname : name = cls.name
      · rw [hname, hlookup] at hfields
        have hnone : firstDeclared declared cls.name = none := Option.map_eq_none_iff.1 hfields.symm
        simp [hname, hlookup, hnone, ClassLayout.ofClass]
      · simpa [hname] using hfields

theorem Recorded.addClasses {declared : List ClassDef} (hrecorded : env.Recorded declared)
    (h : env.addClasses classes = .ok env') : env'.Recorded (declared ++ classes) := by
  induction classes generalizing env declared with
  | nil =>
    cases h
    rwa [append_nil]
  | cons cls rest ih =>
    obtain ⟨between, hfirst, hrest⟩ := bind_eq_ok_iff.1 h
    simpa using ih (hrecorded.addClass hfirst) hrest

/-- A declaration has other fields than the first one of its class. -/
def Changed (declared : List ClassDef) (cls : ClassDef) : Prop :=
  ∃ first, firstDeclared declared cls.name = some first ∧ first.fields ≠ cls.fields

theorem Recorded.exists_addClass_iff {declared : List ClassDef}
    (hrecorded : env.Recorded declared) :
    (∃ env', env.addClass cls = .ok env') ↔ ¬ Changed declared cls := by
  have hfields := hrecorded.fields cls.name
  rw [Environment.addClass, Changed]
  cases hlookup : env.classes.lookup cls.name with
  | none =>
    rw [hlookup] at hfields
    have hnone : firstDeclared declared cls.name = none := Option.map_eq_none_iff.1 hfields.symm
    simp [hnone]
  | some layout =>
    rw [hlookup] at hfields
    obtain ⟨first, hfirst, hlayout⟩ := Option.map_eq_some_iff.1 hfields.symm
    have hsame : layout.sameFields cls = true ↔ first.fields = cls.fields := by
      dsimp only at hlayout
      rw [ClassLayout.sameFields, ← hlayout, declared_ofFields, beq_iff_eq]
    by_cases h : first.fields = cls.fields
    · simp [hsame.2 h, hfirst, h]
    · have hdiffers : layout.sameFields cls = false := by
        rw [← Bool.not_eq_true, hsame]
        exact h
      simp [hdiffers, hfirst, h]

end Environment

/-- A unit declares a class with other fields than the declaration recorded under its name, which
stands in an earlier unit or earlier in the unit itself. -/
def Program.Redeclares (earlier : List ClassDef) (program : Program) : Prop :=
  ∃ before cls after, program.classes = before ++ cls :: after ∧
    Environment.Changed (earlier ++ before) cls

namespace Environment

variable {env env' : Environment}

theorem Recorded.exists_addClasses_iff {declared : List ClassDef}
    (hrecorded : env.Recorded declared) : (∃ env', env.addClasses classes = .ok env') ↔
      ¬ ∃ before cls after, classes = before ++ cls :: after ∧
        Changed (declared ++ before) cls := by
  induction classes generalizing env declared with
  | nil => simp [Environment.addClasses]
  | cons cls rest ih =>
    have hsplit : (∃ before other after, cls :: rest = before ++ other :: after ∧
        Changed (declared ++ before) other) ↔ Changed declared cls ∨
          ∃ before other after, rest = before ++ other :: after ∧
            Changed (declared ++ [cls] ++ before) other := by
      constructor
      · rintro ⟨before, other, after, hclasses, hchanged⟩
        rcases before with _ | ⟨first, before⟩
        · cases hclasses
          exact .inl (by simpa using hchanged)
        · cases hclasses
          exact .inr ⟨before, other, after, rfl, by simpa using hchanged⟩
      · rintro (hchanged | ⟨before, other, after, rfl, hchanged⟩)
        · exact ⟨[], cls, rest, rfl, by simpa using hchanged⟩
        · exact ⟨cls :: before, other, after, rfl, by simpa using hchanged⟩
    rw [hsplit, not_or, ← hrecorded.exists_addClass_iff]
    constructor
    · rintro ⟨env', h⟩
      obtain ⟨between, hfirst, hrest⟩ := bind_eq_ok_iff.1 h
      exact ⟨⟨between, hfirst⟩, (ih (hrecorded.addClass hfirst)).1 ⟨env', hrest⟩⟩
    · rintro ⟨⟨between, hfirst⟩, hrest⟩
      obtain ⟨env', hrest⟩ := (ih (hrecorded.addClass hfirst)).2 hrest
      exact ⟨env', bind_eq_ok_iff.2 ⟨between, hfirst, hrest⟩⟩

/-! ### What later units keep -/

/-- Globals keep their slots and classes their fields, and methods are only added at the end. -/
structure Grows (env env' : Environment) : Prop where
  globals : ∀ name slot, env.globals.lookup name = some slot → env'.globals.lookup name = some slot
  classes : ∀ name layout, env.classes.lookup name = some layout →
    ∃ layout', env'.classes.lookup name = some layout' ∧ layout'.fields = layout.fields ∧
      layout.methods <+: layout'.methods

theorem Grows.refl (env : Environment) : env.Grows env :=
  ⟨fun _ _ h => h, fun _ layout h => ⟨layout, h, rfl, prefix_refl _⟩⟩

theorem Grows.trans {env₁ env₂ env₃ : Environment} (h : env₁.Grows env₂) (h' : env₂.Grows env₃) :
    env₁.Grows env₃ := by
  refine ⟨fun name slot hslot => h'.globals name slot (h.globals name slot hslot), ?_⟩
  intro name layout hlayout
  obtain ⟨between, hbetween, hfields, hmethods⟩ := h.classes name layout hlayout
  obtain ⟨last, hlast, hfields', hmethods'⟩ := h'.classes name between hbetween
  exact ⟨last, hlast, hfields'.trans hfields, hmethods.trans hmethods'⟩

theorem addGlobal_grows (h : env.addGlobal name = .ok env') :
    env.Grows env' ∧ env'.classes = env.classes ∧ env'.locals = env.locals := by
  rw [addGlobal] at h
  split at h
  · cases h
    exact ⟨.refl _, rfl, rfl⟩
  · obtain ⟨next, -, hdone⟩ := bind_eq_ok_iff.1 h
    cases pure_eq_ok_iff.1 hdone
    refine ⟨⟨fun other slot hslot => ?_, (Grows.refl env).classes⟩, rfl, rfl⟩
    show (env.globals ++ [(name, env.nextSlot)]).lookup other = some slot
    rw [lookup_append, hslot]
    rfl

theorem addGlobals_grows (h : env.addGlobals names = .ok env') :
    env.Grows env' ∧ env'.classes = env.classes ∧ env'.locals = env.locals := by
  induction names generalizing env with
  | nil =>
    cases h
    exact ⟨.refl _, rfl, rfl⟩
  | cons name rest ih =>
    obtain ⟨between, hfirst, hrest⟩ := bind_eq_ok_iff.1 h
    obtain ⟨hgrows, hclasses, hlocals⟩ := addGlobal_grows hfirst
    obtain ⟨hgrows', hclasses', hlocals'⟩ := ih hrest
    exact ⟨hgrows.trans hgrows', hclasses'.trans hclasses, hlocals'.trans hlocals⟩

theorem addMethods_spec (layout : ClassLayout) (names : List String) :
    layout.methods <+: (layout.addMethods names).methods ∧
      (∀ name ∈ names, name ∈ (layout.addMethods names).methods) ∧
      ((∀ name ∈ names, name ∈ layout.methods) → layout.addMethods names = layout) := by
  obtain ⟨fields, methods⟩ := layout
  induction names generalizing methods with
  | nil => exact ⟨prefix_refl _, nofun, fun _ => rfl⟩
  | cons name rest ih =>
    by_cases hname : name ∈ methods
    · have hcons : ClassLayout.addMethods ⟨fields, methods⟩ (name :: rest) =
          ClassLayout.addMethods ⟨fields, methods⟩ rest := by
        simp [ClassLayout.addMethods, hname]
      obtain ⟨hfront, hadded, hsame⟩ := ih methods
      rw [hcons]
      refine ⟨hfront, forall_mem_cons.2 ⟨hfront.subset hname, hadded⟩, fun hknown => ?_⟩
      exact hsame fun other hother => hknown other (mem_cons_of_mem _ hother)
    · have hcons : ClassLayout.addMethods ⟨fields, methods⟩ (name :: rest) =
          ClassLayout.addMethods ⟨fields, methods ++ [name]⟩ rest := by
        simp [ClassLayout.addMethods, hname]
      obtain ⟨hfront, hadded, -⟩ := ih (methods ++ [name])
      rw [hcons]
      refine ⟨(prefix_append _ _).trans hfront, forall_mem_cons.2 ⟨?_, hadded⟩,
        fun hknown => absurd (hknown name mem_cons_self) hname⟩
      exact hfront.subset (by simp)

/-- A class is recorded with the fields and all methods of a declaration. -/
def Settles (env : Environment) (cls : ClassDef) : Prop :=
  ∃ layout, env.classes.lookup cls.name = some layout ∧
    layout.fields.map ClassLayout.declared = cls.fields ∧
    ∀ name ∈ cls.methods.map (·.name), name ∈ layout.methods

theorem Settles.grows (hsettles : env.Settles cls) (h : env.Grows env') : env'.Settles cls := by
  obtain ⟨layout, hlookup, hsame, hmethods⟩ := hsettles
  obtain ⟨layout', hlookup', hfields, hgrown⟩ := h.classes _ layout hlookup
  exact ⟨layout', hlookup', hfields ▸ hsame, fun name hname => hgrown.subset (hmethods name hname)⟩

theorem addClass_grows (h : env.addClass cls = .ok env') :
    env.Grows env' ∧ env'.Settles cls ∧ env'.locals = env.locals := by
  rcases addClass_cases h with ⟨layout, hlookup, hsame, rfl⟩ | ⟨hlookup, rfl⟩
  · obtain ⟨hfront, hadded, -⟩ := addMethods_spec layout (cls.methods.map (·.name))
    refine ⟨⟨fun _ _ hslot => hslot, fun name known hknown => ?_⟩,
      ⟨layout.addMethods (cls.methods.map (·.name)), ?_, hsame, hadded⟩, rfl⟩
    · rw [lookup_setClass]
      by_cases hname : name = cls.name
      · rw [hname, hlookup, Option.some.injEq] at hknown
        subst hknown
        exact ⟨layout.addMethods (cls.methods.map (·.name)), by rw [if_pos hname, hlookup]; rfl,
          rfl, hfront⟩
      · exact ⟨known, by rwa [if_neg hname], rfl, prefix_refl _⟩
    · rw [lookup_setClass, if_pos rfl, hlookup]
      rfl
  · refine ⟨⟨fun _ _ hslot => hslot, fun name known hknown => ⟨known, ?_, rfl, prefix_refl _⟩⟩,
      ⟨.ofClass cls, ?_, declared_ofFields cls.fields, fun _ hname => hname⟩, rfl⟩
    · rw [lookup_append, hknown]
      rfl
    · rw [lookup_append, hlookup, lookup_cons_eq, if_pos rfl]
      rfl

theorem addClasses_grows (h : env.addClasses classes = .ok env') :
    env.Grows env' ∧ (∀ cls ∈ classes, env'.Settles cls) ∧ env'.locals = env.locals := by
  induction classes generalizing env with
  | nil =>
    cases h
    exact ⟨.refl _, nofun, rfl⟩
  | cons cls rest ih =>
    obtain ⟨between, hfirst, hrest⟩ := bind_eq_ok_iff.1 h
    obtain ⟨hgrows, hsettles, hlocals⟩ := addClass_grows hfirst
    obtain ⟨hgrows', hsettles', hlocals'⟩ := ih hrest
    exact ⟨hgrows.trans hgrows', forall_mem_cons.2 ⟨hsettles.grows hgrows', hsettles'⟩,
      hlocals'.trans hlocals⟩

/-! ### Units declared again -/

theorem addGlobals_of_known (h : ∀ name ∈ names, (env.globals.lookup name).isSome) :
    env.addGlobals names = .ok env := by
  induction names with
  | nil => rfl
  | cons name rest ih =>
    obtain ⟨slot, hslot⟩ := Option.isSome_iff_exists.1 (h name mem_cons_self)
    refine bind_eq_ok_iff.2 ⟨env, ?_, ih fun other hother => h other (mem_cons_of_mem _ hother)⟩
    rw [addGlobal, hslot]

theorem addClass_of_settles (hnames : (env.classes.map (·.1)).Nodup) (h : env.Settles cls) :
    env.addClass cls = .ok env := by
  obtain ⟨layout, hlookup, hsame, hmethods⟩ := h
  obtain ⟨-, -, hkept⟩ := addMethods_spec layout (cls.methods.map (·.name))
  have hfields : layout.sameFields cls = true := beq_iff_eq.2 hsame
  simp only [addClass, hlookup, hfields, if_true, hkept hmethods, setClass_self hnames hlookup]

theorem addClasses_of_settles (hnames : (env.classes.map (·.1)).Nodup)
    (h : ∀ cls ∈ classes, env.Settles cls) : env.addClasses classes = .ok env := by
  induction classes with
  | nil => rfl
  | cons cls rest ih =>
    obtain ⟨hfirst, hrest⟩ := forall_mem_cons.1 h
    exact bind_eq_ok_iff.2 ⟨env, addClass_of_settles hnames hfirst, ih hrest⟩

theorem extend_eq_ok_iff : env.extend program = .ok env' ↔
      ∃ between, env.leave.addGlobals (program.inits.map (·.name)) = .ok between ∧
        between.addClasses program.classes = .ok env' := by
  rw [extend, bind_eq_ok_iff]
  simp only [mapError_eq_ok_iff]

theorem extend_grows (h : env.extend program = .ok env') : env.Grows env' := by
  obtain ⟨between, hglobals, hclasses⟩ := extend_eq_ok_iff.1 h
  have hleave : env.Grows env.leave := ⟨(Grows.refl env).globals, (Grows.refl env).classes⟩
  exact hleave.trans ((addGlobals_grows hglobals).1.trans (addClasses_grows hclasses).1)

def extendAll (env : Environment) (units : List Program) : Except Failure Environment :=
  units.foldlM extend env

theorem extendAll_grows (h : env.extendAll units = .ok env') : env.Grows env' := by
  induction units generalizing env with
  | nil =>
    cases h
    exact .refl _
  | cons program rest ih =>
    obtain ⟨between, hfirst, hrest⟩ := bind_eq_ok_iff.1 h
    exact (extend_grows hfirst).trans (ih hrest)

end Environment

/-- The names of the globals that units declare, in order and with repetitions. -/
def declaredGlobals (units : List Program) : List String :=
  units.flatMap fun program => program.inits.map (·.name)

/-- The classes that units declare, in order and with repetitions. -/
def declaredClasses (units : List Program) : List ClassDef := units.flatMap (·.classes)

namespace Environment

variable {env env' : Environment}

/-- The environment of units declared one after another. -/
structure Declares (env : Environment) (units : List Program) : Prop where
  dense : env.Dense (declaredGlobals units)
  recorded : env.Recorded (declaredClasses units)

theorem Dense.leave (h : env.Dense declared) : env.leave.Dense declared :=
  ⟨⟨h.planned.names, h.planned.slots, h.planned.below⟩, h.known, h.slot, h.onto, h.next⟩

theorem declares_empty : Declares {} [] := ⟨dense_empty, recorded_empty⟩

theorem Declares.extend (hdeclares : env.Declares units) (h : env.extend program = .ok env') :
    env'.Declares (units ++ [program]) := by
  obtain ⟨between, hglobals, hclasses⟩ := extend_eq_ok_iff.1 h
  have hdense := hdeclares.dense.leave.addGlobals hglobals
  obtain ⟨hsame, hnext⟩ := addClasses_layout hclasses
  have hrecorded : between.Recorded (declaredClasses units) := by
    obtain ⟨-, hkept, -⟩ := addGlobals_grows hglobals
    exact ⟨hkept ▸ hdeclares.recorded.names, hkept ▸ hdeclares.recorded.fields⟩
  constructor
  · rw [declaredGlobals, flatMap_append, flatMap_singleton]
    exact ⟨⟨hsame ▸ hdense.planned.names, hsame ▸ hdense.planned.slots,
        hsame ▸ hnext ▸ hdense.planned.below⟩,
      hsame ▸ hdense.known, hsame ▸ hdense.slot, hsame ▸ hnext ▸ hdense.onto, hnext ▸ hdense.next⟩
  · rw [declaredClasses, flatMap_append, flatMap_singleton]
    exact hrecorded.addClasses hclasses

theorem Declares.extendAll {before : List Program} (hdeclares : env.Declares before)
    (h : env.extendAll units = .ok env') : env'.Declares (before ++ units) := by
  induction units generalizing env before with
  | nil =>
    cases h
    rwa [append_nil]
  | cons program rest ih =>
    obtain ⟨between, hfirst, hrest⟩ := bind_eq_ok_iff.1 h
    simpa using ih (hdeclares.extend hfirst) hrest

theorem Declares.extend_settled (hdeclares : env.Declares units)
    (h : env.extend program = .ok env') : env'.extend program = .ok env' := by
  have hdeclares' := hdeclares.extend h
  obtain ⟨between, hglobals, hclasses⟩ := extend_eq_ok_iff.1 h
  obtain ⟨-, -, hlocals⟩ := addGlobals_grows hglobals
  obtain ⟨-, hsettles, hlocals'⟩ := addClasses_grows hclasses
  have hleave : env'.leave = env' := by
    have hnone : env'.locals = [] := hlocals'.trans hlocals
    rw [Environment.leave, ← hnone]
  refine extend_eq_ok_iff.2 ⟨env', ?_, addClasses_of_settles hdeclares'.recorded.names hsettles⟩
  rw [hleave]
  refine addGlobals_of_known fun name hname => (hdeclares'.dense.known name).2 ?_
  simp only [declaredGlobals, flatMap_append, flatMap_singleton, mem_append]
  exact .inr hname

theorem Declares.exists_extend_iff (hdeclares : env.Declares units)
    (hcount : (declaredGlobals (units ++ [program])).dedup.length < UInt32.size - 1) :
    (∃ env', env.extend program = .ok env') ↔ ¬ program.Redeclares (declaredClasses units) := by
  rw [declaredGlobals, flatMap_append, flatMap_singleton] at hcount
  obtain ⟨between, hglobals⟩ := hdeclares.dense.leave.exists_addGlobals hcount
  have hrecorded : between.Recorded (declaredClasses units) := by
    obtain ⟨-, hkept, -⟩ := addGlobals_grows hglobals
    exact ⟨hkept ▸ hdeclares.recorded.names, hkept ▸ hdeclares.recorded.fields⟩
  rw [Program.Redeclares, ← hrecorded.exists_addClasses_iff]
  constructor
  · rintro ⟨env', h⟩
    obtain ⟨between', hglobals', hclasses⟩ := extend_eq_ok_iff.1 h
    obtain rfl : between = between' := Except.ok.inj (hglobals.symm.trans hglobals')
    exact ⟨env', hclasses⟩
  · rintro ⟨env', hclasses⟩
    exact ⟨env', extend_eq_ok_iff.2 ⟨between, hglobals, hclasses⟩⟩

/-- The words of the globals of a unit that compiles lie between the heap head and the heap. -/
theorem Dense.word_inside (hdense : env.Dense declared) {config : Config}
    (hfit : checkGlobalsFit env config = .ok ()) {slot : UInt32}
    (hslot : env.globals.lookup name = some slot) :
    4 ≤ 4 * slot.toNat ∧ 4 * slot.toNat + 4 ≤ config.heapStart.toNat := by
  have hone : 1 ≤ slot.toNat := by
    rw [hdense.slot name slot hslot]
    omega
  have hbelow : slot.toNat < env.nextSlot.toNat := hdense.planned.below _ (mem_of_lookup hslot)
  -- A global slot is only accepted where the heap leaves room for the slot one.
  have hheap : 4 < config.heapStart.toNat := by
    have hnext : env.nextSlot > firstGlobalSlot := by
      rw [gt_iff_lt, UInt32.lt_iff_toNat_lt]
      exact Nat.lt_of_le_of_lt hone hbelow
    have hwords : (config.heapStart / wordSize).toNat = config.heapStart.toNat / 4 :=
      UInt32.toNat_div _ _
    rw [checkGlobalsFit, highestSlot, if_pos hnext, Config.maxGlobalSlot, Offset.sub, hwords]
      at hfit
    by_cases hroom : (1 : UInt32).toNat ≤ config.heapStart.toNat / 4
    · rw [if_pos hroom] at hfit
      dsimp only at hfit
      split at hfit
      · cases hfit
      · next hle =>
        rw [UInt32.lt_iff_toNat_lt, UInt32.toNat_sub_of_le _ _ (by
          rw [UInt32.le_iff_toNat_le, hwords]; exact hroom), hwords, UInt32.toNat_sub_of_le _ _ (by
          rw [UInt32.le_iff_toNat_le]; exact Nat.le_of_lt (Nat.lt_of_le_of_lt hone hbelow))] at hle
        simp only [UInt32.toNat_one] at hle hroom
        omega
    · rw [if_neg hroom] at hfit
      cases hfit
  exact ⟨by omega, hdense.planned.slot_below_heap hheap hfit (mem_of_lookup hslot)⟩

end Environment

open Environment in
/-- **Layouts over whole sessions.** Take any units that were declared one after another. Globals
have slots of their own, which are exactly those from one up to the next free slot, and the slot of
a name is one more than the number of names first declared before it. Field `i` of a class is word
`i`. Later units change neither slots nor fields, and add methods at the end only. A unit declared
twice adds nothing the second time. As long as slots are left, a unit fails to fit exactly when it
changes a class. In a unit that compiles, the words of the globals lie between the word of the heap
head and the heap, and do not overlap. -/
theorem extendAll_plans {units : List Program} {env : Environment}
    (h : extendAll {} units = .ok env) : (∀ name other slot, env.globals.lookup name = some slot →
        env.globals.lookup other = some slot → name = other) ∧
      (∀ place : Nat, (∃ name slot, env.globals.lookup name = some slot ∧ slot.toNat = place) ↔
        1 ≤ place ∧ place < env.nextSlot.toNat) ∧
      (∀ name, (env.globals.lookup name).isSome ↔ name ∈ declaredGlobals units) ∧
      (∀ name slot, env.globals.lookup name = some slot →
        slot.toNat = 1 + distinctBefore (declaredGlobals units) name) ∧
      (∀ name layout, env.classes.lookup name = some layout → ∀ place field,
        layout.fields[place]? = some field → field.offset = UInt32.ofNat place) ∧
      (∀ later env', env.extendAll later = .ok env' → env.Grows env') ∧
      (∀ program env', env.extend program = .ok env' → env'.extend program = .ok env') ∧
      (∀ program, (declaredGlobals (units ++ [program])).dedup.length < 2 ^ 32 - 1 →
        ((∃ failure, env.extend program = .error failure) ↔
          program.Redeclares (declaredClasses units))) ∧
      (∀ config program u, compile config env program = .ok u →
        (∀ name slot, u.env.globals.lookup name = some slot →
          4 ≤ 4 * slot.toNat ∧ 4 * slot.toNat + 4 ≤ config.heapStart.toNat) ∧
        ∀ name other slot slot', u.env.globals.lookup name = some slot →
          u.env.globals.lookup other = some slot' → name ≠ other →
          4 * slot.toNat + 4 ≤ 4 * slot'.toNat ∨ 4 * slot'.toNat + 4 ≤ 4 * slot.toNat) := by
  have hdeclares : env.Declares units := declares_empty.extendAll h
  have hdense := hdeclares.dense
  refine ⟨fun _ _ _ => hdense.planned.slot_injective, fun place =>
    ⟨?_, ?_⟩, hdense.known, hdense.slot,
    ?_, fun _ _ => extendAll_grows, fun _ _ => hdeclares.extend_settled, fun program hcount =>
      ?_, ?_⟩
  · rintro ⟨name, slot, hslot, rfl⟩
    refine ⟨?_, hdense.planned.below _ (mem_of_lookup hslot)⟩
    rw [hdense.slot name slot hslot]
    omega
  · rintro ⟨hlow, hhigh⟩
    exact hdense.onto place hlow hhigh
  · intro name layout hlayout place field hfield
    have hfields := hdeclares.recorded.fields name
    rw [hlayout] at hfields
    obtain ⟨cls, -, hcls⟩ := Option.map_eq_some_iff.1 hfields.symm
    dsimp only at hcls
    rw [← hcls, ClassLayout.ofFields, getElem?_mapIdx] at hfield
    obtain ⟨init, -, rfl⟩ := Option.map_eq_some_iff.1 hfield
    rfl
  · rw [← not_iff_not, ← hdeclares.exists_extend_iff hcount]
    cases env.extend program <;> simp
  · intro config program u hcompile
    obtain ⟨extended, hextend, hfit, hcompiled⟩ := Compiled.of_compile hcompile
    have hdense' := (hdeclares.extend hextend).dense
    rw [hcompiled.env_eq]
    refine ⟨fun name slot hslot => hdense'.word_inside hfit hslot, ?_⟩
    intro name other slot slot' hslot hslot' hne
    have hdiffer : slot.toNat ≠ slot'.toNat := by
      intro he
      obtain rfl := UInt32.toNat_inj.1 he
      exact hne (hdense'.planned.slot_injective hslot hslot')
    omega

/-- Two units that share a global and a class. The second one adds a method. -/
def Planning.points : List Program :=
  let point (method : String) : ClassDef :=
    { name := "Point", fields := [{ name := "x", ty := .number, value := .num 0 }]
      methods := [{ name := method, parameters := [], body := [] }] }
  let global (name : String) : VarInit := { name, ty := .number, value := .num 0 }
  [{ inits := [global "a", global "b", global "a"], classes := [point "move"] },
   { inits := [global "b", global "c"], classes := [point "move", point "turn"] }]

/-- A unit in which the class has another default. -/
def Planning.moved : Program :=
  { classes := [{ name := "Point", fields := [{ name := "x", ty := .number, value := .num 1 }] }] }

open Environment in
theorem Planning.points_planned :
    ∃ env, extendAll {} points = .ok env ∧ env.globals = [("a", 1), ("b", 2), ("c", 3)] ∧
      (∀ place : Nat, (∃ name slot, env.globals.lookup name = some slot ∧ slot.toNat = place) ↔
        1 ≤ place ∧ place < 4) ∧ (1 : Nat) + distinctBefore (declaredGlobals points) "c" = 3 ∧
      (∃ failure, env.extend moved = .error failure) := by
  obtain ⟨env, henv⟩ : ∃ env, extendAll {} points = .ok env := ⟨_, rfl⟩
  obtain ⟨-, hrange, -, hslot, -, -, -, hfails, -⟩ := extendAll_plans henv
  cases henv
  refine ⟨_, rfl, rfl, hrange, (hslot "c" 3 rfl).symm, (hfails moved (by decide)).2 ?_⟩
  exact ⟨[], _, [], rfl, _, rfl, by decide⟩

end TypedWasm
