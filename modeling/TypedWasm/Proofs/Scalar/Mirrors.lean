import TypedWasm.Proofs.Compiling
import TypedWasm.Proofs.Globals
import TypedWasm.Proofs.Names
import TypedWasm.Proofs.Scalar.Interpreter

/-!
# Machines and frames that mirror a world

A machine mirrors a world when it holds the world's output and the word of every global in its slot.
A frame mirrors it when it holds the word of every local, and the latest value in the scratch local.
-/

namespace TypedWasm.Scalar

open Environment TypedWasm.Frame List Lowering Machine Memory Option

variable {address : UInt32} {word : Word} {name : String} {world : World} {world' : World}

namespace Store

variable {store : Store}

theorem lookup_put (store : Store) (name : String) (word : Word) (other : String) :
    (store.put name word).lookup other = if other =
      name then some word else store.lookup other := by
  induction store with
  | nil =>
    by_cases h : other = name
    · simp [put, h]
    · simp [put, lookup_cons, beq_false_of_ne h, h]
  | cons entry rest ih =>
    obtain ⟨known, old⟩ := entry
    by_cases hknown : known = name
    · subst hknown
      by_cases h : other = known
      · simp [put, h]
      · simp [put, lookup_cons, beq_false_of_ne h, h]
    · rw [put, if_neg hknown, lookup_cons, lookup_cons, ih]
      by_cases h : other = known
      · subst h
        simp [hknown]
      · simp [beq_false_of_ne h]

theorem names_put_of_mem (h : name ∈ store.map (·.1)) (word : Word) :
    (store.put name word).map (·.1) = store.map (·.1) := by
  induction store with
  | nil => cases h
  | cons entry rest ih =>
    obtain ⟨known, old⟩ := entry
    by_cases hknown : known = name
    · simp [put, hknown]
    · have hrest : name ∈ rest.map (·.1) :=
        (mem_cons.1 h).resolve_left fun he => hknown he.symm
      simp [put, hknown, ih hrest]

theorem names_put_of_notMem (h : name ∉ store.map (·.1)) (word : Word) :
    (store.put name word).map (·.1) = store.map (·.1) ++ [name] := by
  induction store with
  | nil => rfl
  | cons entry rest ih =>
    obtain ⟨known, old⟩ := entry
    rw [map_cons, mem_cons, not_or] at h
    have hknown : known ≠ name := fun he => h.1 he.symm
    simp [put, hknown, ih h.2]

end Store

section Machines

variable {env : Environment} {functions : List Func} {m : Machine}

/-- The machine holds the output of the world, and the word of each global in the global's slot. -/
structure Mirrors (env : Environment) (functions : List Func) (world : World) (m : Machine) :
    Prop where
  output : m.output = world.output
  functions : m.functions = functions
  room : ∀ entry ∈ env.globals, 4 * entry.2.toNat + 4 ≤ m.memory.size
  words : ∀ name word, world.globals.lookup name = some word →
    ∃ slot, env.globals.lookup name = some slot ∧ m.memory.word (4 * slot.toNat) = word

/-- The machine mirrors the world, in which all globals are declared. -/
structure Settled (env : Environment) (functions : List Func) (world : World) (m : Machine) :
    Prop extends Mirrors env functions world m where
  declared : world.globals.map (·.1) = env.globals.map (·.1)

theorem Mirrors.refuel (h : Mirrors env functions world m) (fuel : Nat) :
    Mirrors env functions world { m with fuel } :=
  ⟨h.output, h.functions, h.room, h.words⟩

section

variable (h : Settled env functions world m)
include h

theorem Settled.refuel (fuel : Nat) : Settled env functions world { m with fuel } :=
  ⟨h.toMirrors.refuel fuel, h.declared⟩

theorem Settled.of_globals (hglobals : world'.globals = world.globals)
    (houtput : world'.output = world.output) : Settled env functions world' m := by
  refine ⟨⟨?_, h.functions, h.room, ?_⟩, ?_⟩
  · rw [houtput]
    exact h.output
  · rw [hglobals]
    exact h.words
  · rw [hglobals]
    exact h.declared

theorem Settled.print (line : String) :
    Settled env functions { world with output := world.output.push line } (m.print line) := by
  refine ⟨⟨?_, h.functions, h.room, h.words⟩, h.declared⟩
  show m.output.push line = world.output.push line
  rw [h.output]

theorem Settled.read (haddress : env.globalAddress name = .ok address) :
    ∃ word, world.globals.lookup name = some word ∧
      m.loadWord (Word.ofUInt32 address) 0 = .ok word := by
  obtain ⟨slot, hslot, hbytes⟩ := globalAddress_eq_ok_iff.1 haddress
  have hmem : name ∈ world.globals.map (·.1) := by
    rw [h.declared]
    exact mem_map_of_mem (mem_of_lookup hslot)
  obtain ⟨word, hword⟩ := isSome_iff_exists.1 (lookup_isSome_iff_mem.2 hmem)
  obtain ⟨slot', hslot', hmemory⟩ := h.words name word hword
  obtain rfl : slot = slot' := Option.some.inj (hslot.symm.trans hslot')
  refine ⟨word, hword, ?_⟩
  rw [loadWord_slot hbytes (h.room _ (mem_of_lookup hslot)), hmemory]

end

theorem Mirrors.write (h : Mirrors env functions world m) (hplan : env.Planned)
    (haddress : env.globalAddress name = .ok address) (word : Word) :
    ∃ m', m.storeWord (Word.ofUInt32 address) 0 word = .ok m' ∧
      Mirrors env functions { world with globals := world.globals.put name word } m' := by
  obtain ⟨slot, hslot, hbytes⟩ := globalAddress_eq_ok_iff.1 haddress
  refine ⟨_, storeWord_slot hbytes (h.room _ (mem_of_lookup hslot)) word, ?_⟩
  refine ⟨h.output, h.functions, ?_, ?_⟩
  · intro entry hentry
    rw [size_setWord_slot]
    exact h.room entry hentry
  · intro other found hfound
    rw [Store.lookup_put] at hfound
    split at hfound
    · next hother =>
      cases hfound
      refine ⟨slot, hother ▸ hslot, ?_⟩
      exact word_setWord_self m.memory word slot.toNat
    · next hother =>
      obtain ⟨slot', hslot', hmemory⟩ := h.words other found hfound
      have hne : slot.toNat ≠ slot'.toNat := by
        intro he
        obtain rfl := UInt32.toNat_inj.1 he
        exact hother (hplan.slot_injective hslot' hslot)
      refine ⟨slot', hslot', ?_⟩
      rw [word_setWord_of_ne m.memory word slot.toNat_lt slot'.toNat_lt hne, hmemory]

end Machines

/-- The frame holds the words of the locals, the latest value in the scratch local, and the
temporaries. -/
structure Bound (names : List String) (temps : Nat) (world : World) (frame : Frame) : Prop where
  plain : ∀ name ∈ names, Dollarless name
  within : ∀ name ∈ world.locals.map (·.1), name ∈ names
  words : ∀ name word, world.locals.lookup name = some word → frame.get? name = some word
  present : ∀ name ∈ names, (frame.get? name).isSome
  latest : frame.get? scratchLocal = some world.latest
  temps : ∀ index < temps, (frame.get? (tempName index)).isSome

namespace Bound

variable {names : List String} {temps : Nat} {frame frame' : Frame}

theorem isSome_of_set? (h : frame.set? name word = some frame') {other : String}
    (hother : (frame.get? other).isSome) : (frame'.get? other).isSome := by
  rw [get?_of_set? h]
  split
  · rfl
  · exact hother

section

variable (h : Bound names temps world frame)
include h

theorem plain_of_lookup (hword : world.locals.lookup name = some word) : Dollarless name := by
  have hmem : name ∈ world.locals.map (·.1) := lookup_isSome_iff_mem.1 (by rw [hword]; rfl)
  exact h.plain name (h.within name hmem)

theorem of_locals (hlocals : world'.locals = world.locals)
    (hlatest : world'.latest = world.latest) : Bound names temps world' frame := by
  refine ⟨h.plain, ?_, ?_, h.present, ?_, h.temps⟩
  · rw [hlocals]
    exact h.within
  · rw [hlocals]
    exact h.words
  · rw [hlatest]
    exact h.latest

theorem setLocal (hname : name ∈ names) (word : Word) :
    ∃ frame', frame.set? name word = some frame' ∧
      Bound names temps { world with locals := world.locals.put name word } frame' := by
  obtain ⟨frame', hset⟩ := exists_set? (h.present name hname) word
  refine ⟨frame', hset, h.plain, ?_, ?_, ?_, ?_, ?_⟩
  · intro other hother
    by_cases hmem : name ∈ world.locals.map (·.1)
    · exact h.within other (Store.names_put_of_mem hmem word ▸ hother)
    · have hmem' : other ∈ (world.locals.put name word).map (·.1) := hother
      rw [Store.names_put_of_notMem hmem, mem_append, mem_singleton] at hmem'
      rcases hmem' with hold | rfl
      · exact h.within other hold
      · exact hname
  · intro other found hfound
    rw [get?_of_set? hset]
    rw [Store.lookup_put] at hfound
    split at hfound
    · next hother => rw [if_pos hother, hfound]
    · next hother => rw [if_neg hother, h.words other found hfound]
  · exact fun other hother => isSome_of_set? hset (h.present other hother)
  · have hne : scratchLocal ≠ name := fun he => not_dollarless_scratch (he ▸ h.plain name hname)
    rw [get?_of_set? hset, if_neg hne]
    exact h.latest
  · exact fun index hindex => isSome_of_set? hset (h.temps index hindex)

theorem setScratch (word : Word) : ∃ frame', frame.set? scratchLocal word = some frame' ∧
      Bound names temps { world with latest := word } frame' := by
  obtain ⟨frame', hset⟩ := exists_set? (by rw [h.latest]; rfl) word
  refine ⟨frame', hset, h.plain, h.within, ?_, ?_, ?_, ?_⟩
  · intro other found hfound
    have hne : other ≠ scratchLocal :=
      fun he => not_dollarless_scratch (he ▸ h.plain_of_lookup hfound)
    rw [get?_of_set? hset, if_neg hne]
    exact h.words other found hfound
  · exact fun other hother => isSome_of_set? hset (h.present other hother)
  · rw [get?_of_set? hset, if_pos rfl]
  · exact fun index hindex => isSome_of_set? hset (h.temps index hindex)

theorem setTemp {index : Nat} (hindex : index < temps) (word : Word) :
    ∃ frame', frame.set? (tempName index) word = some frame' ∧ Bound names temps world frame' ∧
      frame'.get? (tempName index) = some word := by
  obtain ⟨frame', hset⟩ := exists_set? (h.temps index hindex) word
  refine ⟨frame', hset, ⟨h.plain, h.within, ?_, ?_, ?_, ?_⟩, ?_⟩
  · intro other found hfound
    have hne : other ≠ tempName index := fun he =>
      not_dollarless_tempName index (he ▸ h.plain_of_lookup hfound)
    rw [get?_of_set? hset, if_neg hne]
    exact h.words other found hfound
  · exact fun other hother => isSome_of_set? hset (h.present other hother)
  · rw [get?_of_set? hset, if_neg (scratchLocal_ne_tempName index)]
    exact h.latest
  · exact fun other hother => isSome_of_set? hset (h.temps other hother)
  · rw [get?_of_set? hset, if_pos rfl]

end

end Bound

theorem read_of (h : world.read? name = some word) : read name world = some (.ok word, world) := by
  simp only [read, h, map_some]

theorem write_of {written : World} (h : world.write? name word = some written) :
    write name word world = some (.ok (), written) := by
  simp only [write, h, map_some]

/-- What the lowered code of a body relies on. -/
structure Body where
  /-- The context all bodies of the unit are lowered in. -/
  context : Context
  functions : List Func
  /-- The names the body binds. -/
  names : List String
  /-- How many temporaries its frame has. -/
  temps : Nat

namespace Body

def scope (b : Body) : Context := b.context.binding b.names

/-- An activation of the body: machine and frame mirror the world, and all variables are
declared. -/
structure Running (b : Body) (world : World) (m : Machine) (frame : Frame) : Prop where
  settled : Settled b.context.env b.functions world m
  bound : Bound b.names b.temps world frame
  declared : ∀ name ∈ b.names, name ∈ world.locals.map (·.1)

variable {b : Body} {m : Machine} {frame : Frame}

theorem Running.refuel (h : b.Running world m frame) (fuel : Nat) :
    b.Running world { m with fuel } frame :=
  ⟨h.settled.refuel fuel, h.bound, h.declared⟩

theorem Running.print (h : b.Running world m frame) (line : String) :
    b.Running { world with output := world.output.push line } (m.print line) frame :=
  ⟨h.settled.print line, h.bound.of_locals rfl rfl, h.declared⟩

theorem isLocal_iff : b.scope.env.isLocal name = true ↔ name ∈ b.names :=
  contains_iff_mem

section

variable (h : b.Running world m frame)
include h

theorem Running.readLocal (hname : name ∈ b.names) :
    ∃ word, world.read? name = some word ∧ frame.get? name = some word := by
  obtain ⟨word, hword⟩ := isSome_iff_exists.1 (lookup_isSome_iff_mem.2 (h.declared name hname))
  refine ⟨word, ?_, h.bound.words name word hword⟩
  rw [World.read?, hword, some_or]

theorem Running.lookup_eq_none (hname : name ∉ b.names) : world.locals.lookup name = none :=
  lookup_eq_none_of_notMem fun hmem => hname (h.bound.within name hmem)

theorem Running.readGlobal (hname : name ∉ b.names)
    (haddress : b.context.env.globalAddress name = .ok address) :
    ∃ word, world.read? name = some word ∧ m.loadWord (Word.ofUInt32 address) 0 = .ok word := by
  obtain ⟨word, hword, hload⟩ := h.settled.read haddress
  refine ⟨word, ?_, hload⟩
  rw [World.read?, h.lookup_eq_none hname, none_or, hword]

theorem Running.writeLocal (hname : name ∈ b.names) (word : Word) :
    ∃ world' frame', world.write? name word = some world' ∧ frame.set? name word = some frame' ∧
      b.Running world' m frame' := by
  have hmem := h.declared name hname
  obtain ⟨frame', hset, hbound⟩ := h.bound.setLocal hname word
  refine ⟨{ world with locals := world.locals.put name word }, frame', ?_, hset, ?_, hbound, ?_⟩
  · rw [World.write?, if_pos (lookup_isSome_iff_mem.2 hmem)]
  · exact h.settled.of_globals rfl rfl
  · intro other hother
    rw [Store.names_put_of_mem hmem]
    exact h.declared other hother

theorem Running.writeGlobal (hplan : b.context.env.Planned) (hname : name ∉ b.names)
    (haddress : b.context.env.globalAddress name = .ok address) (word : Word) :
    ∃ world' m', world.write? name word = some world' ∧
      m.storeWord (Word.ofUInt32 address) 0 word = .ok m' ∧ b.Running world' m' frame := by
  obtain ⟨old, hold, -⟩ := h.settled.read haddress
  obtain ⟨m', hstore, hmirrors⟩ := h.settled.toMirrors.write hplan haddress word
  have hsome : (world.globals.lookup name).isSome = true := by
    rw [hold]
    rfl
  refine ⟨{ world with globals := world.globals.put name word }, m', ?_, hstore, ⟨hmirrors, ?_⟩,
    h.bound.of_locals rfl rfl, h.declared⟩
  · have hnone : ¬ (world.locals.lookup name).isSome = true := by
      rw [h.lookup_eq_none hname]
      exact Bool.false_ne_true
    rw [World.write?, if_neg hnone, if_pos hsome]
  · show (world.globals.put name word).map (·.1) = b.context.env.globals.map (·.1)
    rw [Store.names_put_of_mem (lookup_isSome_iff_mem.1 hsome), h.settled.declared]

end

end Body

end TypedWasm.Scalar
