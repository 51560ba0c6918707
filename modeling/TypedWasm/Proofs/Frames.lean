import Mathlib.Data.List.Nodup
import TypedWasm.Machine.Exec

/-!
# Entries by name and frames

Reading and writing the locals of an activation, and what the frame of a call starts with.
-/

namespace TypedWasm

open List

variable {name : String}

section Lookup

variable {β : Type} {entries : List (String × β)}

theorem lookup_cons_eq (known : String) (value : β) (rest : List (String × β)) (name : String) :
    ((known, value) :: rest).lookup name = if name =
      known then some value else rest.lookup name := by
  by_cases h : name = known
  · simp [h]
  · simp [lookup_cons, h, beq_false_of_ne h]

theorem lookup_isSome_iff_mem : (entries.lookup name).isSome = true ↔ name ∈ entries.map (·.1) := by
  rw [lookup_isSome_iff, mem_map]
  constructor
  · rintro ⟨entry, hentry, he⟩
    exact ⟨entry, hentry, (eq_of_beq he).symm⟩
  · rintro ⟨entry, hentry, rfl⟩
    exact ⟨entry, hentry, beq_self_eq_true _⟩

theorem lookup_eq_none_of_notMem (h : name ∉ entries.map (·.1)) : entries.lookup name = none := by
  rw [← lookup_isSome_iff_mem] at h
  exact Option.not_isSome_iff_eq_none.1 h

theorem mem_of_lookup {value : β} (h : entries.lookup name = some value) :
    (name, value) ∈ entries := by
  obtain ⟨before, after, hentries, -⟩ := lookup_eq_some_iff.1 h
  rw [hentries]
  simp

theorem lookup_of_mem_of_nodup (h : (entries.map (·.1)).Nodup) {value : β}
    (hmem : (name, value) ∈ entries) : entries.lookup name = some value := by
  induction entries with
  | nil => cases hmem
  | cons entry rest ih =>
    rw [map_cons, nodup_cons] at h
    rcases mem_cons.1 hmem with rfl | hrest
    · simp
    · have hne : name ≠ entry.1 := fun he => h.1 (he ▸ mem_map_of_mem hrest)
      rw [lookup_cons, beq_false_of_ne hne]
      exact ih h.2 hrest

theorem lookup_reverse_of_nodup (h : (entries.map (·.1)).Nodup) :
    entries.reverse.lookup name = entries.lookup name := by
  cases hlookup : entries.lookup name with
  | none =>
    refine lookup_eq_none_of_notMem ?_
    rw [map_reverse, mem_reverse, ← lookup_isSome_iff_mem, hlookup]
    exact Bool.false_ne_true
  | some value =>
    refine lookup_of_mem_of_nodup ?_ ?_
    · rw [map_reverse]
      exact nodup_reverse.2 h
    · exact mem_reverse.2 (mem_of_lookup hlookup)

end Lookup

namespace Frame

variable {args : List Word} {fn : Func} {frame : Frame}

theorem get?_cons (known name : String) (value : Word) (rest : Frame) :
    get? ((known, value) :: rest) name = if name = known then some value else rest.get? name :=
  lookup_cons_eq known value rest name

theorem isSome_set? (frame : Frame) (name : String) (value : Word) :
    (frame.set? name value).isSome = (frame.get? name).isSome := by
  induction frame with
  | nil => rfl
  | cons entry rest ih =>
    rw [get?_cons, set?]
    by_cases hknown : entry.1 = name
    · simp [hknown]
    · rw [if_neg (by simpa using hknown), if_neg (Ne.symm hknown), ← ih]
      cases set? rest name value <;> rfl

theorem exists_set? (h : (frame.get? name).isSome) (value : Word) :
    ∃ frame', frame.set? name value = some frame' :=
  Option.isSome_iff_exists.1 ((isSome_set? frame name value).trans h)

theorem get?_of_set? {frame' : Frame} {value : Word} (h : frame.set? name value = some frame')
    (other : String) :
    frame'.get? other = if other = name then some value else frame.get? other := by
  induction frame generalizing frame' with
  | nil => simp [set?] at h
  | cons entry rest ih =>
    obtain ⟨known, old⟩ := entry
    by_cases hknown : known = name
    · simp only [set?, hknown, beq_self_eq_true, if_true, Option.some.injEq] at h
      subst h hknown
      by_cases hother : other = known <;> simp [get?_cons, hother]
    · simp only [set?, beq_iff_eq, hknown, if_false] at h
      cases hrest : set? rest name value with
      | none => simp [hrest] at h
      | some rest' =>
        simp only [hrest, Option.some.injEq] at h
        subst h
        rw [get?_cons, get?_cons, ih hrest]
        by_cases hother : other = known
        · subst hother
          simp [hknown]
        · simp [hother]

theorem get?_ofCall_isSome (hargs : args.length = fn.params.length)
    (h : name ∈ fn.params ++ fn.locals) : ((ofCall fn args).get? name).isSome := by
  simp only [get?, ofCall, lookup_isSome_iff, beq_iff_eq, mem_append, mem_reverse, mem_map]
  rcases mem_append.1 h with hparam | hlocal
  · rw [← map_fst_zip (Nat.le_of_eq hargs.symm)] at hparam
    obtain ⟨⟨_, value⟩, hmem, rfl⟩ := mem_map.1 hparam
    exact ⟨_, .inl hmem, rfl⟩
  · exact ⟨(name, 0), .inr ⟨name, hlocal, rfl⟩, rfl⟩

theorem get?_ofCall_param (hargs : args.length = fn.params.length) (hparams : fn.params.Nodup)
    {word : Word} (h : (fn.params.zip args).lookup name = some word) :
    (ofCall fn args).get? name = some word := by
  have hzip : ((fn.params.zip args).map (·.1)).Nodup :=
    (map_fst_zip (Nat.le_of_eq hargs.symm)).symm ▸ hparams
  rw [get?, ofCall, lookup_append, lookup_reverse_of_nodup hzip, h]
  rfl

theorem get?_ofCall_local (hparam : name ∉ fn.params) (hlocal : name ∈ fn.locals)
    (args : List Word) : (ofCall fn args).get? name = some 0 := by
  have hargs : (fn.params.zip args).reverse.lookup name = none := by
    refine lookup_eq_none_of_notMem fun hmem => hparam ?_
    obtain ⟨entry, hentry, rfl⟩ := mem_map.1 hmem
    exact (of_mem_zip (mem_reverse.1 hentry)).1
  have hsome : ((fn.locals.map fun name => (name, (0 : Word))).lookup name).isSome := by
    rw [lookup_isSome_iff_mem, map_map]
    simpa using hlocal
  obtain ⟨word, hword⟩ := Option.isSome_iff_exists.1 hsome
  obtain ⟨_, -, he⟩ := mem_map.1 (mem_of_lookup hword)
  rw [get?, ofCall, lookup_append, hargs, hword, ← (Prod.mk.inj he).2]
  rfl

end Frame

namespace Exec

theorem popArgs?_eq_some {stack : List Word} {count : Nat} (h : count ≤ stack.length) :
    ∃ args rest, popArgs? stack count = some (args, rest) ∧ args.length = count ∧
      rest.length = stack.length - count := by
  refine ⟨(stack.take count).reverse, stack.drop count, ?_, ?_, length_drop⟩
  · rw [popArgs?, if_neg (by omega)]
  · simp [h]

theorem popArgs?_reverse_append (args rest : List Word) :
    popArgs? (args.reverse ++ rest) args.length = some (args, rest) := by
  have hlength : args.length = args.reverse.length := length_reverse.symm
  rw [popArgs?, if_neg (by simp), hlength, take_left, drop_left, reverse_reverse]

end Exec

end TypedWasm
