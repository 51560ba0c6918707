import TypedWasm.Proofs.Destructuring

/-!
# Temporaries

A body sets each of its temporaries once, and reads it only after that and inside the arm that sets
it. So no construct overwrites a word that another one still needs.
-/

namespace TypedWasm

open List

namespace InstrOf

variable {ι φ : Type}

/-- The code inside an instruction: a body, or both branches of a conditional. -/
def arms : InstrOf ι φ → List (InstrOf ι φ) × List (InstrOf ι φ)
  | .block body => (body, [])
  | .loop body => (body, [])
  | .cond _ thenBody elseBody => (thenBody, elseBody)
  | _ => ([], [])

def read? : InstrOf ι φ → Option ι
  | .localGet name => some name
  | _ => none

def written? : InstrOf ι φ → Option ι
  | .localSet name => some name
  | _ => none

def teed? : InstrOf ι φ → Option ι
  | .localTee name => some name
  | _ => none

/-- The locals that the instructions of some code name in one way, at any depth. -/
def operands (pick : InstrOf ι φ → Option ι) (code : List (InstrOf ι φ)) : List ι :=
  (allPreorder code).filterMap pick

/-- The locals that some code names in any way. -/
def named (code : List (InstrOf ι φ)) : List ι :=
  operands read? code ++ (operands written? code ++ operands teed? code)

variable {pick : InstrOf ι φ → Option ι} {code code' : List (InstrOf ι φ)}

@[simp] theorem operands_nil : operands pick [] = [] := rfl

theorem operands_cons (instr : InstrOf ι φ) : operands pick (instr :: code) = (pick instr).toList ++
    (operands pick instr.arms.1 ++ (operands pick instr.arms.2 ++ operands pick code)) := by
  have hpreorder : instr.preorder =
      instr :: (allPreorder instr.arms.1 ++ allPreorder instr.arms.2) := by
    cases instr <;> simp [preorder, arms, allPreorder]
  cases hpick : pick instr <;> simp [operands, allPreorder, hpreorder, hpick]

@[simp] theorem operands_append :
    operands pick (code ++ code') = operands pick code ++ operands pick code' := by
  induction code with
  | nil => rfl
  | cons instr code ih => simp [operands_cons, ih]

end InstrOf

open InstrOf Lowering

/-- A local is read only after an instruction that sets it, and inside the arm with that
instruction. -/
inductive Scoped (name : String) : Code → Prop where
  | here {before after : Code} : name ∉ operands read? before →
      Scoped name (before ++ .localSet name :: after)
  | inside {before after arm other : Code} {instr : Instr} :
      instr.arms = (arm, other) ∨ instr.arms = (other, arm) →
      name ∉ operands read? (before ++ other ++ after) → Scoped name arm →
      Scoped name (before ++ instr :: after)

variable {name : String} {code code' : Code}

namespace Scoped

theorem append_left (h : Scoped name code') (hread : name ∉ operands read? code) :
    Scoped name (code ++ code') := by
  cases h with
  | here hbefore =>
    rw [← append_assoc]
    exact .here (by simp [hread, hbefore])
  | inside harms hothers harm =>
    rw [← append_assoc]
    exact .inside harms (by simpa [hread] using hothers) harm

theorem append_right (h : Scoped name code) (hread : name ∉ operands read? code') :
    Scoped name (code ++ code') := by
  cases h with
  | here hbefore =>
    rw [append_assoc, cons_append]
    exact .here hbefore
  | inside harms hothers harm =>
    rw [append_assoc, cons_append]
    exact .inside harms (by simpa [hread] using hothers) harm

end Scoped

/-- Code that sets the temporaries `made` and reads those of `outer`. What it sets itself it reads
only in the code that follows. -/
inductive Makes : (outer made : List Nat) → Code → Prop where
  | plain {outer : List Nat} {code : Code} :
      (∀ index, tempName index ∈ operands read? code → index ∈ outer) →
      (∀ index, tempName index ∉ operands written? code ++ operands teed? code) →
        Makes outer [] code
  | append {outer made made' : List Nat} {code code' : Code} :
      Makes outer made code → Makes outer made' code' → Makes outer (made ++ made') (code ++ code')
  | bind {outer made made' : List Nat} {code code' : Code} {index : Nat} :
      Makes outer made code → Makes (index :: outer) made' code' →
      Makes outer (made ++ index :: made') (code ++ .localSet (tempName index) :: code')
  | nest {outer made made' : List Nat} {instr : Instr} :
      instr.read? = none → instr.written? = none → instr.teed? = none →
      Makes outer made instr.arms.1 → Makes outer made' instr.arms.2 →
      Makes outer (made ++ made') [instr]

namespace Makes

variable {outer needs made : List Nat} {index : Nat}

theorem weaken (h : Makes needs made code) (hneeds : needs ⊆ outer) : Makes outer made code := by
  induction h generalizing outer with
  | plain hreads hset => exact .plain (fun index hindex => hneeds (hreads index hindex)) hset
  | append _ _ ih ih' => exact (ih hneeds).append (ih' hneeds)
  | bind _ _ ih ih' => exact (ih hneeds).bind (ih' (cons_subset_cons _ hneeds))
  | nest hread hwritten hteed _ _ ih ih' =>
      exact .nest hread hwritten hteed (ih hneeds) (ih' hneeds)

theorem count_written (h : Makes outer made code) (index : Nat) :
    (operands written? code).count (tempName index) = made.count index := by
  induction h with
  | plain _ hset => exact count_eq_zero.2 fun h => hset index (mem_append_left _ h)
  | append _ _ ih ih' => simp [ih, ih']
  | @bind _ _ _ _ _ other _ _ ih ih' =>
    have hsame : tempName other = tempName index ↔ other = index := ⟨tempName_injective, congrArg _⟩
    simp [operands_cons, written?, arms, count_cons, ih, ih', hsame]
  | nest _ hwritten _ _ _ ih ih' => simp [operands_cons, hwritten, ih, ih']

theorem not_teed (h : Makes outer made code) (index : Nat) :
    tempName index ∉ operands teed? code := by
  induction h with
  | plain _ hset => exact fun h => hset index (mem_append_right _ h)
  | append _ _ ih ih' => simp [ih, ih']
  | bind _ _ ih ih' => simp [operands_cons, teed?, arms, ih, ih']
  | nest _ _ hteed _ _ ih ih' => simp [operands_cons, hteed, ih, ih']

theorem read_mem (h : Makes outer made code) (hread : tempName index ∈ operands read? code) :
    index ∈ outer ∨ index ∈ made := by
  induction h with
  | plain hreads => exact .inl (hreads index hread)
  | append _ _ ih ih' =>
    rw [operands_append, mem_append] at hread
    rw [mem_append]
    tauto
  | bind _ _ ih ih' =>
    simp only [operands_append, operands_cons, read?, arms, operands_nil, Option.toList, nil_append,
      mem_append, mem_cons] at hread ih' ⊢
    tauto
  | nest hnone _ _ _ _ ih ih' =>
    simp only [operands_cons, hnone, operands_nil, Option.toList, nil_append, append_nil,
      mem_append] at hread ⊢
    tauto

theorem not_read (h : Makes outer made code) (houter : index ∉ outer)
    (hmade : made.count index = 0) : tempName index ∉ operands read? code :=
  fun hread => (h.read_mem hread).elim houter (count_eq_zero.1 hmade)

/-- A temporary that the code sets once, and that is not set before, is read in its scope. -/
theorem reads_scoped (h : Makes outer made code) (houter : index ∉ outer)
    (hmade : made.count index = 1) : Scoped (tempName index) code := by
  induction h with
  | plain => cases hmade
  | @append _ made made' _ _ hcode hcode' ih ih' =>
    rw [count_append] at hmade
    rcases Nat.eq_zero_or_pos (made.count index) with hzero | hpos
    · exact (ih' houter (by omega)).append_left (hcode.not_read houter hzero)
    · exact (ih houter (by omega)).append_right (hcode'.not_read houter (by omega))
  | @bind outer made made' _ _ other hcode hcode' ih ih' =>
    rw [count_append, count_cons] at hmade
    by_cases he : other = index
    · subst he
      simp only [BEq.rfl, if_true] at hmade
      exact .here (hcode.not_read houter (by omega))
    · have hother : index ∉ other :: outer := by simp [houter, Ne.symm he]
      rw [if_neg (by simpa using he)] at hmade
      rcases Nat.eq_zero_or_pos (made.count index) with hzero | hpos
      · have hread := hcode.not_read houter hzero
        rw [append_cons]
        exact (ih' hother (by omega)).append_left
          (by simpa [operands_cons, read?, arms] using hread)
      · have hread := hcode'.not_read hother (by omega)
        exact (ih houter (by omega)).append_right
          (by simpa [operands_cons, read?, arms] using hread)
  | @nest outer made made' instr _ _ _ harm harm' ih ih' =>
    show Scoped _ ([] ++ instr :: [])
    rw [count_append] at hmade
    rcases Nat.eq_zero_or_pos (made.count index) with hzero | hpos
    · have hread := harm.not_read houter hzero
      exact .inside (.inr Prod.mk.eta.symm) (by simpa using hread) (ih' houter (by omega))
    · have hread := harm'.not_read houter (by omega)
      exact .inside (.inl Prod.mk.eta.symm) (by simpa using hread) (ih houter (by omega))

end Makes

/-- Code that makes exactly the temporaries from `first` up to `last`. -/
def Spans (outer : List Nat) (first last : Nat) (code : Code) : Prop :=
  first ≤ last ∧ ∃ made, Makes outer made code ∧
    ∀ index, made.count index = if first ≤ index ∧ index < last then 1 else 0

namespace Spans

variable {outer needs : List Nat} {first mid last index : Nat}

theorem weaken (h : Spans needs first last code) (hneeds : needs ⊆ outer) :
    Spans outer first last code := by
  obtain ⟨hle, made, hmakes, hcount⟩ := h
  exact ⟨hle, made, hmakes.weaken hneeds, hcount⟩

theorem close (h : Spans [] first last code) : Spans outer first last code :=
  h.weaken (nil_subset _)

theorem still (h : Makes outer [] code) (first : Nat) : Spans outer first first code :=
  ⟨Nat.le_refl _, [], h, fun index => by rw [if_neg (by omega)]; rfl⟩

theorem reads {sources : List Nat} (hreads : operands read? code = sources.map tempName)
    (hset : operands written? code ++ operands teed? code = []) (hsources : sources ⊆ outer) :
    Spans outer first first code := by
  refine still (.plain (fun index hindex => ?_) (by simp [hset])) first
  obtain ⟨source, hsource, he⟩ := mem_map.1 (hreads ▸ hindex)
  exact hsources (tempName_injective he ▸ hsource)

theorem quiet (h : named code = []) : Spans outer first first code :=
  @reads _ _ _ [] (append_eq_nil_iff.1 h).1 (append_eq_nil_iff.1 h).2 (nil_subset _)

/-- A variable has the name of no temporary. -/
theorem ofVariable (hname : ∀ index, name ≠ tempName index) (hcode : named code = [name]) :
    Spans outer first first code := by
  have hnot : ∀ index, tempName index ∉ named code := fun index => by
    simpa [hcode] using (hname index).symm
  exact still (.plain (fun index h => absurd (mem_append_left _ h) (hnot index))
    fun index h => hnot index (mem_append_right _ h)) first

theorem append (h : Spans outer first mid code) (h' : Spans outer mid last code') :
    Spans outer first last (code ++ code') := by
  obtain ⟨hle, made, hmakes, hcount⟩ := h
  obtain ⟨hle', made', hmakes', hcount'⟩ := h'
  refine ⟨by omega, _, hmakes.append hmakes', fun index => ?_⟩
  rw [count_append, hcount, hcount']
  split_ifs <;> omega

theorem plain (h : Spans outer first last code) (hcode : named code' = []) :
    Spans outer first last (code ++ code') := h.append (quiet hcode)

/-- A temporary made before the code of its word, and the code that reads it. -/
theorem bind (h : Spans outer (index + 1) mid code) (h' : Spans (index :: outer) mid last code') :
    Spans outer index last (code ++ [.localSet (tempName index)] ++ code') := by
  obtain ⟨hle, made, hmakes, hcount⟩ := h
  obtain ⟨hle', made', hmakes', hcount'⟩ := h'
  refine ⟨by omega, _, by simpa using hmakes.bind hmakes', fun other => ?_⟩
  rw [count_append, count_cons, hcount, hcount']
  split_ifs <;> grind

theorem get (h : index ∈ outer) : Spans outer first first [.localGet (tempName index)] :=
  @reads _ _ _ [index] rfl rfl (by simpa using h)

/-- A block is reserved and kept in a temporary. -/
theorem reserve {size : UInt32} (h : Spans [index] (index + 1) mid code)
    (h' : Spans [index] mid last code') : Spans [] index last
      (Allocation.static size ++ [.localSet (tempName index)] ++ code ++ code') := by
  rw [append_assoc]
  exact bind (quiet rfl) (h.append h')

theorem storeWord {offset : UInt32} (h : Spans outer first last code) (hindex : index ∈ outer) :
    Spans outer first last (storeWord (tempName index) offset code) :=
  ((get hindex).append h).plain rfl

theorem nest {instr : Instr} (hread : instr.read? = none) (hwritten : instr.written? = none)
    (hteed : instr.teed? = none) (h : Spans outer first mid instr.arms.1)
    (h' : Spans outer mid last instr.arms.2) : Spans outer first last [instr] := by
  obtain ⟨hle, made, hmakes, hcount⟩ := h
  obtain ⟨hle', made', hmakes', hcount'⟩ := h'
  refine ⟨by omega, _, .nest hread hwritten hteed hmakes hmakes', fun index => ?_⟩
  rw [count_append, hcount, hcount']
  split_ifs <;> omega

end Spans

/-- A step that starts with `start` temporaries, in a body whose locals are no temporaries, gives
what has a property. -/
def Yields {α : Type} (start : Nat) (step : Lower α) (given : Nat → α → Prop) : Prop :=
  ∀ context progress value later, context.TempsFree → progress.temps = start →
    step.run context progress = (.ok value, later) → given later.temps value

/-- A step gives code that makes the temporaries it counts, and reads others only of `needs`. -/
def Tracks (needs : List Nat) (step : Lower Code) : Prop :=
  ∀ start, Yields start step (Spans needs start)

variable {needs : List Nat} {start : Nat}

namespace Yields

variable {α β : Type} {given : Nat → β → Prop} {step : Lower α} {next : α → Lower β}
  {nextCall : Instr → Lower β} {nextName : String → Lower β}

theorem pure {value : β} (h : given start value) : Yields start (Pure.pure value) given := by
  rintro context progress found later - rfl hrun
  obtain ⟨rfl, rfl⟩ := Lower.pure_eq_ok_iff.1 hrun
  exact h

theorem fail {fault : Fault} : Yields start (Lower.fail fault) given :=
  fun _ _ _ _ _ _ hrun => absurd hrun (by simp)

theorem bind {mid : Nat → α → Prop} (h : Yields start step mid)
    (hnext : ∀ last value, mid last value → Yields last (next value) given) :
    Yields start (step >>= next) given := by
  intro context progress value later hfree hstart hrun
  obtain ⟨first, between, hfirst, hrest⟩ := Lower.bind_eq_ok_iff.1 hrun
  exact hnext _ _ (h _ _ _ _ hfree hstart hfirst) _ _ _ _ hfree rfl hrest

/-- A step that makes no temporary. -/
theorem skip (h : Yields start step fun last _ => last = start)
    (hnext : ∀ value, Yields start (next value) given) : Yields start (step >>= next) given :=
  h.bind fun _ _ hlast => hlast ▸ hnext _

theorem result {found : Except Failure α} (h : ∀ value, Yields start (next value) given) :
    Yields start (Lower.ofResult found >>= next) given := by
  refine skip (fun context progress value later _ hstart hrun => ?_) h
  obtain ⟨-, rfl⟩ := Lower.ofResult_eq_ok_iff.1 hrun
  exact hstart

theorem reading {next : Context → Lower β}
    (h : ∀ context, context.TempsFree → Yields start (next context) given) :
    Yields start (Lower.context >>= next) given :=
  fun context progress value later hfree hstart hrun =>
    h context hfree context progress value later hfree hstart hrun

theorem bigNumbers {next : Bool → Lower β} (h : ∀ big, Yields start (next big) given) :
    Yields start (Lowering.bigNumbers >>= next) given := reading fun _ _ => h _

theorem ite {p : Prop} [Decidable p] {step other : Lower β} (h : Yields start step given)
    (h' : Yields start other given) : Yields start (if p then step else other) given := by
  split
  · exact h
  · exact h'

theorem helper {called : Helper} (h : Yields start (nextCall (.callHelper called)) given) :
    Yields start (Lowering.helper called >>= nextCall) given :=
  fun _ _ value later hfree hstart hrun => h _ _ value later hfree (by exact hstart) hrun

theorem intrinsic {called : Intrinsic} (h : Yields start (nextCall (.callIntrinsic called)) given) :
    Yields start (Lowering.intrinsic called >>= nextCall) given :=
  fun _ _ value later hfree hstart hrun => h _ _ value later hfree (by exact hstart) hrun

theorem userCall (h : Yields start (nextCall (.callUser name)) given) :
    Yields start (Lowering.userCall name >>= nextCall) given := by
  have hstep : Yields start (Lowering.userCall name) fun last instr =>
      last = start ∧ instr = .callUser name := .reading fun _ _ => .ite (.pure ⟨rfl, rfl⟩) .fail
  refine hstep.bind ?_
  rintro _ _ ⟨rfl, rfl⟩
  exact h

theorem newTemp (h : Yields (start + 1) (nextName (tempName start)) given) :
    Yields start (Lowering.newTemp >>= nextName) given := by
  rintro context progress value later hfree rfl hrun
  exact h _ _ value later hfree rfl hrun

theorem allocate {size : UInt32} {next : String × Code → Lower β}
    (h : Yields (start + 1)
      (next (tempName start, Allocation.static size ++ [.localSet (tempName start)])) given) :
    Yields start (Lowering.allocate size >>= next) given := by
  rintro context progress value later hfree rfl hrun
  exact h _ _ value later hfree rfl hrun

theorem requiredClass {ty : Ty} (h : ∀ cls, Yields start (nextName cls) given) :
    Yields start (Lowering.requiredClass ty >>= nextName) given := by
  refine skip ?_ h
  unfold Lowering.requiredClass
  split
  · exact .pure rfl
  · exact .fail

end Yields

namespace Tracks

variable {step left right : Lower Code} {index count : Nat} {ty keyTy : Ty} {cls field : String}
  {op : BinaryOp} {position : Option Int} {parts : String → Lower Code}
  {given : Nat → Code → Prop} {offsetOf : UInt32 → Checked UInt32}

theorem nil : Tracks needs (pure []) := fun _ => .pure (.quiet rfl)

/-- One piece of code after another. -/
theorem both {next : Code → Code → Lower Code} (hleft : Tracks [] left)
    (hright : Tracks [] right) (h : ∀ last code code', Spans [] start last (code ++ code') →
      Yields last (next code code') given) :
    Yields start (left >>= fun code => right >>= next code) given :=
  (hleft _).bind fun _ _ hleft => (hright _).bind fun _ _ hright => h _ _ _ (hleft.append hright)

theorem storeConstants (words : List Word) (place : Nat) :
    Tracks [index] (Lowering.storeConstants (tempName index) place words) := by
  induction words generalizing place with
  | nil => exact nil
  | cons word words ih =>
    exact fun _ => .result fun _ => (ih _ _).bind fun _ _ hrest =>
      .pure ((Spans.storeWord (.quiet rfl) (by simp)).append hrest)

theorem constantBlock (words : List Word) : Tracks [] (Lowering.constantBlock offsetOf words) :=
  fun _ => .result fun _ => .allocate <| (storeConstants _ _ _).bind fun _ _ hstored =>
    .pure (hstored.reserve (.get (by simp)))

theorem literal (value : Literal) : Tracks [] (Lowering.literal value) := by
  intro start
  cases value with
  | num value =>
    exact .bigNumbers fun big => .ite (constantBlock _ start) (.ite (.pure (.quiet rfl)) .fail)
  | bool | none => exact .pure (.quiet rfl)
  | string text => exact constantBlock _ start

theorem nameValue (name : String) : Tracks [] (Lowering.nameValue name) := by
  refine fun start => .reading fun context hfree => ?_
  dsimp only
  split
  · next hlocal => exact .pure (.ofVariable (hfree name hlocal) rfl)
  · exact .result fun _ => .pure (.quiet rfl)

section Operands

variable (hleft : Tracks [] left)
include hleft

theorem call : Tracks [] (Lowering.call name left) :=
  fun _ => (hleft _).bind fun _ _ hargs => .userCall <| .pure (hargs.plain rfl)

theorem fieldLookup : Tracks [] (Lowering.fieldLookup ty field left) :=
  fun _ => .requiredClass fun _ => .reading fun _ _ => .result fun _ => (hleft _).bind
    fun _ _ hobject => .result fun _ => .pure (hobject.plain rfl)

theorem unary {op : UnaryOp} : Tracks [] (Lowering.unary op left) := by
  intro start
  cases op with
  | neg =>
    refine .bigNumbers fun _ => .ite ?_ ?_
    · exact both (literal _) hleft fun _ _ _ hboth => .intrinsic <| .pure (hboth.plain rfl)
    · exact (hleft _).bind fun _ _ hleft => .pure ((Spans.append (.quiet rfl) hleft).plain rfl)
  | not => exact (hleft _).bind fun _ _ hleft => .pure (hleft.plain rfl)

theorem builtin1 {builtin : Builtin1} : Tracks [] (Lowering.builtin1 builtin ty left) := by
  intro start
  cases builtin with
  | print =>
    have hprinter : Yields start (Lowering.printer ty) fun last _ => last = start := by
      cases ty with
      | number => exact .bigNumbers fun _ => .pure rfl
      | string | bool | none => exact .pure rfl
      | _ => exact .fail
    exact hprinter.skip fun _ => (hleft _).bind fun _ _ harg =>
      .intrinsic <| .pure (harg.plain rfl)
  | abs =>
    exact .bigNumbers fun _ => .ite .fail <| (hleft _).bind fun _ _ harg =>
      .intrinsic <| .pure (harg.plain rfl)
  | len =>
    have hlength : Tracks [] (Lowering.lengthOf ty) := by
      intro start
      cases ty with
      | list | dict | string | tuple => exact .pure (.quiet rfl)
      | _ => exact .fail
    exact both hleft hlength fun _ _ _ hboth => .bigNumbers fun _ =>
      .ite (.helper <| .pure (hboth.plain rfl)) (.pure hboth)

theorem construct : Tracks [] (Lowering.construct cls count left) := by
  have hdefaults {index : Nat} (fields : List FieldLayout) :
      Tracks [index] (storeDefaults (tempName index) fields) := by
    induction fields with
    | nil => exact nil
    | cons field fields ih =>
      exact fun _ => (literal _ _).bind fun _ _ hvalue => .result fun _ => (ih _).bind
        fun _ _ hrest => .pure ((hvalue.close.storeWord (by simp)).append hrest)
  refine fun _ => .reading fun _ _ => .result fun _ => .result fun _ => .allocate <|
    (hdefaults _ _).bind fun _ _ hfields => .ite ?_ (.ite ?_ .fail)
  · refine (hleft _).bind fun _ _ hargs => .userCall <| .pure ?_
    rw [append_assoc, append_assoc, append_assoc]
    exact hfields.reserve ((Spans.get (by simp)).append
      (hargs.close.append ((Spans.quiet rfl).append (.get (by simp)))))
  · exact .pure (hfields.reserve (.get (by simp)))

theorem indexWord : Tracks [] (Lowering.indexWord ty left) :=
  fun _ => (hleft _).bind fun _ _ hkey => .bigNumbers fun _ =>
    .ite (.helper <| .pure (hkey.plain rfl)) (.pure hkey)

variable (hright : Tracks [] right)
include hright

theorem methodCall : Tracks [] (Lowering.methodCall ty name left right) :=
  fun _ => .requiredClass fun _ => both hleft hright fun _ _ _ hboth =>
    .userCall <| .pure (hboth.plain rfl)

theorem bothOperands : Tracks [] (Lowering.bothOperands left right) :=
  fun _ => both hleft hright fun _ _ _ => .pure

theorem listConcat {leftEmpty rightEmpty : Bool} :
    Tracks [] (Lowering.listConcat leftEmpty rightEmpty left right) := by
  intro start
  have hcopy : ∀ {source}, Tracks [] source → Yields start
      (source >>= fun code => return code ++ [← Lowering.helper .listCopy]) (Spans [] start) :=
    fun hsource => (hsource _).bind fun _ _ hsource => .helper <| .pure (hsource.plain rfl)
  refine .ite (.ite (hcopy hleft) (hcopy hright)) <| .newTemp <| .newTemp <|
    (hright _).bind fun _ _ hright => (hleft _).bind fun last _ hleft => .helper <| .pure ?_
  -- The temporaries of the operands come after both that hold their words.
  obtain ⟨hle, made, hmakes, hcount⟩ := hright
  obtain ⟨hle', made', hmakes', hcount'⟩ := hleft
  obtain ⟨-, _, hwords, hnone⟩ :
    Spans [start + 1, start] last last [.localGet (tempName (start + 1)),
    .localGet (tempName start), .callHelper .listConcat] := .reads rfl rfl (List.Subset.refl _)
  refine ⟨by omega, _, by
    simpa using hmakes.bind ((hmakes'.weaken (nil_subset _)).bind hwords), fun index => ?_⟩
  simp only [count_append, count_cons, hcount, hcount', hnone]
  split_ifs <;> grind

theorem binary {leftEmpty rightEmpty : Bool} :
    Tracks [] (Lowering.binary op ty leftEmpty rightEmpty left right) := by
  intro start
  unfold Lowering.binary
  split
  · exact (hleft _).bind fun _ _ hleft => (hright _).bind fun _ _ hright =>
      .pure (hleft.append (.nest rfl rfl rfl hright (.quiet rfl)))
  · exact (hleft _).bind fun _ _ hleft => (hright _).bind fun _ _ hright =>
      .pure (hleft.append (.nest rfl rfl rfl (.quiet rfl) hright))
  · exact (bothOperands hleft hright _).bind fun _ _ hboth => .pure (hboth.plain rfl)
  · split
    · split
      · exact listConcat hleft hright start
      · exact .fail
    · refine (bothOperands hleft hright _).bind fun _ _ hboth => ?_
      split
      iterate 3 exact .helper <| .pure (hboth.plain rfl)
      exact .fail
    · refine (bothOperands hleft hright _).bind fun _ _ hboth => .bigNumbers fun _ => ?_
      split
      · exact .intrinsic <| .pure (hboth.plain rfl)
      · exact .pure (hboth.plain rfl)

theorem builtin2 {builtin : Builtin2} : Tracks [] (Lowering.builtin2 builtin left right) :=
  fun _ => .bigNumbers fun _ => .ite .fail <| (bothOperands hleft hright _).bind
    fun _ _ hboth => .intrinsic <| .pure (hboth.plain rfl)

theorem listElement : Tracks [] (Lowering.listElement ty left right) :=
  fun _ => both hleft (indexWord hright) fun _ _ _ hboth => .reading fun _ _ =>
    .ite (.helper <| .pure (hboth.plain rfl)) (.pure (hboth.plain rfl))

theorem indexed : Tracks [] (Lowering.indexed ty position keyTy left right) := by
  intro start
  cases ty with
  | string =>
    exact both hleft (indexWord hright) fun _ _ _ hboth => .helper <| .pure (hboth.plain rfl)
  | list => exact (listElement hleft hright _).bind fun _ _ helement => .pure (helement.plain rfl)
  | tuple =>
    refine (hleft _).bind fun _ _ hobject => ?_
    split
    · exact .ite .fail <| .result fun _ => .pure (hobject.plain rfl)
    · exact (indexWord hright _).bind fun _ _ hkey => .pure ((hobject.append hkey).plain rfl)
  | dict =>
    exact .bigNumbers fun _ => .ite .fail <| both hleft hright fun _ _ _ hboth =>
      .helper <| .pure (hboth.plain rfl)
  | _ => exact .fail

end Operands

theorem collection {tag : Word} (hparts : ∀ index, Tracks [index] (parts (tempName index))) :
    Tracks [] (Lowering.collection tag count offsetOf parts) := by
  refine fun start => .reading fun _ _ => .result fun _ => .result fun _ => .allocate <|
    (hparts _ _).bind fun _ _ hparts => .pure ?_
  rw [append_assoc, append_assoc]
  exact .bind (.quiet rfl) ((@Spans.reads _ _ _ [start, start, start] rfl rfl (by simp)).append
    (hparts.append (.get (by simp))))

theorem tuple (hparts : ∀ index, Tracks [index] (parts (tempName index))) :
    Tracks [] (Lowering.tuple count parts) :=
  fun _ => .result fun _ => .allocate <| (hparts _ _).bind fun _ _ hparts =>
    .pure (hparts.reserve (.get (by simp)))

mutual

theorem expr : (e : Expr) → Tracks [] (Lowering.expr e)
  | .literal _ value => literal value
  | .id _ name => nameValue name
  | .binary _ _ left right => binary (expr left) (expr right)
  | .unary _ _ operand => unary (expr operand)
  | .call _ _ args => call (exprs args)
  | .builtin1 _ _ arg => builtin1 (expr arg)
  | .builtin2 _ _ left right => builtin2 (expr left) (expr right)
  | .construct _ _ args => construct (exprs args)
  | .methodCall _ object _ args => methodCall (expr object) (exprs args)
  | .lookup _ object _ => fieldLookup (expr object)
  | .index _ object key => indexed (expr object) (expr key)
  | .list _ elements => collection fun _ => storeAll 0 elements
  | .tuple _ elements => tuple fun _ => storeAll 0 elements
  | .dict _ entries => collection fun _ => storeEntries 0 entries

theorem exprs : (es : List Expr) → Tracks [] (Lowering.exprs es)
  | [] => nil
  | first :: rest => fun _ => both (expr first) (exprs rest) fun _ _ _ => .pure

theorem storeAll {temp : Nat} {placeOf : UInt32 → Checked UInt32} (place : Nat) : (es : List Expr) →
    Tracks [temp] (Lowering.storeAll (tempName temp) placeOf place es)
  | [] => nil
  | first :: rest => fun _ => (expr first _).bind fun _ _ hfirst => .result fun _ =>
      (storeAll (place + 1) rest _).bind fun _ _ hrest =>
        .pure ((hfirst.close.storeWord (by simp)).append hrest)

theorem storeEntries {temp : Nat} (place : Nat) : (entries : List (Expr × Expr)) →
    Tracks [temp] (Lowering.storeEntries (tempName temp) place entries)
  | [] => nil
  | (key, value) :: rest => fun _ => (expr key _).bind fun _ _ hkey => .result fun _ =>
      (expr value _).bind fun _ _ hvalue => .result fun _ =>
        (storeEntries (place + 1) rest _).bind fun _ _ hrest =>
          .pure (((hkey.close.storeWord (by simp)).append (hvalue.close.storeWord (by simp))).append
            hrest)

end

variable {slots : List Slot} {source : Nat}

/-- Code that makes no temporary. -/
def Reads (needs : List Nat) (start last : Nat) (code : Code) : Prop :=
  last = start ∧ ∀ first, Spans needs first first code

theorem assignTo (target : Target) {value : Code}
    (hvalue : ∀ first, Spans needs first first value) :
    Tracks needs (Lowering.assignTo target value) := by
  refine fun start => .reading fun context hfree => ?_
  cases target with
  | id name =>
    dsimp only
    split
    · next hlocal => exact .pure ((hvalue _).append (.ofVariable (hfree name hlocal) rfl))
    · exact .result fun _ => .pure ((Spans.append (.quiet rfl) (hvalue _)).plain rfl)
  | lookup object field =>
    exact .requiredClass fun _ => .result fun _ => (expr object _).bind fun _ _ hobject =>
      .result fun _ => .pure ((hobject.close.append (hvalue _)).plain rfl)
  | index object key =>
    dsimp only
    split
    · exact (listElement (expr object) (expr key) _).bind fun _ _ helement =>
        .pure ((helement.close.append (hvalue _)).plain rfl)
    · exact .fail
    · exact .fail

theorem assignSlots {valueAt : Nat → Lower Code}
    (hvalue : ∀ position start, Yields start (valueAt position) (Reads needs start))
    (slots : List Slot) (position : Nat) :
    Tracks needs (Lowering.assignSlots valueAt position slots) := by
  induction slots generalizing position with
  | nil => exact nil
  | cons slot slots ih =>
    refine fun _ => .ite (ih _ _) <| (hvalue _ _).bind ?_
    rintro _ _ ⟨rfl, hcode⟩
    exact (assignTo slot.target hcode _).bind fun _ _ hfirst => (ih _ _).bind
      fun _ _ hrest => .pure (hfirst.append hrest)

theorem partOf {offset : Checked UInt32} :
    Yields start (Lowering.partOf (tempName source) offset) (Reads [source] start) :=
  .result fun _ => .pure ⟨rfl, fun _ => @Spans.reads _ _ _ [source] rfl rfl (by simp)⟩

theorem listPart {size count position : Nat} {star : Option Nat} :
    Yields start (Lowering.listPart (tempName source) (tempName size) count star position)
      (Reads [source, size] start) := by
  have helement {place} : Yields start (elementOf (tempName source) [.const place])
      (Reads [source, size] start) :=
    .helper <| .pure ⟨rfl, fun _ => @Spans.reads _ _ _ [source] rfl rfl (by simp)⟩
  have hsizes {code : Code} (hreads : operands read? code = [source, size].map tempName)
      (hset : operands written? code ++ operands teed? code = []) :
      Reads [source, size] start start code := ⟨rfl, fun _ => .reads hreads hset (by simp)⟩
  cases star with
  | some starred =>
    exact .ite (.helper <| .pure (hsizes rfl rfl)) <|
      .ite (.helper <| .pure (hsizes rfl rfl)) helement
  | none => exact helement

theorem pattern (target : Pattern) :
    Tracks [source] (Lowering.pattern target (tempName source)) := by
  intro start
  have hreject {what} : Yields start (rejectStarred target.slots what) fun last _ => last = start :=
    .ite .fail (.pure rfl)
  refine .ite ?_ ?_
  · split
    · refine hreject.skip fun _ => .reading fun _ _ => .result fun _ => .ite .fail <|
        assignSlots (fun position start => ?_) _ 0 _
      split
      · exact partOf
      · exact .pure ⟨rfl, fun _ => .quiet rfl⟩
    · exact hreject.skip fun _ => .ite .fail <| assignSlots (fun _ _ => partOf) _ 0 _
    · refine .ite .fail <| .newTemp <| .intrinsic <|
        (assignSlots (fun _ _ => listPart) _ 0 _).bind fun _ _ hslots => .pure ?_
      show Spans _ _ _ ([_, _] ++ [.localSet (tempName start)] ++ ([_, _, _, _] ++ _))
      exact .bind (@Spans.reads _ _ _ [source] rfl rfl (by simp))
        ((@Spans.reads _ _ _ [start, start] rfl rfl (by simp)).append (hslots.weaken (by simp)))
    · exact .fail
  · unfold wholeValue
    split
    · exact .ite .fail <| .ite (nil _) <| assignTo _ (fun _ => .get (by simp)) start
    · exact .fail

mutual

theorem stmt : (s : Stmt) → Tracks [] (Lowering.stmt s)
  | .ret value => fun _ => (expr value _).bind fun _ _ hvalue => .pure (hvalue.plain rfl)
  | .assign target value => fun _ => .newTemp <| (expr value _).bind fun _ _ hvalue =>
      (pattern target _).bind fun _ _ htarget => .pure (hvalue.bind htarget)
  | .expr value => fun _ => (expr value _).bind fun _ _ hvalue =>
      .pure (hvalue.append (.ofVariable scratchLocal_ne_tempName rfl))
  | .cond test thenBody elseBody => fun _ => (expr test _).bind fun _ _ htest =>
      (block thenBody _).bind fun _ _ hthen => (block elseBody _).bind fun _ _ helse =>
        .pure (htest.append (.nest rfl rfl rfl hthen helse))
  | .loop test body => fun _ => (expr test _).bind fun _ _ htest => (block body _).bind
      fun _ _ hbody => .pure (.nest rfl rfl rfl (.nest rfl rfl rfl
        (((htest.plain rfl).append hbody).plain rfl) (.quiet rfl)) (.quiet rfl))
  | .pass => nil

theorem block : (stmts : List Stmt) → Tracks [] (Lowering.block stmts)
  | [] => nil
  | first :: rest => fun _ => both (stmt first) (block rest) fun _ _ _ => .pure

end

theorem localInits (inits : List VarInit) (hnames : ∀ init ∈ inits, ∀ index,
    init.name ≠ tempName index) : Tracks [] (Lowering.localInits inits) := by
  induction inits with
  | nil => exact nil
  | cons init inits ih =>
    rw [forall_mem_cons] at hnames
    exact fun _ => (literal _ _).bind fun _ _ hvalue => (ih hnames.2 _).bind fun _ _ hrest =>
      .pure ((hvalue.append (.ofVariable hnames.1 rfl)).append hrest)

theorem globalInits (inits : List VarInit) : Tracks [] (Lowering.globalInits inits) := by
  induction inits with
  | nil => exact nil
  | cons init inits ih =>
    exact fun _ => .reading fun _ _ => .result fun _ => (literal _ _).bind fun _ _ hvalue =>
      (ih _).bind fun _ _ hrest =>
        .pure (((Spans.append (.quiet rfl) hvalue).plain rfl).append hrest)

theorem bodyStart (body : Body) (h : ∀ name ∈ body.locals, ∀ index, name ≠ tempName index) :
    Tracks [] body.start := by
  cases htop : body.isTop with
  | true =>
    rw [Body.start, htop]
    exact globalInits body.inits
  | false =>
    rw [Body.locals, htop] at h
    rw [Body.start, htop]
    exact localInits body.inits fun init hinit => h _ (mem_map_of_mem hinit)

end Tracks

theorem Spans.last {outer : List Nat} {first : Nat} (body : Body) :
    Spans outer first first [body.last] := by
  rw [Body.last]
  cases body.isTop with
  | true => exact .ofVariable scratchLocal_ne_tempName rfl
  | false => exact .quiet rfl

/-- The locals of a function end with its temporaries. Each is set by one instruction, by no
`local.tee`, and read in its scope. -/
structure Func.Keeps (fn : Func) (others : List String) (count : Nat) : Prop where
  locals_eq : fn.locals = others ++ (range count).map tempName
  nodup : ((range count).map tempName).Nodup
  others_free : ∀ index, tempName index ∉ fn.params ++ others
  set_once : ∀ index < count, (operands written? fn.body).count (tempName index) = 1
  not_teed : ∀ index, tempName index ∉ operands teed? fn.body
  reads_scoped : ∀ index < count, Scoped (tempName index) fn.body

variable {program : Program} {config : Config} {env : Environment} {u : CompiledUnit} {fn : Func}
  {others : List String} {count : Nat}

theorem Spans.keeps (h : Spans [] 0 count fn.body)
    (hlocals : fn.locals = others ++ (range count).map tempName)
    (hothers : ∀ index, tempName index ∉ fn.params ++ others) : fn.Keeps others count := by
  obtain ⟨-, made, hmakes, hcount⟩ := h
  have hone : ∀ index < count, made.count index = 1 := fun index hindex => by
    rw [hcount, if_pos ⟨Nat.zero_le _, hindex⟩]
  exact {
    locals_eq := hlocals
    nodup := nodup_range.map fun _ _ => tempName_injective
    others_free := hothers
    set_once := fun index hindex => (hmakes.count_written index).trans (hone index hindex)
    not_teed := hmakes.not_teed
    reads_scoped := fun index hindex => hmakes.reads_scoped not_mem_nil (hone index hindex) }

theorem tempName_not_mem {names : List String} (h : ∀ name ∈ names, Dollarless name) (index : Nat) :
    tempName index ∉ names ++ [scratchLocal] := by
  intro hmem
  rcases mem_append.1 hmem with hname | hscratch
  · exact not_dollarless_tempName index (h _ hname)
  · exact scratchLocal_ne_tempName index (mem_singleton.1 hscratch).symm

theorem tempsFree_binding {context : Context} {names : List String}
    (h : ∀ name ∈ names, Dollarless name) : (context.binding names).TempsFree := by
  intro name hlocal index he
  refine tempName_not_mem h index (mem_append_left _ (he ▸ ?_))
  simpa [Context.binding, Environment.isLocal, Environment.enter] using hlocal

theorem Program.PlainNames.of_body (hnames : program.PlainNames) {body : Body}
    (hbody : body ∈ program.bodies) : ∀ name ∈ body.bound, Dollarless name := by
  rcases mem_append.1 hbody with hmapped | htop
  · obtain ⟨routine, hroutine, rfl⟩ := mem_map.1 hmapped
    intro name hname
    have hmem : name ∈ routine.1.identifiers := mem_cons_of_mem _ (mem_append_left _ hname)
    rcases mem_append.1 hroutine with hfun | hmethod
    · obtain ⟨fn, hfn, rfl⟩ := mem_map.1 hfun
      exact hnames.of_fun hfn name hmem
    · obtain ⟨cls, hcls, hmethod⟩ := mem_flatMap.1 hmethod
      obtain ⟨method, hmember, rfl⟩ := mem_map.1 hmethod
      refine hnames name (mem_append_left _ (mem_append_right _ (mem_flatMap.2 ⟨cls, hcls, ?_⟩)))
      exact mem_cons_of_mem _ (mem_append_right _ (mem_flatMap.2 ⟨method, hmember, hmem⟩))
  · rw [mem_singleton.1 htop]
    exact forall_mem_nil _

/-- Temporaries never clash: in every compiled function, and in the top level statements, each is
set once and read only after that, inside the arm that sets it. -/
theorem temporaries_set_once (hnames : program.PlainNames)
    (h : compile config env program = .ok u) :
    ∀ fn ∈ u.functions ++ [u.main], ∃ others count, fn.Keeps others count := by
  obtain ⟨extended, -, -, hcompiled⟩ := Compiled.of_compile h
  intro fn hfn
  obtain ⟨body, hbody, _, hrun, -⟩ := hcompiled.body_of_function hfn
  obtain ⟨start, first, code, second, hstart, hcode, rfl, -⟩ := Body.run_eq_ok_iff.1 hrun
  have hbound := hnames.of_body hbody
  have hfree : ((program.context config extended).binding _).TempsFree := tempsFree_binding hbound
  have hinits := Tracks.bodyStart body (fun name hname index he =>
    not_dollarless_tempName index (he ▸ hbound _ (mem_append_right _ hname))) 0 _ _ _ _ hfree
      rfl hstart
  have hblock := Tracks.block body.stmts _ _ _ _ _ hfree rfl hcode
  refine ⟨_, _, Spans.keeps ((hinits.append hblock).append (.last body)) rfl fun index => ?_⟩
  show tempName index ∉ body.params ++ (body.locals ++ [scratchLocal])
  rw [← List.append_assoc]
  exact tempName_not_mem hbound index

/-- A body that makes a list and takes it apart into its own elements. -/
theorem Destructuring.ontoList_set_once : ∃ u, compile {} {} ontoList = .ok u ∧
    u.main.locals = scratchLocal :: (range 4).map tempName ∧
    ∃ others count, u.main.Keeps others count := by
  have hlocals : (compile {} {} ontoList).toOption.map (·.main.locals) =
      some (scratchLocal :: (range 4).map tempName) := by decide +kernel
  cases hu : compile {} {} ontoList with
  | error => simp [hu, Except.toOption] at hlocals
  | ok u =>
    rw [hu] at hlocals
    exact ⟨u, rfl, Option.some.inj hlocals, temporaries_set_once (by decide) hu u.main (by simp)⟩

end TypedWasm
