import TypedWasm.Proofs.Heap.Literals
import TypedWasm.Proofs.Typed.Strings

/-!
# Code that leaves typed words

The code of an expression leaves a word of its type on the stack, keeps every local but its own
temporaries, and upholds the heap.
-/

namespace TypedWasm.Typed

open Exec Failing List Lower Lowering Nat Word

variable {i : Nat}

/-- A callable function upholds the heap on arguments of its types, with less fuel. -/
def Honours (setting : Setting) (fuel : Nat) (name : String) (signature : Signature) : Prop :=
  ∀ fn, setting.functions.find? (·.name == name) = some fn →
    fn.params.length = signature.params.length ∧ ∀ fewer, fewer < fuel → ∀ blocks m args,
      List.Forall₂ (IsValue setting.env blocks) signature.params args →
      Upholds setting fewer name [] fn.body blocks ⟨m, Frame.ofCall fn args, []⟩
        (Upholds.body fun blocks' word => IsValue setting.env blocks' signature.result word)

theorem Honours.call {setting : Setting} {fuel : Nat} {name : String} {signature : Signature}
    {blocks : Blocks} {words : List Word} {m : Machine} (h : Honours setting fuel name signature)
    (hwords : List.Forall₂ (IsValue setting.env blocks) signature.params words) (fn : Func)
    (hfn : setting.functions.find? (·.name == name) = some fn) :
    fn.params.length = words.length ∧ ∀ fewer < fuel,
      Upholds setting fewer name [] fn.body blocks ⟨m, Frame.ofCall fn words, []⟩
        (Upholds.body fun blocks' word => IsValue setting.env blocks' signature.result word) := by
  obtain ⟨hparams, hbody⟩ := h fn hfn
  exact ⟨hparams.trans hwords.length_eq, fun fewer hfewer => hbody fewer hfewer _ _ _ hwords⟩

/-- What the bodies of a unit take for granted: their declarations are those of the run. -/
structure Common where
  setting : Setting
  typing : Typing
  context : Context
  env_eq : context.env = setting.env.enter (typing.locals.map (·.1))
  typing_env : typing.env = setting.env
  typing_globals : typing.globals = setting.globals
  picks_plain : ∀ items ty, typing.picks items ty → ty.isPlain = true
  checked : context.config.listBoundsCheck = true
  layout : ∀ cls found, setting.env.classes.lookup cls = some found → ∀ i field,
    found.fields[i]? = some field → field.offset = UInt32.ofNat i ∧ field.ty.Takes field.default.ty

/-- The functions a unit may call uphold the heap on arguments of their types, with less fuel. -/
def Common.Callees (common : Common) (fuel : Nat) : Prop :=
  ∀ name ∈ common.context.callables, ∃ signature, common.typing.signatures name = some signature ∧
    Honours common.setting fuel name signature

/-- What the code of one body takes for granted: its locals have names without `$`, and the
functions it may call uphold the heap. -/
structure Site extends Common where
  owner : String
  fuel : Nat
  names : ∀ entry ∈ typing.locals, Dollarless entry.1
  callee : toCommon.Callees fuel

/-- Every local but the temporaries from `start` on is kept. -/
def Kept (start : Nat) (frame frame' : Frame) : Prop :=
  ∀ name, (∀ i, start ≤ i → name ≠ tempName i) → frame'.get? name = frame.get? name

namespace Kept

variable {start later : Nat} {frame frame' frame'' : Frame}

theorem refl (start : Nat) (frame : Frame) : Kept start frame frame := fun _ _ => rfl

theorem trans (h : Kept start frame frame') (h' : Kept start frame' frame'') :
    Kept start frame frame'' := fun name hname => (h' name hname).trans (h name hname)

theorem mono (h : Kept later frame frame') (hle : start ≤ later) : Kept start frame frame' :=
  fun name hname => h name fun i hi => hname i (Nat.le_trans hle hi)

theorem of_agree (h : Agree [tempName i] frame frame') (hle : start ≤ i) :
    Kept start frame frame' := fun name hname => h name (by simpa using hname i hle)

theorem temp (h : Kept start frame frame') (hi : i < start) {word : Word}
    (hword : frame.get? (tempName i) = some word) : frame'.get? (tempName i) = some word := by
  rw [h _ fun j hj hname => ?_, hword]
  have := tempName_injective hname
  omega

end Kept

namespace Site

variable {site : Site} {blocks blocks' : Blocks} {words : List Word}

/-- A step of lowering that makes no temporary before `start`, and gives what has a property. -/
def Gives {α : Type} (site : Site) (start : Nat) (step : Lower α) (given : α → Prop) : Prop :=
  ∀ progress value later, start ≤ progress.temps →
    step.run site.context progress = (.ok value, later) →
    progress.temps ≤ later.temps ∧ given value

namespace Gives

variable {α β : Type} {start : Nat} {given : β → Prop}

theorem pure {value : β} (h : given value) : site.Gives start (Pure.pure value) given := by
  intro progress found later _ hrun
  obtain ⟨rfl, rfl⟩ := pure_eq_ok_iff.1 hrun
  exact ⟨Nat.le_refl _, h⟩

theorem fail {fault : Fault} : site.Gives start (Lower.fail fault) given :=
  fun _ _ _ _ hrun => absurd hrun (by simp)

theorem imp {step : Lower β} {given' : β → Prop} (h : site.Gives start step given)
    (himp : ∀ value, given value → given' value) : site.Gives start step given' :=
  fun progress value later hle hrun => (h progress value later hle hrun).imp_right (himp value)

theorem bind {step : Lower α} {next : α → Lower β} {mid : α → Prop} (h : site.Gives start step mid)
    (hnext : ∀ value, mid value → site.Gives start (next value) given) :
    site.Gives start (step >>= next) given := by
  intro progress value later hle hrun
  obtain ⟨first, between, hfirst, hrest⟩ := bind_eq_ok_iff.1 hrun
  obtain ⟨hless, hmid⟩ := h _ _ _ hle hfirst
  obtain ⟨hless', hgiven⟩ := hnext first hmid _ _ _ (Nat.le_trans hle hless) hrest
  exact ⟨Nat.le_trans hless hless', hgiven⟩

theorem result {found : Except Failure α} {next : α → Lower β}
    (h : ∀ value, found = .ok value → site.Gives start (next value) given) :
    site.Gives start (Lower.ofResult found >>= next) given := by
  have hstep : site.Gives start (Lower.ofResult found) (found = .ok ·) := by
    intro progress value later _ hrun
    obtain ⟨hvalue, rfl⟩ := ofResult_eq_ok_iff.1 hrun
    exact ⟨Nat.le_refl _, hvalue⟩
  exact hstep.bind h

theorem lookup {found : Except Fault α} {next : α → Lower β}
    (h : ∀ value, found = .ok value → site.Gives start (next value) given) :
    site.Gives start (Lower.ofLookup found >>= next) given :=
  result fun value hvalue => h value (mapError_eq_ok_iff.1 hvalue)

theorem checked {found : Checked α} {next : α → Lower β}
    (h : ∀ value, found = .ok value → site.Gives start (next value) given) :
    site.Gives start (Lower.ofChecked found >>= next) given :=
  result fun value hvalue => h value (mapError_eq_ok_iff.1 hvalue)

theorem context {next : Context → Lower β} (h : site.Gives start (next site.context) given) :
    site.Gives start (Lower.context >>= next) given := h

theorem bigNumbers {next : Bool → Lower β} (h : ∀ big, site.Gives start (next big) given) :
    site.Gives start (Lowering.bigNumbers >>= next) given := h _

theorem helper {helper : Helper} {next : Instr → Lower β}
    (h : site.Gives start (next (.callHelper helper)) given) :
    site.Gives start (Lowering.helper helper >>= next) given := fun progress value later hle hrun =>
  h { progress with helpers := progress.helpers.insert helper } value later hle hrun

theorem intrinsic {called : Intrinsic} {next : Instr → Lower β}
    (h : site.Gives start (next (.callIntrinsic called)) given) :
    site.Gives start (Lowering.intrinsic called >>= next) given :=
  fun progress value later hle hrun =>
  h { progress with intrinsics := progress.intrinsics.insert called } value later hle hrun

theorem newTemp {next : String → Lower β}
    (h : ∀ temp, start ≤ temp → site.Gives (temp + 1) (next (tempName temp)) given) :
    site.Gives start (Lowering.newTemp >>= next) given :=
  fun progress value later hle hrun =>
    (h progress.temps hle _ value later (Nat.le_refl _) hrun).imp_left le_of_succ_le

theorem allocate {size : UInt32} {next : String × Code → Lower β}
    (h : ∀ temp, start ≤ temp → site.Gives (temp + 1)
      (next (tempName temp, Allocation.static size ++ [.localSet (tempName temp)])) given) :
    site.Gives start (Lowering.allocate size >>= next) given := by
  show site.Gives start (Lowering.newTemp >>= fun temp =>
    next (temp, Allocation.static size ++ [.localSet temp])) given
  exact newTemp h

/-- A call names a function that upholds the heap. -/
theorem userCall {name : String} {next : Instr → Lower β}
    (h : ∀ signature, site.typing.signatures name = some signature →
      Honours site.setting site.fuel name signature → site.Gives start (next (.callUser name))
    given) : site.Gives start (Lowering.userCall name >>= next) given := by
  have hstep : site.Gives start (Lowering.userCall name) fun instr => .callUser name = instr ∧
      ∃ signature, site.typing.signatures name = some signature ∧
        Honours site.setting site.fuel name signature := by
    refine context ?_
    split
    · next hmem => exact pure ⟨rfl, site.callee name (contains_iff_mem.1 hmem)⟩
    · exact fail
  refine hstep.bind ?_
  rintro _ ⟨rfl, signature, hsignature, hhonours⟩
  exact h signature hsignature hhonours

end Gives

/-- The locals hold values of their types. -/
def Fits (site : Site) (blocks : Blocks) (frame : Frame) : Prop :=
  ∀ name ty word, site.typing.locals.lookup name = some ty → frame.get? name = some word →
    IsValue site.setting.env blocks ty word

theorem Fits.kept {frame frame' : Frame} {start : Nat} (h : site.Fits blocks frame)
    (hgrow : blocks.Grow blocks') (hkept : Kept start frame frame') : site.Fits blocks' frame' := by
  intro name ty word hty hword
  have hplain := site.names _ (mem_of_lookup hty)
  rw [hkept name fun i _ hname => not_dollarless_tempName i (hname ▸ hplain)] at hword
  exact (h name ty word hty hword).grow hgrow

/-- Code that leaves one word and keeps all locals but new temporaries. -/
def Leaves (site : Site) (start : Nat) (code : Code) (result : Blocks → Word → Prop) : Prop :=
  ∀ before blocks m frame stack, site.Fits blocks frame →
    Upholds site.setting site.fuel site.owner before code blocks ⟨m, frame, stack⟩
      { next := fun blocks' t => Kept start frame t.locals ∧
          ∃ word, t.stack = word :: stack ∧ result blocks' word }

abbrev Value (site : Site) (ty : Ty) (blocks : Blocks) (word : Word) : Prop :=
  IsValue site.setting.env blocks ty word

/-- A step of lowering whose code leaves a value of a type. -/
abbrev Evaluates (site : Site) (lower : Lower Code) (ty : Ty) : Prop :=
  ∀ start, site.Gives start lower fun code => site.Leaves start code (site.Value ty)

/-- Code that leaves words of some types, the last on top. -/
def LeavesAll (site : Site) (start : Nat) (code : Code) (types : List Ty) : Prop :=
  ∀ before blocks m frame stack, site.Fits blocks frame →
    Upholds site.setting site.fuel site.owner before code blocks ⟨m, frame, stack⟩
      { next := fun blocks' t => Kept start frame t.locals ∧ ∃ words, t.stack =
          words.reverse ++ stack ∧ List.Forall₂ (IsValue site.setting.env blocks') types words }

/-- A step of lowering whose code leaves values of some types. -/
abbrev EvaluatesAll (site : Site) (lower : Lower Code) (types : List Ty) : Prop :=
  ∀ start, site.Gives start lower fun code => site.LeavesAll start code types

section Sequences

variable {start later : Nat} {code code' : Code} {types types' : List Ty} {ty target : Ty}
  {result result' : Blocks → Word → Prop}

theorem Leaves.imp (h : site.Leaves start code result)
    (himp : ∀ blocks word, result blocks word → result' blocks word) :
    site.Leaves start code result' := by
  intro before blocks m frame stack hfits
  refine (h _ _ _ _ _ hfits).imp_next ?_
  rintro blocks' t - ⟨hkept, word, hstack, hword⟩
  exact ⟨hkept, word, hstack, himp _ _ hword⟩

theorem Leaves.takes (h : site.Leaves start code (site.Value ty)) (htakes : target.Takes ty) :
    site.Leaves start code (site.Value target) := h.imp fun _ _ hword => hword.takes htakes

theorem Leaves.plain (h : site.Leaves start code result) (hty : ty.isPlain = true) :
    site.Leaves start code (site.Value ty) := h.imp fun _ word _ => isValue_of_isPlain hty word

theorem Evaluates.takes {lower : Lower Code} (h : site.Evaluates lower ty)
    (htakes : target.Takes ty) : site.Evaluates lower target :=
  fun start => (h start).imp fun _ hcode => hcode.takes htakes

theorem Leaves.all (h : site.Leaves start code (site.Value ty)) :
    site.LeavesAll start code [ty] := by
  intro before blocks m frame stack hfits
  refine (h _ _ _ _ _ hfits).imp_next ?_
  rintro blocks' t - ⟨hkept, word, hstack, hword⟩
  exact ⟨hkept, [word], hstack, .cons hword .nil⟩

theorem leavesAll_nil (site : Site) (start : Nat) : site.LeavesAll start [] [] :=
  fun _ _ _ frame _ _ => .nil fun _ => ⟨.refl start frame, [], rfl, .nil⟩

theorem LeavesAll.append (h : site.LeavesAll start code types)
    (h' : site.LeavesAll start code' types') :
    site.LeavesAll start (code ++ code') (types ++ types') := by
  intro before blocks m frame stack hfits
  refine .seq (h _ _ _ _ _ hfits) ?_
  rintro blocks₁ ⟨m₁, frame₁, _⟩ hgrow₁ ⟨hkept₁, words, rfl, hwords⟩
  refine (h' _ _ _ _ _ (hfits.kept hgrow₁ hkept₁)).imp_next ?_
  rintro blocks₂ t hgrow₂ ⟨hkept₂, words', hstack, hwords'⟩
  refine ⟨hkept₁.trans hkept₂, words ++ words', ?_, ?_⟩
  · rw [hstack, reverse_append, append_assoc]
  · exact rel_append (hwords.imp fun _ _ hword => hword.grow hgrow₂) hwords'

theorem forall₂_takes {env : Environment} (htakes : List.Forall₂ Ty.Takes types' types)
    (h : List.Forall₂ (IsValue env blocks) types words) :
    List.Forall₂ (IsValue env blocks) types' words := by
  induction htakes generalizing words with
  | nil => exact h
  | cons htake _ ih =>
    cases h with
    | cons hword hwords => exact .cons (hword.takes htake) (ih hwords)

section

variable (h : site.LeavesAll start code types)
include h

theorem LeavesAll.takes (htakes : List.Forall₂ Ty.Takes types' types) :
    site.LeavesAll start code types' := by
  intro before blocks m frame stack hfits
  refine (h _ _ _ _ _ hfits).imp_next ?_
  rintro blocks' t - ⟨hkept, words, hstack, hwords⟩
  exact ⟨hkept, words, hstack, forall₂_takes htakes hwords⟩

theorem LeavesAll.followed {after : Code}
    (hafter : ∀ before blocks m frame stack words, site.Fits blocks frame →
      List.Forall₂ (IsValue site.setting.env blocks) types words →
      Upholds site.setting site.fuel site.owner before after blocks
        ⟨m, frame, words.reverse ++ stack⟩ { next := fun blocks' t => t.locals = frame ∧
            ∃ word, t.stack = word :: stack ∧ result blocks' word }) :
    site.Leaves start (code ++ after) result := by
  intro before blocks m frame stack hfits
  refine .seq (h _ _ _ _ _ hfits) ?_
  rintro blocks₁ ⟨m₁, frame₁, _⟩ hgrow₁ ⟨hkept₁, words, rfl, hwords⟩
  refine (hafter _ _ _ _ stack words (hfits.kept hgrow₁ hkept₁) hwords).imp_next ?_
  rintro blocks₂ t - ⟨hlocals, hword⟩
  exact ⟨hlocals ▸ hkept₁, hword⟩

theorem LeavesAll.helper {helper : Helper} (hserves : Serves site.setting helper types result) :
    site.Leaves start (code ++ [.callHelper helper]) result := by
  refine h.followed fun before blocks m frame stack words _ hwords => ?_
  refine .callHelper words (hserves.1.trans hwords.length_eq)
    (fun fewer => hserves.2 _ _ _ _ hwords) ?_
  exact fun blocks' _ word _ hword => .nil fun _ => ⟨rfl, word, rfl, hword⟩

end

theorem LeavesAll.user {name : String} {signature : Signature}
    (h : site.LeavesAll start code signature.params)
    (hhonours : Honours site.setting site.fuel name signature) :
    site.Leaves start (code ++ [.callUser name]) (site.Value signature.result) := by
  refine h.followed fun before blocks m frame stack words _ hwords => ?_
  exact .call (show (Callee.user name).function? = some name from rfl) (hhonours.call hwords)
    fun blocks' _ word _ hword => .nil fun _ => ⟨rfl, word, rfl, hword⟩

theorem LeavesAll.host {intrinsic : Intrinsic} (h : site.LeavesAll start code types)
    (harity : types.length = intrinsic.arity) :
    site.Leaves start (code ++ [.callIntrinsic intrinsic]) fun blocks word => ∃ m words,
      List.Forall₂ (IsValue site.setting.env blocks) types words ∧
        (Machine.host m intrinsic words).1 = .ok word := by
  refine h.followed fun before blocks m frame stack words _ hwords => ?_
  exact .host (hwords.length_eq.symm.trans harity) fun _ word hword =>
    .nil fun _ => ⟨rfl, word, rfl, m, words, hwords, hword⟩

end Sequences

/-- A block that takes room stands at the address. -/
def Reserved (blocks : Blocks) (address : Word) (kind : Kind) : Prop :=
  0 < kind.size → address ≠ 0 ∧ blocks address.toAddress = some kind

theorem Reserved.grow {address : Word} {kind : Kind} (h : Reserved blocks address kind)
    (hgrow : blocks.Grow blocks') : Reserved blocks' address kind :=
  fun hsize => ⟨(h hsize).1, hgrow _ _ (h hsize).2⟩

/-- Code that writes to the block in a temporary. -/
def Stores (site : Site) (temp : Nat) (code : Code) (kind : Kind) : Prop :=
  ∀ before blocks m frame stack address, site.Fits blocks frame →
    frame.get? (tempName temp) = some address → Reserved blocks address kind →
    Upholds site.setting site.fuel site.owner before code blocks ⟨m, frame, stack⟩
      { next := fun _ t => Kept (temp + 1) frame t.locals ∧ t.stack = stack }

variable {temp : Nat} {code code' : Code} {kind : Kind}

theorem stores_nil (temp : Nat) (kind : Kind) : site.Stores temp [] kind :=
  fun _ _ _ frame _ _ _ _ _ => .nil fun _ => ⟨.refl _ frame, rfl⟩

theorem Stores.append (h : site.Stores temp code kind) (h' : site.Stores temp code' kind) :
    site.Stores temp (code ++ code') kind := by
  intro before blocks m frame stack address hfits haddress hreserved
  refine .seq (h _ _ _ _ _ address hfits haddress hreserved) ?_
  rintro blocks' ⟨m', frame', stack⟩ hgrow ⟨hkept, rfl⟩
  refine (h' _ _ _ _ _ address (hfits.kept hgrow hkept) (hkept.temp (lt_succ_self _) haddress)
    (hreserved.grow hgrow)).imp_next ?_
  rintro blocks'' t - ⟨hkept', hstack⟩
  exact ⟨hkept.trans hkept', hstack⟩

theorem Leaves.stores {result : Blocks → Word → Prop} {offset : UInt32} {ty : Ty}
    (h : site.Leaves (temp + 1) code result) (hslot : kind.slot? i = some ty)
    (hoffset : offset.toNat = 4 * i)
    (hresult : ∀ blocks word, result blocks word → site.Value ty blocks word) :
    site.Stores temp (storeWord (tempName temp) offset code) kind := by
  intro before blocks m frame stack address hfits haddress hreserved
  obtain ⟨hne, hat⟩ := hreserved (Nat.lt_of_le_of_lt (Nat.zero_le i) (Kind.slot?_bounds hslot).2)
  simp only [storeWord, cons_append, nil_append]
  refine .get haddress (.seq (h _ _ _ _ _ hfits) ?_)
  rintro blocks' ⟨m', frame', _⟩ hgrow ⟨hkept, word, rfl, hword⟩
  exact .storeSlot (.inl hne) (fun _ => hgrow _ _ hat) hslot (by rw [hoffset])
    (fun _ _ => hresult _ _ hword) fun _ => .nil fun _ => ⟨hkept, rfl⟩

theorem leaves_const (site : Site) (start : Nat) (value : Word) :
    site.Leaves start [.const value] fun _ word => word = value :=
  fun _ _ _ frame _ _ => .const (.nil fun _ => ⟨.refl start frame, value, rfl, rfl⟩)

/-- Constants stored one after another. Their offsets all fit, so they are not too many. -/
theorem storeConstants_gives {index : Nat} (hindex : index ≤ 2 ^ 30) :
    site.Gives (temp + 1) (storeConstants (tempName temp) index words) fun code =>
      index + words.length ≤ 2 ^ 30 ∧ ∀ kind,
        (∀ k, k < words.length → kind.slot? (index + k) = some .number) →
        site.Stores temp code kind := by
  induction words generalizing index with
  | nil => exact .pure ⟨hindex, fun kind _ => stores_nil temp kind⟩
  | cons word rest ih =>
    refine .checked fun offset hoffset => ?_
    obtain ⟨hsmall, hplace⟩ := Heap.consecutive_wordOffset.index hindex hoffset
    rw [Nat.zero_add] at hplace
    refine (ih hsmall).bind fun stored ⟨hcount, hstores⟩ => .pure ⟨?_, fun kind hslots => ?_⟩
    · rw [length_cons]
      omega
    · have hfirst : kind.slot? index = some .number := hslots 0 (zero_lt_succ _)
      have hstore := (leaves_const site (temp + 1) word).stores hfirst hplace fun _ _ _ => trivial
      refine hstore.append (hstores kind fun k hk => ?_)
      rw [show index + 1 + k = index + (k + 1) by omega]
      exact hslots (k + 1) (succ_lt_succ hk)

/-- Code that reserves a block for a temporary and fills it. -/
def Builds (site : Site) (temp : Nat) (code : Code) (kind : Kind) : Prop :=
  ∀ before blocks m frame stack, site.Fits blocks frame →
    Upholds site.setting site.fuel site.owner before code blocks ⟨m, frame, stack⟩
      { next := fun blocks' t => Kept temp frame t.locals ∧ t.stack = stack ∧
          ∃ address, t.locals.get? (tempName temp) = some address ∧ Reserved blocks' address kind }

theorem Builds.stores (h : site.Builds temp code kind) (h' : site.Stores temp code' kind) :
    site.Builds temp (code ++ code') kind := by
  intro before blocks m frame stack hfits
  refine .seq (h _ _ _ _ _ hfits) ?_
  rintro blocks' ⟨m', frame', stack⟩ hgrow ⟨hkept, rfl, address, haddress, hreserved⟩
  refine (h' _ _ _ _ _ address (hfits.kept hgrow hkept) haddress hreserved).imp_next ?_
  rintro blocks'' t hgrow' ⟨hkept', hstack⟩
  exact ⟨hkept.trans (hkept'.mono (le_succ _)), hstack, address,
    hkept'.temp (lt_succ_self _) haddress, hreserved.grow hgrow'⟩

theorem Builds.leaves (h : site.Builds temp code kind) {start : Nat} (hle : start ≤ temp) :
    site.Leaves start (code ++ [.localGet (tempName temp)]) fun blocks word =>
      Reserved blocks word kind := by
  intro before blocks m frame stack hfits
  refine .seq (h _ _ _ _ _ hfits) ?_
  rintro blocks' ⟨m', frame', stack⟩ - ⟨hkept, rfl, address, haddress, hreserved⟩
  exact .get haddress (.nil fun _ => ⟨hkept.mono hle, address, rfl, hreserved⟩)

variable {size : UInt32}

theorem builds_parts (site : Site) {types : List Ty} (hsize : size.toNat = 4 * types.length) :
    site.Builds temp (Allocation.static size ++ [.localSet (tempName temp)]) (.parts types) := by
  intro before blocks m frame stack _
  refine .seq (.bump (.inl rfl)) ?_
  rintro blocks' ⟨m', frame, _⟩ - ⟨rfl, rfl, address, rfl, hspare⟩
  rw [toAddress_ofUInt32, hsize] at hspare
  by_cases htypes : types = []
  · refine .set fun frame' hframe hagree => .nil fun _ => ⟨.of_agree hagree (Nat.le_refl _), rfl,
      address, hframe, fun hpos => ?_⟩
    rw [htypes] at hpos
    exact absurd hpos (Nat.lt_irrefl 0)
  · exact .registerParts htypes hspare (.set fun frame' hframe hagree => .nil fun _ =>
      ⟨.of_agree hagree (Nat.le_refl _), rfl, address, hframe, fun _ =>
        ⟨hspare.ne_zero, if_pos rfl⟩⟩)

theorem builds_text {length : UInt32} (hsize : size.toNat = 4 * (1 + length.toNat)) :
    site.Builds temp (Allocation.static size ++ [.localSet (tempName temp)] ++
      storeWord (tempName temp) Block.lengthOffset [.constU length]) (.text length.toNat) := by
  intro before blocks m frame stack _
  rw [append_assoc]
  refine .seq (.bump (.inl rfl)) ?_
  rintro blocks' ⟨m', frame, _⟩ - ⟨rfl, rfl, address, rfl, hspare⟩
  rw [toAddress_ofUInt32, hsize] at hspare
  refine .set fun frame' hframe hagree => (Upholds.storeLength hframe (.inl rfl) hspare
    (by rw [toAddress_ofUInt32])).imp_next ?_
  rintro _ ⟨m'', frame', stack⟩ - ⟨rfl, rfl, rfl⟩
  exact ⟨.of_agree hagree (Nat.le_refl _), rfl, address, hframe, fun _ =>
    ⟨hspare.ne_zero, if_pos rfl⟩⟩

theorem builds_header {tag : Word} {count bound : UInt32} (hsize : size.toNat = 4 * kind.size)
    (hheader : kind.headerSize = 3)
    (hheaded : ∀ (memory : Memory) (place : Nat), memory.word (place + 4) = Word.ofUInt32 count →
      memory.word (place + 8) = Word.ofUInt32 bound → kind.Headed memory place) :
    site.Builds temp (Allocation.static size ++ [.localSet (tempName temp)] ++
      Lowering.storeHeader (tempName temp) tag count bound) kind := by
  intro before blocks m frame stack _
  rw [append_assoc]
  refine .seq (.bump (.inl rfl)) ?_
  rintro blocks' ⟨m', frame, _⟩ - ⟨rfl, rfl, address, rfl, hspare⟩
  rw [toAddress_ofUInt32, hsize] at hspare
  refine .set fun frame' hframe hagree => (Upholds.storeHeader hframe (.inl rfl) (.inl rfl)
    (.inl rfl) hspare hheader fun memory => hheaded memory _).imp_next ?_
  rintro _ ⟨m'', frame', stack⟩ - ⟨rfl, rfl, rfl⟩
  exact ⟨.of_agree hagree (Nat.le_refl _), rfl, address, hframe, fun _ =>
    ⟨hspare.ne_zero, if_pos rfl⟩⟩

end Site

end TypedWasm.Typed
