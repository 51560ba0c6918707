import TypedWasm.Proofs.Typed.Reserving

/-!
# Helpers on lists

The helpers that make lists uphold the heap: the new block has room for all elements that are copied
to it, and every copied word is a value of the element type.
-/

namespace TypedWasm

open List Word

namespace Typed

open Exec

variable {word : Word}

theorem toAddress_wordSize : (Word.ofUInt32 wordSize).toAddress = 4 := toAddress_ofUInt32 _

theorem toAddress_headerSize : (Word.ofUInt32 Block.headerSize).toAddress = 12 :=
  toAddress_ofUInt32 _

variable {name source : String} {item : Ty} {room : Nat} {sources : List String} {rooms : List Nat}
  {list : Word}

/-- Frames that agree on all but the given names. -/
def Agree (names : List String) (frame frame' : Frame) : Prop :=
  ∀ name, name ∉ names → frame'.get? name = frame.get? name

namespace Agree

variable {names names' : List String} {frame frame' frame'' : Frame}

theorem trans (h : Agree names frame frame') (h' : Agree names frame' frame'') :
    Agree names frame frame'' := fun name hname => (h' name hname).trans (h name hname)

theorem mono (h : Agree names frame frame') (hsub : names ⊆ names') : Agree names' frame frame' :=
  fun name hname => h name fun hmem => hname (hsub hmem)

theorem get (h : Agree names frame frame') (hword : frame.get? name = some word)
    (hname : name ∉ names) : frame'.get? name = some word :=
  (h name hname).trans hword

end Agree

/-- Locals that hold some words. -/
def Binds (known : String → Option Word) (frame : Frame) : Prop :=
  ∀ name word, known name = some word → frame.get? name = some word

namespace Binds

variable {known : String → Option Word} {names : List String} {frame frame' : Frame}

theorem cons (h : Binds known frame) (hword : frame.get? name = some word) :
    Binds (fun other => if other = name then some word else known other) frame := by
  intro other found hfound
  dsimp only at hfound
  split at hfound
  · next hother => rw [hother, hword, hfound]
  · exact h other found hfound

theorem agree (h : Binds known frame) (hagree : Agree names frame frame') :
    Binds (fun other => if other ∈ names then none else known other) frame' := by
  intro other found hfound
  dsimp only at hfound
  split at hfound
  · cases hfound
  · next hother => exact (hagree other hother).trans (h other found hfound)

end Binds

namespace Upholds

variable {setting : Setting} {fuel : Nat} {owner : String} {before rest : Code}
  {blocks : Blocks} {post : Post} {m : Machine} {locals : Frame} {stack : List Word} {first : Word}

theorem get (hname : locals.get? name = some word)
    (h : Upholds setting fuel owner (before ++ [.localGet name]) rest blocks
      ⟨m, locals, word :: stack⟩ post) :
    Upholds setting fuel owner before (.localGet name :: rest) blocks ⟨m, locals, stack⟩ post :=
  push (.inr ⟨name, rfl, hname⟩) h

theorem set {value : Word}
    (h : ∀ frame : Frame, frame.get? name = some value → Agree [name] locals frame →
      Upholds setting fuel owner (before ++ [.localSet name]) rest blocks ⟨m, frame, stack⟩ post) :
    Upholds setting fuel owner before (.localSet name :: rest) blocks
      ⟨m, locals, value :: stack⟩ post := by
  refine localSet fun frame hframe => h frame ?_ fun other hother => ?_
  · rw [Frame.get?_of_set? hframe, if_pos rfl]
  · rw [Frame.get?_of_set? hframe, if_neg (by simpa using hother)]

theorem bind {value : Word} {known : String → Option Word} (hb : Binds known locals)
    (h : ∀ frame, Binds (fun other => if other = name then some value
        else if other ∈ [name] then none else known other) frame →
      Upholds setting fuel owner (before ++ [.localSet name]) rest blocks ⟨m, frame, stack⟩ post) :
    Upholds setting fuel owner before (.localSet name :: rest) blocks
      ⟨m, locals, value :: stack⟩ post :=
  set fun frame hframe hagree => h frame ((hb.agree hagree).cons hframe)

theorem seq {first second : Code} {mid : Blocks → State → Prop} {s : State}
    (hfirst : Upholds setting fuel owner before first blocks s { next := mid })
    (hsecond : ∀ blocks' t, blocks.Grow blocks' → mid blocks' t →
      Upholds setting fuel owner (before ++ first) second blocks' t post) :
    Upholds setting fuel owner before (first ++ second) blocks s post :=
  append (hfirst.imp_next fun _ _ _ h => h) hsecond

section Sizing

variable {helper : Helper} (hhelper : helper ∈ Event.sizing) (howner : owner = helper.name)
  {R : Nat → Nat → Prop} {offset : UInt32} {result filled right left : Word} {total : Nat}

include hhelper howner

theorem sum (h : ∀ value : Word, value.toAddress = left.toAddress + right.toAddress →
      Upholds setting fuel owner (before ++ [.add]) rest blocks ⟨m, locals, value :: stack⟩ post) :
    Upholds setting fuel owner before (.add :: rest) blocks ⟨m, locals, right :: left :: stack⟩
      post :=
  addSize hhelper howner fun hlt => h _ (by rw [toAddress_add, Nat.mod_eq_of_lt hlt])

theorem product (h : ∀ value : Word, value.toAddress = left.toAddress * right.toAddress →
      Upholds setting fuel owner (before ++ [.mul]) rest blocks ⟨m, locals, value :: stack⟩ post) :
    Upholds setting fuel owner before (.mul :: rest) blocks ⟨m, locals, right :: left :: stack⟩
      post :=
  mulSize hhelper howner fun hlt => h _ (by rw [toAddress_mul, Nat.mod_eq_of_lt hlt])

theorem copyWords {target count i : String} {src dst n : Word} {ty : Ty}
    {place place' first first' : Nat} {kind kind' : Kind} (hsource : locals.get? source = some src)
    (htarget : locals.get? target = some dst) (hcount : locals.get? count = some n)
    (hi : i ∉ [source, target, count]) (hn : n.toAddress < 2 ^ 31)
    (hfrom : blocks place = some kind) (hsrc : src.toAddress = place + 4 * first)
    (hread : ∀ k, k < n.toAddress → kind.slot? (first + k) = some ty)
    (hto : blocks place' = some kind') (hdst : dst.toAddress = place' + 4 * first')
    (hwrite : ∀ k, k < n.toAddress → kind'.slot? (first' + k) = some ty) :
    Upholds setting fuel owner before (HelperBody.copyWords source target count i) blocks
      ⟨m, locals, stack⟩
      { next := fun blocks' t => blocks' = blocks ∧ t.stack = stack ∧
        Agree [i] locals t.locals } := by
  have hsi : source ≠ i ∧ target ≠ i ∧ count ≠ i := by
    simp only [mem_cons, not_mem_nil, or_false, not_or] at hi
    exact ⟨Ne.symm hi.1, Ne.symm hi.2.1, Ne.symm hi.2.2⟩
  obtain ⟨hsi, hti, hci⟩ := hsi
  have hone : (1 : Word).toAddress = 1 := rfl
  refine const (set fun frame hframe hagree => ?_)
  refine blockLoop
    (fun blocks' t => blocks' = blocks ∧ t.stack = stack ∧ Agree [i] locals t.locals ∧
      ∃ k, t.locals.get? i = some k ∧ k.toAddress ≤ n.toAddress)
    (fun blocks' t => blocks' = blocks ∧ t.stack = stack ∧ Agree [i] locals t.locals)
    ?_ (fun _ => ⟨rfl, rfl, hagree, 0, hframe, Nat.zero_le _⟩) fun _ _ _ ht => nil fun _ => ht
  rintro blocks' ⟨m', frame', stack'⟩ - ⟨rfl, rfl, hagree', k, hk, hle⟩
  have hother : ∀ {name word}, locals.get? name = some word → name ≠ i →
      frame'.get? name = some word := by
    intro name word hname hne
    rw [hagree' name (by simpa using hne), hname]
  simp only [HelperBody.copyRound, HelperBody.leaveAt, HelperBody.wordAt, HelperBody.increment,
    cons_append, nil_append]
  refine get hk
    (get (hother hcount hci) (numeric fun more hmore => brIf (fun _ _ => ?_) fun hzero => ?_))
  · exact ⟨rfl, .inr ⟨rfl, rfl, rfl, hagree'⟩⟩
  cases hmore
  have hlt : k.toAddress < n.toAddress := by
    rw [ofBool_eq_zero, decide_eq_false_iff_not, ge_iff_le, Int32.not_le,
      lt_iff_toAddress_lt (by omega) hn] at hzero
    exact hzero
  refine get (hother htarget hti) (get hk (const (product hhelper howner fun step hstep =>
    sum hhelper howner fun there hthere => ?_)))
  refine get (hother hsource hsi) (get hk (const (product hhelper howner fun step' hstep' =>
    sum hhelper howner fun here hhere => load fun _ => ?_)))
  rw [toAddress_wordSize] at hstep hstep'
  have hplace : Machine.effective here 0 = place + 4 * (first + k.toAddress) := by
    show here.toAddress + 0 = _
    omega
  have hplace' : Machine.effective there 0 = place' + 4 * (first' + k.toAddress) := by
    show there.toAddress + 0 = _
    omega
  refine store (.inr (by simp [Instr.add])) (fun _ hdescribes => ?_) fun _ => ?_
  · have hpos := setting.heap_pos
    have hinside := (hdescribes.inside place' kind' hto).2.1
    rw [hplace, hplace']
    exact ⟨by omega, hdescribes.store hto (hwrite _ hlt) (hdescribes.load hfrom (hread _ hlt))⟩
  refine get hk (const (sum hhelper howner fun next hnext => set fun frame'' hframe' hagree'' =>
    br fun _ => ?_))
  refine ⟨rfl, .inl ⟨rfl, rfl, rfl, fun name hname => ?_, next, hframe', ?_⟩⟩
  · exact (hagree'' name hname).trans (hagree' name hname)
  · omega

theorem newList (item : Ty) (size : String) {n b : Word} (hsize : locals.get? size = some n)
    (hbound : locals.get? "bound" = some b) (hsizeName : size ∉ ["bytes", "result"])
    (hle : n.toAddress ≤ b.toAddress) :
    Upholds setting fuel owner before (HelperBody.newList size) blocks ⟨m, locals, stack⟩
      { next := fun blocks' t => t.stack = stack ∧ Agree ["bytes", "result"] locals t.locals ∧
          ∃ list : Word, t.locals.get? "result" = some list ∧
            blocks' list.toAddress = some (.list item b.toAddress) } := by
  have hthree : (Word.ofUInt32 (Block.headerSize / wordSize)).toAddress = 3 := toAddress_ofUInt32 _
  simp only [HelperBody.newList, HelperBody.listBytes, append_assoc, cons_append, nil_append]
  refine get hbound (const (sum hhelper howner fun places hplaces => const
    (product hhelper howner fun bytes hbytes => set fun frame hframe hagree => ?_)))
  rw [hthree] at hplaces
  rw [toAddress_wordSize, hplaces] at hbytes
  refine seq (bump (.inr ⟨"bytes", rfl, hframe⟩)) ?_
  rintro blocks' ⟨m', frame', stack'⟩ - ⟨rfl, rfl, list, rfl, hspare⟩
  refine set fun frame'' hframe' hagree' => ?_
  have hother : ∀ {name word}, locals.get? name = some word → name ∉ ["bytes", "result"] →
      frame''.get? name = some word := by
    intro name word hname hne
    simp only [mem_cons, not_mem_nil, or_false, not_or] at hne
    rw [hagree' name (by simpa using hne.2), hagree name (by simpa using hne.1), hname]
  have hspare' : Spare setting blocks' m' list (4 * (Kind.list item b.toAddress).size) := by
    rw [Kind.size, Nat.mul_comm, Nat.add_comm, ← hbytes]
    exact hspare
  refine (storeHeader hframe' (.inl rfl) (.inr ⟨size, rfl, hother hsize hsizeName⟩)
    (.inr ⟨_, rfl, hother hbound (by decide)⟩) hspare' rfl ?_).imp_next ?_
  · intro memory hn hb
    rw [Kind.Headed, hn, hb]
    exact ⟨hle, rfl⟩
  · rintro blocks'' t - ⟨hlocals, hstack, rfl⟩
    refine ⟨hstack, fun name hname => ?_, list, hlocals ▸ hframe', if_pos rfl⟩
    simp only [mem_cons, not_mem_nil, or_false, not_or] at hname
    rw [hlocals, hagree' name (by simpa using hname.2), hagree name (by simpa using hname.1)]

def joinLocals : List String :=
  ["size", "bound", "bytes", "result", "filled", "src", "dst", "count", "i"]

/-- A local that holds a list with the given room. -/
def HasList (blocks : Blocks) (item : Ty) (locals : Frame) (source : String) (room : Nat) : Prop :=
  source ∉ joinLocals ∧ ∃ list : Word, locals.get? source = some list ∧
    blocks list.toAddress = some (.list item room)

/-- A local that is none or holds a list with the given room. -/
def MayHaveList (blocks : Blocks) (item : Ty) (locals : Frame) (source : String) (room : Nat) :
    Prop :=
  source ∉ joinLocals ∧ ∃ list : Word, locals.get? source = some list ∧
    (list = 0 ∨ blocks list.toAddress = some (.list item room))

omit hhelper howner in
theorem HasList.mayHaveList (h : HasList blocks item locals source room) :
    MayHaveList blocks item locals source room :=
  ⟨h.1, h.2.imp fun _ hlist => ⟨hlist.1, .inr hlist.2⟩⟩

omit hhelper howner in
theorem HasList.mono {frame : Frame} {blocks' : Blocks} {names : List String}
    (h : HasList blocks item locals source room) (hagree : Agree names locals frame)
    (hnames : names ⊆ joinLocals) (hgrow : blocks.Grow blocks') :
    HasList blocks' item frame source room :=
  ⟨h.1, h.2.imp fun _ hlist =>
    ⟨hagree.get hlist.1 fun hmem => h.1 (hnames hmem), hgrow _ _ hlist.2⟩⟩

theorem sumParts (hadd : ∀ a b c d, R a b → R c d → R (a + c) (b + d))
    (hpart : ∀ place room, blocks place = some (.list item room) → Describes setting blocks m →
      R (m.memory.word (place + offset.toNat)).toAddress room)
    (hsources : List.Forall₂ (MayHaveList blocks item locals) sources rooms) {base : Nat}
    (hbase : R first.toAddress base) : Upholds setting fuel owner before
      (sources.flatMap fun source => [.localGet source, .load offset, .add]) blocks
      ⟨m, locals, first :: stack⟩
      { next := fun blocks' t => blocks' = blocks ∧ t.locals = locals ∧
          (∃ total : Word, t.stack = total :: stack ∧ R total.toAddress (base + rooms.sum)) ∧
          List.Forall₂ (HasList blocks item locals) sources rooms } := by
  induction hsources generalizing before first base with
  | nil => exact nil fun _ => ⟨rfl, rfl, ⟨first, rfl, hbase⟩, .nil⟩
  | @cons source room sources rooms hsource _ ih =>
    obtain ⟨hname, list, hlist, hroom⟩ := hsource
    simp only [flatMap_cons, cons_append, nil_append]
    refine assume fun hdescribes =>
      get hlist (load fun hne => sum hhelper howner fun total htotal => ?_)
    have hlist0 : list ≠ 0 := hne (by simp [Instr.constU])
    have hword := hpart _ _ (hroom.resolve_left hlist0) hdescribes
    have hnext : R total.toAddress (base + room) := htotal ▸ hadd _ _ _ _ hbase hword
    refine (ih hnext).imp_next ?_
    rintro blocks' t - ⟨rfl, hlocals, ⟨total', hstack, htotal'⟩, hothers⟩
    refine ⟨rfl, hlocals, ⟨total', hstack, ?_⟩, .cons ⟨hname, list, hlist, ?_⟩ hothers⟩
    · rw [sum_cons, ← Nat.add_assoc]
      exact htotal'
    · exact hroom.resolve_left hlist0

theorem sumHeaders {total : String} (hzero : R 0 0)
    (hadd : ∀ a b c d, R a b → R c d → R (a + c) (b + d))
    (hpart : ∀ place room, blocks place = some (.list item room) → Describes setting blocks m →
      R (m.memory.word (place + offset.toNat)).toAddress room)
    (hsources : List.Forall₂ (MayHaveList blocks item locals) sources rooms) :
    Upholds setting fuel owner before (HelperBody.sumHeaders sources offset total) blocks
      ⟨m, locals, stack⟩
      { next := fun blocks' t => blocks' = blocks ∧ t.stack = stack ∧ Agree [total] locals
          t.locals ∧ (∃ sum : Word, t.locals.get? total = some sum ∧ R sum.toAddress rooms.sum) ∧
          List.Forall₂ (HasList blocks item locals) sources rooms } := by
  simp only [HelperBody.sumHeaders, cons_append, nil_append]
  refine const (seq (sumParts hhelper howner hadd hpart hsources hzero) ?_)
  rintro blocks' ⟨m', frame, stack'⟩ - ⟨rfl, rfl, ⟨sum, rfl, hsum⟩, hothers⟩
  refine set fun frame' hframe hagree => nil fun _ => ⟨rfl, rfl, hagree, ⟨sum, hframe, ?_⟩, hothers⟩
  rwa [Nat.zero_add] at hsum

theorem appendElements (hname : source ∉ joinLocals) (hlist : locals.get? source = some list)
    (hroom : blocks list.toAddress = some (.list item room))
    (hresult : locals.get? "result" = some result)
    (htotal : blocks result.toAddress = some (.list item total))
    (hfilled : locals.get? "filled" = some filled) (hfits : filled.toAddress + room ≤ total) :
    Upholds setting fuel owner before (HelperBody.appendElements source) blocks ⟨m, locals, stack⟩
      { next := fun blocks' t => blocks' = blocks ∧ t.stack = stack ∧
          Agree ["filled", "src", "dst", "count", "i"] locals t.locals ∧
          ∃ filled' : Word, t.locals.get? "filled" = some filled' ∧
            filled'.toAddress ≤ filled.toAddress + room } := by
  have htwelve := toAddress_headerSize
  have hsource : ∀ names : List String, names ⊆ joinLocals → source ∉ names :=
    fun names hsub hmem => hname (hsub hmem)
  refine assume fun hdescribes => ?_
  have hcount : (m.memory.word (Machine.effective list Block.sizeOffset)).toAddress ≤ room :=
    (hdescribes.filled _ _ hroom).headed.1
  have hbound := (hdescribes.inside _ _ hroom).2.2
  have hhead := Describes.head_lt m
  rw [Kind.size] at hbound
  dsimp only at hbound
  simp only [HelperBody.appendElements, HelperBody.addressOf, cons_append, nil_append]
  refine get hlist (const (sum hhelper howner fun src hsrc => set fun frame₁ hframe₁ hagree₁ => ?_))
  refine get (hagree₁.get hresult (by decide)) (const (sum hhelper howner fun start hstart =>
    get (hagree₁.get hfilled (by decide)) (const (product hhelper howner fun step hstep =>
      sum hhelper howner fun dst hdst => set fun frame₂ hframe₂ hagree₂ => ?_))))
  have hsame₂ : Agree ["src", "dst", "count"] locals frame₂ :=
    (hagree₁.mono (by decide)).trans (hagree₂.mono (by decide))
  refine get (hsame₂.get hlist (hsource _ (by decide))) (load fun _ =>
    set fun frame₃ hframe₃ hagree₃ => ?_)
  have hsame₃ : Agree ["src", "dst", "count"] locals frame₃ :=
    hsame₂.trans (hagree₃.mono (by decide))
  rw [toAddress_wordSize] at hstep
  have hsrc' : src.toAddress = list.toAddress + 4 * 3 := by omega
  have hdst' : dst.toAddress = result.toAddress + 4 * (3 + filled.toAddress) := by omega
  refine seq (copyWords hhelper howner (hagree₃.get (hagree₂.get hframe₁ (by decide)) (by decide))
    (hagree₃.get hframe₂ (by decide)) hframe₃ (by decide) (by omega) hroom hsrc'
    (fun k hk => if_pos ⟨by omega, by omega⟩) htotal hdst'
    (fun k hk => if_pos ⟨by omega, by omega⟩)) ?_
  rintro blocks' ⟨m', frame₄, stack'⟩ - ⟨rfl, rfl, hagree₄⟩
  refine get (hagree₄.get (hsame₃.get hfilled (by decide)) (by decide)) (get
    (hagree₄.get hframe₃ (by decide)) (sum hhelper howner fun filled' hfilled' =>
      set fun frame₅ hframe₅ hagree₅ => nil fun _ => ⟨rfl, rfl, ?_, filled', hframe₅, by omega⟩))
  exact ((hsame₃.mono (by decide)).trans (hagree₄.mono (by decide))).trans
    (hagree₅.mono (by decide))

theorem appendAll (hsources : List.Forall₂ (HasList blocks item locals) sources rooms)
    (hresult : locals.get? "result" = some result)
    (htotal : blocks result.toAddress = some (.list item total))
    (hfilled : locals.get? "filled" = some filled) (hfits : filled.toAddress + rooms.sum ≤ total) :
    Upholds setting fuel owner before (sources.flatMap HelperBody.appendElements) blocks
      ⟨m, locals, stack⟩
      { next := fun blocks' t => blocks' = blocks ∧ t.stack = stack ∧
          t.locals.get? "result" = some result } := by
  induction sources generalizing before locals filled m rooms with
  | nil => exact nil fun _ => ⟨rfl, rfl, hresult⟩
  | cons source sources ih =>
    cases hsources with
    | @cons _ room _ rooms hsource hsources =>
      rw [sum_cons] at hfits
      obtain ⟨hname, list, hlist, hroom⟩ := hsource
      rw [flatMap_cons]
      refine seq (appendElements hhelper howner hname hlist hroom hresult htotal hfilled (by omega))
        ?_
      rintro blocks' ⟨m', frame, stack'⟩ - ⟨rfl, rfl, hagree, filled', hfilled', hle⟩
      exact ih (hsources.imp fun _ _ h => h.mono hagree (by decide) (.refl _))
        (hagree.get hresult (by decide)) hfilled' (by omega)

theorem listJoin (hsources : List.Forall₂ (MayHaveList blocks item locals) sources rooms) :
    Upholds setting fuel owner before (HelperBody.listJoin helper sources).body blocks
      ⟨m, locals, stack⟩
        (body fun blocks' word => IsValue setting.env blocks' (.list item) word) := by
  simp only [HelperBody.listJoin, append_assoc, cons_append, nil_append]
  refine seq (sumHeaders hhelper howner (R := (· ≤ ·)) (Nat.le_refl 0)
    (fun _ _ _ _ => Nat.add_le_add)
    (fun place room hat hdescribes => (hdescribes.filled place _ hat).headed.1) hsources) ?_
  rintro blocks' ⟨m₁, frame₁, stack'⟩ - ⟨rfl, rfl, hagree₁, ⟨size, hsize, hle⟩, hlists⟩
  have hlists₁ : List.Forall₂ (HasList blocks' item frame₁) sources rooms :=
    hlists.imp fun _ _ h => h.mono hagree₁ (by decide) (.refl _)
  refine seq (sumHeaders hhelper howner (R := (· = ·)) rfl (fun _ _ _ _ h h' => h ▸ h' ▸ rfl)
    (fun place room hat hdescribes => (hdescribes.filled place _ hat).headed.2)
    (hlists₁.imp fun _ _ => HasList.mayHaveList)) ?_
  rintro blocks₂ ⟨m₂, frame₂, stack'⟩ - ⟨rfl, rfl, hagree₂, ⟨bound, hbound, heq⟩, -⟩
  refine seq (newList hhelper howner item "size" (hagree₂.get hsize (by decide)) hbound (by decide)
    (heq ▸ hle)) ?_
  rintro blocks₃ ⟨m₃, frame₃, stack'⟩ hgrow ⟨rfl, hagree₃, list, hlist, hat⟩
  refine const (set fun frame₄ hframe₄ hagree₄ => ?_)
  have hlists₄ : List.Forall₂ (HasList blocks₃ item frame₄) sources rooms := by
    refine hlists₁.imp fun _ _ h => ?_
    exact ((h.mono hagree₂ (by decide) (.refl _)).mono hagree₃ (by decide) hgrow).mono hagree₄
      (by decide) (.refl _)
  refine seq (appendAll hhelper howner hlists₄ (hagree₄.get hlist (by decide)) hat hframe₄ ?_) ?_
  · show 0 + rooms.sum ≤ bound.toAddress
    rw [Nat.zero_add, heq]
  · rintro blocks₅ ⟨m₅, frame₅, stack'⟩ - ⟨rfl, rfl, hresult⟩
    refine get hresult (nil fun _ word words hstack => ?_)
    cases hstack
    exact .inr ⟨_, hat⟩

theorem listSlice {slack : UInt32} {start stop : Word} (hlist : locals.get? "list" = some list)
    (hstart : locals.get? "start" = some start) (hstop : locals.get? "end" = some stop)
    (hat : blocks list.toAddress = some (.list item room)) (hle : start.toAddress ≤ stop.toAddress)
    (hroom : stop.toAddress ≤ room) :
    Upholds setting fuel owner before (HelperBody.listSlice slack).body blocks
      ⟨m, locals, stack⟩
        (body fun blocks' word => IsValue setting.env blocks' (.list item) word) := by
  have htwelve := toAddress_headerSize
  simp only [HelperBody.listSlice, append_assoc, cons_append, nil_append]
  refine assume fun hdescribes => ?_
  have hbound := (hdescribes.inside _ _ hat).2.2
  have hhead := Describes.head_lt m
  rw [Kind.size] at hbound
  dsimp only at hbound
  have hb : Binds locals.get? locals := fun _ _ h => h
  refine get hstop (get hstart (numeric fun count hcount => bind hb fun frame₁ hb =>
    get (hb _ _ rfl) (const (numeric fun negative _ => cond (fun blocks' t => blocks' = blocks ∧
      t.stack = stack ∧ Agree ["count"] frame₁ t.locals ∧ ∃ n : Word,
        t.locals.get? "count" = some n ∧ n.toAddress + start.toAddress ≤ room) ?_ ?_ ?_))))
  · intro _
    refine const (set fun frame₂ hframe₂ hagree₂ => nil fun _ =>
      ⟨rfl, rfl, hagree₂, 0, hframe₂, ?_⟩)
    show 0 + start.toAddress ≤ room
    omega
  · intro _
    cases hcount
    refine nil fun _ => ⟨rfl, rfl, fun _ _ => rfl, _, hb _ _ rfl, ?_⟩
    rw [toAddress_sub hle]
    omega
  rintro blocks' ⟨m₂, frame₂, stack'⟩ - ⟨rfl, rfl, hagree₂, n, hn, hfits⟩
  replace hb : Binds _ frame₂ := (hb.agree hagree₂).cons hn
  refine get hn (const (sum hhelper howner fun bound hboundEq => bind hb fun _ hb => ?_))
  refine seq (newList hhelper howner item "count" (hb _ _ rfl) (hb _ _ rfl) (by decide) (by omega))
    ?_
  rintro blocks₄ ⟨m₄, frame₄, stack'⟩ hgrow ⟨rfl, hagree₄, result, hresult, hnew⟩
  replace hb : Binds _ frame₄ := (hb.agree hagree₄).cons hresult
  simp only [HelperBody.addressOf, cons_append, nil_append]
  refine get (hb _ _ hlist) (const (sum hhelper howner fun first hfirst =>
    get (hb _ _ hstart) (const (product hhelper howner fun step hstep =>
      sum hhelper howner fun src hsrc => bind hb fun _ hb => ?_))))
  refine get (hb _ _ rfl) (const (sum hhelper howner fun dst hdst => bind hb fun _ hb => ?_))
  rw [toAddress_wordSize] at hstep
  have hsrc' : src.toAddress = list.toAddress + 4 * (3 + start.toAddress) := by omega
  have hdst' : dst.toAddress = result.toAddress + 4 * 3 := by omega
  refine seq (copyWords hhelper howner (hb _ _ rfl) (hb _ _ rfl) (hb _ _ rfl) (by decide)
    (by omega) (hgrow _ _ hat) hsrc' (fun k hk => if_pos ⟨by omega, by omega⟩) hnew hdst'
    (fun k hk => if_pos ⟨by omega, by omega⟩)) ?_
  rintro blocks₇ ⟨m₇, frame₇, stack'⟩ - ⟨rfl, rfl, hagree₇⟩
  refine get (hb.agree hagree₇ _ _ rfl) (nil fun _ word words hstack => ?_)
  cases hstack
  exact .inr ⟨_, hnew⟩

end Sizing

def IsElement (blocks : Blocks) (item : Ty) (word : Word) : Prop :=
  ∃ place room i, blocks place = some (.list item room) ∧ i < room ∧
    word.toAddress = place + 4 * (3 + i)

theorem host₂ {intrinsic : Intrinsic} {second : Word} (harity : intrinsic.arity = 2)
    (hrest : ∀ m' word, (m.host intrinsic [first, second]).1 = .ok word →
      Upholds setting fuel owner (before ++ [.callIntrinsic intrinsic]) rest blocks
        ⟨m', locals, word :: stack⟩ post) :
    Upholds setting fuel owner before (.callIntrinsic intrinsic :: rest) blocks
      ⟨m, locals, second :: first :: stack⟩ post :=
  host (show [first, second].length = _ from harity.symm) hrest

theorem listElementAddress {index : Word} (hlist : locals.get? "list" = some list)
    (hindex : locals.get? "index" = some index)
    (hvalue : IsValue setting.env blocks (.list item) list) :
    Upholds setting fuel owner before HelperBody.listElementAddress.body blocks ⟨m, locals, stack⟩
      (body fun blocks' word => IsElement blocks' item word) := by
  have htwelve := toAddress_headerSize
  simp only [HelperBody.listElementAddress, HelperBody.indexCheck, cons_append, nil_append]
  refine assume fun hdescribes => get hindex (const (numeric fun low hlow => get hindex (get hlist
    (load fun hne => numeric fun high hhigh => numeric fun outside houtside => ?_))))
  obtain ⟨room, hat⟩ := hvalue.resolve_left (hne (by simp [Instr.constU]))
  have hsize : (m.memory.word (Machine.effective list Block.sizeOffset)).toAddress ≤ room :=
    (hdescribes.filled _ _ hat).headed.1
  have hbound := (hdescribes.inside _ _ hat).2.2
  have hhead := Describes.head_lt m
  rw [Kind.size] at hbound
  dsimp only at hbound
  cases hlow
  cases hhigh
  cases houtside
  refine cond (fun blocks' t => blocks' = blocks ∧ t.locals = locals ∧ t.stack = stack ∧
    index.toAddress < room) (fun _ => get hindex (get hlist (load fun _ => host₂ rfl fun _ _ _ =>
      unreachable))) (fun hzero => nil fun _ => ⟨rfl, rfl, rfl, ?_⟩) ?_
  · have hinside := ofBool_or_eq_zero hzero
    rw [decide_eq_false_iff_not, Int32.not_lt] at hinside
    exact Nat.lt_of_lt_of_le (toAddress_lt_of_inside hinside.1
      (by simpa using hinside.2) (by omega)) hsize
  rintro blocks' ⟨m', frame, stack'⟩ - ⟨rfl, rfl, rfl, hlt⟩
  refine get hlist (const (numeric fun start hstart => get hindex (const (numeric fun step hstep =>
    numeric fun address haddress => nil fun _ word words hstack => ?_))))
  cases hstart
  cases hstep
  cases haddress
  cases hstack
  refine ⟨list.toAddress, room, index.toAddress, hat, hlt, ?_⟩
  rw [toAddress_add, toAddress_add, toAddress_mul, htwelve, toAddress_wordSize]
  omega

end Upholds

end Typed

end TypedWasm
