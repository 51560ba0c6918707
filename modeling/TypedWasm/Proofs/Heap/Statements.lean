import TypedWasm.Proofs.Heap.Delivery

/-!
# Units of one expression statement

The top level of such a unit keeps the word its expression delivers in the scratch local, and
returns it.
-/

namespace TypedWasm

open TypedWasm.Frame List Lower

variable {m : Machine}

def Expr.statement (e : Expr) : Program := { stmts := [.expr e] }

def Expr.run? (config : Config) (e : Expr) : Option (Machine.Effect Word) := do
  let u ← (compile config {} e.statement).toOption
  let m ← (Machine.start? config).toOption
  return m.runMain u

theorem Expr.block_statement {e : Expr} {context : Lowering.Context}
    {progress later : Lowering.Progress}
    {code : Code} : (Lowering.block [.expr e]).run context progress = (.ok code, later) ↔
      ∃ value, (Lowering.expr e).run context progress = (.ok value, later) ∧
        value ++ [.localSet scratchLocal] = code := by
  simp only [Lowering.block, Lowering.stmt, bind_eq_ok_iff, pure_eq_ok_iff]
  constructor
  · rintro ⟨_, _, ⟨value, _, hvalue, rfl, rfl⟩, _, _, ⟨rfl, rfl⟩, rfl, rfl⟩
    exact ⟨value, hvalue, by simp⟩
  · rintro ⟨value, hvalue, rfl⟩
    exact ⟨_, _, ⟨value, _, hvalue, rfl, rfl⟩, _, _, ⟨rfl, rfl⟩, by simp, rfl⟩

variable {config : Config} {env : Environment} {e : Expr} {u : CompiledUnit}

theorem Expr.run?_eq_some (hcompile : compile config {} e.statement = .ok u)
    (hstart : Machine.start? config = .ok m) : e.run? config = some (m.runMain u) := by
  rw [Expr.run?, hcompile, hstart]
  rfl

theorem Expr.statement_lowered (h : compile config env e.statement = .ok u) :
    ∃ context code later, context.config = config ∧
      (Lowering.expr e).run context {} = (.ok code, later) ∧
      u.main = { name := mainName, locals := [scratchLocal] ++ later.tempNames
                 body := code ++ [.localSet scratchLocal] ++ [.localGet scratchLocal]
                 exported := true } := by
  obtain ⟨extended, -, -, hcompiled⟩ := Compiled.of_compile h
  obtain ⟨later, hrun, -⟩ := hcompiled.main
  obtain ⟨start, first, code, second, hstart, hcode, hmain, -⟩ := Lowering.Body.run_eq_ok_iff.1 hrun
  obtain ⟨rfl, rfl⟩ := pure_eq_ok_iff.1 hstart
  obtain ⟨value, hvalue, rfl⟩ := Expr.block_statement.1 hcode
  exact ⟨_, value, second, rfl, hvalue, hmain.symm⟩

theorem Expr.exists_compile (h : ∀ context : Lowering.Context, context.config = config →
      ∃ code later, (Lowering.expr e).run context {} = (.ok code, later)) :
    ∃ u, compile config {} e.statement = .ok u := by
  obtain ⟨value, later, hvalue⟩ := h ((e.statement.context config {}).binding []) rfl
  have htop : (Lowering.topLevel [] [.expr e]).run (e.statement.context config {}) {} = _ :=
    Lowering.Body.run_eq_ok_iff.2 ⟨[], {}, _, later, rfl,
      Expr.block_statement.2 ⟨value, hvalue, rfl⟩, rfl, rfl⟩
  have hlowered := congrArg (fun body : LoweredBody => [body.1]) htop
  exact ⟨_, compile_eq_ok_iff.2 ⟨{}, [_], rfl, rfl, not_mem_nil, hlowered, rfl⟩⟩

namespace Heap

open Exec

/-- **A run of one expression statement.** It returns what the expression delivers, unless it runs
out of fuel or memory. -/
theorem Delivers.runMain {hosted : Bool} {bytes : Nat} {lines : List String}
    {means : Machine → Word → Prop} (hcompile : compile config env e.statement = .ok u)
    (hdelivers : ∀ (context : Lowering.Context) code later, context.config = config →
      (Lowering.expr e).run context {} = (.ok code, later) →
      Delivers hosted code 0 later.temps bytes lines means) {head : Nat}
    (hheap : m.memory.HeapAt head) (hroom : head + bytes ≤ heapEnd) :
    (m.runMain u).1 = .error .outOfFuel ∨
      (∃ trap, (m.runMain u).1 = .error trap ∧ OutOfMemory hosted m.maxPages (head + bytes) trap) ∨
      ∃ word, (m.runMain u).1 = .ok word ∧ (m.runMain u).2.memory.HeapAt (head + bytes) ∧
        (m.runMain u).2.output.toList = m.output.toList ++ lines ∧ means (m.runMain u).2 word := by
  obtain ⟨context, code, later, hconfig, hcode, hmain⟩ := Expr.statement_lowered hcompile
  have hcode := hdelivers context code later hconfig hcode
  obtain ⟨extended, -, -, hcompiled⟩ := Compiled.of_compile hcompile
  have hfound : (m.load u).function? mainName = some u.main := by
    rw [← hcompiled.main_name]
    refine hcompiled.function?_load nodup_nil ?_ (by rw [hcompiled.main_name]; decide) m
    exact mem_append_left _ (mem_append_right _ (mem_singleton_self _))
  have hcall : m.runMain u = Exec.call exec (m.load u) u.main [] := by
    rw [Machine.runMain, Machine.call_eq, hfound]
  have hlocal : ∀ name ∈ [scratchLocal] ++ later.tempNames,
      ((Frame.ofCall u.main []).get? name).isSome := by
    intro name hname
    refine get?_ofCall_isSome (by rw [hmain]; rfl) (mem_append_right _ ?_)
    rw [hmain]
    exact hname
  have htemps : ∀ index < later.temps,
      ((Frame.ofCall u.main []).get? (Lowering.tempName index)).isSome := by
    intro index hindex
    refine hlocal _ (mem_append_right _ ?_)
    exact mem_map.2 ⟨index, mem_range.2 hindex, rfl⟩
  have hscratch := hlocal scratchLocal (mem_append_left _ (mem_singleton_self _))
  have hrun : Reaches (OutOfMemory hosted m.maxPages (head + bytes))
      (fun t => ∃ word, t.stack = [word] ∧ t.machine.memory.HeapAt (head + bytes) ∧
        t.machine.output.toList = m.output.toList ++ lines ∧ means t.machine word)
      (exec u.main.body { machine := m.load u, locals := Frame.ofCall u.main [] }) := by
    have hbody : u.main.body = code ++ [.localSet scratchLocal, .localGet scratchLocal] := by
      rw [hmain, append_assoc]
      rfl
    rw [hbody]
    refine Reaches.append (hcode (m.load u) _ [] head hheap hroom htemps) ?_
    rintro ⟨m₁, frame₁, _⟩ ⟨word, rfl, hmoves, -, hmeans⟩
    obtain ⟨frame₂, hset⟩ := exists_set? (hmoves.there _ hscratch) word
    have hget : frame₂.get? scratchLocal = some word := by
      rw [get?_of_set? hset, if_pos rfl]
    have hstraight : straight [.localSet scratchLocal, .localGet scratchLocal]
        ⟨m₁, frame₁, [word]⟩ =
        some ⟨m₁, frame₂, [word]⟩ := by
      simp only [straight, step, hset, hget, State.push]
    refine .straightLine hstraight fun fuel => ⟨word, rfl, hmoves.heap, hmoves.output, ?_⟩
    exact hmeans _ (.refl _ _ _)
  rw [hcall]
  generalize hresult : exec u.main.body { machine := m.load u, locals := Frame.ofCall u.main [] } =
    result at hrun
  obtain ⟨flow, t⟩ := result
  cases hrun with
  | cut h =>
    obtain rfl : flow = .trap .outOfFuel := h
    left
    simp only [Exec.call, hresult]
  | @excuse trap h hexcused =>
    obtain rfl : flow = .trap trap := h
    refine .inr (.inl ⟨trap, ?_, hexcused⟩)
    simp only [Exec.call, hresult]
  | done h hexpected =>
    cases h
    obtain ⟨word, hstack, hheap', houtput, hmeans⟩ := hexpected
    have heq : Exec.call exec (m.load u) u.main [] = (.ok word, t.machine) := by
      simp only [Exec.call, hresult, hstack]
    rw [heq]
    exact .inr (.inr ⟨word, rfl, hheap', houtput, hmeans⟩)

end Heap

end TypedWasm
