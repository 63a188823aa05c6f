import LibFirm.Ir.Alias

/-!
# Valid bases

`is_valid_base(n, loop)` decides whether the value `n` stays the same in every iteration of
`loop`: a constant, a value defined outside the loop, a Phi or Conv of valid bases, a projected
Load no candidate store may alias, or the result of a pure call of valid bases. The stack
`visited_base` is never popped, so a node met a second time is not a valid base.
-/

namespace LibFirm.Ir

/-- Check nodes in order, threading the stack, and stop at the first that fails. -/
def allThreaded (f : Nat → List Nat → Except Fault (Bool × List Nat)) :
    List Nat → List Nat → Except Fault (Bool × List Nat)
  | [], visited => .ok (true, visited)
  | n :: ns, visited => do
    let (ok, visited) ← f n visited
    if ok then allThreaded f ns visited else pure (false, visited)

namespace Program

variable (p : Program)

/-- `is_valid_base_` on node `n` of graph `gi` against the candidates `cands`; `fuel` bounds
the depth of the recursion, in which every level pushes a node not on the stack. A pure call
with no callee entity dereferences `NULL`. -/
def isValidBaseAux (gi : Nat) (loop : Option Nat) (cands : List (Option Nat)) :
    Nat → Nat → List Nat → Except Fault (Bool × List Nat)
  | 0, _, _ => .error .diverges
  | fuel + 1, n, visited =>
    let g := p.graph gi
    let outside (b : Nat) : Bool := match loop with
      | some l => !g.blockIsInsideLoop b l
      | none => false
    if n ∈ visited then .ok (false, visited)
    else
      let visited := n :: visited
      if g.isConst n then .ok (true, visited)
      else if outside (g.getBlock n) then .ok (true, visited)
      else if g.isProj n then
        let pre := g.input n 0
        if g.isProj pre then
          let call := g.input pre 0
          if g.op call ≠ .call then .ok (false, visited)
          else if outside (g.getBlock call) then .ok (true, visited)
          else match g.callee call with
            | none => .error .nullDeref
            | some callee =>
              if !p.isPure callee then .ok (false, visited)
              else do
                let (ok, visited) ←
                  allThreaded (isValidBaseAux gi loop cands fuel) ((g.node call).ins.drop 2) visited
                if ok then pure (!g.isAliased cands call, visited) else pure (false, visited)
        else if g.op pre = .load then do
          let ptr := g.input pre 1
          let (ok, visited) ←
            if g.isProj ptr then isValidBaseAux gi loop cands fuel ptr visited else pure (true, visited)
          if ok then pure (!g.isAliased cands pre, visited) else pure (false, visited)
        else .ok (false, visited)
      else if g.isPhi n then do
        let preds := (g.node n).ins
        let (ok, visited) ← allThreaded (isValidBaseAux gi loop cands fuel) preds visited
        let intoLoop := match loop with
          | some l => preds.countP fun pr => g.blockIsInsideLoop (g.getBlock pr) l
          | none => 0
        pure (ok && !decide (1 < intoLoop), visited)
      else if g.op n = .conv then isValidBaseAux gi loop cands fuel (g.input n 0) visited
      else .ok (false, visited)

/-- `is_valid_base`: the walk from an empty stack. -/
def isValidBase (gi n : Nat) (loop : Option Nat) (cands : List (Option Nat)) : Except Fault Bool :=
  (p.isValidBaseAux gi loop cands ((p.graph gi).size + 1) n []).map (·.1)

/-- The addresses the stores of the loop's blocks write. -/
def loopStoreAddrs (gi loop : Nat) : List (Option Nat) :=
  let g := p.graph gi
  (List.range g.size).filterMap fun n =>
    if g.op n = .store ∧ g.blockIsInsideLoop (g.getBlock n) loop then some (g.addrOf (g.input n 1))
    else none

/-- The addresses the Loads of a graph read. -/
def loadAddrs (gi : Nat) : List (Option Nat) :=
  let g := p.graph gi
  (List.range g.size).filterMap fun n => if g.op n = .load then some (g.addrOf (g.input n 1)) else none

/-- The addresses a projected value reads: its Load's, or the Loads of the callee whose result
it projects. -/
def valueReads (gi n : Nat) : List (Option Nat) :=
  let g := p.graph gi
  let pre := g.input n 0
  if g.op pre = .load then [g.addrOf (g.input pre 1)]
  else if g.isProj pre ∧ g.op (g.input pre 0) = .call then
    match (g.callee (g.input pre 0)).bind p.linktimeIrg with
    | some cg => p.loadAddrs cg
    | none => [none]
  else []

/-- Some store of the loop may write what `n` reads: what a valid base excludes, in the spec's
words. -/
def readWrittenInLoop (gi n loop : Nat) : Bool :=
  (p.valueReads gi n).any fun r => (p.loopStoreAddrs gi loop).any (mayAlias r)

end Program

/-- A pure callee 7 that loads the global 8 the loop stores to: `is_aliased` compares the store
with the call's own pointer, so the call's result passes as a valid base. -/
theorem is_valid_base_pure_call_reads_store :
    let main : Graph :=
      ⟨12, fun
        | 0 => ⟨.block, .other, 0, []⟩
        | 1 => ⟨.block, .other, 1, [3, 10]⟩
        | 2 => ⟨.block, .other, 2, [11]⟩
        | 3 => ⟨.jmp, .ctrl, 0, []⟩
        | 4 => ⟨.address 7, .other, 0, []⟩
        | 5 => ⟨.address 8, .other, 0, []⟩
        | 6 => ⟨.call, .other, 1, [0, 4]⟩
        | 7 => ⟨.proj 0, .other, 1, [6]⟩
        | 8 => ⟨.proj 0, .int, 1, [7]⟩
        | 9 => ⟨.store, .other, 2, [0, 5, 8]⟩
        | 10 => ⟨.jmp, .ctrl, 2, []⟩
        | _ => ⟨.proj 1, .ctrl, 1, [6]⟩,
        2, fun _ => 0, fun | 0 => [.block 0, .son 1] | _ => [.block 1, .block 2],
        fun | 0 => some 0 | 1 => some 1 | 2 => some 1 | _ => none,
        fun | 1 => some 0 | 2 => some 1 | _ => none⟩
    let callee : Graph :=
      ⟨4, fun
        | 0 => ⟨.block, .other, 0, []⟩
        | 1 => ⟨.address 8, .other, 0, []⟩
        | 2 => ⟨.load, .other, 0, [0, 1]⟩
        | _ => ⟨.proj 0, .int, 0, [2]⟩,
        1, fun _ => 0, fun _ => [.block 0], fun _ => some 0, fun _ => none⟩
    let p : Program := ⟨fun | 0 => main | _ => callee, 2, fun | 7 => some 1 | _ => none,
      fun e => e == 7⟩
    p.isValidBase 0 8 (some 1) (getAllStores p 0 (main.nLoops + 1) 1 []) = .ok true ∧
      p.readWrittenInLoop 0 8 1 = true := by
  decide

end LibFirm.Ir
