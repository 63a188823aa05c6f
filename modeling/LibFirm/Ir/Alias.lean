import LibFirm.Ir.Graph

/-!
# Stores a loop may execute

`get_all_stores` collects the alias candidates of a loop: the addresses of the stores in the
loop's blocks and, through `walk_call_for_aliases`, in the graphs of its callees; `is_aliased`
asks whether a Load, Store or Call may touch one of them. An address is the entity it is the
address of, or `none` for any other pointer. `get_alias_relation`, not among the sources, is
modelled as the spec uses it: only the addresses of two different entities do not alias.
-/

namespace LibFirm.Ir

/-- `get_alias_relation(...) != ir_no_alias`. -/
def mayAlias : Option Nat → Option Nat → Bool
  | some e₁, some e₂ => e₁ == e₂
  | _, _ => true

/-- The graphs of the program and what the unroller asks of an entity. -/
structure Program where
  graph : Nat → Graph
  nGraphs : Nat
  /-- `get_entity_linktime_irg`. -/
  linktimeIrg : Nat → Option Nat
  /-- `mtp_property_pure` in `get_entity_additional_properties`. -/
  isPure : Nat → Bool

namespace Graph

variable (g : Graph)

/-- The entity a pointer is the address of. -/
def addrOf (ptr : Nat) : Option Nat := match g.op ptr with | .address e => some e | _ => none

/-- `get_Call_callee`. -/
def callee (call : Nat) : Option Nat := g.addrOf (g.input call 1)

/-- `is_aliased`: the pointer of a Load, Store or Call (its input 1) may alias a candidate. -/
def isAliased (cands : List (Option Nat)) (n : Nat) : Bool :=
  match g.op n with
  | .load | .store | .call => cands.any fun c => mayAlias c (g.addrOf (g.input n 1))
  | _ => false

/-- The candidate one parameter of a call without a graph adds: the address of a projected
Load, or the pointer of a Call projected twice. -/
def paramCandidate (param : Nat) : Option (Option Nat) :=
  if g.isProj param then
    let pre := g.input param 0
    if g.op pre = .load then some (g.addrOf (g.input pre 1))
    else if g.isProj pre ∧ g.op (g.input pre 0) = .call then some (g.addrOf (g.input (g.input pre 0) 1))
    else none
  else none

/-- The nodes `irg_walk_blkwise_graph` hands to `walk_graph_aliasing`: the outs of each block. -/
def blockNodes : List Nat :=
  ((List.range g.size).filter fun n => g.op n = .block).flatMap g.outs

end Graph

/-- The callee graphs visited, and the candidates found. -/
structure AliasWalk where
  visited : List Nat
  cands : List (Option Nat)

/-- `walk_call_for_aliases` on call `call` of graph `gi`; `fuel` bounds the depth of callee
graphs, which the visited set keeps below the number of graphs. -/
def walkCallForAliases (p : Program) : Nat → Nat → Nat → AliasWalk → AliasWalk
  | 0, _, _, st => st
  | fuel + 1, gi, call, st =>
    let g := p.graph gi
    match (g.callee call).bind p.linktimeIrg with
    | none =>
      let cands := ((g.node call).ins.drop 2).foldl (fun cs param =>
        match g.paramCandidate param with
        | some a => a :: cs
        | none => cs) st.cands
      { st with cands := cands }
    | some cg =>
      if cg ∈ st.visited then st
      else
        let h := p.graph cg
        let start : AliasWalk := { st with visited := cg :: st.visited }
        h.blockNodes.foldl (fun st n =>
          let st := if h.op n = .call then walkCallForAliases p fuel cg n st else st
          if h.op n = .store then { st with cands := h.addrOf (h.input n 1) :: st.cands } else st)
          start

/-- `check_for_store` for a node of a loop block: a call's callees are walked with a fresh
visited set, and a store inside the loop is a candidate. -/
def checkForStore (p : Program) (gi loop n : Nat) (cands : List (Option Nat)) :
    List (Option Nat) :=
  let g := p.graph gi
  let cands :=
    if g.op n = .call then (walkCallForAliases p (p.nGraphs + 1) gi n ⟨[], cands⟩).cands else cands
  if g.op n = .store ∧ g.blockIsInsideLoop (g.getBlock n) loop then
    g.addrOf (g.input n 1) :: cands
  else cands

/-- `get_all_stores`: each call, the one for a nested loop included, starts from an empty
list. -/
def getAllStores (p : Program) (gi : Nat) : Nat → Nat → List (Option Nat) → List (Option Nat)
  | 0, _, cands => cands
  | fuel + 1, loop, _ =>
    let g := p.graph gi
    (g.loopElements loop).foldl (fun cands el => match el with
      | .son l => getAllStores p gi fuel l cands
      | .block b => (g.outs b).foldl (fun cands n => checkForStore p gi loop n cands) cands) []

end LibFirm.Ir
