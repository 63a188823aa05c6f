import LibFirm.Ir.Graph

/-!
# Editing Firm graphs in place

The Duff unroller rewires the graph in place with `set_irn_in`, `set_irn_n`, `add_edge`,
`remove_edge`, `set_nodes_block`, `exact_copy` and the keep-alive edits of `End`, and keeps the
last copy of a node in its link and the blocks it copies on `unrolled_nodes` and
`unrolled_headers`. Out edges are the static arrays of `irouts`, which no edit updates: each
function reads them from the graph as it stood when they were computed.
-/

namespace LibFirm.Ir

/-- `f` with the value at `a` replaced by `v`. -/
def setAt {β : Type} (f : Nat → β) (a : Nat) (v : β) : Nat → β := fun x => if x = a then v else f x

@[simp] theorem setAt_apply {β : Type} (f : Nat → β) (a x : Nat) (v : β) :
    setAt f a v x = if x = a then v else f x := rfl

namespace Graph

variable (g : Graph)

def setNode (n : Nat) (nd : Node) : Graph := { g with node := setAt g.node n nd }

/-- `set_irn_in`. -/
def setIrnIn (n : Nat) (ins : List Nat) : Graph := g.setNode n { g.node n with ins := ins }

/-- `set_irn_n`. -/
def setIrnN (n i v : Nat) : Graph := g.setIrnIn n ((g.node n).ins.set i v)

/-- `add_edge`: the input appended. -/
def addEdge (n v : Nat) : Graph := g.setIrnIn n ((g.node n).ins ++ [v])

/-- `remove_edge`: input `pos` removed. -/
def removeEdge (n pos : Nat) : Graph := g.setIrnIn n ((g.node n).ins.eraseIdx pos)

/-- `set_nodes_block`. -/
def setNodesBlock (n b : Nat) : Graph := g.setNode n { g.node n with block := b }

/-- `exact_copy`: a new node, the last one, equal to `n`. A copied block keeps the loop of the
original and has no immediate dominator. -/
def exactCopy (n : Nat) : Graph × Nat :=
  ({ g with
      size := g.size + 1
      node := setAt g.node g.size (g.node n)
      blockLoop := setAt g.blockLoop g.size (g.blockLoop n)
      idom := setAt g.idom g.size none }, g.size)

def isEnd (n : Nat) : Bool := g.op n = .anchorEnd

/-- `is_irn_constlike`. -/
def isConstlike (n : Nat) : Bool := match g.op n with | .const _ | .address _ => true | _ => false

/-- The `End` nodes; a graph has one. -/
def ends : List Nat := (List.range g.size).filter g.isEnd

/-- The out edges of `n` as `get_irn_out_ex` gives them: each user with the position of `n`
among its inputs, `-1` for the block of a node, users in node order. -/
def outEdges (n : Nat) : List (Nat × Int) :=
  (List.range g.size).flatMap fun m =>
    (if g.op m ≠ .block ∧ (g.node m).block = n then [(m, -1)] else []) ++
      (((g.node m).ins.enum.filter (·.2 = n)).map fun e => (m, (e.1 : Int)))

/-- The edges an `irg_walk` follows from a node: its block, unless it is one, and its inputs. -/
def walkPreds (n : Nat) : List Nat := (if g.op n = .block then [] else [(g.node n).block]) ++ (g.node n).ins

/-- A depth-first walk from `todo`, one node a step. -/
def walk : Nat → List Nat → List Nat → List Nat
  | 0, _, seen => seen
  | _ + 1, [], seen => seen
  | fuel + 1, n :: todo, seen =>
    if n ∈ seen then walk fuel todo seen else walk fuel (g.walkPreds n ++ todo) (n :: seen)

/-- The nodes `irg_walk_graph` visits: those reachable from `End`. Every edge is followed once,
which bounds the steps of the walk. -/
def live : List Nat :=
  g.walk ((List.range g.size).foldl (fun k m => k + (g.walkPreds m).length) (g.ends.length + 1))
    g.ends []

@[simp] theorem setNode_node (n m : Nat) (nd : Node) :
    (g.setNode n nd).node m = if m = n then nd else g.node m := by
  rfl

@[simp] theorem setNode_size (n : Nat) (nd : Node) : (g.setNode n nd).size = g.size := rfl

end Graph

/-- What the surgery changes: the graph, the node links, and the stacks `unrolled_nodes` and
`unrolled_headers`. -/
structure Surgery where
  graph : Graph
  link : Nat → Option Nat
  unrolledNodes : List Nat
  unrolledHeaders : List Nat

namespace Surgery

variable (s : Surgery)

def edit (f : Graph → Graph) : Surgery := { s with graph := f s.graph }

def setIrnIn (n : Nat) (ins : List Nat) : Surgery := s.edit (·.setIrnIn n ins)

def setIrnN (n i v : Nat) : Surgery := s.edit (·.setIrnN n i v)

def addEdge (n v : Nat) : Surgery := s.edit (·.addEdge n v)

/-- `add_End_keepalive`. -/
def addEndKeepalive (e n : Nat) : Surgery := s.addEdge e n

/-- `remove_End_n`. -/
def removeEndN (e k : Nat) : Surgery := s.edit (·.removeEdge e k)

/-- `remove_keep_alive`: `n` is no longer kept alive. -/
def removeKeepAlive (n : Nat) : Surgery :=
  s.graph.ends.foldl (fun s e => s.setIrnIn e ((s.graph.node e).ins.filter (· ≠ n))) s

/-- `irg_walk_graph(irg, firm_clear_link, NULL, NULL)`: the nodes it visits have no link. -/
def clearLinks : Surgery := { s with link := fun n => if n ∈ s.graph.live then none else s.link n }

@[simp] theorem setIrnIn_graph (n : Nat) (ins : List Nat) :
    (s.setIrnIn n ins).graph = s.graph.setIrnIn n ins := rfl

@[simp] theorem setIrnIn_unrolledNodes (n : Nat) (ins : List Nat) :
    (s.setIrnIn n ins).unrolledNodes = s.unrolledNodes := rfl

@[simp] theorem setIrnIn_unrolledHeaders (n : Nat) (ins : List Nat) :
    (s.setIrnIn n ins).unrolledHeaders = s.unrolledHeaders := rfl

/-- `s'` is `s` with some inputs changed: the stacks, the nodes, and their opcodes, blocks and
modes are those of `s`. -/
def InsEdit (s' : Surgery) : Prop :=
  s'.unrolledNodes = s.unrolledNodes ∧ s'.unrolledHeaders = s.unrolledHeaders ∧
    s'.graph.size = s.graph.size ∧
    ∀ n, (s'.graph.node n).op = (s.graph.node n).op ∧
      (s'.graph.node n).block = (s.graph.node n).block ∧ (s'.graph.node n).mode = (s.graph.node n).mode

theorem insEdit_refl : s.InsEdit s := ⟨rfl, rfl, rfl, fun _ => ⟨rfl, rfl, rfl⟩⟩

theorem InsEdit.trans {s₁ s₂ s₃ : Surgery} (h₁ : s₁.InsEdit s₂) (h₂ : s₂.InsEdit s₃) :
    s₁.InsEdit s₃ :=
  ⟨h₂.1.trans h₁.1, h₂.2.1.trans h₁.2.1, h₂.2.2.1.trans h₁.2.2.1, fun n =>
    ⟨(h₂.2.2.2 n).1.trans (h₁.2.2.2 n).1, (h₂.2.2.2 n).2.1.trans (h₁.2.2.2 n).2.1,
      (h₂.2.2.2 n).2.2.trans (h₁.2.2.2 n).2.2⟩⟩

theorem insEdit_setIrnIn (n : Nat) (ins : List Nat) : s.InsEdit (s.setIrnIn n ins) := by
  refine ⟨rfl, rfl, rfl, fun m => ?_⟩
  by_cases h : m = n <;> simp [Graph.setIrnIn, h]

theorem setIrnIn_ins_of_ne {m n : Nat} (ins : List Nat) (h : m ≠ n) :
    ((s.setIrnIn n ins).graph.node m).ins = (s.graph.node m).ins := by
  simp [Graph.setIrnIn, h]

theorem foldl_setIrnIn (l : List Nat) (ins : Surgery → Nat → List Nat) :
    ∀ s : Surgery, s.InsEdit (l.foldl (fun s e => s.setIrnIn e (ins s e)) s) ∧
      ∀ m, m ∉ l → ((l.foldl (fun s e => s.setIrnIn e (ins s e)) s).graph.node m).ins =
        (s.graph.node m).ins := by
  induction l with
  | nil => exact fun s => ⟨s.insEdit_refl, fun _ _ => rfl⟩
  | cons e l ih =>
    intro s
    obtain ⟨h₁, h₂⟩ := ih (s.setIrnIn e (ins s e))
    refine ⟨(s.insEdit_setIrnIn e _).trans h₁, fun m hm => ?_⟩
    rw [List.foldl_cons, h₂ m (fun h => hm (List.mem_cons_of_mem e h)),
      setIrnIn_ins_of_ne _ _ (fun h => hm (by rw [h]; exact List.mem_cons_self e l))]

theorem insEdit_removeKeepAlive (n : Nat) : s.InsEdit (s.removeKeepAlive n) :=
  (foldl_setIrnIn s.graph.ends _ s).1

theorem removeKeepAlive_ins {m : Nat} (n : Nat) (hm : s.graph.isEnd m = false) :
    ((s.removeKeepAlive n).graph.node m).ins = (s.graph.node m).ins :=
  (foldl_setIrnIn s.graph.ends _ s).2 m fun h => by
    simp only [Graph.ends, List.mem_filter] at h
    rw [hm] at h
    exact Bool.false_ne_true h.2

theorem insEdit_removeEndN (e k : Nat) : s.InsEdit (s.removeEndN e k) :=
  s.insEdit_setIrnIn e _

theorem insEdit_setIrnN (n i v : Nat) : s.InsEdit (s.setIrnN n i v) := s.insEdit_setIrnIn n _

theorem insEdit_addEdge (n v : Nat) : s.InsEdit (s.addEdge n v) := s.insEdit_setIrnIn n _

end Surgery

/-- `g'` keeps the nodes of `g`, each with its opcode, block and mode. -/
structure Graph.Keeps (g g' : Graph) : Prop where
  size_le : g.size ≤ g'.size
  node : ∀ n < g.size, (g'.node n).op = (g.node n).op ∧ (g'.node n).block = (g.node n).block ∧
    (g'.node n).mode = (g.node n).mode

namespace Graph.Keeps

theorem refl (g : Graph) : g.Keeps g := ⟨le_rfl, fun _ _ => ⟨rfl, rfl, rfl⟩⟩

theorem trans {g₁ g₂ g₃ : Graph} (h₁ : g₁.Keeps g₂) (h₂ : g₂.Keeps g₃) : g₁.Keeps g₃ :=
  ⟨h₁.size_le.trans h₂.size_le, fun n hn =>
    have h₁n := h₁.node n hn
    have h₂n := h₂.node n (lt_of_lt_of_le hn h₁.size_le)
    ⟨h₂n.1.trans h₁n.1, h₂n.2.1.trans h₁n.2.1, h₂n.2.2.trans h₁n.2.2⟩⟩

end Graph.Keeps

theorem Surgery.InsEdit.keeps {s s' : Surgery} (h : s.InsEdit s') : s.graph.Keeps s'.graph :=
  ⟨h.2.2.1.ge, fun n _ => h.2.2.2 n⟩

theorem Graph.keeps_exactCopy (g : Graph) (n : Nat) : g.Keeps (g.exactCopy n).1 :=
  ⟨Nat.le_succ _, fun m hm => by simp [exactCopy, Nat.ne_of_lt hm]⟩

theorem Graph.keeps_exactCopy_setNodesBlock (g : Graph) (n b : Nat) :
    g.Keeps ((g.exactCopy n).1.setNodesBlock g.size b) :=
  ⟨Nat.le_succ _, fun m hm => by
    simp [exactCopy, setNodesBlock, Nat.ne_of_lt hm]⟩

namespace Surgery.InsEdit

variable {s s' s'' : Surgery}

theorem op (h : s.InsEdit s') (n : Nat) : s'.graph.op n = s.graph.op n := (h.2.2.2 n).1

theorem getBlock (h : s.InsEdit s') (n : Nat) : s'.graph.getBlock n = s.graph.getBlock n := by
  unfold Graph.getBlock
  rw [h.op, (h.2.2.2 n).2.1]

theorem isPhi (h : s.InsEdit s') (n : Nat) : s'.graph.isPhi n = s.graph.isPhi n := by
  unfold Graph.isPhi
  rw [h.op]

theorem isEnd (h : s.InsEdit s') (n : Nat) : s'.graph.isEnd n = s.graph.isEnd n := by
  unfold Graph.isEnd
  rw [h.op]

theorem mode (h : s.InsEdit s') (n : Nat) : (s'.graph.node n).mode = (s.graph.node n).mode :=
  (h.2.2.2 n).2.2

end Surgery.InsEdit

section Folds

variable {α β ε : Type} {f : β → α → Except ε β}

theorem bind_eq_ok {γ : Type} {x : Except ε α} {k : α → Except ε γ} {c : γ}
    (h : x >>= k = .ok c) : ∃ a, x = .ok a ∧ k a = .ok c := by
  cases x with
  | error e => cases h
  | ok a => exact ⟨a, rfl, h⟩

theorem exists_of_map_eq {γ : Type} {x : Except ε (Option α)} {F : α → γ} {c : γ}
    (h : x.map (Option.map F) = .ok (some c)) : ∃ a, x = .ok (some a) ∧ F a = c := by
  match x, h with
  | .ok (some a), h => exact ⟨a, rfl, Option.some.inj (Except.ok.inj h)⟩

theorem exists_of_map_ok {x : Except ε α} {f : α → β} {b : β} (h : x.map f = .ok b) :
    ∃ a, x = .ok a ∧ f a = b := by
  cases x with
  | error e => cases h
  | ok a => exact ⟨a, rfl, Except.ok.inj h⟩

theorem eq_error_of_map_eq {x : Except ε α} {f : α → β} {e : ε} (h : x.map f = .error e) :
    x = .error e := by
  cases x with
  | error e' => exact congrArg Except.error (Except.error.inj h)
  | ok a => cases h

theorem map_comp_of_map_eq {γ : Type} {x : Except ε α} {f : α → β} {g : β → γ} {b : β}
    (h : x.map f = .ok b) : x.map (g ∘ f) = .ok (g b) := by
  cases x with
  | error e => cases h
  | ok a => cases Except.ok.inj h; rfl

theorem foldlM_invariant (P : β → Prop) :
    ∀ (l : List α), (∀ b, ∀ a ∈ l, ∀ b', f b a = .ok b' → P b → P b') →
      ∀ {b b' : β}, l.foldlM f b = .ok b' → P b → P b'
  | [], _, _, _, h, hb => by cases h; exact hb
  | a :: l, hf, b, b', h, hb => by
    rw [List.foldlM_cons] at h
    cases hfa : f b a with
    | error e => rw [hfa] at h; cases h
    | ok b₁ =>
      rw [hfa] at h
      exact foldlM_invariant P l (fun b a ha => hf b a (List.mem_cons_of_mem _ ha)) h
        (hf b a (List.mem_cons_self a l) b₁ hfa hb)

theorem foldlM_reaches {P Q : β → Prop} {x : α} {l : List α}
    (hP : ∀ b, ∀ a ∈ l, ∀ b', f b a = .ok b' → P b → P b')
    (hQ : ∀ b, ∀ a ∈ l, ∀ b', f b a = .ok b' → P b → Q b → Q b')
    (hx : ∀ b b', f b x = .ok b' → P b → Q b')
    (hmem : x ∈ l) {b b' : β} (h : l.foldlM f b = .ok b') (hb : P b) : Q b' := by
  obtain ⟨l₁, l₂, rfl⟩ := List.append_of_mem hmem
  rw [List.foldlM_append] at h
  cases h₁ : l₁.foldlM f b with
  | error e => rw [h₁] at h; cases h
  | ok b₁ =>
    rw [h₁] at h
    change (x :: l₂).foldlM f b₁ = .ok b' at h
    rw [List.foldlM_cons] at h
    cases h₂ : f b₁ x with
    | error e => rw [h₂] at h; cases h
    | ok b₂ =>
      rw [h₂] at h
      have hb₁ : P b₁ :=
        foldlM_invariant P l₁ (fun b a ha => hP b a (List.mem_append_left _ ha)) h₁ hb
      have hl₂ : ∀ a ∈ l₂, a ∈ l₁ ++ x :: l₂ := fun a ha =>
        List.mem_append_right _ (List.mem_cons_of_mem _ ha)
      exact (foldlM_invariant (fun b => P b ∧ Q b) l₂
        (fun b a ha b' h' hb => ⟨hP b a (hl₂ a ha) b' h' hb.1, hQ b a (hl₂ a ha) b' h' hb.1 hb.2⟩)
        h ⟨hP b₁ x (List.mem_append_right _ (List.mem_cons_self x l₂)) b₂ h₂ hb₁,
          hx b₁ b₂ h₂ hb₁⟩).2

/-- A fold whose every step relates the state to the next by a reflexive, transitive relation
relates its start to its end. -/
theorem foldlM_rel (R : β → β → Prop) (hrefl : ∀ b, R b b)
    (htrans : ∀ {b₁ b₂ b₃}, R b₁ b₂ → R b₂ b₃ → R b₁ b₃) {l : List α}
    (hf : ∀ b, ∀ a ∈ l, ∀ b', f b a = .ok b' → R b b') {b b' : β}
    (h : l.foldlM f b = .ok b') : R b b' :=
  foldlM_invariant (R b) l (fun _ a ha _ h' hR => htrans hR (hf _ a ha _ h')) h (hrefl b)

theorem foldl_rel (R : β → β → Prop) (hrefl : ∀ b, R b b)
    (htrans : ∀ {b₁ b₂ b₃}, R b₁ b₂ → R b₂ b₃ → R b₁ b₃) {g : β → α → β} :
    ∀ {l : List α}, (∀ b, ∀ a ∈ l, R b (g b a)) → ∀ b, R b (l.foldl g b)
  | [], _, b => hrefl b
  | a :: l, hg, b => htrans (hg b a (List.mem_cons_self a l))
      (foldl_rel R hrefl htrans (fun b a ha => hg b a (List.mem_cons_of_mem _ ha)) _)

end Folds

section SurgeryFolds

variable {α : Type} {l : List α} {s s' : Surgery}

theorem foldlM_insEdit {f : Surgery → α → Except Fault Surgery}
    (hf : ∀ b, ∀ a ∈ l, ∀ b', f b a = .ok b' → b.InsEdit b') (h : l.foldlM f s = .ok s') :
    s.InsEdit s' :=
  foldlM_rel Surgery.InsEdit Surgery.insEdit_refl Surgery.InsEdit.trans hf h

theorem foldl_insEdit {f : Surgery → α → Surgery} (hf : ∀ b : Surgery, ∀ a ∈ l, b.InsEdit (f b a))
    (s : Surgery) : s.InsEdit (l.foldl f s) :=
  foldl_rel Surgery.InsEdit Surgery.insEdit_refl Surgery.InsEdit.trans hf s

theorem insEdit_of_ite_pure {c : Prop} [Decidable c] {x : Except Fault Surgery}
    (hx : x = .ok s' → s.InsEdit s') (h : (if c then pure s else x) = .ok s') : s.InsEdit s' := by
  split_ifs at h
  · cases Except.ok.inj h; exact s.insEdit_refl
  · exact hx h

theorem foldlM_keeps {f : Surgery → α → Except Fault Surgery}
    (hf : ∀ b, ∀ a ∈ l, ∀ b', f b a = .ok b' → b.graph.Keeps b'.graph)
    (h : l.foldlM f s = .ok s') : s.graph.Keeps s'.graph :=
  foldlM_rel (fun s s' : Surgery => s.graph.Keeps s'.graph) (fun _ => Graph.Keeps.refl _)
    Graph.Keeps.trans hf h

end SurgeryFolds

end LibFirm.Ir
