import Mathlib.Logic.Relation
import Mathlib.Logic.Function.Basic
import Mathlib.Data.List.Nodup
import Mathlib.Data.List.Range

/-!
# Loop depths of a PEG graph

`vl_init` gives the nodes of a PEG graph a depth. `vl_compute_depth` walks the operands of a
node depth first and gives a Theta its `get_Theta_depth`, and any other node the maximum depth
of its operands (0 without operands), one less for an Eta. At a Theta it descends into `init`
only; `next` goes to the back of the `todo` list, which `vl_init` works off from the Return on.
The recursion and the loop take a fuel, which a well-formed graph never exhausts.
-/

namespace LibFirm.Peg

/-- The nodes of a PEG graph, as far as the depth analysis tells them apart. -/
inductive Node where
  /-- A Theta with its inputs `init` and `next`, and `get_Theta_depth`. -/
  | theta (init next : Nat) (depth : Int)
  | eta (value cond : Nat)
  /-- A Return, `is_Return`. -/
  | ret (ins : List Nat)
  | other (ins : List Nat)
  deriving DecidableEq, Repr

/-- The inputs `get_irn_n` reads, in order. -/
def Node.ins : Node → List Nat
  | .theta init next _ => [init, next]
  | .eta value cond => [value, cond]
  | .ret ins => ins
  | .other ins => ins

def Node.isEta : Node → Bool
  | .eta _ _ => true
  | _ => false

/-- A graph of `size` nodes whose inputs are nodes of the graph. -/
structure Graph where
  size : Nat
  node : Nat → Node
  /-- `get_Block_cfgpred(get_irg_end_block(irg), 0)`. -/
  endPred : Nat
  endPred_lt : endPred < size
  ins_lt : ∀ n < size, ∀ m ∈ (node n).ins, m < size

inductive Fault where
  | assertion
  | diverges
  deriving DecidableEq, Repr

structure State where
  /-- `irn_visited`. -/
  visited : Nat → Bool
  /-- The node map: the depth of the `vl_node` of a node, if it has one. -/
  depth : Nat → Option Int
  todo : List Nat

/-- `mark_irn_visited`. -/
def State.mark (s : State) (n : Nat) : State := { s with visited := Function.update s.visited n true }

/-- One round of the second operand loop of `vl_compute_depth` on `irn`, at operand `p.2` of
position `p.1`: the operand must have a `vl_node`, and the depth of `irn` becomes the operand's
at position 0 and the maximum of both after. -/
def depsStep (irn : Nat) (depth : Nat → Option Int) (p : Nat × Nat) :
    Except Fault (Nat → Option Int) :=
  match depth p.2 with
  | none => .error .assertion
  | some d =>
    .ok (Function.update depth irn (some (if p.1 = 0 then d else max ((depth irn).getD 0) d)))

/-- `vl_compute_depth` on a node `irn` that is not a Theta, once its operands are done: depth 0,
then the operand loop, then one less for an Eta, which must not drop below 0. -/
def operandDepth (irn : Nat) (isEta : Bool) (ins : List Nat) (depth : Nat → Option Int) :
    Except Fault (Nat → Option Int) := do
  let depth ← ins.enum.foldlM (depsStep irn) (Function.update depth irn (some 0))
  if isEta then
    let d := (depth irn).getD 0 - 1
    if d < 0 then .error .assertion else .ok (Function.update depth irn (some d))
  else .ok depth

namespace Graph

variable (g : Graph)

/-- `vl_compute_depth`, with a fuel for the depth of the recursion. -/
def computeDepth : Nat → State → Nat → Except Fault State
  | 0, _, _ => .error .diverges
  | fuel + 1, s, irn =>
    if s.visited irn then .ok s
    else
      let s := s.mark irn
      match g.node irn with
      | .theta init next depth => do
        let s ← computeDepth fuel s init
        .ok { s with todo := s.todo ++ [next], depth := Function.update s.depth irn (some depth) }
      | nd => do
        let s ← nd.ins.foldlM (computeDepth fuel) s
        let depth ← operandDepth irn nd.isEta nd.ins s.depth
        .ok { s with depth := depth }

/-- The loop of `vl_init` over the `todo` list, with a fuel for the number of rounds. -/
def runTodo : Nat → State → Except Fault State
  | 0, _ => .error .diverges
  | fuel + 1, s =>
    match s.todo with
    | [] => .ok s
    | next :: todo => do
      let s ← g.computeDepth (g.size + 1) { s with todo := todo } next
      runTodo fuel s

/-- `vl_init`: the node map it returns. -/
def vlInit : Except Fault (Nat → Option Int) :=
  match g.node g.endPred with
  | .ret _ => (g.runTodo (g.size + 2) ⟨fun _ => false, fun _ => none, [g.endPred]⟩).map State.depth
  | _ => .error .assertion

def Operand (n m : Nat) : Prop := m ∈ (g.node n).ins

/-- `m` is an input of `n` other than the `next` input of a Theta: the inputs
`vl_compute_depth` descends into. -/
def Dep (n m : Nat) : Prop :=
  match g.node n with
  | .theta init _ _ => m = init
  | nd => m ∈ nd.ins

/-- `n` is reachable from the Return over inputs. -/
def Reach (n : Nat) : Prop := Relation.ReflTransGen g.Operand g.endPred n

end Graph

/-- The maximum of the depths of the operands, 0 if there are none. -/
def maxDepth : List Int → Int
  | [] => 0
  | d :: ds => ds.foldl max d

namespace Graph

variable (g : Graph)

/-- The depth the kind of node `n` defines from the depths `D` of its operands. -/
def kindDepth (D : Nat → Int) (n : Nat) : Int :=
  match g.node n with
  | .theta _ _ depth => depth
  | nd => maxDepth (nd.ins.map D) - if nd.isEta then 1 else 0

/-- Depths that are those the kinds define at every node reachable from the Return. -/
def Depths (D : Nat → Int) : Prop := ∀ n, g.Reach n → D n = g.kindDepth D n

/-- A well-formed PEG graph. -/
structure WellFormed : Prop where
  endIsReturn : ∃ ins, g.node g.endPred = .ret ins
  /-- Every cycle passes through the `next` input of a Theta. -/
  acyclic : ∀ n, ¬ Relation.TransGen g.Dep n n
  etaDepth : ∃ D, g.Depths D ∧
    ∀ n value cond, g.Reach n → g.node n = .eta value cond → 1 ≤ D value ∧ 1 ≤ D cond

section Facts

variable {g}

theorem Reach.operand {n m : Nat} (h : g.Reach n) (hm : m ∈ (g.node n).ins) : g.Reach m :=
  Relation.ReflTransGen.tail h hm

theorem Reach.lt {n : Nat} (h : g.Reach n) : n < g.size := by
  induction h with
  | refl => exact g.endPred_lt
  | tail _ hm ih => exact g.ins_lt _ ih _ hm

theorem Dep.operand {n m : Nat} (h : g.Dep n m) : m ∈ (g.node n).ins := by
  unfold Dep at h
  cases hn : g.node n <;> simp_all [Node.ins]

theorem operand_cases {n m : Nat} (h : m ∈ (g.node n).ins) :
    g.Dep n m ∨ ∃ init d, g.node n = .theta init m d := by
  unfold Dep
  cases hn : g.node n with
  | theta init next d =>
    rw [hn, Node.ins, List.mem_pair] at h
    rcases h with rfl | rfl
    exacts [.inl rfl, .inr ⟨init, d, rfl⟩]
  | _ => exact .inl (by simpa [hn] using h)

theorem dep_iff_of_not_theta {n m : Nat} (hn : ∀ init next d, g.node n ≠ .theta init next d) :
    g.Dep n m ↔ m ∈ (g.node n).ins := by
  unfold Dep
  cases h : g.node n with
  | theta init next d => exact absurd h (hn init next d)
  | _ => rfl

theorem kindDepth_of_theta {D : Nat → Int} {n init next : Nat} {d : Int}
    (hn : g.node n = .theta init next d) : g.kindDepth D n = d := by
  simp [kindDepth, hn]

theorem kindDepth_of_not_theta {D : Nat → Int} {n : Nat}
    (hn : ∀ init next d, g.node n ≠ .theta init next d) :
    g.kindDepth D n = maxDepth ((g.node n).ins.map D) - if (g.node n).isEta then 1 else 0 := by
  unfold kindDepth
  cases h : g.node n with
  | theta init next d => exact absurd h (hn init next d)
  | _ => rfl

theorem kindDepth_congr {D₁ D₂ : Nat → Int} {n : Nat} (h : ∀ m, g.Dep n m → D₁ m = D₂ m) :
    g.kindDepth D₁ n = g.kindDepth D₂ n := by
  by_cases hθ : ∃ init next d, g.node n = .theta init next d
  · obtain ⟨init, next, d, hn⟩ := hθ
    rw [kindDepth_of_theta hn, kindDepth_of_theta hn]
  · push_neg at hθ
    rw [kindDepth_of_not_theta hθ, kindDepth_of_not_theta hθ,
      List.map_congr_left fun m hm => h m ((dep_iff_of_not_theta hθ).mpr hm)]

/-- A rank that every input `vl_compute_depth` descends into lowers rules out the cycles of the
well-formed graph. -/
theorem acyclic_of_rank (r : Nat → Nat) (h : ∀ n m, g.Dep n m → r m < r n) :
    ∀ n, ¬ Relation.TransGen g.Dep n n := by
  have hlt : ∀ {n m}, Relation.TransGen g.Dep n m → r m < r n := fun hnm => by
    induction hnm with
    | single hd => exact h _ _ hd
    | tail _ hd ih => exact (h _ _ hd).trans ih
  exact fun n hn => lt_irrefl _ (hlt hn)

end Facts

end Graph

section OperandLoop

variable {D : Nat → Int} {irn : Nat}

theorem foldlM_depsStep {k : Nat} (hk : k ≠ 0) : ∀ (ins : List Nat) (v : Int) (depth : Nat → Option Int),
    (∀ m ∈ ins, m ≠ irn ∧ depth m = some (D m)) →
    (ins.enumFrom k).foldlM (depsStep irn) (Function.update depth irn (some v)) =
      .ok (Function.update depth irn (some ((ins.map D).foldl max v)))
  | [], _, _, _ => rfl
  | m :: ins, v, depth, h => by
    obtain ⟨hm, hd⟩ := h m (List.mem_cons_self _ _)
    rw [List.enumFrom_cons, List.foldlM_cons]
    simp only [depsStep, Function.update_noteq hm, hd, hk, if_false, Function.update_same,
      Option.getD_some, Function.update_idem, bind, Except.bind]
    exact foldlM_depsStep (Nat.succ_ne_zero k) ins (max v (D m)) depth
      fun m' hm' => h m' (List.mem_cons_of_mem _ hm')

/-- With every operand done and distinct from `irn`, the rest of `vl_compute_depth` gives `irn`
the maximum of their depths, one less for an Eta. -/
theorem operandDepth_eq {isEta : Bool} {ins : List Nat} {depth : Nat → Option Int}
    (h : ∀ m ∈ ins, m ≠ irn ∧ depth m = some (D m))
    (heta : isEta = true → 1 ≤ maxDepth (ins.map D)) :
    operandDepth irn isEta ins depth =
      .ok (Function.update depth irn (some (maxDepth (ins.map D) - if isEta then 1 else 0))) := by
  have hloop : ins.enum.foldlM (depsStep irn) (Function.update depth irn (some 0)) =
      .ok (Function.update depth irn (some (maxDepth (ins.map D)))) := by
    cases ins with
    | nil => rfl
    | cons m ins =>
      obtain ⟨hm, hd⟩ := h m (List.mem_cons_self _ _)
      rw [List.enum_cons, List.foldlM_cons]
      simp only [depsStep, Function.update_noteq hm, hd, if_true, Function.update_idem, bind,
        Except.bind]
      exact foldlM_depsStep Nat.one_ne_zero ins (D m) depth fun m' hm' => h m' (List.mem_cons_of_mem _ hm')
  simp only [operandDepth, hloop, bind, Except.bind, Function.update_same, Option.getD_some]
  cases isEta
  · simp
  · have : ¬ maxDepth (ins.map D) - 1 < 0 := by have := heta rfl; omega
    simp [this, Function.update_idem]

end OperandLoop

/-- A fold whose every step returns, keeps `P`, moves along a preorder `R` and establishes
`Q` of its element, which `R` keeps. -/
theorem foldlM_ok {α β ε : Type} {f : β → α → Except ε β} (P : β → Prop) (R : β → β → Prop)
    (Q : α → β → Prop) (hrefl : ∀ b, R b b) (htrans : ∀ {b₁ b₂ b₃}, R b₁ b₂ → R b₂ b₃ → R b₁ b₃)
    (hQ : ∀ {a b b'}, Q a b → R b b' → Q a b') :
    ∀ l : List α, (∀ b, ∀ a ∈ l, P b → ∃ b', f b a = .ok b' ∧ P b' ∧ R b b' ∧ Q a b') →
      ∀ b, P b → ∃ b', l.foldlM f b = .ok b' ∧ P b' ∧ R b b' ∧ ∀ a ∈ l, Q a b'
  | [], _, b, hb => ⟨b, rfl, hb, hrefl b, by simp⟩
  | a :: l, hf, b, hb => by
    obtain ⟨b₁, h₁, hP₁, hR₁, hQ₁⟩ := hf b a (List.mem_cons_self _ _) hb
    obtain ⟨b₂, h₂, hP₂, hR₂, hQ₂⟩ :=
      foldlM_ok P R Q hrefl htrans hQ l (fun b a ha => hf b a (List.mem_cons_of_mem _ ha)) b₁ hP₁
    refine ⟨b₂, by rw [List.foldlM_cons, h₁]; exact h₂, hP₂, htrans hR₁ hR₂, ?_⟩
    rintro a' (_ | ⟨_, ha'⟩)
    exacts [hQ hQ₁ hR₂, hQ₂ a' ha']

namespace Graph

variable (g : Graph)

/-- The invariant of the analysis, with `st` the running calls of `vl_compute_depth` and `q` the
nodes the caller visits next. -/
structure Inv (D : Nat → Int) (q st : List Nat) (s : State) : Prop where
  reach : ∀ n, s.visited n = true → g.Reach n
  todo : ∀ n ∈ s.todo, g.Reach n
  done : ∀ n, s.visited n = true → n ∉ st → s.depth n = some (D n) ∧ ∀ D', g.Depths D' → D' n = D n
  closed : ∀ n, s.visited n = true → n ∉ st → ∀ m, g.Dep n m → s.visited m = true
  queued : ∀ n init next d, s.visited n = true → n ∉ st → g.node n = .theta init next d →
    s.visited next = true ∨ next ∈ s.todo ∨ next ∈ q

def unvisited (s : State) : Nat := (List.range g.size).countP fun n => !s.visited n

/-- What a step of the analysis keeps: visited nodes stay visited and queued ones queued, and
the queue grows by no more than the nodes the step visits. -/
structure Grows (s s' : State) : Prop where
  visited : ∀ n, s.visited n = true → s'.visited n = true
  todo : ∀ n ∈ s.todo, n ∈ s'.todo
  pot : s'.todo.length + g.unvisited s' ≤ s.todo.length + g.unvisited s

section Steps

variable {g} {D : Nat → Int}

theorem Grows.refl (s : State) : g.Grows s s := ⟨fun _ h => h, fun _ h => h, le_rfl⟩

theorem Grows.trans {s₁ s₂ s₃ : State} (h₁ : g.Grows s₁ s₂) (h₂ : g.Grows s₂ s₃) : g.Grows s₁ s₃ :=
  ⟨fun n h => h₂.visited n (h₁.visited n h), fun n h => h₂.todo n (h₁.todo n h), h₂.pot.trans h₁.pot⟩

theorem Inv.of_visited {q st : List Nat} {s : State} {x : Nat} (h : g.Inv D (x :: q) st s)
    (hx : s.visited x = true) : g.Inv D q st s := by
  refine { h with queued := fun n init next d hn hst hθ => ?_ }
  rcases h.queued n init next d hn hst hθ with h' | h' | h'
  · exact .inl h'
  · exact .inr (.inl h')
  · rcases List.mem_cons.mp h' with rfl | h'
    exacts [.inl hx, .inr (.inr h')]

theorem unvisited_mark {s : State} {n : Nat} (hn : n < g.size) (hv : s.visited n = false) :
    g.unvisited (s.mark n) + 1 = g.unvisited s := by
  unfold unvisited
  obtain ⟨l₁, l₂, hl⟩ := List.append_of_mem (List.mem_range.mpr hn)
  have hnd : (l₁ ++ n :: l₂).Nodup := hl ▸ List.nodup_range g.size
  have hout : ∀ m ∈ l₁ ++ l₂, m ≠ n := fun m hm h => by
    subst h
    exact (List.nodup_cons.mp (List.nodup_middle.mp hnd)).1 hm
  have hsame : ∀ l : List Nat, (∀ m ∈ l, m ≠ n) →
      l.countP (fun m => !(s.mark n).visited m) = l.countP fun m => !s.visited m := fun l hl =>
    List.countP_congr fun m hm => by simp [State.mark, Function.update_noteq (hl m hm)]
  rw [hl, List.countP_append, List.countP_append, List.countP_cons, List.countP_cons,
    hsame l₁ fun m hm => hout m (List.mem_append_left _ hm),
    hsame l₂ fun m hm => hout m (List.mem_append_right _ hm)]
  simp [State.mark, hv, Nat.add_assoc]

theorem Grows.mark {s : State} {n : Nat} (hn : n < g.size) (hv : s.visited n = false) :
    g.Grows s (s.mark n) :=
  ⟨fun m h => by by_cases hm : m = n <;> simp [State.mark, hm, h], fun _ h => h,
    by have := unvisited_mark hn hv; simp only [State.mark] at *; omega⟩

theorem Inv.mark {q st : List Nat} {s : State} {irn : Nat} (h : g.Inv D q st s) (hr : g.Reach irn) :
    g.Inv D q (irn :: st) (s.mark irn) := by
  have hvis : ∀ n, (s.mark irn).visited n = true ↔ n = irn ∨ s.visited n = true := fun n => by
    by_cases hn : n = irn <;> simp [State.mark, hn]
  refine ⟨fun n hn => ?_, h.todo, fun n hn hst => ?_, fun n hn hst m hm => ?_,
    fun n init next d hn hst hθ => ?_⟩
  · rcases (hvis n).mp hn with rfl | hn
    exacts [hr, h.reach n hn]
  · rw [List.mem_cons, not_or] at hst
    exact h.done n (((hvis n).mp hn).resolve_left hst.1) hst.2
  · rw [List.mem_cons, not_or] at hst
    exact (hvis m).mpr (.inr (h.closed n (((hvis n).mp hn).resolve_left hst.1) hst.2 m hm))
  · rw [List.mem_cons, not_or] at hst
    exact (h.queued n init next d (((hvis n).mp hn).resolve_left hst.1) hst.2 hθ).imp_left
      fun h' => (hvis next).mpr (.inr h')

/-- Completing `irn`: it gets its depth, which every choice of depths gives it, its inputs but a
Theta's `next` are visited, and a Theta's `next` is queued. -/
theorem Inv.complete {q st : List Nat} {s : State} {irn : Nat} (h : g.Inv D q (irn :: st) s)
    (hD : ∀ D', g.Depths D' → D' irn = D irn) (extra : List Nat) (hextra : ∀ t ∈ extra, g.Reach t)
    (hdeps : ∀ m, g.Dep irn m → s.visited m = true)
    (hnext : ∀ init next d, g.node irn = .theta init next d → next ∈ extra) :
    g.Inv D q st { s with depth := Function.update s.depth irn (some (D irn)), todo := s.todo ++ extra } := by
  refine ⟨h.reach, fun n hn => ?_, fun n hn hst => ?_, fun n hn hst => ?_,
    fun n init next d hn hst hθ => ?_⟩
  · rcases List.mem_append.mp hn with hn | hn
    exacts [h.todo n hn, hextra n hn]
  · by_cases hni : n = irn
    · subst hni; exact ⟨Function.update_same _ _ _, hD⟩
    · simp only [Function.update_noteq hni]
      exact h.done n hn (by simp [hni, hst])
  · by_cases hni : n = irn
    · subst hni; exact hdeps
    · exact h.closed n hn (by simp [hni, hst])
  · by_cases hni : n = irn
    · subst hni; exact .inr (.inl (List.mem_append_right _ (hnext init next d hθ)))
    · exact (h.queued n init next d hn (by simp [hni, hst]) hθ).imp_right
        (Or.imp_left fun h' => List.mem_append_left _ h')

theorem computeDepth_of_visited {f : Nat} {s : State} {irn : Nat} (hv : s.visited irn = true) :
    g.computeDepth (f + 1) s irn = .ok s := by
  simp [computeDepth, hv]

theorem computeDepth_of_theta {f : Nat} {s : State} {irn init next : Nat} {d : Int}
    (hv : s.visited irn = false) (hn : g.node irn = .theta init next d) :
    g.computeDepth (f + 1) s irn = (g.computeDepth f (s.mark irn) init).bind fun s =>
      .ok { s with todo := s.todo ++ [next], depth := Function.update s.depth irn (some d) } := by
  simp only [computeDepth, hv, hn, Bool.false_eq_true, if_false]
  rfl

theorem computeDepth_of_not_theta {f : Nat} {s : State} {irn : Nat} (hv : s.visited irn = false)
    (hθ : ∀ init next d, g.node irn ≠ .theta init next d) :
    g.computeDepth (f + 1) s irn =
      ((g.node irn).ins.foldlM (g.computeDepth f) (s.mark irn)).bind fun s =>
        (operandDepth irn (g.node irn).isEta (g.node irn).ins s.depth).bind fun depth =>
          .ok { s with depth := depth } := by
  simp only [computeDepth, hv, Bool.false_eq_true, if_false]
  cases h : g.node irn with
  | theta init next d => exact absurd h (hθ init next d)
  | _ => rfl

end Steps

section Run

variable {g} {D : Nat → Int} (hD : g.Depths D)
  (heta : ∀ n value cond, g.Reach n → g.node n = .eta value cond → 1 ≤ D value ∧ 1 ≤ D cond)
  (hacyc : ∀ n, ¬ Relation.TransGen g.Dep n n)
include hD heta hacyc

/-- `vl_compute_depth` on a reachable node, which every running call reaches over inputs it
descends into, returns with enough fuel, and leaves the node visited and the invariant kept. -/
theorem computeDepth_spec {q : List Nat} : ∀ (fuel : Nat) (st : List Nat) (s : State) (irn : Nat),
    g.Inv D q st s → g.Reach irn → (∀ y ∈ st, Relation.TransGen g.Dep y irn) → st.Nodup →
    (∀ y ∈ st, g.Reach y) → g.size + 1 ≤ fuel + st.length →
    ∃ s', g.computeDepth fuel s irn = .ok s' ∧ g.Inv D q st s' ∧ g.Grows s s' ∧ s'.visited irn = true
  | 0, st, _, _, _, _, _, hnd, hst, hfuel => by
    have := (List.subperm_of_subset hnd fun y hy => List.mem_range.mpr (hst y hy).lt).length_le
    rw [List.length_range] at this
    omega
  | f + 1, st, s, irn, hinv, hr, hpath, hnd, hst, hfuel => by
    by_cases hv : s.visited irn = true
    · exact ⟨s, computeDepth_of_visited hv, hinv, .refl s, hv⟩
    rw [Bool.not_eq_true] at hv
    have hirn : irn ∉ st := fun h => hacyc irn (hpath irn h)
    have hinv₀ := hinv.mark hr
    have hvis₀ : (s.mark irn).visited irn = true := by simp [State.mark]
    have hunv := unvisited_mark hr.lt hv
    -- the inputs it descends into are reached from every running call, and not running
    have hpath' : ∀ m, g.Dep irn m → ∀ y ∈ irn :: st, Relation.TransGen g.Dep y m := by
      rintro m hm y (_ | ⟨_, hy⟩)
      exacts [.single hm, .tail (hpath y hy) hm]
    have hrec := fun m (hm : g.Dep irn m) s' (hs' : g.Inv D q (irn :: st) s') =>
      computeDepth_spec f (irn :: st) s' m hs' (hr.operand hm.operand) (hpath' m hm)
        (List.nodup_cons.mpr ⟨hirn, hnd⟩) (by rintro y (_ | ⟨_, hy⟩); exacts [hr, hst y hy])
        (by simp only [List.length_cons]; omega)
    have hdone : ∀ s', g.Inv D q (irn :: st) s' → ∀ m, g.Dep irn m → s'.visited m = true →
        m ≠ irn ∧ s'.depth m = some (D m) ∧ ∀ D', g.Depths D' → D' m = D m := fun s' hs' m hm hvm =>
      have hnot : m ∉ irn :: st := fun hm' => hacyc m (hpath' m hm m hm')
      ⟨fun h => hnot (h ▸ List.mem_cons_self _ _), hs'.done m hvm hnot⟩
    have hagree : ∀ s', g.Inv D q (irn :: st) s' → (∀ m, g.Dep irn m → s'.visited m = true) →
        ∀ D', g.Depths D' → D' irn = D irn := fun s' hs' hdeps D' hD' => by
      rw [hD' irn hr, hD irn hr]
      exact kindDepth_congr fun m hm => (hdone s' hs' m hm (hdeps m hm)).2.2 D' hD'
    by_cases hθ : ∃ init next d, g.node irn = .theta init next d
    · obtain ⟨init, next, d, hn⟩ := hθ
      obtain ⟨s₁, h₁, hinv₁, hg₁, hvis₁⟩ := hrec init (by simp [Dep, hn]) _ hinv₀
      have hdeps : ∀ m, g.Dep irn m → s₁.visited m = true := fun m hm => by
        rw [show m = init by simpa [Dep, hn] using hm]; exact hvis₁
      have hDirn : D irn = d := (hD irn hr).trans (kindDepth_of_theta hn)
      refine ⟨_, ?_, hinv₁.complete (hagree s₁ hinv₁ hdeps) [next]
        (by simpa using hr.operand (by simp [hn, Node.ins])) hdeps
        fun _ _ _ h => List.mem_singleton.mpr (Node.theta.inj (hn.symm.trans h)).2.1.symm, ?_,
        hg₁.visited irn hvis₀⟩
      · rw [computeDepth_of_theta hv hn, h₁, hDirn]
        rfl
      · refine ⟨fun n h => hg₁.visited n (by by_cases hn : n = irn <;> simp [State.mark, hn, h]),
          fun n h => List.mem_append_left _ (hg₁.todo n h), ?_⟩
        have := hg₁.pot
        show (s₁.todo ++ [next]).length + g.unvisited s₁ ≤ _
        simp only [State.mark, List.length_append, List.length_singleton] at *
        omega
    · push_neg at hθ
      have hdep : ∀ m, g.Dep irn m ↔ m ∈ (g.node irn).ins := fun m => dep_iff_of_not_theta hθ
      obtain ⟨s₁, h₁, hinv₁, hg₁, hvis₁⟩ :=
        foldlM_ok (g.Inv D q (irn :: st)) g.Grows (fun m s' => s'.visited m = true) Grows.refl
          Grows.trans (fun h hg => hg.visited _ h) (g.node irn).ins
          (fun s' m hm hs' => hrec m ((hdep m).mpr hm) s' hs') _ hinv₀
      have hdeps : ∀ m, g.Dep irn m → s₁.visited m = true := fun m hm => hvis₁ m ((hdep m).mp hm)
      have hetaD : (g.node irn).isEta = true → 1 ≤ maxDepth ((g.node irn).ins.map D) := by
        cases hn : g.node irn with
        | eta value cond =>
          obtain ⟨h₁, -⟩ := heta irn value cond hr hn
          simp [Node.ins, maxDepth, h₁]
        | _ => simp [Node.isEta]
      have hDirn := (hD irn hr).trans (kindDepth_of_not_theta hθ)
      refine ⟨_, ?_, hinv₁.complete (hagree s₁ hinv₁ hdeps) [] (by simp) hdeps
        fun i n d h => absurd h (hθ i n d), ?_, hg₁.visited irn hvis₀⟩
      · rw [computeDepth_of_not_theta hv hθ, h₁]
        simp only [Except.bind, operandDepth_eq (fun m hm => ⟨(hdone s₁ hinv₁ m ((hdep m).mpr hm)
          (hvis₁ m hm)).1, (hdone s₁ hinv₁ m ((hdep m).mpr hm) (hvis₁ m hm)).2.1⟩) hetaD, ← hDirn,
          List.append_nil]
      · refine ⟨fun n h => hg₁.visited n (by by_cases hn : n = irn <;> simp [State.mark, hn, h]),
          fun n h => by simpa using hg₁.todo n h, ?_⟩
        have := hg₁.pot
        show (s₁.todo ++ []).length + g.unvisited s₁ ≤ _
        simp only [State.mark, List.append_nil] at *
        omega

/-- The loop of `vl_init` returns with the queue empty, the Return visited and the invariant
kept, when its fuel exceeds the length of the queue and the number of unvisited nodes. -/
theorem runTodo_spec : ∀ (fuel : Nat) (s : State), g.Inv D [] [] s →
    (s.visited g.endPred = true ∨ g.endPred ∈ s.todo) → s.todo.length + g.unvisited s < fuel →
    ∃ s', g.runTodo fuel s = .ok s' ∧ g.Inv D [] [] s' ∧ s'.todo = [] ∧ s'.visited g.endPred = true
  | 0, _, _, _, hfuel => absurd hfuel (Nat.not_lt_zero _)
  | f + 1, s, hinv, hstart, hfuel => by
    cases htodo : s.todo with
    | nil => exact ⟨s, by simp [runTodo, htodo], hinv, htodo, by simpa [htodo] using hstart⟩
    | cons next todo =>
      have hinv' : g.Inv D [next] [] { s with todo := todo } :=
        { hinv with
          todo := fun n hn => hinv.todo n (by simp [htodo, hn])
          queued := fun n init next' d hn hst hθ => by
            simpa [htodo, or_comm, or_left_comm] using hinv.queued n init next' d hn hst hθ }
      obtain ⟨s₁, h₁, hinv₁, hg₁, hvis₁⟩ := computeDepth_spec hD heta hacyc (g.size + 1) [] _ next
        hinv' (hinv.todo next (by simp [htodo])) (by simp) List.nodup_nil (by simp) (by simp)
      have hstart₁ : s₁.visited g.endPred = true ∨ g.endPred ∈ s₁.todo := by
        rcases hstart with h | h
        · exact .inl (hg₁.visited _ h)
        · rcases List.mem_cons.mp (htodo ▸ h) with rfl | h
          exacts [.inl hvis₁, .inr (hg₁.todo _ h)]
      have hpot : s₁.todo.length + g.unvisited s₁ < f := by
        have : s₁.todo.length + g.unvisited s₁ ≤ todo.length + g.unvisited s := hg₁.pot
        simp only [htodo, List.length_cons] at hfuel
        omega
      obtain ⟨s₂, h₂, hinv₂, htodo₂, hvis₂⟩ := runTodo_spec f s₁ (hinv₁.of_visited hvis₁) hstart₁ hpot
      exact ⟨s₂, by simp only [runTodo, htodo, h₁, bind, Except.bind, h₂], hinv₂, htodo₂, hvis₂⟩

end Run

/-- On a well-formed graph `vl_init` returns a node map that gives every node reachable from the
Return the depth its kind defines, the same for every choice of such depths. -/
theorem vlInit_spec (h : g.WellFormed) : ∃ depth, g.vlInit = .ok depth ∧ ∃ D, g.Depths D ∧
    ∀ n, g.Reach n → depth n = some (D n) ∧ ∀ D', g.Depths D' → D' n = D n := by
  obtain ⟨ins, hret⟩ := h.endIsReturn
  obtain ⟨D, hD, heta⟩ := h.etaDepth
  have hinv₀ : g.Inv D [] [] ⟨fun _ => false, fun _ => none, [g.endPred]⟩ :=
    ⟨by simp, by simpa using Relation.ReflTransGen.refl, by simp, by simp, by simp⟩
  have hunv : g.unvisited ⟨fun _ => false, fun _ => none, [g.endPred]⟩ = g.size := by
    simp [unvisited]
  obtain ⟨s, hs, hinv, htodo, hvis⟩ := runTodo_spec hD heta h.acyclic (g.size + 2) _ hinv₀
    (.inr (List.mem_singleton_self _)) (by simp only [hunv, List.length_singleton]; omega)
  have hall : ∀ n, g.Reach n → s.visited n = true := fun n hn => by
    induction hn with
    | refl => exact hvis
    | tail _ hm ih =>
      rcases operand_cases hm with hd | ⟨init, d, hθ⟩
      · exact hinv.closed _ ih (List.not_mem_nil _) _ hd
      · simpa [htodo] using hinv.queued _ init _ d ih (List.not_mem_nil _) hθ
  exact ⟨s.depth, by simp [vlInit, hret, hs, Except.map], D, hD,
    fun n hn => hinv.done n (hall n hn) (List.not_mem_nil _)⟩

/-- On a well-formed PEG graph `vl_init` returns without an assertion failure, and every node
reachable from the Return gets the depth its kind defines from the depths of its inputs. -/
theorem vl_init_depths (h : g.WellFormed) : ∃ depth, g.vlInit = .ok depth ∧
    ∀ n, g.Reach n → depth n = some (g.kindDepth (fun m => (depth m).getD 0) n) := by
  obtain ⟨depth, hinit, D, hD, hdepth⟩ := g.vlInit_spec h
  refine ⟨depth, hinit, fun n hn => ?_⟩
  rw [(hdepth n hn).1, hD n hn]
  exact congrArg some (kindDepth_congr fun m hm => by simp [(hdepth m (hn.operand hm.operand)).1])

theorem vl_init_depths_unique (h : g.WellFormed) : ∃ depth, g.vlInit = .ok depth ∧
    ∀ D, g.Depths D → ∀ n, g.Reach n → depth n = some (D n) := by
  obtain ⟨depth, hinit, D, -, hdepth⟩ := g.vlInit_spec h
  refine ⟨depth, hinit, fun D' hD' n hn => ?_⟩
  rw [(hdepth n hn).1, (hdepth n hn).2 D' hD']

end Graph

/-- A loop left by an Eta: the Return 0 returns the Eta 1 of the Theta 2 and of the node 4,
which reads the Theta and is its `next`; the Theta, of depth 1, starts at the constant 3. -/
def loopGraph : Graph where
  size := 5
  node := fun
    | 0 => .ret [1]
    | 1 => .eta 2 4
    | 2 => .theta 3 4 1
    | 4 => .other [2]
    | _ => .other []
  endPred := 0
  endPred_lt := by decide
  ins_lt := by decide

/-- The depths the kinds define on `loopGraph`. -/
def loopDepths (n : Nat) : Int := [0, 0, 1, 0, 1].getD n 0

theorem loopGraph_depths : loopGraph.Depths loopDepths := fun n _ => by
  rcases n with _ | _ | _ | _ | _ | n <;> rfl

theorem loopGraph_wellFormed : loopGraph.WellFormed where
  endIsReturn := ⟨[1], rfl⟩
  acyclic := Graph.acyclic_of_rank (fun n => [4, 3, 1, 0, 2].getD n 0) fun n m h => by
    rcases n with _ | _ | _ | _ | _ | n <;>
      simp only [Graph.Dep, loopGraph, Node.ins, List.mem_cons, List.mem_singleton,
        List.not_mem_nil, or_false] at h <;> rcases h with rfl | rfl <;> decide
  etaDepth := ⟨loopDepths, loopGraph_depths, fun n value cond _ h => by
    rcases n with _ | _ | _ | _ | _ | n <;> simp [loopGraph] at h
    obtain ⟨rfl, rfl⟩ := h
    decide⟩

theorem vl_init_depths_loop : loopGraph.WellFormed ∧ ∃ depth, loopGraph.vlInit = .ok depth ∧
    ∀ n, loopGraph.Reach n → depth n = some (loopGraph.kindDepth (fun m => (depth m).getD 0) n) :=
  ⟨loopGraph_wellFormed, loopGraph.vl_init_depths loopGraph_wellFormed⟩

/-- Every choice of depths on `loopGraph` gives the Eta depth 0 and the Theta and its `next`
depth 1. -/
theorem vl_init_depths_unique_loop : loopGraph.WellFormed ∧ ∀ D, loopGraph.Depths D →
    D 1 = 0 ∧ D 2 = 1 ∧ D 4 = 1 := by
  obtain ⟨depth, -, hu⟩ := loopGraph.vl_init_depths_unique loopGraph_wellFormed
  have r₁ : loopGraph.Reach 1 := .tail .refl (by simp [Graph.Operand, loopGraph, Node.ins])
  have hD (D : Nat → Int) (hD : loopGraph.Depths D) (n : Nat) (hn : loopGraph.Reach n) :
      D n = loopDepths n :=
    Option.some.inj ((hu D hD n hn).symm.trans (hu loopDepths loopGraph_depths n hn))
  refine ⟨loopGraph_wellFormed, fun D h => ⟨hD D h 1 r₁, hD D h 2 (.tail r₁ ?_), hD D h 4 (.tail r₁ ?_)⟩⟩ <;>
    simp [Graph.Operand, loopGraph, Node.ins]

end LibFirm.Peg
