import WebKit.DFG.CSEPhase

/-!
# The reference counts after the phase

A node that is replaced becomes a phantom with a count of one, and the later nodes that had it as an
operand add themselves, one by one, to the count of its replacement.  The invariant of the phase is
that the count of every node without a replacement is the number of references from live nodes, with
one more where the node must be generated.  Only one step can break it: the searches find dead nodes
as well as live ones, and a dead replacement comes to life without a reference to its own operands.
-/

namespace WebKit.DFG

open List Graph Nat Node

/-! ## The count a node should have -/

namespace Node

/-- What a node adds to the references to another: nothing while it is dead. -/
def weight (c : ℕ) (node : Node) : ℕ :=
  if node.refCount = 0 then 0 else node.operands.count c

def required (node : Node) : ℕ := if node.op.mustGenerate then 1 else 0

end Node

namespace Graph

variable (graph : Graph)

/-- The operand references to a node from nodes with a count that is not zero. -/
def references (c : ℕ) : ℕ := (graph.nodes.map (weight c)).sum

def DefinedEarlier (n c : ℕ) : Prop :=
  c < n ∧ ∃ block ∈ graph.blocks, block.begin ≤ c ∧ n < block.stop

/-- The links between variable accesses may lead to another block. -/
def IsLink (n c : ℕ) : Prop :=
  (graph.nodeAt n).op ∈ [NodeType.getLocal, .phi, .flush] ∧
    (graph.nodeAt c).op.hasVariableAccessData

structure WellFormed (graph : Graph) : Prop where
  blocks_ordered : graph.blocks.Pairwise fun block next => block.stop ≤ next.begin
  begin_le : ∀ block ∈ graph.blocks, block.begin ≤ block.stop
  stop_le : ∀ block ∈ graph.blocks, block.stop ≤ graph.size
  operands : ∀ n, ∀ c ∈ (graph.nodeAt n).operands, graph.IsLink n c ∨
    (graph.nodeAt n).op ∉ [NodeType.phi, .flush] ∧ graph.DefinedEarlier n c

/-- As `Graph::ref` keeps the counts; the dead nodes have none. -/
def CountsReferences : Prop :=
  ∀ n < graph.size, (graph.nodeAt n).refCount = graph.references n + (graph.nodeAt n).required

/-- What is generated refers to what is generated, and is counted exactly. -/
structure CountsExact (graph : Graph) : Prop where
  operands : ∀ n < graph.size, (graph.nodeAt n).refCount ≠ 0 →
    ∀ c ∈ (graph.nodeAt n).operands, (graph.nodeAt c).refCount ≠ 0
  counts : ∀ n < graph.size, (graph.nodeAt n).refCount ≠ 0 →
    (graph.nodeAt n).refCount = graph.references n + (graph.nodeAt n).required

theorem sum_modify (weight : Node → ℕ) (f : Node → Node) (nodes : List Node) {i : ℕ}
    (h : i < nodes.length) : ((nodes.modify i f).map weight).sum + weight nodes[i] =
      (nodes.map weight).sum + weight (f nodes[i]) := by
  induction nodes generalizing i with
  | nil => exact absurd h (not_lt_zero i)
  | cons node nodes ih =>
    cases i with
    | zero =>
      simp only [modify_zero_cons, map_cons, sum_cons, getElem_cons_zero]
      omega
    | succ i =>
      have hrest := ih (lt_of_succ_lt_succ h)
      simp only [modify_succ_cons, map_cons, sum_cons, getElem_cons_succ]
      omega

theorem references_modify {graph : Graph} {i : ℕ} (h : i < graph.size) (f : Node → Node)
    (c : ℕ) : (graph.modify i f).references c + (graph.nodeAt i).weight c =
      graph.references c + (f (graph.nodeAt i)).weight c := by
  rw [nodeAt, getD_eq_getElem _ _ h]
  exact sum_modify (weight c) f graph.nodes h

/-- A node that stays live and keeps its operands. -/
theorem references_modify_of_live {graph : Graph} {i : ℕ} (h : i < graph.size) {f : Node → Node}
    (hlive : (graph.nodeAt i).refCount ≠ 0) (hlive' : (f (graph.nodeAt i)).refCount ≠ 0)
    (hoperands : (f (graph.nodeAt i)).operands = (graph.nodeAt i).operands) (c : ℕ) :
    (graph.modify i f).references c = graph.references c := by
  have hmodify := references_modify h f c
  rw [weight, weight, if_neg hlive, if_neg hlive', hoperands] at hmodify
  exact add_right_cancel hmodify

theorem le_sum_of_mem {counts : List ℕ} {count : ℕ} (h : count ∈ counts) : count ≤ counts.sum := by
  induction h with
  | head => exact le_add_right _ _
  | tail _ _ ih => exact ih.trans (le_add_left _ _)

theorem weight_le_references (n c : ℕ) : (graph.nodeAt n).weight c ≤ graph.references c := by
  by_cases h : n < graph.size
  · rw [nodeAt, getD_eq_getElem _ _ h]
    exact le_sum_of_mem (mem_map_of_mem (getElem_mem h))
  · rw [nodeAt_of_size_le (not_lt.mp h)]
    exact zero_le _

/-- A live operand of a live node. -/
theorem references_pos {graph : Graph} {n c : ℕ} (hlive : (graph.nodeAt n).refCount ≠ 0)
    (hc : c ∈ (graph.nodeAt n).operands) : 0 < graph.references c := by
  refine lt_of_lt_of_le ?_ (graph.weight_le_references n c)
  rw [weight, if_neg hlive]
  exact count_pos_iff.mpr hc

theorem references_eq_zero {graph : Graph} {c : ℕ}
    (h : ∀ n, (graph.nodeAt n).refCount ≠ 0 → c ∉ (graph.nodeAt n).operands) :
    graph.references c = 0 := by
  refine List.sum_eq_zero_iff_forall_eq_nat.mpr fun weight hweight => ?_
  obtain ⟨node, hnode, rfl⟩ := List.mem_map.mp hweight
  obtain ⟨n, hn, rfl⟩ := mem_iff_getElem.mp hnode
  have hat := h n
  rw [nodeAt, getD_eq_getElem _ _ hn] at hat
  rw [weight]
  split
  · rfl
  · exact count_eq_zero.mpr (hat ‹_›)

/-! ### A substitution -/

/-- The graph with `r` for the operand `k` of the node `i`. -/
def substitute (i k r : ℕ) (addRef : Bool) : Graph :=
  if addRef then (graph.modify i (·.setChild k r)).modify r (·.ref)
  else graph.modify i (·.setChild k r)

variable {graph : Graph} {i k r : ℕ} {addRef : Bool}

theorem nodeAt_substitute (hi : i < graph.size) (hr : r < i) (n : ℕ) :
    (graph.substitute i k r addRef).nodeAt n =
      if n = i then (graph.nodeAt i).setChild k r
      else if n = r ∧ addRef then (graph.nodeAt r).ref else graph.nodeAt n := by
  have hr' : r < (graph.modify i (·.setChild k r)).size := by
    rw [size_modify]
    exact hr.trans hi
  cases addRef with
  | false => simp [substitute, nodeAt_modify hi]
  | true =>
    rw [substitute, if_pos rfl, nodeAt_modify hr', nodeAt_modify hi, nodeAt_modify hi]
    by_cases hn : n = r
    · subst hn
      simp [Nat.ne_of_lt hr]
    · simp [hn]

theorem blocks_substitute : (graph.substitute i k r addRef).blocks = graph.blocks := by
  rw [substitute]
  split <;> rfl

theorem size_substitute : (graph.substitute i k r addRef).size = graph.size := by
  rw [substitute]
  split
  · rw [size_modify, size_modify]
  · rw [size_modify]

section

variable (hi : i < graph.size) (hr : r < i)
include hi hr

theorem op_substitute (n : ℕ) :
    ((graph.substitute i k r addRef).nodeAt n).op = (graph.nodeAt n).op := by
  rw [nodeAt_substitute hi hr]
  split
  · rename_i hn
    rw [hn]
    rfl
  · split
    · rename_i hn
      rw [hn.1]
      rfl
    · rfl

theorem required_substitute (n : ℕ) :
    ((graph.substitute i k r addRef).nodeAt n).required = (graph.nodeAt n).required := by
  rw [required, required, op_substitute hi hr]

theorem refCount_substitute (n : ℕ) : ((graph.substitute i k r addRef).nodeAt n).refCount =
      (graph.nodeAt n).refCount + if n = r ∧ addRef then 1 else 0 := by
  rw [nodeAt_substitute hi hr]
  by_cases hn : n = i
  · subst hn
    rw [if_pos rfl, if_neg fun h => ne_of_gt hr h.1]
    rfl
  · rw [if_neg hn]
    split
    · rename_i hboth
      rw [hboth.1]
      rfl
    · rfl

theorem operands_substitute {n : ℕ} (hn : n ≠ i) :
    ((graph.substitute i k r addRef).nodeAt n).operands = (graph.nodeAt n).operands := by
  rw [nodeAt_substitute hi hr, if_neg hn]
  split
  · rename_i hboth
    rw [hboth.1]
    rfl
  · rfl

/-- The new reference, and those of a node that comes to life. -/
theorem references_substitute {a : ℕ}
    (hlive : (graph.nodeAt i).refCount ≠ 0) (hchild : (graph.nodeAt i).child k = some a) (c : ℕ) :
    (graph.substitute i k r true).references c + (if c = a then 1 else 0) =
      graph.references c + (if c = r then 1 else 0) +
        if (graph.nodeAt r).refCount = 0 then (graph.nodeAt r).operands.count c else 0 := by
  have hr' : r < (graph.modify i (·.setChild k r)).size := by
    rw [size_modify]
    exact hr.trans hi
  have hset := references_modify hi (·.setChild k r) c
  have href := references_modify hr' (·.ref) c
  have hcount := count_setChild hchild r c
  rw [nodeAt_modify hi, if_neg hr.ne] at href
  rw [substitute, if_pos rfl]
  have hbefore : (graph.nodeAt i).weight c = (graph.nodeAt i).operands.count c := if_neg hlive
  have hafter : ((graph.nodeAt i).setChild k r).weight c =
      ((graph.nodeAt i).setChild k r).operands.count c := if_neg hlive
  have hrevived : (graph.nodeAt r).ref.weight c = (graph.nodeAt r).operands.count c :=
    if_neg (succ_ne_zero _)
  rw [weight] at href
  split at href
  · rename_i hdead
    rw [if_pos hdead]
    omega
  · rename_i hdead
    rw [if_neg hdead]
    omega

end

theorem references_substitute_of_dead (hi : i < graph.size)
    (hdead : (graph.nodeAt i).refCount = 0) (c : ℕ) :
    (graph.substitute i k r false).references c = graph.references c := by
  have hset := references_modify hi (·.setChild k r) c
  have hbefore : (graph.nodeAt i).weight c = 0 := if_pos hdead
  have hafter : ((graph.nodeAt i).setChild k r).weight c = 0 := if_pos hdead
  rw [hbefore, hafter] at hset
  exact hset

end Graph

namespace CSEPhase

variable {phase : CSEPhase}

/-! ## The searches -/

variable {r : ℕ} {child1 : Option ℕ}

theorem lookBack_some {visit : ℕ → Visit} {start stop : ℕ}
    (h : lookBack visit start stop = some r) :
    ∃ index, start ≤ index ∧ index < stop ∧ visit index = .done (some r) := by
  induction stop with
  | zero => cases h
  | succ stop ih =>
    rw [lookBack] at h
    split at h
    · rename_i hstart
      split at h
      · rename_i result hvisit
        exact ⟨stop, le_of_lt_succ hstart, lt_succ_self _, h ▸ hvisit⟩
      · obtain ⟨index, hge, hlt, hvisit⟩ := ih h
        exact ⟨index, hge, lt_succ_of_lt hlt, hvisit⟩
    · cases h

variable (phase : CSEPhase)

theorem start_le_go (start : ℕ) (children : List (Option ℕ)) :
    start ≤ startIndexForChildren.go phase start children := by
  induction children generalizing start with
  | nil => exact le_rfl
  | cons child children ih =>
    rw [startIndexForChildren.go]
    split
    · exact le_rfl
    · exact le_trans (le_max_left _ _) (ih _)

theorem start_le_startIndexForChildren (children : List (Option ℕ)) :
    phase.start ≤ phase.startIndexForChildren children := by
  refine le_trans ?_ (start_le_go phase phase.startLimit children)
  rw [startLimit]
  split <;> omega

/-- A search gives a node it looks at, which is no phantom, or an operand of one that is no link. -/
def Visit.Sound (phase : CSEPhase) (visit : ℕ → Visit) : Prop :=
  ∀ index r, visit index = .done (some r) → r = index ∧ (phase.graph.nodeAt index).op ≠ .phantom ∨
      (phase.graph.nodeAt index).op ∉ [NodeType.getLocal, .phi, .flush] ∧
        ∃ k, (phase.graph.nodeAt index).child k = some r

theorem nextUnlessClobbered_ne (index r : ℕ) :
    phase.nextUnlessClobbered index ≠ .done (some r) := by
  rw [nextUnlessClobbered]
  split <;> nofun

theorem pastPutByVal_ne (node : Node) (r : ℕ) :
    phase.pastPutByVal node ≠ .done (some r) := by
  rw [pastPutByVal]
  split <;> nofun

variable {phase}

/-- What a search gives was looked at between the start of the block and the node at hand. -/
structure Found (phase : CSEPhase) (r : ℕ) : Prop where
  index : ∃ index, phase.start ≤ index ∧ index < phase.compileIndex ∧
    (r = index ∧ (phase.graph.nodeAt index).op ≠ .phantom ∨
      (phase.graph.nodeAt index).op ∉ [NodeType.getLocal, .phi, .flush] ∧
        ∃ k, (phase.graph.nodeAt index).child k = some r)

theorem found_of_lookBack {visit : ℕ → Visit} {children : List (Option ℕ)} {stop : ℕ}
    (hvisit : Visit.Sound phase visit) (hstop : stop ≤ phase.compileIndex)
    (h : lookBack visit (phase.startIndexForChildren children) stop = some r) : Found phase r := by
  obtain ⟨index, hstart, hlt, hdone⟩ := lookBack_some h
  exact ⟨index, le_trans (start_le_startIndexForChildren phase children) hstart,
    hlt.trans_le hstop, hvisit index r hdone⟩

theorem pureCSE_found (hop : phase.node.op ≠ .phantom)
    (hend : phase.endIndexForPureCSE ≤ phase.compileIndex) (h : phase.pureCSE = some r) :
    Found phase r := by
  refine found_of_lookBack (fun index r hdone => ?_) hend h
  dsimp only at hdone
  split at hdone
  · cases hdone
  · split at hdone
    · cases hdone
    · split at hdone
      · cases hdone
        rename_i hsame _ _
        exact .inl ⟨rfl, fun hphantom => hop ((not_not.mp hsame).trans hphantom)⟩
      · cases hdone

theorem impureCSE_found (hop : phase.node.op ≠ .phantom) (h : phase.impureCSE = some r) :
    Found phase r := by
  refine found_of_lookBack (fun index r hdone => ?_) le_rfl h
  dsimp only at hdone
  split at hdone
  · cases hdone
    rename_i hsame
    exact .inl ⟨rfl, fun hphantom => hop (hsame.1.trans hphantom)⟩
  · exact absurd hdone (nextUnlessClobbered_ne phase index r)

theorem globalVarLoadElimination_found {varNumber globalObject : ℕ}
    (h : phase.globalVarLoadElimination varNumber globalObject = some r) : Found phase r := by
  refine found_of_lookBack (fun index r hdone => ?_) le_rfl h
  dsimp only at hdone
  split at hdone
  · cases hdone
    rename_i hget
    exact .inl ⟨rfl, by rw [hget.1]; decide⟩
  · split at hdone
    · rename_i hput
      exact .inr ⟨by rw [hput.1]; decide, 0, (Visit.done.inj hdone)⟩
    · exact absurd hdone (nextUnlessClobbered_ne phase index r)

theorem getByValLoadElimination_found {child2 : Option ℕ}
    (h : phase.getByValLoadElimination child1 child2 = some r) : Found phase r := by
  refine found_of_lookBack (fun index r hdone => ?_) le_rfl h
  dsimp only at hdone
  split at hdone
  · rename_i hop
    split at hdone
    · cases hdone
    · split at hdone
      · cases hdone
        exact .inl ⟨rfl, by rw [hop]; decide⟩
      · cases hdone
  · rename_i hop
    split at hdone
    · cases hdone
    · split at hdone
      · exact .inr ⟨by rw [hop]; decide, 2, Visit.done.inj hdone⟩
      · cases hdone
  · rename_i hop
    split at hdone
    · cases hdone
    · split at hdone
      · exact .inr ⟨by rw [hop]; decide, 2, Visit.done.inj hdone⟩
      · cases hdone
  · cases hdone
  · cases hdone
  · cases hdone
  · exact absurd hdone (nextUnlessClobbered_ne phase index r)

theorem getByOffsetLoadElimination_found {identifierNumber : ℕ}
    (h : phase.getByOffsetLoadElimination identifierNumber child1 = some r) : Found phase r := by
  refine found_of_lookBack (fun index r hdone => ?_) le_rfl h
  dsimp only at hdone
  split at hdone
  · rename_i hop
    split at hdone
    · cases hdone
      exact .inl ⟨rfl, by rw [hop]; decide⟩
    · cases hdone
  · rename_i hop
    split at hdone
    · split at hdone
      · exact .inr ⟨by rw [hop]; decide, 2, Visit.done.inj hdone⟩
      · cases hdone
    · cases hdone
  · cases hdone
  · exact absurd hdone (pastPutByVal_ne phase _ r)
  · exact absurd hdone (pastPutByVal_ne phase _ r)
  · exact absurd hdone (nextUnlessClobbered_ne phase index r)

theorem getPropertyStorageLoadElimination_found
    (h : phase.getPropertyStorageLoadElimination child1 = some r) : Found phase r := by
  refine found_of_lookBack (fun index r hdone => ?_) le_rfl h
  dsimp only at hdone
  split at hdone
  · rename_i hop
    split at hdone
    · cases hdone
      exact .inl ⟨rfl, by rw [hop]; decide⟩
    · cases hdone
  · cases hdone
  · cases hdone
  · exact absurd hdone (pastPutByVal_ne phase _ r)
  · exact absurd hdone (pastPutByVal_ne phase _ r)
  · exact absurd hdone (nextUnlessClobbered_ne phase index r)

theorem getIndexedPropertyStorageLoadElimination_found {integer : Bool}
    (h : phase.getIndexedPropertyStorageLoadElimination child1 integer = some r) :
    Found phase r := by
  refine found_of_lookBack (fun index r hdone => ?_) le_rfl h
  dsimp only at hdone
  split at hdone
  · rename_i hop
    split at hdone
    · cases hdone
      exact .inl ⟨rfl, by rw [hop]; decide⟩
    · cases hdone
  · cases hdone
  · cases hdone
  · cases hdone
  · split at hdone <;> cases hdone
  · exact absurd hdone (nextUnlessClobbered_ne phase index r)

theorem getScopeChainLoadElimination_found (hend : phase.endIndexForPureCSE ≤ phase.compileIndex)
    {depth : ℕ} (h : phase.getScopeChainLoadElimination depth = some r) : Found phase r := by
  refine found_of_lookBack (fun index r hdone => ?_) hend h
  dsimp only at hdone
  split at hdone
  · cases hdone
    rename_i hget
    exact .inl ⟨rfl, by rw [hget.1]; decide⟩
  · cases hdone

/-! ## What becomes of the node at hand -/

/-- A node that may be replaced or become another operation is no variable access. -/
inductive Outcome (phase : CSEPhase) : CSEPhase → Prop
  | same : Outcome phase phase
  | replaced {r : ℕ} (hop : phase.node.op.hasVariableAccessData = false) (hr : Found phase r) :
      Outcome phase (phase.replaceBy r)
  | setOp {op : NodeType} (hold : phase.node.op.hasVariableAccessData = false)
      (hmust : phase.node.op.mustGenerate = true) (hnew : op ∈ [NodeType.putByValAlias, .phantom]) :
      Outcome phase (phase.setOp op)

theorem setReplacement_outcome (hop : phase.node.op.hasVariableAccessData = false)
    {replacement : Option ℕ} (h : ∀ r, replacement = some r → Found phase r) :
    Outcome phase (phase.setReplacement replacement) := by
  cases replacement with
  | none => exact .same
  | some r =>
    rw [setReplacement]
    split
    · exact .same
    · exact .replaced hop (h r rfl)

theorem pureCSEWhere_found (hop : phase.node.op ≠ .phantom)
    (hend : phase.endIndexForPureCSE ≤ phase.compileIndex) {isPure : Node → Bool}
    (h : phase.pureCSEWhere isPure = some r) : Found phase r := by
  rw [pureCSEWhere] at h
  split at h
  · exact pureCSE_found hop hend (Option.filter_eq_some_iff.mp h).1
  · cases h

theorem eliminateNode_outcome (hend : phase.endIndexForPureCSE ≤ phase.compileIndex) :
    Outcome phase phase.eliminateNode := by
  rw [eliminateNode]
  split
  all_goals rename_i hop
  -- the pure nodes
  all_goals try
    exact setReplacement_outcome (by rw [hop]; rfl)
      fun r h => pureCSE_found (by rw [hop]; decide) hend h
  -- the nodes that are pure where their operands are predicted so
  all_goals try
    exact setReplacement_outcome (by rw [hop]; rfl)
      fun r h => pureCSEWhere_found (by rw [hop]; decide) hend h
  · exact setReplacement_outcome (by rw [hop]; rfl)
      fun r h => impureCSE_found (by rw [hop]; decide) h
  · exact setReplacement_outcome (by rw [hop]; rfl)
      fun r h => getScopeChainLoadElimination_found hend h
  · exact setReplacement_outcome (by rw [hop]; rfl) fun r h => globalVarLoadElimination_found h
  · split
    · exact setReplacement_outcome (by rw [hop]; rfl) fun r h => getByValLoadElimination_found h
    · exact .same
  iterate 3
    split
    · exact .setOp (by rw [hop]; rfl) (by rw [hop]; rfl) (by decide)
    · exact .same
  · exact setReplacement_outcome (by rw [hop]; rfl)
      fun r h => getIndexedPropertyStorageLoadElimination_found h
  · exact setReplacement_outcome (by rw [hop]; rfl)
      fun r h => getPropertyStorageLoadElimination_found h
  · exact setReplacement_outcome (by rw [hop]; rfl) fun r h => getByOffsetLoadElimination_found h
  · exact .same

/-! ## The invariant of the phase -/

end CSEPhase

namespace Graph

def InBlock (graph : Graph) (n : ℕ) : Prop :=
  ∃ block ∈ graph.blocks, block.begin ≤ n ∧ n < block.stop

/-- A node lies in one block. -/
theorem WellFormed.begin_le_of_inBlock {graph : Graph} (h : graph.WellFormed) {n c : ℕ}
    {block other : BasicBlock} (hblock : block ∈ graph.blocks) (hother : other ∈ graph.blocks)
    (hbegin : block.begin ≤ n) (hstop : n < block.stop) (hc : other.begin ≤ c) (hlt : c < n)
    (hn : n < other.stop) : block.begin ≤ c := by
  have hboth : block = other ∨ block.stop ≤ other.begin ∨ other.stop ≤ block.begin :=
    List.Pairwise.forall_of_forall_of_flip (R := fun b b' =>
        b = b' ∨ b.stop ≤ b'.begin ∨ b'.stop ≤ b.begin) (fun _ _ => .inl rfl)
      (h.blocks_ordered.imp fun hle => .inr (.inl hle))
      (h.blocks_ordered.imp fun hle => .inr (.inr hle)) hblock hother
  rcases hboth with rfl | hle | hle
  all_goals omega

end Graph

namespace CSEPhase

variable {phase : CSEPhase} {stop : ℕ}

structure Replaced (phase : CSEPhase) (a r : ℕ) : Prop where
  phantom : (phase.graph.nodeAt a).op = .phantom
  refCount : (phase.graph.nodeAt a).refCount = 1
  earlier : phase.graph.DefinedEarlier a r
  kept : phase.replacements r = none

/-- What holds once the nodes of the blocks below `stop` have been visited. -/
structure Invariant (phase : CSEPhase) (stop : ℕ) : Prop where
  wellFormed : phase.graph.WellFormed
  replaced : ∀ {a r}, phase.replacements a = some r → phase.Replaced a r ∧ a < stop
  settled : ∀ n < stop, phase.graph.InBlock n → ∀ c ∈ (phase.graph.nodeAt n).operands,
    phase.replacements c = none
  lastSeen : ∀ op index, phase.lastSeen op = some index → index < stop

/-- The phase is at a node of a block. -/
structure IsAt (phase : CSEPhase) : Prop where
  block : ∃ block ∈ phase.graph.blocks, phase.start = block.begin ∧
    block.begin ≤ phase.compileIndex ∧ phase.compileIndex < block.stop

def Counted (phase : CSEPhase) : Prop :=
  ∀ c, phase.replacements c = none → (phase.graph.nodeAt c).refCount =
    phase.graph.references c + (phase.graph.nodeAt c).required

/-- A live node refers to a node whose count is too small and stays so. -/
structure Undercounted (phase : CSEPhase) (stop n c : ℕ) : Prop where
  live : (phase.graph.nodeAt n).refCount ≠ 0
  operand : c ∈ (phase.graph.nodeAt n).operands
  kept : phase.replacements c = none
  visited : c < stop ∨ (phase.graph.nodeAt c).op.hasVariableAccessData
  short : (phase.graph.nodeAt c).refCount <
    phase.graph.references c + (phase.graph.nodeAt c).required

theorem IsAt.lt_size (h : phase.IsAt) (hwell : phase.graph.WellFormed) :
    phase.compileIndex < phase.graph.size := by
  obtain ⟨block, hblock, -, -, hstop⟩ := h.block
  exact hstop.trans_le (hwell.stop_le block hblock)

variable {c n : ℕ} {before after : CSEPhase} {graph : Graph} {rest : List (ℕ × ℕ)}

/-- A node with variable access data is not replaced. -/
theorem Invariant.replacements_of_access (h : phase.Invariant stop)
    (hc : (phase.graph.nodeAt c).op.hasVariableAccessData) : phase.replacements c = none := by
  cases hreplaced : phase.replacements c with
  | none => rfl
  | some r =>
    rw [(h.replaced hreplaced).1.phantom] at hc
    cases hc

theorem Invariant.endIndexForPureCSE_le (h : phase.Invariant phase.compileIndex) :
    phase.endIndexForPureCSE ≤ phase.compileIndex := by
  rw [endIndexForPureCSE]
  split
  · exact zero_le _
  · rename_i index hseen
    exact h.lastSeen _ index hseen

/-- A replacement is an earlier node of the block, and has no replacement of its own. -/
theorem Found.earlier {r : ℕ} (hr : Found phase r) (h : phase.Invariant phase.compileIndex)
    (hat : phase.IsAt) : phase.graph.DefinedEarlier phase.compileIndex r ∧
      phase.replacements r = none := by
  obtain ⟨block, hblock, hstart, hbegin, hstop⟩ := hat.block
  obtain ⟨index, hge, hlt, ⟨rfl, hop⟩ | ⟨hop, k, hchild⟩⟩ := hr.index
  · refine ⟨⟨hlt, block, hblock, hstart ▸ hge, hstop⟩, ?_⟩
    cases hreplaced : phase.replacements r with
    | none => rfl
    | some r' => exact absurd (h.replaced hreplaced).1.phantom hop
  · have hoperand : r ∈ (phase.graph.nodeAt index).operands := mem_operands_of_child hchild
    have hinBlock : phase.graph.InBlock index := ⟨block, hblock, hstart ▸ hge, hlt.trans hstop⟩
    refine ⟨?_, h.settled index hlt hinBlock r hoperand⟩
    rcases h.wellFormed.operands index r hoperand with hlink | ⟨-, hr, other, hother, hge', hlt'⟩
    · exact absurd hlink.1 hop
    · exact ⟨hr.trans hlt, block, hblock, h.wellFormed.begin_le_of_inBlock hblock hother
        (hstart ▸ hge) (hlt.trans hstop) hge' hr hlt', hstop⟩

/-! ## The operands of the node at hand -/

theorem Invariant.lt_of_replaced (h : phase.Invariant stop) {a r : ℕ}
    (ha : phase.replacements a = some r) : r < stop :=
  lt_trans (h.replaced ha).1.earlier.1 (h.replaced ha).2

theorem performSubstitution_cases (phase : CSEPhase) (addRef : Bool) (k : ℕ) :
    (phase.performSubstitution addRef k = phase ∧
        ∀ c, phase.node.child k = some c → phase.replacements c = none) ∨
      ∃ a r, phase.node.child k = some a ∧ phase.replacements a = some r ∧
        phase.performSubstitution addRef k =
          { phase with graph := phase.graph.substitute phase.compileIndex k r addRef } := by
  rw [performSubstitution]
  split
  · rename_i hchild
    exact .inl ⟨rfl, fun c hc => absurd (hchild.symm.trans hc) nofun⟩
  · rename_i a hchild
    split
    · rename_i hreplacement
      refine .inl ⟨rfl, fun c hc => ?_⟩
      rw [hchild] at hc
      cases hc
      exact hreplacement
    · rename_i r hreplacement
      refine .inr ⟨a, r, hchild, hreplacement, ?_⟩
      cases addRef <;> rfl

/-- What the first `m` substitutions at a node do. -/
structure Substituted (before after : CSEPhase) (m : ℕ) : Prop where
  frame : after = { before with graph := after.graph }
  blocks : after.graph.blocks = before.graph.blocks
  size : after.graph.size = before.graph.size
  op : ∀ n, (after.graph.nodeAt n).op = (before.graph.nodeAt n).op
  operands : ∀ n ≠ before.compileIndex,
    (after.graph.nodeAt n).operands = (before.graph.nodeAt n).operands
  children : ∀ k, after.node.child k = before.node.child k ∨
    ∃ a, before.node.child k = some a ∧ before.replacements a = after.node.child k
  remaining : ∀ k, m ≤ k → after.node.child k = before.node.child k
  settled : ∀ k < m, ∀ c, after.node.child k = some c → before.replacements c = none
  refCount_le : ∀ n, (before.graph.nodeAt n).refCount ≤ (after.graph.nodeAt n).refCount
  refCount : ∀ n, (after.graph.nodeAt n).refCount ≠ (before.graph.nodeAt n).refCount →
    n < before.compileIndex ∧
      ∃ k < m, ∃ a, before.node.child k = some a ∧ before.replacements a = some n

theorem Substituted.refl (phase : CSEPhase) : Substituted phase phase 0 where
  frame := rfl
  blocks := rfl
  size := rfl
  op _ := rfl
  operands _ _ := rfl
  children _ := .inl rfl
  remaining _ _ := rfl
  settled _ hk := absurd hk (not_lt_zero _)
  refCount_le _ := le_rfl
  refCount _ hne := absurd rfl hne

variable {m i : ℕ} {f : Node → Node} {place : ℕ × ℕ}

theorem Substituted.step (h : Substituted before after m)
    (hinvariant : before.Invariant before.compileIndex) (hat : before.IsAt) (addRef : Bool) :
    Substituted before (after.performSubstitution addRef m) (m + 1) := by
  have hframe := h.frame
  have hindex : after.compileIndex = before.compileIndex := by rw [hframe]
  have hreplacements : after.replacements = before.replacements := by rw [hframe]
  rcases performSubstitution_cases after addRef m with ⟨heq, hsettled⟩ | ⟨a, r, hchild, ha, heq⟩
  · rw [heq]
    refine { h with
      remaining := fun k hk => h.remaining k (le_of_succ_le hk)
      settled := fun k hk c hc => ?_
      refCount := fun n hn => ?_ }
    · rcases Nat.lt_succ_iff_lt_or_eq.mp hk with hk | rfl
      · exact h.settled k hk c hc
      · rw [← hreplacements]
        exact hsettled c hc
    · obtain ⟨hlt, k, hk, hrest⟩ := h.refCount n hn
      exact ⟨hlt, k, lt_succ_of_lt hk, hrest⟩
  · rw [hreplacements] at ha
    have hr : r < after.compileIndex := hindex ▸ hinvariant.lt_of_replaced ha
    have hi : after.compileIndex < after.graph.size := by
      rw [hindex, h.size]
      exact hat.lt_size hinvariant.wellFormed
    have hbefore : before.node.child m = some a := (h.remaining m (le_refl m)).symm.trans hchild
    have hnode : ({ after with graph := after.graph.substitute after.compileIndex m r addRef } :
        CSEPhase).node = after.node.setChild m r := by
      rw [node, nodeAt_substitute hi hr, if_pos rfl]
      rfl
    have hm := lt_of_child hchild
    rw [heq]
    refine
      { frame := by rw [hframe]
        blocks := blocks_substitute.trans h.blocks
        size := size_substitute.trans h.size
        op := fun n => (op_substitute hi hr n).trans (h.op n)
        operands := fun n hn =>
          (operands_substitute hi hr (hindex ▸ hn)).trans (h.operands n hn)
        children := fun k => ?_
        remaining := fun k hk => ?_
        settled := fun k hk c hc => ?_
        refCount_le := fun n => ?_
        refCount := fun n hn => ?_ }
    · rw [hnode, child_setChild]
      split
      · rename_i hk
        rw [hk.1]
        exact .inr ⟨a, hbefore, ha⟩
      · exact h.children k
    · rw [hnode, child_setChild, if_neg fun hboth => by omega]
      exact h.remaining k (le_of_succ_le hk)
    · rw [hnode, child_setChild] at hc
      split at hc
      · cases hc
        exact (hinvariant.replaced ha).1.kept
      · exact h.settled k (by omega) c hc
    · rw [refCount_substitute hi hr]
      exact le_trans (h.refCount_le n) (le_add_right _ _)
    · rw [refCount_substitute hi hr] at hn
      by_cases hsame : n = r ∧ addRef
      · rw [hsame.1]
        exact ⟨hindex ▸ hr, m, lt_succ_self m, a, hbefore, ha⟩
      · rw [if_neg hsame] at hn
        obtain ⟨hlt, k, hk, hrest⟩ := h.refCount n hn
        exact ⟨hlt, k, lt_succ_of_lt hk, hrest⟩

theorem substituted (h : phase.Invariant phase.compileIndex) (hat : phase.IsAt) (addRef : Bool)
    (m : ℕ) : Substituted phase ((List.range m).foldl (performSubstitution addRef) phase) m := by
  induction m with
  | zero => exact Substituted.refl phase
  | succ m ih =>
    rw [range_succ, foldl_append]
    exact ih.step h hat addRef

section Substituted

variable {m : ℕ} (h : Substituted before after m)
include h

theorem Substituted.compileIndex_eq : after.compileIndex = before.compileIndex := by
  rw [h.frame]

theorem Substituted.replacements_eq : after.replacements = before.replacements := by
  rw [h.frame]

theorem Substituted.lt_size (hat : before.IsAt) (hwell : before.graph.WellFormed) :
    after.compileIndex < after.graph.size := by
  rw [h.compileIndex_eq, h.size]
  exact hat.lt_size hwell

theorem Substituted.live (hlive : before.node.refCount ≠ 0) : after.node.refCount ≠ 0 := by
  rw [node, h.compileIndex_eq]
  exact Nat.ne_of_gt (Nat.lt_of_lt_of_le (Nat.pos_of_ne_zero hlive) (h.refCount_le _))

end Substituted

theorem Substituted.isAt (h : Substituted before after m) (hat : before.IsAt) : after.IsAt := by
  obtain ⟨block, hblock, hrest⟩ := hat.block
  rw [h.frame]
  exact ⟨block, h.blocks ▸ hblock, hrest⟩

theorem Substituted.invariant (h : Substituted before after m)
    (hinvariant : before.Invariant before.compileIndex) : after.Invariant before.compileIndex := by
  have hreplacements := h.replacements_eq
  have hlastSeen : after.lastSeen = before.lastSeen := by rw [h.frame]
  have hearlier : ∀ n c, after.graph.DefinedEarlier n c ↔ before.graph.DefinedEarlier n c := by
    intro n c
    rw [DefinedEarlier, DefinedEarlier, h.blocks]
  refine ⟨⟨?_, ?_, ?_, ?_⟩, ?_, ?_, ?_⟩
  · rw [h.blocks]
    exact hinvariant.wellFormed.blocks_ordered
  · rw [h.blocks]
    exact hinvariant.wellFormed.begin_le
  · rw [h.blocks, h.size]
    exact hinvariant.wellFormed.stop_le
  · intro n c hc
    rw [IsLink, h.op, h.op, hearlier]
    by_cases hn : n = before.compileIndex
    · subst hn
      rw [← h.compileIndex_eq] at hc
      obtain ⟨k, -, hchild⟩ := mem_operands.mp hc
      rcases h.children k with hsame | ⟨a, ha, hreplaced⟩
      · exact hinvariant.wellFormed.operands _ c
          (mem_operands_of_child (hsame.symm.trans hchild))
      · -- an operand that is replaced is no link, and the replacement is in the block
        have hreplaced' := hinvariant.replaced (hreplaced.trans hchild)
        rcases hinvariant.wellFormed.operands _ a (mem_operands_of_child ha) with
          hlink | ⟨hop, hlt, block, hblock, hbegin, hstop⟩
        · rw [IsLink, hreplaced'.1.phantom] at hlink
          cases hlink.2
        · obtain ⟨hlt', other, hother, hbegin', hstop'⟩ := hreplaced'.1.earlier
          refine .inr ⟨hop, hlt'.trans hlt, block, hblock, ?_, hstop⟩
          exact hinvariant.wellFormed.begin_le_of_inBlock hblock hother hbegin
            (hlt.trans hstop) hbegin' hlt' hstop'
    · rw [h.operands n hn] at hc
      exact hinvariant.wellFormed.operands n c hc
  · intro a r ha
    rw [hreplacements] at ha
    obtain ⟨⟨hphantom, hrefCount, hdefined, hkept⟩, hlt⟩ := hinvariant.replaced ha
    refine ⟨⟨(h.op a).trans hphantom, ?_, (hearlier a r).mpr hdefined, hreplacements ▸ hkept⟩, hlt⟩
    by_contra hne
    rw [← hrefCount] at hne
    obtain ⟨-, k, -, a', -, ha'⟩ := h.refCount a hne
    exact absurd ((hinvariant.replaced ha').1.kept.symm.trans ha) nofun
  · intro n hn hinBlock c hc
    rw [h.operands n hn.ne] at hc
    rw [hreplacements]
    rw [InBlock, h.blocks] at hinBlock
    exact hinvariant.settled n hn hinBlock c hc
  · rw [hlastSeen]
    exact hinvariant.lastSeen

/-- After the last substitution no operand of the node has a replacement. -/
theorem Substituted.settled_node (h : Substituted before after before.node.children.length)
    (hc : c ∈ after.node.operands) : after.replacements c = none := by
  obtain ⟨k, -, hchild⟩ := mem_operands.mp hc
  rw [h.replacements_eq]
  refine h.settled k ?_ c hchild
  by_contra hge
  exact hge (lt_of_child ((h.remaining k (not_lt.mp hge)).symm.trans hchild))

/-! ## The counts -/

/-- The operand `k` of the node at hand is replaced by a dead node that has operands. -/
def RevivesAt (phase : CSEPhase) (k : ℕ) : Prop :=
  ∃ a r, phase.node.child k = some a ∧ phase.replacements a = some r ∧
    (phase.graph.nodeAt r).refCount = 0 ∧ (phase.graph.nodeAt r).operands ≠ []

section Counts

variable {k a r : ℕ}

theorem Counted.substitute (h : phase.Counted) (hi : phase.compileIndex < phase.graph.size)
    (hr : r < phase.compileIndex) (hlive : phase.node.refCount ≠ 0)
    (hchild : phase.node.child k = some a) (ha : phase.replacements a = some r)
    (hnot : (phase.graph.nodeAt r).refCount = 0 → (phase.graph.nodeAt r).operands = []) :
    Counted { phase with graph := phase.graph.substitute phase.compileIndex k r true } := by
  intro c hc
  have hbefore := h c hc
  have hne : c ≠ a := by
    rintro rfl
    exact absurd (hc.symm.trans ha) nofun
  have hreferences := references_substitute hi hr hlive hchild c
  rw [refCount_substitute hi hr, required_substitute hi hr]
  rw [if_neg hne] at hreferences
  have hzero : (if (phase.graph.nodeAt r).refCount = 0 then
      (phase.graph.nodeAt r).operands.count c else 0) = 0 := by
    split
    · rw [hnot ‹_›]
      rfl
    · rfl
  simp only [and_true]
  omega

/-- A dead node that comes to life does not count for its operands. -/
theorem Counted.undercounted (h : phase.Counted) (hinvariant : phase.Invariant phase.compileIndex)
    (hi : phase.compileIndex < phase.graph.size) (hlive : phase.node.refCount ≠ 0)
    (hchild : phase.node.child k = some a) (ha : phase.replacements a = some r)
    (hdead : (phase.graph.nodeAt r).refCount = 0)
    (hoperands : (phase.graph.nodeAt r).operands ≠ []) :
    ∃ n c, Undercounted { phase with
      graph := phase.graph.substitute phase.compileIndex k r true } phase.compileIndex n c := by
  obtain ⟨c, hc⟩ := exists_mem_of_ne_nil _ hoperands
  have hr := hinvariant.lt_of_replaced ha
  obtain ⟨⟨-, -, ⟨hlt, block, hblock, hbegin, hstop⟩, -⟩, -⟩ := hinvariant.replaced ha
  have hkept := hinvariant.settled r hr ⟨block, hblock, hbegin, hlt.trans hstop⟩ c hc
  have hne : c ≠ a := by
    rintro rfl
    exact absurd (hkept.symm.trans ha) nofun
  refine ⟨r, c, ?_, ?_, hkept, ?_, ?_⟩
  · rw [refCount_substitute hi hr, if_pos ⟨rfl, rfl⟩]
    exact succ_ne_zero _
  · rw [operands_substitute hi hr hr.ne]
    exact hc
  · rw [op_substitute hi hr]
    rcases hinvariant.wellFormed.operands r c hc with hlink | ⟨-, hlt', -⟩
    · exact .inr hlink.2
    · exact .inl (hlt'.trans hr)
  · have hreferences := references_substitute hi hr hlive hchild c
    have hbefore := h c hkept
    have hpos : 0 < (phase.graph.nodeAt r).operands.count c := count_pos_iff.mpr hc
    rw [if_neg hne, if_pos hdead] at hreferences
    rw [refCount_substitute hi hr, required_substitute hi hr]
    simp only [and_true]
    omega

theorem Undercounted.substitute (h : phase.Undercounted stop n c)
    (hi : phase.compileIndex < phase.graph.size) (hr : r < phase.compileIndex)
    (hlive : phase.node.refCount ≠ 0) (hchild : phase.node.child k = some a)
    (ha : phase.replacements a = some r) : Undercounted { phase with
      graph := phase.graph.substitute phase.compileIndex k r true } stop n c := by
  have hne : c ≠ a := by
    rintro rfl
    exact absurd (h.kept.symm.trans ha) nofun
  refine ⟨?_, ?_, h.kept, ?_, ?_⟩
  · rw [refCount_substitute hi hr]
    exact Nat.ne_of_gt (Nat.lt_of_lt_of_le (Nat.pos_of_ne_zero h.live) (Nat.le_add_right _ _))
  · by_cases hn : n = phase.compileIndex
    · subst hn
      have hcount := count_setChild hchild r c
      rw [if_neg hne] at hcount
      rw [nodeAt_substitute hi hr, if_pos rfl]
      refine count_pos_iff.mp (lt_of_lt_of_le (count_pos_iff.mpr h.operand) ?_)
      exact le_trans (le_add_right _ _) hcount.symm.le
    · rw [operands_substitute hi hr hn]
      exact h.operand
  · rw [op_substitute hi hr]
    exact h.visited
  · have hreferences := references_substitute hi hr hlive hchild c
    have hshort := h.short
    rw [if_neg hne] at hreferences
    rw [refCount_substitute hi hr, required_substitute hi hr]
    simp only [and_true]
    omega

end Counts

/-- What holds before the operands, and is kept by one that stays and by one that is replaced. -/
theorem substitutions_induction {motive : ℕ → CSEPhase → Prop} {addRef : Bool}
    (h : phase.Invariant phase.compileIndex) (hat : phase.IsAt) (zero : motive 0 phase)
    (kept : ∀ {m after}, Substituted phase after m →
      (∀ c, after.node.child m = some c → after.replacements c = none) →
        motive m after → motive (m + 1) after)
    (replaced : ∀ {m after a r}, Substituted phase after m → after.Invariant after.compileIndex →
      after.compileIndex < after.graph.size → r < after.compileIndex →
        after.node.child m = some a → after.replacements a = some r → motive m after →
          motive (m + 1)
            { after with graph := after.graph.substitute after.compileIndex m r addRef })
    (m : ℕ) : motive m ((List.range m).foldl (performSubstitution addRef) phase) := by
  induction m with
  | zero => exact zero
  | succ m ih =>
    have hdone := substituted h hat addRef m
    have hinvariant := hdone.invariant h
    rw [← hdone.compileIndex_eq] at hinvariant
    rw [range_succ, foldl_append, foldl_cons, foldl_nil]
    rcases performSubstitution_cases _ addRef m with ⟨heq, hnone⟩ | ⟨a, r, hchild, ha, heq⟩
    · rw [heq]
      exact kept hdone hnone ih
    · rw [heq]
      exact replaced hdone hinvariant (hdone.lt_size hat h.wellFormed)
        (hinvariant.lt_of_replaced ha) hchild ha ih

section

variable (h : phase.Invariant phase.compileIndex) (hat : phase.IsAt)
include h hat

/-- The counts stay exact until an operand revives its replacement, and never after. -/
theorem counts_of_substitutions
    (hlive : phase.node.refCount ≠ 0) (hcounted : phase.Counted) (m : ℕ) :
    ((∀ k < m, ¬phase.RevivesAt k) →
        ((List.range m).foldl (performSubstitution true) phase).Counted) ∧
      ((∃ k < m, phase.RevivesAt k) → ∃ n c,
        ((List.range m).foldl (performSubstitution true) phase).Undercounted
          phase.compileIndex n c) := by
  refine substitutions_induction (motive := fun m after =>
    ((∀ k < m, ¬phase.RevivesAt k) → after.Counted) ∧ ((∃ k < m, phase.RevivesAt k) →
      ∃ n c, after.Undercounted phase.compileIndex n c)) h hat
    ⟨fun _ => hcounted, fun ⟨k, hk, _⟩ => absurd hk (not_lt_zero k)⟩ ?_ ?_ m
  · intro m after hdone hnone ih
    have hnot : ¬phase.RevivesAt m := by
      rintro ⟨a, r, hchild, ha, -⟩
      rw [← hdone.replacements_eq] at ha
      exact absurd ((hnone a ((hdone.remaining m (le_refl m)).trans hchild)).symm.trans ha)
        nofun
    refine ⟨fun hall => ih.1 fun k hk => hall k (lt_succ_of_lt hk), ?_⟩
    rintro ⟨k, hk, hrevives⟩
    rcases Nat.lt_succ_iff_lt_or_eq.mp hk with hk | rfl
    · exact ih.2 ⟨k, hk, hrevives⟩
    · exact absurd hrevives hnot
  · intro m after a r hdone hinvariant hi hr hchild ha ih
    have hindex := hdone.compileIndex_eq
    have hreplacements := hdone.replacements_eq
    have hlive' := hdone.live hlive
    have hbefore := (hdone.remaining m (le_refl m)).symm.trans hchild
    have hoperands := hdone.operands r (hindex ▸ Nat.ne_of_lt hr)
    constructor
    · intro hall
      refine (ih.1 fun k hk => hall k (lt_succ_of_lt hk)).substitute hi hr hlive' hchild ha
        fun hdead => ?_
      rw [hoperands]
      by_contra hne
      refine hall m (lt_succ_self m) ⟨a, r, hbefore, hreplacements ▸ ha, ?_, hne⟩
      exact le_zero.mp (hdead ▸ hdone.refCount_le r)
    · intro hsome
      by_cases hearlier : ∃ k < m, phase.RevivesAt k
      · obtain ⟨n, c, hshort⟩ := ih.2 hearlier
        exact ⟨n, c, hshort.substitute hi hr hlive' hchild ha⟩
      · -- the first operand that revives its replacement is this one
        obtain ⟨k, hk, hrevives⟩ := hsome
        have hkm : k = m := by
          by_contra hne
          exact hearlier ⟨k, by omega, hrevives⟩
        subst hkm
        obtain ⟨a', r', hchild', ha', hdead, hne⟩ := hrevives
        cases hbefore.symm.trans hchild'
        cases (hreplacements ▸ ha).symm.trans ha'
        have hdead' : (after.graph.nodeAt r).refCount = 0 := by
          by_contra hbumped
          rw [← hdead] at hbumped
          obtain ⟨-, k', hk', a', hchild'', ha''⟩ := hdone.refCount r hbumped
          exact hearlier ⟨k', hk', a', r, hchild'', ha'', hdead, hne⟩
        rw [← hindex]
        exact (ih.1 fun k' hk' hrevives => hearlier ⟨k', hk', hrevives⟩).undercounted hinvariant
          hi hlive' hchild ha hdead' (hoperands ▸ hne)

/-- A node that is not generated adds no reference. -/
theorem counts_of_dead_substitutions (hdead : phase.node.shouldGenerate = false) (m : ℕ) :
    (phase.Counted → ((List.range m).foldl (performSubstitution false) phase).Counted) ∧
      ∀ n c, phase.Undercounted stop n c →
        ((List.range m).foldl (performSubstitution false) phase).Undercounted stop n c := by
  refine substitutions_induction (motive := fun _ after => (phase.Counted → after.Counted) ∧
    ∀ n c, phase.Undercounted stop n c → after.Undercounted stop n c) h hat
    ⟨id, fun _ _ => id⟩ (fun _ _ => id) ?_ m
  intro m after a r hdone hinvariant hi hr hchild ha ih
  have hindex := hdone.compileIndex_eq
  have hrefCount : after.node.refCount = 0 := by
    rcases hinvariant.wellFormed.operands _ a (mem_operands_of_child hchild) with
      hlink | ⟨hop, -⟩
    · rw [IsLink, (hinvariant.replaced ha).1.phantom] at hlink
      cases hlink.2
    · by_contra hne
      have hsame : after.node.refCount = phase.node.refCount := by
        by_contra hbumped
        rw [node, hindex] at hbumped
        exact absurd (hdone.refCount _ hbumped).1 (lt_irrefl _)
      rw [hindex, hdone.op] at hop
      simp only [mem_cons, not_or] at hop
      rw [shouldGenerate, ← hsame] at hdead
      simp [node, hop.1, hop.2] at hdead
      exact hne hdead
  refine ⟨fun hcounted c hc => ?_, fun n c hundercounted => ?_⟩
  · rw [refCount_substitute hi hr, required_substitute hi hr,
      references_substitute_of_dead hi hrefCount, ih.1 hcounted c hc]
    simp
  · obtain ⟨hlive, hoperand, hkept, hvisited, hshort⟩ := ih.2 n c hundercounted
    have hn : n ≠ after.compileIndex := by
      rintro rfl
      exact hlive hrefCount
    refine ⟨?_, ?_, hkept, ?_, ?_⟩
    · rw [refCount_substitute hi hr]
      simpa using hlive
    · rw [operands_substitute hi hr hn]
      exact hoperand
    · rw [op_substitute hi hr]
      exact hvisited
    · rw [refCount_substitute hi hr, required_substitute hi hr,
        references_substitute_of_dead hi hrefCount]
      simpa using hshort

theorem undercounted_of_substitutions
    (hlive : phase.node.refCount ≠ 0) (hshort : phase.Undercounted stop n c) (m : ℕ) :
    ((List.range m).foldl (performSubstitution true) phase).Undercounted stop n c :=
  substitutions_induction (motive := fun _ after => after.Undercounted stop n c) h hat hshort
    (fun _ _ => id) (fun hdone _ hi hr hchild ha ih =>
      ih.substitute hi hr (hdone.live hlive) hchild ha) m

end

/-! ## The node itself -/

theorem nodeAt_modify_of_ne (hi : i < phase.graph.size) (f : Node → Node) (hn : n ≠ i) :
    (phase.graph.modify i f).nodeAt n = phase.graph.nodeAt n := by
  rw [nodeAt_modify hi, if_neg hn]

theorem operands_modify (hi : i < phase.graph.size)
    (hsame : (f (phase.graph.nodeAt i)).operands = (phase.graph.nodeAt i).operands) :
    ((phase.graph.modify i f).nodeAt n).operands = (phase.graph.nodeAt n).operands := by
  rw [nodeAt_modify hi]
  split
  · rename_i hn
    rw [hn]
    exact hsame
  · rfl

/-- A node that is no variable access can become another that is none. -/
theorem wellFormed_modify (h : phase.graph.WellFormed) (hi : i < phase.graph.size)
    (hoperands : (f (phase.graph.nodeAt i)).operands =
      (phase.graph.nodeAt i).operands)
    (hold : (phase.graph.nodeAt i).op.hasVariableAccessData = false)
    (hnew : (f (phase.graph.nodeAt i)).op ∈ [NodeType.putByValAlias, .phantom]) :
    (phase.graph.modify i f).WellFormed := by
  refine ⟨h.blocks_ordered, h.begin_le, ?_, fun n c hc => ?_⟩
  · rw [size_modify]
    exact h.stop_le
  · have hoperand : c ∈ (phase.graph.nodeAt n).operands := operands_modify hi hoperands ▸ hc
    rcases h.operands n c hoperand with ⟨hop, haccess⟩ | ⟨hop, hearlier⟩
    · have hn : n ≠ i := by
        rintro rfl
        revert hop hold
        generalize (phase.graph.nodeAt n).op = op
        intro hop hold
        simp only [mem_cons, not_mem_nil, or_false] at hop
        rcases hop with rfl | rfl | rfl <;> cases hold
      have hc : c ≠ i := by
        rintro rfl
        rw [hold] at haccess
        cases haccess
      refine .inl ⟨?_, ?_⟩
      · rw [nodeAt_modify_of_ne hi f hn]
        exact hop
      · rw [nodeAt_modify_of_ne hi f hc]
        exact haccess
    · refine .inr ⟨?_, hearlier⟩
      rw [nodeAt_modify hi]
      split
      · simp only [mem_cons, not_mem_nil, or_false] at hnew
        rcases hnew with hnew | hnew <;> rw [hnew] <;> decide
      · exact hop

theorem invariant_of_same (h : phase.Invariant phase.compileIndex)
    (hsettled : ∀ c ∈ phase.node.operands, phase.replacements c = none) :
    phase.Invariant (phase.compileIndex + 1) where
  wellFormed := h.wellFormed
  replaced ha := ⟨(h.replaced ha).1, lt_succ_of_lt (h.replaced ha).2⟩
  settled n hn hinBlock c hc := by
    rcases Nat.lt_succ_iff_lt_or_eq.mp hn with hn | rfl
    · exact h.settled n hn hinBlock c hc
    · exact hsettled c hc
  lastSeen op index hseen := lt_succ_of_lt (h.lastSeen op index hseen)

theorem replacements_replaceBy (hc : c ≠ phase.compileIndex) (r : ℕ) :
    (phase.replaceBy r).replacements c = phase.replacements c :=
  Function.update_of_ne hc _ _

section Visited

variable (h : phase.Invariant phase.compileIndex) (hat : phase.IsAt)
  (hsettled : ∀ c ∈ phase.node.operands, phase.replacements c = none)
include h hat hsettled

theorem invariant_of_setOp {op : NodeType} (hold : phase.node.op.hasVariableAccessData = false)
    (hnew : op ∈ [NodeType.putByValAlias, .phantom]) :
    (phase.setOp op).Invariant (phase.compileIndex + 1) := by
  have hi := hat.lt_size h.wellFormed
  have hsame := invariant_of_same h hsettled
  refine ⟨wellFormed_modify h.wellFormed hi rfl hold hnew, fun {a r} ha => ?_,
    fun n hn hinBlock c hc => ?_, hsame.lastSeen⟩
  · obtain ⟨⟨hphantom, hrefCount, hearlier, hkept⟩, hlt⟩ := h.replaced ha
    refine ⟨⟨?_, ?_, hearlier, hkept⟩, lt_succ_of_lt hlt⟩
    · exact (congrArg Node.op (nodeAt_modify_of_ne hi _ hlt.ne)).trans hphantom
    · exact (congrArg refCount (nodeAt_modify_of_ne hi _ hlt.ne)).trans hrefCount
  · refine hsame.settled n hn hinBlock c ?_
    rw [setOp, modify, operands_modify hi rfl] at hc
    exact hc

theorem invariant_of_replaceBy {r : ℕ} (hold : phase.node.op.hasVariableAccessData = false)
    (hr : Found phase r) : (phase.replaceBy r).Invariant (phase.compileIndex + 1) := by
  have hi := hat.lt_size h.wellFormed
  have hsame := invariant_of_same h hsettled
  obtain ⟨hearlier, hkept⟩ := hr.earlier h hat
  refine ⟨wellFormed_modify h.wellFormed hi rfl hold (by simp), fun {a r'} ha => ?_,
    fun n hn hinBlock c hc => ?_, hsame.lastSeen⟩
  · by_cases hai : a = phase.compileIndex
    · subst hai
      have hr' : r' = r := by
        simpa [replaceBy, eq_comm] using ha
      rw [hr']
      have hnode : (phase.replaceBy r).graph.nodeAt phase.compileIndex =
          { phase.node with op := .phantom, refCount := 1 } := by
        rw [replaceBy, modify, nodeAt_modify hi, if_pos rfl]
        rfl
      refine ⟨⟨by rw [hnode], by rw [hnode], hearlier, ?_⟩, lt_succ_self _⟩
      rw [replacements_replaceBy hearlier.1.ne]
      exact hkept
    · rw [replacements_replaceBy hai] at ha
      obtain ⟨⟨hphantom, hrefCount, hearlier', hkept'⟩, hlt⟩ := h.replaced ha
      refine ⟨⟨?_, ?_, hearlier', ?_⟩, lt_succ_of_lt hlt⟩
      · exact (congrArg op (nodeAt_modify_of_ne hi _ hai)).trans hphantom
      · exact (congrArg refCount (nodeAt_modify_of_ne hi _ hai)).trans hrefCount
      · rw [replacements_replaceBy (Nat.ne_of_lt (hearlier'.1.trans hlt))]
        exact hkept'
  · have hoperand : c ∈ (phase.graph.nodeAt n).operands := by
      rw [replaceBy, modify, operands_modify hi rfl] at hc
      exact hc
    have hc' : c ≠ phase.compileIndex := by
      rintro rfl
      rcases h.wellFormed.operands n _ hoperand with ⟨-, haccess⟩ | ⟨-, hlt, -⟩
      · rw [node] at hold
        rw [hold] at haccess
        cases haccess
      · omega
    rw [replacements_replaceBy hc']
    exact hsame.settled n hn hinBlock c hoperand

end Visited

section Outcomes

variable {after : CSEPhase}

theorem Outcome.frame (h : phase.Outcome after) :
    after.graph.blocks = phase.graph.blocks ∧ after.compileIndex = phase.compileIndex ∧
      after.graph.size = phase.graph.size := by
  cases h with
  | same => exact ⟨rfl, rfl, rfl⟩
  | _ => exact ⟨rfl, rfl, size_modify _ _ _⟩

theorem Outcome.invariant (houtcome : phase.Outcome after)
    (h : phase.Invariant phase.compileIndex) (hat : phase.IsAt)
    (hsettled : ∀ c ∈ phase.node.operands, phase.replacements c = none) :
    after.Invariant (phase.compileIndex + 1) := by
  cases houtcome with
  | same => exact invariant_of_same h hsettled
  | replaced hold hr => exact invariant_of_replaceBy h hat hsettled hold hr
  | setOp hold _ hnew => exact invariant_of_setOp h hat hsettled hold hnew

theorem required_setOp {op : NodeType} (hmust : phase.node.op.mustGenerate = true)
    (hnew : op ∈ [NodeType.putByValAlias, .phantom]) :
    ({ phase.node with op := op } : Node).required = phase.node.required := by
  have hop : op.mustGenerate = true := by
    simp only [mem_cons, not_mem_nil, or_false] at hnew
    rcases hnew with rfl | rfl <;> rfl
  rw [required, required, hmust, hop]

section

variable (houtcome : phase.Outcome after) (hi : phase.compileIndex < phase.graph.size)
  (hlive : phase.node.refCount ≠ 0)
include hi hlive houtcome

theorem Outcome.counted (hcounted : phase.Counted) : after.Counted := by
  cases houtcome with
  | same => exact hcounted
  | replaced =>
    intro c hc
    have hne : c ≠ phase.compileIndex := by
      rintro rfl
      simp [replaceBy] at hc
    rw [replacements_replaceBy hne] at hc
    rw [replaceBy, modify]
    rw [nodeAt_modify_of_ne hi _ hne, references_modify_of_live hi hlive one_ne_zero rfl]
    exact hcounted c hc
  | setOp _ hmust hnew =>
    intro c hc
    rw [CSEPhase.setOp, modify]
    rw [references_modify_of_live hi hlive hlive rfl]
    by_cases hci : c = phase.compileIndex
    · subst hci
      rw [nodeAt_modify hi, if_pos rfl]
      exact (hcounted _ hc).trans (congrArg _ (required_setOp hmust hnew).symm)
    · rw [nodeAt_modify_of_ne hi _ hci]
      exact hcounted c hc

theorem Outcome.undercounted (hshort : phase.Undercounted phase.compileIndex n c) :
    after.Undercounted (phase.compileIndex + 1) n c := by
  obtain ⟨hn, hoperand, hkept, hvisited, hlt⟩ := hshort
  have hvisited' : c < phase.compileIndex + 1 ∨ (phase.graph.nodeAt c).op.hasVariableAccessData :=
    hvisited.imp_left lt_succ_of_lt
  cases houtcome with
  | same => exact ⟨hn, hoperand, hkept, hvisited', hlt⟩
  | replaced hold =>
    have hne : c ≠ phase.compileIndex := by
      rintro rfl
      rcases hvisited with hvisited | haccess
      · exact lt_irrefl _ hvisited
      · rw [node] at hold
        rw [hold] at haccess
        cases haccess
    refine ⟨?_, ?_, (replacements_replaceBy hne _).trans hkept, ?_, ?_⟩
    all_goals rw [replaceBy, modify]
    · rw [nodeAt_modify hi]
      split
      · exact one_ne_zero
      · exact hn
    · rw [operands_modify hi rfl]
      exact hoperand
    · rw [nodeAt_modify_of_ne hi _ hne]
      exact hvisited'
    · rw [nodeAt_modify_of_ne hi _ hne, references_modify_of_live hi hlive one_ne_zero rfl]
      exact hlt
  | setOp hold hmust hnew =>
    refine ⟨?_, ?_, hkept, ?_, ?_⟩
    all_goals rw [CSEPhase.setOp, modify]
    · rw [nodeAt_modify hi]
      split
      · exact hlive
      · exact hn
    · rw [operands_modify hi rfl]
      exact hoperand
    · by_cases hci : c = phase.compileIndex
      · exact .inl (lt_succ_of_le hci.le)
      · rw [nodeAt_modify_of_ne hi _ hci]
        exact hvisited'
    · rw [references_modify_of_live hi hlive hlive rfl]
      by_cases hci : c = phase.compileIndex
      · subst hci
        rw [nodeAt_modify hi, if_pos rfl]
        exact lt_of_lt_of_eq hlt (congrArg _ (required_setOp hmust hnew).symm)
      · rw [nodeAt_modify_of_ne hi _ hci]
        exact hlt

end

end Outcomes

/-! ## A step -/

/-- The step takes an operand's dead replacement, which has operands of its own, into use. -/
def RevivesDeadNode (phase : CSEPhase) : Prop :=
  phase.node.shouldGenerate ∧ ∃ a ∈ phase.node.operands, ∃ r, phase.replacements a = some r ∧
    (phase.graph.nodeAt r).refCount = 0 ∧ (phase.graph.nodeAt r).operands ≠ []

theorem revivesDeadNode_iff : phase.RevivesDeadNode ↔ phase.node.shouldGenerate ∧
    ∃ k < phase.node.children.length, phase.RevivesAt k := by
  refine and_congr_right fun _ => ⟨?_, ?_⟩
  · rintro ⟨a, ha, r, hrest⟩
    obtain ⟨k, hk, hchild⟩ := mem_operands.mp ha
    exact ⟨k, hk, a, r, hchild, hrest⟩
  · rintro ⟨k, -, a, r, hchild, hrest⟩
    exact ⟨a, mem_operands_of_child hchild, r, hrest⟩

theorem refCount_ne_zero_of_shouldGenerate {node : Node} (h : node.shouldGenerate = true) :
    node.refCount ≠ 0 := by
  rw [shouldGenerate, Bool.and_eq_true, Bool.and_eq_true] at h
  simpa using h.1.1

/-- What a step keeps, with the node at hand visited after it. -/
structure Step (phase after : CSEPhase) : Prop where
  invariant : after.Invariant (phase.compileIndex + 1)
  blocks : after.graph.blocks = phase.graph.blocks
  counted : phase.Counted → ¬phase.RevivesDeadNode → after.Counted
  revived : phase.Counted → phase.RevivesDeadNode →
    ∃ n c, after.Undercounted (phase.compileIndex + 1) n c
  undercounted : ∀ {n c}, phase.Undercounted phase.compileIndex n c →
    after.Undercounted (phase.compileIndex + 1) n c

theorem Invariant.recordSeen (h : phase.Invariant stop) (hlt : phase.compileIndex < stop) :
    phase.recordSeen.Invariant stop := by
  refine ⟨h.wellFormed, fun {a r} ha => ?_, h.settled, fun op index hseen => ?_⟩
  · obtain ⟨⟨hphantom, hrefCount, hearlier, hkept⟩, hlt⟩ := h.replaced ha
    exact ⟨⟨hphantom, hrefCount, hearlier, hkept⟩, hlt⟩
  · rw [CSEPhase.recordSeen] at hseen
    dsimp only at hseen
    rw [Function.update_apply] at hseen
    split at hseen
    · cases hseen
      exact hlt
    · exact h.lastSeen op index hseen

theorem Undercounted.later {next : ℕ} (h : phase.Undercounted stop n c) (hle : stop ≤ next) :
    phase.Undercounted next n c :=
  { h with visited := h.visited.imp_left fun hlt => hlt.trans_le hle }

theorem Undercounted.recordSeen (h : phase.Undercounted stop n c) :
    phase.recordSeen.Undercounted stop n c :=
  { h with }

theorem performNodeCSE_dead (hdead : phase.node.shouldGenerate = false) :
    phase.performNodeCSE = phase.performSubstitutions false := by
  rw [performNodeCSE, hdead]
  rfl

theorem performNodeCSE_live (hlive : phase.node.shouldGenerate = true) :
    phase.performNodeCSE = (phase.performSubstitutions true).eliminateNode.recordSeen := by
  rw [performNodeCSE, hlive]
  rfl

theorem performNodeCSE_step (h : phase.Invariant phase.compileIndex) (hat : phase.IsAt) :
    Step phase phase.performNodeCSE := by
  cases hgenerate : phase.node.shouldGenerate with
  | false =>
    have hdone := substituted h hat false phase.node.children.length
    have hindex : (phase.performSubstitutions false).compileIndex = phase.compileIndex := by
      rw [performSubstitutions, hdone.frame]
    have hinvariant : (phase.performSubstitutions false).Invariant
        (phase.performSubstitutions false).compileIndex := by
      rw [hindex]
      exact hdone.invariant h
    rw [performNodeCSE_dead hgenerate]
    exact
      { invariant := hindex ▸ invariant_of_same hinvariant fun c hc => hdone.settled_node hc
        blocks := hdone.blocks
        counted := fun hcounted _ =>
          (@counts_of_dead_substitutions _ 0 h hat hgenerate _).1 hcounted
        revived := fun _ hrevives => absurd (hgenerate.symm.trans hrevives.1) nofun
        undercounted := fun hshort =>
          ((counts_of_dead_substitutions h hat hgenerate _).2 _ _ hshort).later (le_succ _) }
  | true =>
    have hdone := substituted h hat true phase.node.children.length
    have hlive := refCount_ne_zero_of_shouldGenerate hgenerate
    have hbefore : phase.performSubstitutions true =
      (List.range phase.node.children.length).foldl (performSubstitution true) phase := rfl
    rw [← hbefore] at hdone
    rw [performNodeCSE_live hgenerate]
    generalize hsubstituted : phase.performSubstitutions true = after at *
    have hindex := hdone.compileIndex_eq
    have hinvariant : after.Invariant after.compileIndex := hindex ▸ hdone.invariant h
    have hat' := hdone.isAt hat
    have hi := hat'.lt_size hinvariant.wellFormed
    have hlive' := hdone.live hlive
    have houtcome := eliminateNode_outcome hinvariant.endIndexForPureCSE_le
    have hnext := houtcome.invariant hinvariant hat' fun c hc => hdone.settled_node hc
    have hframe := houtcome.frame
    rw [hindex] at hnext
    refine
      { invariant := hnext.recordSeen (by rw [hframe.2.1, hindex]; exact lt_succ_self _)
        blocks := hframe.1.trans hdone.blocks
        counted := fun hcounted hnot => houtcome.counted hi hlive' ?_
        revived := fun hcounted hrevives => ?_
        undercounted := fun hshort => ?_ }
    · rw [hbefore]
      refine (counts_of_substitutions h hat hlive hcounted _).1 fun k hk hrevives => ?_
      exact hnot (revivesDeadNode_iff.mpr ⟨hgenerate, k, hk, hrevives⟩)
    · obtain ⟨n, c, hshort⟩ :=
        (counts_of_substitutions h hat hlive hcounted _).2 (revivesDeadNode_iff.mp hrevives).2
      rw [← hbefore, ← hindex] at hshort
      rw [← hindex]
      exact ⟨n, c, (houtcome.undercounted hi hlive' hshort).recordSeen⟩
    · have hshort' := undercounted_of_substitutions h hat hlive hshort phase.node.children.length
      rw [← hbefore, ← hindex] at hshort'
      rw [← hindex]
      exact (houtcome.undercounted hi hlive' hshort').recordSeen

/-! ## The run -/

/-- The steps of the phase: the start of the block, and the node. -/
def visits (graph : Graph) : List (ℕ × ℕ) :=
  graph.blocks.flatMap fun block =>
    (List.range' block.begin (block.stop - block.begin)).map (block.begin, ·)

def visit (phase : CSEPhase) (place : ℕ × ℕ) : CSEPhase :=
  (phase.goTo place.1 place.2).performNodeCSE

theorem run_eq (graph : Graph) : run graph = (visits graph).foldl visit (initial graph) := by
  rw [run, visits]
  generalize initial graph = phase
  induction graph.blocks generalizing phase with
  | nil => rfl
  | cons block blocks ih =>
    rw [foldl_cons, flatMap_cons, foldl_append, foldl_map, ih]
    rfl

/-- No step takes a dead replacement into use. -/
def RevivesNone (phase : CSEPhase) : List (ℕ × ℕ) → Prop
  | [] => True
  | place :: rest =>
    ¬(phase.goTo place.1 place.2).RevivesDeadNode ∧ RevivesNone (phase.visit place) rest

/-- The steps that remain once the nodes below `stop` are visited. -/
structure Remaining (blocks : List BasicBlock) (stop : ℕ) (rest : List (ℕ × ℕ)) : Prop where
  sorted : rest.Pairwise fun place next => place.2 < next.2
  mem : ∀ place, place ∈ rest ↔ stop ≤ place.2 ∧ ∃ block ∈ blocks,
    place.1 = block.begin ∧ block.begin ≤ place.2 ∧ place.2 < block.stop

theorem remaining_visits (h : graph.WellFormed) : Remaining graph.blocks 0 (visits graph) where
  sorted := by
    rw [visits, pairwise_flatMap]
    refine ⟨fun block _ => ?_, h.blocks_ordered.imp fun {block next} hle x hx y hy => ?_⟩
    · rw [pairwise_map]
      exact pairwise_lt_range'
    · obtain ⟨i, hi, rfl⟩ := mem_map.mp hx
      obtain ⟨j, hj, rfl⟩ := mem_map.mp hy
      rw [mem_range'_1] at hi hj
      omega
  mem place := by
    rw [visits, mem_flatMap]
    constructor
    · rintro ⟨block, hblock, hmem⟩
      obtain ⟨i, hi, rfl⟩ := mem_map.mp hmem
      rw [mem_range'_1] at hi
      exact ⟨zero_le _, block, hblock, rfl, hi.1, by dsimp only; omega⟩
    · rintro ⟨-, block, hblock, hstart, hbegin, hstop⟩
      refine ⟨block, hblock, mem_map.mpr ⟨place.2, ?_, ?_⟩⟩
      · rw [mem_range'_1]
        omega
      · rw [← hstart]

theorem Remaining.tail {blocks : List BasicBlock}
    (h : Remaining blocks stop (place :: rest)) : Remaining blocks (place.2 + 1) rest where
  sorted := h.sorted.of_cons
  mem next := by
    constructor
    · intro hnext
      exact ⟨rel_of_pairwise_cons h.sorted hnext, ((h.mem next).mp (mem_cons_of_mem _ hnext)).2⟩
    · rintro ⟨hlt, hblock⟩
      have hstop := ((h.mem place).mp mem_cons_self).1
      rcases mem_cons.mp ((h.mem next).mpr ⟨by omega, hblock⟩) with rfl | hmem
      · omega
      · exact hmem

/-- The blocks have no node between those visited and the next one. -/
theorem Invariant.goTo (h : phase.Invariant stop)
    (hrest : Remaining phase.graph.blocks stop (place :: rest)) :
    (phase.goTo place.1 place.2).Invariant place.2 := by
  have hstop := ((hrest.mem place).mp mem_cons_self).1
  refine ⟨h.wellFormed, fun {a r} ha => ?_, fun n hn hinBlock => ?_, fun op index hseen => ?_⟩
  · obtain ⟨⟨hphantom, hrefCount, hearlier, hkept⟩, hlt⟩ := h.replaced ha
    exact ⟨⟨hphantom, hrefCount, hearlier, hkept⟩, hlt.trans_le hstop⟩
  · refine h.settled n ?_ hinBlock
    by_contra hge
    obtain ⟨block, hblock, hbegin, hlt⟩ := hinBlock
    have hmem := (hrest.mem (block.begin, n)).mpr
      ⟨Nat.le_of_not_lt hge, block, hblock, rfl, hbegin, hlt⟩
    rcases mem_cons.mp hmem with heq | hmem
    · rw [← heq] at hn
      exact lt_irrefl n hn
    · exact lt_asymm hn (rel_of_pairwise_cons hrest.sorted hmem)
  · exact lt_of_lt_of_le (h.lastSeen op index hseen) hstop

theorem isAt_goTo (hrest : Remaining phase.graph.blocks stop (place :: rest)) :
    (phase.goTo place.1 place.2).IsAt := by
  obtain ⟨-, block, hblock, hstart, hbegin, hlt⟩ := (hrest.mem place).mp mem_cons_self
  exact ⟨block, hblock, hstart, hbegin, hlt⟩

/-- What a run keeps. -/
theorem run_of_remaining (h : phase.Invariant stop)
    (hrest : Remaining phase.graph.blocks stop rest) :
    (∃ stop', (rest.foldl visit phase).Invariant stop' ∧
        Remaining (rest.foldl visit phase).graph.blocks stop' []) ∧
      (phase.Counted → phase.RevivesNone rest → (rest.foldl visit phase).Counted) ∧
      (phase.Counted → ¬phase.RevivesNone rest →
        ∃ stop' n c, (rest.foldl visit phase).Undercounted stop' n c) ∧
      ∀ n c, phase.Undercounted stop n c →
        ∃ stop', (rest.foldl visit phase).Undercounted stop' n c := by
  induction rest generalizing phase stop with
  | nil =>
    exact ⟨⟨stop, h, hrest⟩, fun hcounted _ => hcounted, fun _ hnot => absurd trivial hnot,
      fun n c hshort => ⟨stop, hshort⟩⟩
  | cons place rest ih =>
    have hstop := ((hrest.mem place).mp mem_cons_self).1
    have hstep := performNodeCSE_step (h.goTo hrest) (isAt_goTo hrest)
    have htail : Remaining (phase.visit place).graph.blocks (place.2 + 1) rest := by
      rw [visit, hstep.blocks]
      exact hrest.tail
    obtain ⟨hinvariant, hcounted, hrevived, hshort⟩ := ih hstep.invariant htail
    rw [foldl_cons]
    refine ⟨hinvariant, fun hbefore hnone => hcounted (hstep.counted hbefore hnone.1) hnone.2,
      fun hbefore hnot => ?_, fun n c hbefore => ?_⟩
    · by_cases hrevives : (phase.goTo place.1 place.2).RevivesDeadNode
      · obtain ⟨n, c, hlater⟩ := hstep.revived hbefore hrevives
        obtain ⟨stop', hfinal⟩ := hshort n c hlater
        exact ⟨stop', n, c, hfinal⟩
      · exact hrevived (hstep.counted hbefore hrevives) fun hnone => hnot ⟨hrevives, hnone⟩
    · obtain ⟨hn, hoperand, hkept, hvisited, hlt⟩ := hbefore.later hstop
      exact hshort n c (hstep.undercounted ⟨hn, hoperand, hkept, hvisited, hlt⟩)

/-! ## The graph after the phase -/

theorem invariant_initial (h : graph.WellFormed) : (initial graph).Invariant 0 where
  wellFormed := h
  replaced ha := nomatch ha
  settled _ hn := absurd hn (not_lt_zero _)
  lastSeen _ _ hseen := nomatch hseen

theorem counted_initial (h : graph.WellFormed) (hcounts : graph.CountsReferences) :
    (initial graph).Counted := by
  intro c _
  by_cases hc : c < graph.size
  · exact hcounts c hc
  · have hnode := nodeAt_of_size_le (not_lt.mp hc)
    have hreferences : graph.references c = 0 := by
      refine references_eq_zero fun n _ hoperand => ?_
      rcases h.operands n c hoperand with ⟨-, haccess⟩ | ⟨-, hlt, block, hblock, -, hstop⟩
      · rw [hnode] at haccess
        cases haccess
      · exact hc (hlt.trans (hstop.trans_le (h.stop_le block hblock)))
    rw [initial]
    rw [hnode, hreferences]
    rfl

/-- With every block behind the phase no operand has a replacement. -/
theorem Invariant.replacements_of_operand (h : phase.Invariant stop)
    (hrest : Remaining phase.graph.blocks stop []) (hc : c ∈ (phase.graph.nodeAt n).operands) :
    phase.replacements c = none := by
  rcases h.wellFormed.operands n c hc with ⟨-, haccess⟩ | ⟨-, hlt, block, hblock, hbegin, hstop⟩
  · exact h.replacements_of_access haccess
  · have hinBlock : phase.graph.InBlock n := ⟨block, hblock, hbegin.trans hlt.le, hstop⟩
    refine h.settled n ?_ hinBlock c hc
    by_contra hge
    exact absurd ((hrest.mem (block.begin, n)).mpr ⟨Nat.le_of_not_lt hge, block, hblock, rfl,
      hbegin.trans hlt.le, hstop⟩) not_mem_nil

theorem Counted.exact (hcounted : phase.Counted) (h : phase.Invariant stop)
    (hrest : Remaining phase.graph.blocks stop []) : phase.graph.CountsExact := by
  refine ⟨fun n _ hlive c hc => ?_, fun n _ _ => ?_⟩
  · rw [hcounted c (h.replacements_of_operand hrest hc)]
    exact ne_of_gt (lt_of_lt_of_le (references_pos hlive hc) (le_add_right _ _))
  · cases hreplaced : phase.replacements n with
    | none => exact hcounted n hreplaced
    | some r =>
      -- a phantom that nothing refers to
      obtain ⟨⟨hphantom, hrefCount, -, -⟩, -⟩ := h.replaced hreplaced
      have hreferences : phase.graph.references n = 0 :=
        references_eq_zero fun m _ hoperand =>
          absurd ((h.replacements_of_operand hrest hoperand).symm.trans hreplaced) nofun
      rw [hrefCount, hreferences, required, hphantom]
      rfl

theorem Undercounted.not_exact (h : phase.Undercounted stop n c) : ¬phase.graph.CountsExact := by
  intro hexact
  have hn : n < phase.graph.size := by
    by_contra hge
    exact h.live (congrArg refCount (nodeAt_of_size_le (not_lt.mp hge)))
  have hc := hexact.operands n hn h.live c h.operand
  have hlt : c < phase.graph.size := by
    by_contra hge
    exact hc (congrArg refCount (nodeAt_of_size_le (not_lt.mp hge)))
  exact Nat.ne_of_lt h.short (hexact.counts c hlt hc)

end CSEPhase

/-- No replacement has a replacement itself. -/
def ReplacementsKept (graph : Graph) : Prop :=
  ∀ a r, (CSEPhase.run graph).replacements a = some r → (CSEPhase.run graph).replacements r = none

open CSEPhase in
/-- The phase keeps the counts exact if and only if no step takes a dead replacement into use. -/
theorem performCSE_countsExact_iff (graph : Graph) (hwell : graph.WellFormed)
    (hcounts : graph.CountsReferences) :
    ((performCSE graph).CountsExact ∧ ReplacementsKept graph) ↔
      (initial graph).RevivesNone (visits graph) := by
  have hcounted := counted_initial hwell hcounts
  obtain ⟨⟨stop, hinvariant, hrest⟩, hexact, hshort, -⟩ :=
    run_of_remaining (invariant_initial hwell) (remaining_visits hwell)
  rw [ReplacementsKept, performCSE, run_eq]
  constructor
  · rintro ⟨hfinal, -⟩
    by_contra hnot
    obtain ⟨stop', n, c, hundercounted⟩ := hshort hcounted hnot
    exact hundercounted.not_exact hfinal
  · intro hnone
    exact ⟨(hexact hcounted hnone).exact hinvariant hrest,
      fun a r ha => (hinvariant.replaced ha).1.kept⟩

/-- The block of `x = g; x - 1; z = x - x; return (x - 1) | z` where the global variable `g` has not
been read yet, so that no difference is predicted.  The first one is not used.  The `SetLocal`s, all
dead, are left out. -/
def deadArithSub : Graph where
  nodes :=
    [⟨.forceOSRExit, 0, .none, [none, none, none], 1, 0⟩,
      ⟨.getGlobalVar, 0, .varNumber 0, [none, none, none], 4, 0⟩,
      ⟨.jsConstant, 0, .none, [none, none, none], 1, predictInt32⟩,
      ⟨.arithSub, 0, .arithNodeFlags 0, [some 1, some 2, none], 0, 0⟩,
      ⟨.arithSub, 0, .arithNodeFlags 0, [some 1, some 1, none], 1, 0⟩,
      ⟨.arithSub, 0, .arithNodeFlags 0, [some 1, some 2, none], 1, 0⟩,
      ⟨.valueToInt32, 0, .none, [some 5, none, none], 2, predictInt32⟩,
      ⟨.valueToInt32, 0, .none, [some 4, none, none], 2, predictInt32⟩,
      ⟨.bitOr, 0, .none, [some 6, some 7, none], 1, predictInt32⟩,
      ⟨.returnValue, 0, .none, [some 8, none, none], 1, 0⟩]
  blocks := [⟨0, 10⟩]

theorem deadArithSub_wellFormed : deadArithSub.WellFormed where
  blocks_ordered := pairwise_singleton _ _
  begin_le := by decide
  stop_le := by decide
  operands n c hc := by
    have hlt : n < 10 := by
      by_contra hge
      rw [nodeAt_of_size_le (not_lt.mp hge)] at hc
      cases hc
    have hall : ∀ n < 10, (deadArithSub.nodeAt n).op ∉ [NodeType.phi, .flush] ∧
        ∀ c ∈ (deadArithSub.nodeAt n).operands, c < n := by
      decide
    obtain ⟨hop, hoperands⟩ := hall n hlt
    exact .inr ⟨hop, hoperands c hc, ⟨0, 10⟩, mem_singleton_self _, zero_le c, hlt⟩

theorem deadArithSub_countsReferences : deadArithSub.CountsReferences := by
  unfold CountsReferences
  decide

/-- The first difference comes to life, and `x` has one reference more than its count. -/
theorem not_countsExact_deadArithSub : deadArithSub.WellFormed ∧ deadArithSub.CountsReferences ∧
    ¬((performCSE deadArithSub).CountsExact ∧ ReplacementsKept deadArithSub) := by
  refine ⟨deadArithSub_wellFormed, deadArithSub_countsReferences, fun h => ?_⟩
  have hlive : ((performCSE deadArithSub).nodeAt 1).refCount ≠ 0 := by decide +kernel
  have hshort : ((performCSE deadArithSub).nodeAt 1).refCount ≠
      (performCSE deadArithSub).references 1 + ((performCSE deadArithSub).nodeAt 1).required := by
    decide +kernel
  exact hshort (h.1.counts 1 (by decide +kernel) hlive)

theorem performCSE_countsExact_iff_deadArithSub :
    ((performCSE deadArithSub).CountsExact ∧ ReplacementsKept deadArithSub) ↔
      (CSEPhase.initial deadArithSub).RevivesNone (CSEPhase.visits deadArithSub) :=
  performCSE_countsExact_iff deadArithSub deadArithSub_wellFormed deadArithSub_countsReferences

end WebKit.DFG
