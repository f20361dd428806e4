import WebKit.DFG.Graph

/-!
# Common subexpression elimination

`dfg/DFGCSEPhase.cpp`.  The phase goes through each block once.  At a node it first replaces the
operands that have a replacement, and then looks back for a node that already has the value.
-/

namespace WebKit.DFG

/-- `m_start` and `m_compileIndex` say where the phase is; `m_lastSeen` has the last node of each
operation. -/
structure CSEPhase where
  graph : Graph
  start : ℕ
  compileIndex : ℕ
  replacements : ℕ → Option ℕ
  lastSeen : NodeType → Option ℕ

namespace CSEPhase

variable (phase : CSEPhase)

def node : Node := phase.graph.nodeAt phase.compileIndex

def modify (index : ℕ) (f : Node → Node) : CSEPhase :=
  { phase with graph := phase.graph.modify index f }

/-! ## Where a search goes -/

def canonicalize (child : Option ℕ) : Option ℕ :=
  match child with
  | none => none
  | some index =>
    if (phase.graph.nodeAt index).op = .valueToInt32 then (phase.graph.nodeAt index).child1
    else some index

def startLimit : ℕ :=
  if phase.compileIndex - phase.start > 300 then phase.compileIndex - 300 else phase.start

/-- Stops at the first operand that is not set. -/
def startIndexForChildren (children : List (Option ℕ)) : ℕ :=
  go phase.startLimit children
where
  go (start : ℕ) : List (Option ℕ) → ℕ
    | [] => start
    | child :: children =>
      match phase.canonicalize child with
      | none => start
      | some index => go (max start index) children

variable (phase : CSEPhase)

def startIndex : ℕ :=
  phase.startIndexForChildren [phase.node.child1, phase.node.child2, phase.node.child3]

def endIndexForPureCSE : ℕ :=
  match phase.lastSeen phase.node.op with
  | none => 0
  | some index => index + 1

/-- What the body of a search says of a node: `return`, or go on to the node before it. -/
inductive Visit
  | done (result : Option ℕ)
  | next

/-- `for (NodeIndex index = stop; index-- > start;)` -/
def lookBack (visit : ℕ → Visit) (start : ℕ) : ℕ → Option ℕ
  | 0 => none
  | index + 1 =>
    if index + 1 > start then
      match visit index with
      | .done result => result
      | .next => lookBack visit start index
    else none

/-! ## What clobbers -/

def isPredictedNumerical (node : Node) : Bool :=
  isNumberPrediction (phase.graph.predictionOf node.child1) &&
    isNumberPrediction (phase.graph.predictionOf node.child2)

def logicalNotIsPure (node : Node) : Bool :=
  isBooleanPrediction (phase.graph.predictionOf node.child1) ||
    phase.graph.predictionOf node.child1 == 0

def byValIsPure (node : Node) : Bool :=
  isInt32Prediction (phase.graph.predictionOf node.child2) &&
    if node.op = .putByVal ∨ node.op = .putByValAlias then
      isActionableMutableArrayPrediction (phase.graph.predictionOf node.child1)
    else isActionableArrayPrediction (phase.graph.predictionOf node.child1)

def clobbersWorld (index : ℕ) : Bool :=
  let node := phase.graph.nodeAt index
  if node.op.clobbersWorld then true
  else if !node.op.mightClobber then false
  else match node.op with
    | .valueAdd | .compareLess | .compareLessEq | .compareGreater | .compareGreaterEq
    | .compareEq => !phase.isPredictedNumerical node
    | .logicalNot => !phase.logicalNotIsPure node
    | .getByVal => !phase.byValIsPure node
    | _ => true

/-- The end of a loop's body that only stops where the world is clobbered. -/
def nextUnlessClobbered (index : ℕ) : Visit :=
  if phase.clobbersWorld index then .done none else .next

/-! ## The searches -/

/-- The comparison of the operands in `pureCSE` and `impureCSE`: the other node's first unset
operand ends it. -/
def childrenMatch (phase : CSEPhase) (node otherNode : Node) : Bool :=
  go [(node.child1, otherNode.child1), (node.child2, otherNode.child2),
    (node.child3, otherNode.child3)]
where
  go : List (Option ℕ × Option ℕ) → Bool
    | [] => true
    | (child, otherChild) :: children =>
      phase.canonicalize otherChild == none ||
        (phase.canonicalize otherChild == phase.canonicalize child && go children)

variable (phase : CSEPhase)

def pureCSE : Option ℕ :=
  lookBack (fun index =>
    let otherNode := phase.graph.nodeAt index
    if phase.node.op ≠ otherNode.op then .next
    else if phase.node.arithNodeFlagsForCompare ≠ otherNode.arithNodeFlagsForCompare then .next
    else if phase.childrenMatch phase.node otherNode then .done index
    else .next) phase.startIndex phase.endIndexForPureCSE

def impureCSE : Option ℕ :=
  lookBack (fun index =>
    let otherNode := phase.graph.nodeAt index
    if phase.node.op = otherNode.op ∧
        phase.node.arithNodeFlagsForCompare = otherNode.arithNodeFlagsForCompare ∧
        phase.childrenMatch phase.node otherNode then .done index
    else phase.nextUnlessClobbered index) phase.startIndex phase.compileIndex

def globalVarLoadElimination (varNumber globalObject : ℕ) : Option ℕ :=
  lookBack (fun index =>
    let node := phase.graph.nodeAt index
    if node.op = .getGlobalVar ∧ node.varNumber = varNumber ∧ node.globalObject = globalObject then
      .done index
    else if node.op = .putGlobalVar ∧ node.varNumber = varNumber ∧
        node.globalObject = globalObject then .done node.child1
    else phase.nextUnlessClobbered index) (phase.startIndexForChildren []) phase.compileIndex

def getByValLoadElimination (child1 child2 : Option ℕ) : Option ℕ :=
  lookBack (fun index =>
    let node := phase.graph.nodeAt index
    let sameElement := node.child1 = child1 ∧
      phase.canonicalize node.child2 = phase.canonicalize child2
    match node.op with
    | .getByVal =>
      if !phase.byValIsPure node then .done none
      else if sameElement then .done index
      else .next
    | .putByVal | .putByValAlias =>
      if !phase.byValIsPure node then .done none
      else if sameElement then .done node.child3
      else .done none
    | .putStructure | .putByOffset | .arrayPush => .next
    | _ => phase.nextUnlessClobbered index)
    (phase.startIndexForChildren [child1, child2]) phase.compileIndex

def checkFunctionElimination (function : ℕ) (child1 : Option ℕ) : Bool :=
  (lookBack (fun index =>
    let node := phase.graph.nodeAt index
    if node.op = .checkFunction ∧ node.child1 = child1 ∧ node.function = function then .done index
    else .next) (phase.startIndexForChildren [child1]) phase.endIndexForPureCSE).isSome

/-- What the searches for a structure, a property or a storage say of a `PutByVal`: one that
speculates on an integer index of an array changes none of them. -/
def pastPutByVal (node : Node) : Visit :=
  if phase.byValIsPure node then .next else .done none

def checkStructureLoadElimination (structureSet : List ℕ) (child1 : Option ℕ) : Bool :=
  (lookBack (fun index =>
    let node := phase.graph.nodeAt index
    match node.op with
    | .checkStructure =>
      if node.child1 = child1 ∧ ∀ member ∈ node.structureSet, member ∈ structureSet then
        .done index
      else .next
    | .putStructure =>
      if node.child1 = child1 ∧ node.newStructure ∈ structureSet then .done index
      else if node.previousStructure ∈ structureSet then .done none
      else .next
    | .putByOffset => .next
    | .putByVal | .putByValAlias => phase.pastPutByVal node
    | _ => phase.nextUnlessClobbered index)
    (phase.startIndexForChildren [child1]) phase.compileIndex).isSome

def getByOffsetLoadElimination (identifierNumber : ℕ) (child1 : Option ℕ) : Option ℕ :=
  lookBack (fun index =>
    let node := phase.graph.nodeAt index
    match node.op with
    | .getByOffset =>
      if node.child1 = child1 ∧ node.identifierNumber = identifierNumber then .done index
      else .next
    | .putByOffset =>
      if node.identifierNumber = identifierNumber then
        if node.child2 = child1 then .done node.child3 else .done none
      else .next
    | .putStructure => .next
    | .putByVal | .putByValAlias => phase.pastPutByVal node
    | _ => phase.nextUnlessClobbered index)
    (phase.startIndexForChildren [child1]) phase.compileIndex

def getPropertyStorageLoadElimination (child1 : Option ℕ) : Option ℕ :=
  lookBack (fun index =>
    let node := phase.graph.nodeAt index
    match node.op with
    | .getPropertyStorage => if node.child1 = child1 then .done index else .next
    | .putByOffset | .putStructure => .next
    | .putByVal | .putByValAlias => phase.pastPutByVal node
    | _ => phase.nextUnlessClobbered index)
    (phase.startIndexForChildren [child1]) phase.compileIndex

def hasIntegerIndexPrediction (node : Node) : Bool :=
  let basePrediction := phase.graph.predictionOf node.child2
  !(!(basePrediction &&& predictInt32 != 0) && basePrediction != 0)

def getIndexedPropertyStorageLoadElimination (child1 : Option ℕ)
    (hasIntegerIndexPrediction : Bool) : Option ℕ :=
  lookBack (fun index =>
    let node := phase.graph.nodeAt index
    match node.op with
    | .getIndexedPropertyStorage =>
      if node.child1 = child1 ∧
          hasIntegerIndexPrediction = phase.hasIntegerIndexPrediction node then .done index
      else .next
    | .putByOffset | .putStructure => .next
    | .putByValAlias => .next
    | .putByVal =>
      if isFixedIndexedStorageObjectPrediction (phase.graph.predictionOf node.child1) &&
          phase.byValIsPure node then .next
      else .done none
    | _ => phase.nextUnlessClobbered index)
    (phase.startIndexForChildren [child1]) phase.compileIndex

def getScopeChainLoadElimination (depth : ℕ) : Option ℕ :=
  lookBack (fun index =>
    let node := phase.graph.nodeAt index
    if node.op = .getScopeChain ∧ node.scopeChainDepth = depth then .done index else .next)
    (phase.startIndexForChildren []) phase.endIndexForPureCSE

/-! ## What is done with the result -/

/-- `performSubstitution` on the operand `k` of the node at hand. -/
def performSubstitution (addRef : Bool) (phase : CSEPhase) (k : ℕ) : CSEPhase :=
  match phase.node.child k with
  | none => phase
  | some child =>
    match phase.replacements child with
    | none => phase
    | some replacement =>
      let substituted := phase.modify phase.compileIndex (·.setChild k replacement)
      if addRef then substituted.modify replacement (·.ref) else substituted

def performSubstitutions (addRef : Bool) : CSEPhase :=
  (List.range phase.node.children.length).foldl (performSubstitution addRef) phase

def replaceBy (replacement : ℕ) : CSEPhase :=
  { phase.modify phase.compileIndex ({ · with op := .phantom, refCount := 1 }) with
    replacements := Function.update phase.replacements phase.compileIndex (some replacement) }

/-- Replaces nothing where the predictions do not agree. -/
def setReplacement (replacement : Option ℕ) : CSEPhase :=
  match replacement with
  | none => phase
  | some index =>
    if phase.node.prediction ≠ (phase.graph.nodeAt index).prediction then phase
    else phase.replaceBy index

def setOp (op : NodeType) : CSEPhase :=
  phase.modify phase.compileIndex ({ · with op := op })

def eliminate : CSEPhase := phase.setOp .phantom

/-- The replacement of a node that is pure where its operands are predicted so. -/
def pureCSEWhere (isPure : Node → Bool) : Option ℕ :=
  if isPure phase.node then
    phase.pureCSE.filter fun index => isPure (phase.graph.nodeAt index)
  else none

/-- The `switch` of `performNodeCSE`. -/
def eliminateNode : CSEPhase :=
  let node := phase.node
  match node.op with
  | .bitAnd | .bitOr | .bitXor | .bitRShift | .bitLShift | .bitURShift | .arithAdd | .arithSub
  | .arithMul | .arithMod | .arithDiv | .arithAbs | .arithMin | .arithMax | .arithSqrt
  | .getByteArrayLength | .getInt8ArrayLength | .getInt16ArrayLength | .getInt32ArrayLength
  | .getUint8ArrayLength | .getUint8ClampedArrayLength | .getUint16ArrayLength
  | .getUint32ArrayLength | .getFloat32ArrayLength | .getFloat64ArrayLength | .getCallee
  | .getStringLength | .stringCharAt | .stringCharCodeAt => phase.setReplacement phase.pureCSE
  | .getArrayLength => phase.setReplacement phase.impureCSE
  | .getScopeChain =>
    phase.setReplacement (phase.getScopeChainLoadElimination node.scopeChainDepth)
  | .valueAdd | .compareLess | .compareLessEq | .compareGreater | .compareGreaterEq
  | .compareEq => phase.setReplacement (phase.pureCSEWhere phase.isPredictedNumerical)
  | .logicalNot => phase.setReplacement (phase.pureCSEWhere phase.logicalNotIsPure)
  | .getGlobalVar =>
    phase.setReplacement (phase.globalVarLoadElimination node.varNumber node.globalObject)
  | .getByVal =>
    if phase.byValIsPure node then
      phase.setReplacement (phase.getByValLoadElimination node.child1 node.child2)
    else phase
  | .putByVal =>
    if phase.byValIsPure node && (phase.getByValLoadElimination node.child1 node.child2).isSome then
      phase.setOp .putByValAlias
    else phase
  | .checkStructure =>
    if phase.checkStructureLoadElimination node.structureSet node.child1 then phase.eliminate
    else phase
  | .checkFunction =>
    if phase.checkFunctionElimination node.function node.child1 then phase.eliminate else phase
  | .getIndexedPropertyStorage =>
    phase.setReplacement (phase.getIndexedPropertyStorageLoadElimination node.child1
      (phase.hasIntegerIndexPrediction node))
  | .getPropertyStorage =>
    phase.setReplacement (phase.getPropertyStorageLoadElimination node.child1)
  | .getByOffset =>
    phase.setReplacement (phase.getByOffsetLoadElimination node.identifierNumber node.child1)
  | _ => phase

/-- `m_lastSeen[node.op & NodeIdMask] = m_compileIndex` -/
def recordSeen : CSEPhase :=
  { phase with
    lastSeen := Function.update phase.lastSeen phase.node.op (some phase.compileIndex) }

def performNodeCSE : CSEPhase :=
  let shouldGenerate := phase.node.shouldGenerate
  let substituted := phase.performSubstitutions shouldGenerate
  if !shouldGenerate then substituted else substituted.eliminateNode.recordSeen

def goTo (start index : ℕ) : CSEPhase :=
  { phase with start := start, compileIndex := index }

def performBlockCSE (block : BasicBlock) : CSEPhase :=
  (List.range' block.begin (block.stop - block.begin)).foldl
    (fun phase index => (phase.goTo block.begin index).performNodeCSE) phase

def initial (graph : Graph) : CSEPhase where
  graph := graph
  start := 0
  compileIndex := 0
  replacements _ := none
  lastSeen _ := none

/-- The phase's constructor and its `run`. -/
def run (graph : Graph) : CSEPhase := graph.blocks.foldl performBlockCSE (initial graph)

end CSEPhase

def performCSE (graph : Graph) : Graph := (CSEPhase.run graph).graph

end WebKit.DFG
