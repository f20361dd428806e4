import Mathlib.Data.List.GetD
import Mathlib.Data.List.ReduceOption
import Mathlib.Data.UInt

/-!
# The graph of the data flow compiler

`dfg/DFGNode.h`, `dfg/DFGGraph.h` and the predictions of `bytecode/PredictedType.h`.  A graph is a
vector of nodes, and a block is a range of it.  A node keeps the indices of its operands (a
`NodeIndex` is a natural number here) and the number of references to it.  The predicates on predictions are the ones of an x86.
-/

namespace WebKit.DFG

open List

/-! ## Predictions -/

abbrev PredictedType := UInt32

def predictString : PredictedType := 0x00004000
def predictInt32 : PredictedType := 0x00010000
def predictNumber : PredictedType := 0x00070000
def predictBoolean : PredictedType := 0x00080000
def predictArray : PredictedType := 0x00000002
def predictByteArray : PredictedType := 0x00000004
def predictInt8Array : PredictedType := 0x00000010
def predictInt16Array : PredictedType := 0x00000020
def predictInt32Array : PredictedType := 0x00000040
def predictUint8Array : PredictedType := 0x00000080
def predictUint8ClampedArray : PredictedType := 0x00000100
def predictUint16Array : PredictedType := 0x00000200
def predictUint32Array : PredictedType := 0x00000400
def predictFloat32Array : PredictedType := 0x00000800
def predictFloat64Array : PredictedType := 0x00001000

def fixedIndexedStorageMask : PredictedType :=
  predictByteArray ||| predictInt8Array ||| predictInt16Array ||| predictInt32Array |||
    predictUint8Array ||| predictUint8ClampedArray ||| predictUint16Array ||| predictUint32Array |||
    predictFloat32Array ||| predictFloat64Array

variable (value : PredictedType)

def isFixedIndexedStorageObjectPrediction : Bool :=
  value &&& fixedIndexedStorageMask == value

def isInt32Prediction : Bool := value == predictInt32

def isNumberPrediction : Bool :=
  value &&& predictNumber != 0 && value &&& ~~~predictNumber == 0

def isBooleanPrediction : Bool := value == predictBoolean

def isActionableMutableArrayPrediction : Bool :=
  [predictArray, predictByteArray, predictInt8Array, predictInt16Array, predictInt32Array,
    predictUint8Array, predictUint8ClampedArray, predictUint16Array, predictUint32Array,
    predictFloat32Array, predictFloat64Array].contains value

def isActionableArrayPrediction : Bool :=
  value == predictString || isActionableMutableArrayPrediction value

/-! ## Operations -/

inductive NodeType
  | jsConstant | weakJSConstant | convertThis | createThis | getCallee | getLocal | setLocal
  | phantom | nop | phi | flush | setArgument | inlineStart | bitAnd | bitOr | bitXor | bitLShift
  | bitRShift | bitURShift | valueToInt32 | uInt32ToNumber | arithAdd | arithSub | arithMul
  | arithDiv | arithMod | arithAbs | arithMin | arithMax | arithSqrt | valueAdd | getByVal
  | putByVal | putByValAlias | getById | getByIdFlush | putById | putByIdDirect | checkStructure
  | putStructure | getPropertyStorage | getIndexedPropertyStorage | getByOffset | putByOffset
  | getArrayLength | getStringLength | getByteArrayLength | getInt8ArrayLength | getInt16ArrayLength
  | getInt32ArrayLength | getUint8ArrayLength | getUint8ClampedArrayLength | getUint16ArrayLength
  | getUint32ArrayLength | getFloat32ArrayLength | getFloat64ArrayLength | getScopeChain
  | getScopedVar | putScopedVar | getGlobalVar | putGlobalVar | checkFunction | arrayPush | arrayPop
  | stringCharCodeAt | stringCharAt | compareLess | compareLessEq | compareGreater
  | compareGreaterEq | compareEq | compareStrictEq | call | construct | newObject | newArray
  | newArrayBuffer | newRegexp | resolve | resolveBase | resolveBaseStrictPut | resolveGlobal
  | breakpoint | checkHasInstance | instanceOf | logicalNot | toPrimitive | strCat | jump | branch
  | returnValue | throw | throwReferenceError | forceOSRExit
  deriving DecidableEq

namespace NodeType

def mustGenerate : NodeType → Bool
  | .phantom | .flush | .valueToInt32 | .valueAdd | .getByVal | .putByVal | .putByValAlias
  | .getById | .getByIdFlush | .putById | .putByIdDirect | .checkStructure | .putStructure
  | .getIndexedPropertyStorage | .putByOffset | .getScopedVar | .putScopedVar | .getGlobalVar
  | .putGlobalVar | .checkFunction | .arrayPush | .arrayPop | .compareLess | .compareLessEq
  | .compareGreater | .compareGreaterEq | .compareEq | .call | .construct | .resolve
  | .resolveBase | .resolveBaseStrictPut | .resolveGlobal | .breakpoint | .checkHasInstance
  | .toPrimitive | .strCat | .jump | .branch | .returnValue | .throw | .throwReferenceError
  | .forceOSRExit => true
  | _ => false

def clobbersWorld : NodeType → Bool
  | .putByVal | .putByValAlias | .getById | .getByIdFlush | .putById | .putByIdDirect
  | .putStructure | .putByOffset | .putScopedVar | .putGlobalVar | .arrayPush | .arrayPop
  | .call | .construct | .resolve | .resolveBase | .resolveBaseStrictPut | .resolveGlobal
  | .breakpoint | .toPrimitive | .strCat => true
  | _ => false

def mightClobber : NodeType → Bool
  | .valueAdd | .getByVal | .compareLess | .compareLessEq | .compareGreater | .compareGreaterEq
  | .compareEq | .logicalNot => true
  | _ => false

def hasVariableAccessData : NodeType → Bool
  | .getLocal | .setLocal | .phi | .setArgument | .flush => true
  | _ => false

def hasArithNodeFlags : NodeType → Bool
  | .uInt32ToNumber | .arithAdd | .arithSub | .arithMul | .arithAbs | .arithMin | .arithMax
  | .arithMod | .arithDiv | .valueAdd => true
  | _ => false

end NodeType

/-! ## Nodes -/

abbrev ArithNodeFlags := UInt32

def nodeNeedsNegZero : ArithNodeFlags := 0x02

/-- The immediate of a node, read by what its operation keeps there.  Functions, structures and
identifiers are known by their numbers. -/
inductive OpInfo
  | none
  | arithNodeFlags (flags : ArithNodeFlags)
  | varNumber (varNumber : ℕ)
  | scopeChainDepth (depth : ℕ)
  | function (function : ℕ)
  | structureTransitionData (previousStructure newStructure : ℕ)
  | structureSet (structures : List ℕ)
  | storageAccessData (identifierNumber : ℕ)
  deriving DecidableEq

/-- `children` are the three words of a node, or what a node with `NodeHasVarArgs` owns of
`m_varArgChildren`; an unset word is `NoNode`.  `globalObject` is the one of the code origin. -/
structure Node where
  op : NodeType
  globalObject : ℕ
  opInfo : OpInfo
  children : List (Option ℕ)
  refCount : ℕ
  prediction : PredictedType

namespace Node

variable (node : Node)

def child (k : ℕ) : Option ℕ := node.children.getD k none

def child1 : Option ℕ := node.child 0

def child2 : Option ℕ := node.child 1

def child3 : Option ℕ := node.child 2

/-- The operands that are set. -/
def operands : List ℕ := node.children.reduceOption

def arithNodeFlags : ArithNodeFlags :=
  match node.opInfo with
  | .arithNodeFlags flags =>
    if node.op = .arithMul then flags else flags &&& ~~~nodeNeedsNegZero
  | _ => 0

def arithNodeFlagsForCompare : ArithNodeFlags :=
  if node.op.hasArithNodeFlags then node.arithNodeFlags else 0

def varNumber : ℕ :=
  match node.opInfo with
  | .varNumber varNumber => varNumber
  | _ => 0

def scopeChainDepth : ℕ :=
  match node.opInfo with
  | .scopeChainDepth depth => depth
  | _ => 0

def function : ℕ :=
  match node.opInfo with
  | .function function => function
  | _ => 0

def previousStructure : ℕ :=
  match node.opInfo with
  | .structureTransitionData previousStructure _ => previousStructure
  | _ => 0

def newStructure : ℕ :=
  match node.opInfo with
  | .structureTransitionData _ newStructure => newStructure
  | _ => 0

def structureSet : List ℕ :=
  match node.opInfo with
  | .structureSet structures => structures
  | _ => []

/-- `m_storageAccessData[storageAccessDataIndex()].identifierNumber` -/
def identifierNumber : ℕ :=
  match node.opInfo with
  | .storageAccessData identifierNumber => identifierNumber
  | _ => 0

def shouldGenerate : Bool :=
  node.refCount != 0 && node.op != .phi && node.op != .flush

/-- Adds one to the count, whatever it was. -/
def ref : Node := { node with refCount := node.refCount + 1 }

def setChild (k : ℕ) (index : ℕ) : Node :=
  { node with children := node.children.set k (some index) }

variable {node : Node} {k : ℕ}

theorem mem_operands :
    c ∈ node.operands ↔ ∃ k < node.children.length, node.child k = some c := by
  rw [operands, reduceOption_mem_iff, mem_iff_getElem]
  constructor
  · rintro ⟨k, hk, hc⟩
    exact ⟨k, hk, by rw [child, getD_eq_getElem _ _ hk, hc]⟩
  · rintro ⟨k, hk, hc⟩
    exact ⟨k, hk, by rw [← hc, child, getD_eq_getElem _ _ hk]⟩

theorem lt_of_child (h : node.child k = some a) : k < node.children.length := by
  by_contra hge
  rw [child, getD_eq_default _ _ (not_lt.mp hge)] at h
  cases h

theorem mem_operands_of_child (h : node.child k = some c) : c ∈ node.operands :=
  mem_operands.mpr ⟨k, lt_of_child h, h⟩

theorem child_setChild (node : Node) (k r j : ℕ) : (node.setChild k r).child j =
    if j = k ∧ k < node.children.length then some r else node.child j := by
  rw [child, setChild, getD_eq_getElem?_getD, List.getElem?_set]
  by_cases hj : k = j
  · subst hj
    by_cases hk : k < node.children.length
    · simp [hk]
    · simp [child, hk]
  · rw [if_neg hj, if_neg fun h => hj h.1.symm, child, getD_eq_getElem?_getD]

theorem count_reduceOption (l : List (Option ℕ)) (c : ℕ) :
    l.reduceOption.count c = l.count (some c) := by
  induction l with
  | nil => rfl
  | cons head l ih =>
    cases head with
    | none => simpa using ih
    | some d =>
      rw [reduceOption_cons_of_some, count_cons, count_cons, ih]
      simp

theorem count_setChild (h : node.child k = some a) (r c : ℕ) :
    (node.setChild k r).operands.count c + (if c = a then 1 else 0) =
      node.operands.count c + if c = r then 1 else 0 := by
  have hk := lt_of_child h
  rw [child, getD_eq_getElem _ _ hk] at h
  rw [operands, operands, count_reduceOption, count_reduceOption, setChild, count_set hk, h]
  have hpos : c = a → 0 < node.children.count (some c) := by
    rintro rfl
    exact count_pos_iff.mpr (h ▸ getElem_mem hk)
  simp only [beq_iff_eq, Option.some_inj, eq_comm (a := a), eq_comm (a := r)]
  split
  · omega
  · omega

end Node

/-! ## Graphs -/

structure BasicBlock where
  begin : ℕ
  stop : ℕ

structure Graph where
  nodes : List Node
  blocks : List BasicBlock

namespace Graph

variable (graph : Graph)

def size : ℕ := graph.nodes.length

/-- The node at an index; past the end of the vector there is nothing to read. -/
def nodeAt (index : ℕ) : Node :=
  graph.nodes.getD index ⟨.nop, 0, .none, [], 0, 0⟩

def modify (index : ℕ) (f : Node → Node) : Graph :=
  { graph with nodes := graph.nodes.modify index f }

theorem size_modify (index : ℕ) (f : Node → Node) : (graph.modify index f).size = graph.size :=
  length_modify _ _ _

theorem nodeAt_modify {graph : Graph} (h : index < graph.size)
    (f : Node → Node) (n : ℕ) : (graph.modify index f).nodeAt n =
      if n = index then f (graph.nodeAt index) else graph.nodeAt n := by
  rw [nodeAt, modify, getD_eq_getElem?_getD, List.getElem?_modify]
  split
  · rename_i heq
    subst heq
    rw [if_pos rfl, nodeAt, getD_eq_getElem _ _ h, List.getElem?_eq_getElem h]
    rfl
  · rename_i hne
    rw [if_neg (Ne.symm hne), nodeAt]
    simp

theorem nodeAt_of_size_le {graph : Graph} (h : graph.size ≤ n) :
    graph.nodeAt n = ⟨.nop, 0, .none, [], 0, 0⟩ :=
  getD_eq_default _ _ h

/-- The prediction of an operand. -/
def predictionOf (child : Option ℕ) : PredictedType :=
  match child with
  | some index => (graph.nodeAt index).prediction
  | none => 0

end Graph

end WebKit.DFG
