import ContractFlow.Flow.Node

/-!
This module contains the flow of values inside one callable.
-/

namespace ContractFlow

namespace Arena

variable (a : Arena)

def isPropagating (n : NodeId) : Except Fault Bool :=
  match a.kind n with
  | .binaryOperation =>
    (a.text n).isAmong ["+", "-", "*", "/", "%", "**", "<<", ">>", "&", "|", "^"]
  | .unaryOperation => (a.text n).isAmong ["-", "~", "++", "--"]
  | _ => .ok false

def roleIndex (n : NodeId) : Int :=
  match (a.node n).position with
  | some i => i
  | none => -1

def literalIndex? (n : NodeId) : Option Value :=
  match a.parent? n with
  | none => none
  | some p =>
    if a.kind p == .indexAccess && a.role n == "baseExpression" then
      ((a.child? p "indexExpression").filter fun i => a.kind i == .literal).map a.text
    else none

def writtenIndex? (site : NodeId) : Option Value :=
  let target := match a.kind site with
    | .assignment => a.child? site "leftHandSide"
    | .unaryOperation => a.child? site "subExpression"
    | _ => none
  (target.bind a.rootExpression?).bind a.literalIndex?

def container? (n : NodeId) : Option NodeId :=
  match a.parent? n with
  | none => none
  | some p =>
    match a.kind p with
    | .variableDeclarationStatement =>
      if a.role n == "initialValue" && (a.entries p "declarations").length > 1 then some p else none
    | .assignment =>
      if a.role n == "rightHandSide" && a.text p == "=" then
        match a.child? p "leftHandSide" with
        | none => none
        | some target =>
          if a.kind target == .tupleExpression && (a.entries target "components").length > 1 then some p
          else none
      else none
    | .tryStatement => if a.role n == "externalCall" then some p else none
    | _ => none

def firstClause? (n : NodeId) : Option NodeId :=
  (a.items n "clauses").head?

def slots (container : NodeId) : List (Option NodeId) :=
  match a.kind container with
  | .variableDeclarationStatement => a.entries container "declarations"
  | .assignment =>
    match a.child? container "leftHandSide" with
    | none => []
    | some target => a.entries target "components"
  | .tryStatement =>
    match (a.firstClause? container).bind fun c => a.child? c "parameters" with
    | none => []
    | some list => a.entries list "parameters"
  | _ => []

def slot? (container : NodeId) (position : Int) : Option NodeId :=
  if position < 0 then none else ((a.slots container)[position.toNat]?).join

end Arena

structure FlowModel extends ValueFlow where
  aliasing : Aliasing
  spliceModifiers : Bool

namespace FlowModel

instance : Inhabited FlowModel := ⟨⟨default, default, default⟩⟩

variable (m : FlowModel)

def formAround (n : NodeId) : Query (Option SsaForm) :=
  match m.owner? n with
  | none => return none
  | some f => m.form? f

def definitionNode (s : SsaForm) (d : Nat) : FlowNode :=
  .definition s.graph.callable d

def definitionTarget (site decl : NodeId) : Query (List FlowNode) := do
  match ← m.formAround site with
  | none => return []
  | some s => return (s.definitionAt? site decl).toList.map (definitionNode s)

def isApart (i j : Option Value) : Bool :=
  match m.aliasing, i, j with
  | .literalIndex, some i, some j => i != j
  | _, _, _ => false

def assignmentTargets (target site : NodeId) : Query (List FlowNode) :=
  let direct : Query (List FlowNode) :=
    match m.arena.rootExpression? target with
    | none => return []
    | some root => do
      match ← m.findVariable root with
      | none => return []
      | some decl =>
        if m.isState decl then return [.stateWrite site decl]
        else if !m.isLocal decl then return []
        else if root == target then m.definitionTarget site decl
        else return [.postUpdate root site]
  if m.arena.kind target == .tupleExpression then
    match h : m.arena.entries target "components" with
    | [some inner] =>
      have hc : some inner ∈ m.arena.entries target "components" := by simp [h]
      have := m.arena.lt_of_mem_entries hc
      assignmentTargets inner site
    | [none] => return []
    | _ => direct
  else direct
termination_by m.arena.size - target

def slotTargets (container : NodeId) (position : Int) : Query (List FlowNode) :=
  match m.arena.slot? container position with
  | none => return []
  | some slot =>
    match m.arena.kind container with
    | .variableDeclarationStatement => m.definitionTarget container slot
    | .assignment => m.assignmentTargets slot container
    | _ =>
      match m.arena.firstClause? container with
      | none => return []
      | some clause => m.definitionTarget clause slot

def componentFlows (n tuple : NodeId) : Query (List FlowNode) :=
  let a := m.arena
  if (a.entries tuple "components").length == 1 || (a.node tuple).flag "isInlineArray" then
    return [.expression tuple]
  else
    match a.container? tuple with
    | some container => m.slotTargets container (a.roleIndex n)
    | none =>
      if (a.parent? tuple).any fun p => a.kind p == .returnStatement then
        return (m.owner? tuple).toList.map fun f => .result f (a.roleIndex n)
      else return [.expression tuple]

def memberFlows (access : NodeId) : Query (List FlowNode) :=
  match m.arena.callSiteOf? access with
  | some call => do
    match ← m.callKind call with
    | .function | .lowLevel | .builtin => return [.argument call FlowNode.receiver]
    | _ => return []
  | none => do
    if ← (m.arena.text access).isAmong ["length", "balance", "code", "codehash"] then return []
    else return [.expression access]

def isValueCall : CallKind → Bool
  | .typeConversion | .structConstructor => true
  | _ => false

def optionFlows (n options : NodeId) : List FlowNode :=
  match (m.arena.node options).attr? "names", (m.arena.node n).position, m.arena.callSiteOf? options with
  | some (.list names), some i, some call =>
    match names[i]? with
    | some (.text "value") => [.argument call FlowNode.value]
    | some (.text "gas") => [.argument call FlowNode.gas]
    | _ => []
  | _, _, _ => []

def returnFlows (n stmt : NodeId) : List FlowNode :=
  match m.owner? stmt with
  | none => []
  | some f =>
    if m.arena.kind n == .functionCall && (m.callableD f).returns.length > 1 then []
    else [.result f 0]

def expressionFlows (n : NodeId) : Query (List FlowNode) :=
  let a := m.arena
  match a.parent? n with
  | none => return []
  | some p =>
    let role := a.role n
    match a.kind p with
    | .assignment =>
      if role == "rightHandSide" && a.text p == "=" then
        match a.child? p "leftHandSide" with
        | none => return [.expression p]
        | some target =>
          if a.kind target == .tupleExpression then return [.expression p]
          else return .expression p :: (← m.assignmentTargets target p)
      else return []
    | .variableDeclarationStatement =>
      match role, a.entries p "declarations" with
      | "initialValue", [some decl] => m.definitionTarget p decl
      | _, _ => return []
    | .variableDeclaration =>
      return if role == "value" && m.isState p then [.stateWrite p p] else []
    | .tupleExpression => m.componentFlows n p
    | .conditional =>
      return if role == "trueExpression" || role == "falseExpression" then [.expression p] else []
    | .indexAccess | .indexRangeAccess =>
      return if role == "baseExpression" then [.expression p] else []
    | .memberAccess => m.memberFlows p
    | .functionCall =>
      if role == "arguments" then do
        let kind ← m.callKind p
        return if isValueCall kind then [.expression p] else [.argument p (a.roleIndex n)]
      else return []
    | .functionCallOptions => return if role == "options" then m.optionFlows n p else []
    | .modifierInvocation | .inheritanceSpecifier =>
      return if role == "arguments" then [.argument p (a.roleIndex n)] else []
    | .binaryOperation | .unaryOperation => do
      if ← a.isPropagating p then return [.expression p] else return []
    | .returnStatement => return if role == "expression" then m.returnFlows n p else []
    | _ => return []

def invocationReads (f : CallableId) (variableNode : NodeId) : Except Fault (List NodeId) :=
  let arguments := (m.callableD f).invocations.flatMap (·.arguments)
  (arguments.flatMap m.arena.walk).filterM fun n => do
    return (← m.findVariable n) == some variableNode

def definitionFlows (f : CallableId) (d : Nat) : Query (List FlowNode) := do
  match ← m.form? f with
  | none => return []
  | some s =>
    let x := s.definition d
    let uses := (s.usesOf d).map FlowNode.expression
    let merging := (s.phis.filter fun phi => (s.phiInputs phi).contains d).map (definitionNode s)
    let returned := match m.parameterAt? x.variableNode with
      | some p =>
        if p.isReturn && s.exitDefinition? x.variableNode == some d then [.result f p.position] else []
      | none => []
    let invoked ← if x.kind == .parameter then m.invocationReads f x.variableNode else pure []
    return uses ++ merging ++ returned ++ invoked.map FlowNode.expression

def parameterFlows (f : CallableId) (i : Nat) : Query (List FlowNode) := do
  match (m.callableD f).parameters[i]? with
  | none => return []
  | some p =>
    match ← m.form? f with
    | none => return []
    | some s => return (s.entryDefinition? p.node).toList.map (definitionNode s)

def callResultFlows (call : NodeId) (position : Int) : Query (List FlowNode) :=
  let a := m.arena
  let plain := if position = 0 then [FlowNode.expression call] else []
  match a.container? call with
  | some container => m.slotTargets container position
  | none =>
    match a.parent? call with
    | none => return plain
    | some p =>
      match if a.kind p == .returnStatement then m.owner? p else none with
      | some f => return if (m.callableD f).returns.length > 1 then [.result f position] else plain
      | none => return plain

def postUpdateFlows (n site : NodeId) : Query (List FlowNode) := do
  match ← m.formAround n with
  | none => return []
  | some s =>
    match s.definitionOf? n, s.graph.pointAt? site with
    | some d, some written =>
      let index := m.arena.literalIndex? n
      let later := (s.usesOf d).filter fun use =>
        use != n && (s.graph.pointAt? use).any (s.graph.strictlyReaches written)
          && !m.isApart index (m.arena.literalIndex? use)
      return later.map FlowNode.expression
    | _, _ => return []

def localFlows : FlowNode → Query (List FlowNode)
  | .expression n => m.expressionFlows n
  | .parameter f i => m.parameterFlows f i
  | .definition f d => m.definitionFlows f d
  | .callResult call i => m.callResultFlows call i
  | .postUpdate n site => m.postUpdateFlows n site
  | .stateRead n _ => return [.expression n]
  | .result .. | .argument .. | .stateWrite .. => return []

end FlowModel

end ContractFlow
