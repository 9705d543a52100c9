import ContractFlow.Memo
import ContractFlow.Program.BaseClosure

/-!
This module resolves names to declarations.
-/

namespace ContractFlow

namespace Arena

variable (a : Arena)

def firstNamed? (decls : List NodeId) (name : Value) : Option NodeId :=
  decls.find? fun d => a.name d == name

def declaredBy? (stmt : NodeId) (name : Value) : Option NodeId :=
  if a.kind stmt == .variableDeclarationStatement then
    a.firstNamed? (a.items stmt "declarations") name
  else none

def parameterNamed? (n : NodeId) (role : String) (name : Value) : Option NodeId :=
  (a.child? n role).bind fun list => a.firstNamed? (a.items list "parameters") name

/--
The variable of a given name that `n` declares for its child `below`. A block declares the variables of
the statements in front of `below`.
-/
def declaredAt? (n below : NodeId) (name : Value) : Option NodeId :=
  match a.kind n with
  | .block | .uncheckedBlock =>
    ((a.items n "statements").takeWhile (· != below)).findSome? fun stmt => a.declaredBy? stmt name
  | .forStatement =>
    (a.child? n "initializationExpression").bind fun init =>
      if init == below then none else a.declaredBy? init name
  | .tryCatchClause => a.parameterNamed? n "parameters" name
  | .functionDefinition | .modifierDefinition =>
    a.parameterNamed? n "parameters" name <|> a.parameterNamed? n "returnParameters" name
  | _ => none

def isCallableDefinition (n : NodeId) : Bool :=
  match a.kind n with
  | .functionDefinition | .modifierDefinition => true
  | _ => false

def lexicalLookup? (n : NodeId) (name : Value) : Option NodeId :=
  match h : a.parent? n with
  | none => none
  | some p =>
    have := a.lt_of_parent? h
    match a.declaredAt? p n name with
    | some d => some d
    | none => if a.isCallableDefinition p then none else lexicalLookup? p name
termination_by n

end Arena

namespace Outline

variable (o : Outline)

def memberNamed? (c : ContractId) (name : Value) : Option NodeId :=
  (o.baseClosure c).findSome? fun owner =>
    ((o.stateVariableNamed? owner name).map (·.node))
      <|> ((o.functionsNamed owner name).head?.map fun f => (o.callableD f).node)
      <|> ((o.modifierNamed? owner name).map fun m => (o.callableD m).node)

/--
Looks the declaration up that a node refers to: the one the compiler linked, or else the innermost one of
that name, first among locals, then in the contract and its bases, then among contracts and free
functions.
-/
def resolveDeclaration (n : NodeId) : Except Fault (Option NodeId) :=
  let a := o.arena
  let name := a.text n
  match a.findById? (a.node n).reference? with
  | some found => .ok (some found)
  | none =>
    if a.kind n == .memberAccess || !name.holds then .ok none
    else
      match a.lexicalLookup? n name with
      | some decl => .ok (some decl)
      | none => do
        let home ← o.enclosingContract n
        match home.bind fun c => o.memberNamed? c name with
        | some decl => return some decl
        | none =>
          match ← o.contractNamed name with
          | some c => return some (o.contractD c).node
          | none =>
            let free := o.free.find? fun f => (o.callableD f).name == name
            return free.map fun f => (o.callableD f).node

end Outline

inductive VariableScope where
  | state | parameter | result | locally
deriving DecidableEq, Inhabited

def VariableScope.name : VariableScope → String
  | state => "state"
  | parameter => "parameter"
  | result => "return"
  | locally => "local"

structure Program extends Outline where
  declarations : Memo toOutline.resolveDeclaration
  holders : Memo toOutline.enclosingDefinition?
  homes : Memo toOutline.enclosingContract

namespace Program

def ofOutline (o : Outline) : Program where
  toOutline := o
  declarations := .upTo _ o.arena.size
  holders := .upTo _ o.arena.size
  homes := .upTo _ o.arena.size

def ofArena (a : Arena) (plan : FailurePlan) : Program :=
  ofOutline (.ofArena a plan)

instance : Inhabited Program := ⟨ofOutline default⟩

variable (p : Program)

def lookUp (n : NodeId) : Except Fault (Option NodeId) :=
  p.declarations.get n

def declaration? (n : NodeId) : Option NodeId :=
  match p.lookUp n with
  | .ok decl => decl
  | .error _ => none

def holder? (n : NodeId) : Option CallableId :=
  p.holders.get n

def owner? (n : NodeId) : Option CallableId :=
  (p.holder? n).filter p.isKnownCallable

def home (n : NodeId) : Except Fault (Option ContractId) :=
  p.homes.get n

def scope? (decl : NodeId) : Option VariableScope :=
  let a := p.arena
  if a.kind decl != .variableDeclaration then none
  else if (a.parent? decl).any fun above => a.kind above == .contractDefinition then some .state
  else
    match p.parameterAt? decl with
    | some param => some (if param.isReturn then .result else .parameter)
    | none => some .locally

def isState (decl : NodeId) : Bool :=
  p.scope? decl == some .state

def isLocal (decl : NodeId) : Bool :=
  match p.scope? decl with
  | some .locally | some .parameter | some .result => true
  | _ => false

def variableOf? (n : NodeId) : Option NodeId :=
  if p.arena.kind n == .identifier then
    (p.declaration? n).filter fun d => p.arena.kind d == .variableDeclaration
  else none

def findVariable (n : NodeId) : Except Fault (Option NodeId) :=
  if p.arena.kind n == .identifier then do
    return (← p.lookUp n).filter fun d => p.arena.kind d == .variableDeclaration
  else .ok none

theorem kind_of_findVariable {p : Program} {n d : NodeId} (h : p.findVariable n = .ok (some d)) :
    p.arena.kind n = .identifier := by
  unfold findVariable at h
  split at h
  · next hk => exact eq_of_beq hk
  · simp at h

theorem findVariable_eq {p : Program} {n : NodeId} {d : Option NodeId} (h : p.findVariable n = .ok d) :
    p.variableOf? n = d := by
  unfold findVariable at h
  unfold variableOf? declaration?
  split at h
  · next hk =>
    cases hl : p.lookUp n with
    | error e => simp [hl, bind, Except.bind] at h
    | ok x =>
      simp only [hl, bind, Except.bind, pure, Except.pure, Except.ok.injEq] at h
      simp [hk, h]
  · next hk =>
    simp only [Except.ok.injEq] at h
    simp [hk, h]

end Program

namespace Arena

variable (a : Arena)

def inner? (n : NodeId) : Option NodeId :=
  match a.entries n "components" with
  | [entry] => entry
  | _ => none

theorem lt_of_inner? {a : Arena} {n c : Nat} (h : a.inner? n = some c) : n < c ∧ c < a.size := by
  unfold inner? at h
  split at h
  · next e he =>
    have hc : some c ∈ a.entries n "components" := by simp [he, h]
    exact a.lt_of_mem_entries hc
  · simp at h

def rootExpression? (n : NodeId) : Option NodeId :=
  match a.kind n with
  | .identifier => some n
  | .indexAccess | .indexRangeAccess =>
    match h : a.child? n "baseExpression" with
    | none => none
    | some c =>
      have := a.lt_of_child? h
      rootExpression? c
  | .memberAccess =>
    match h : a.child? n "expression" with
    | none => none
    | some c =>
      have := a.lt_of_child? h
      rootExpression? c
  | .tupleExpression =>
    match h : a.inner? n with
    | none => none
    | some c =>
      have := a.lt_of_inner? h
      rootExpression? c
  | _ => none
termination_by a.size - n

end Arena

def Program.findRoot (p : Program) (n : NodeId) : Except Fault (Option NodeId) :=
  match p.arena.rootExpression? n with
  | none => .ok none
  | some root => p.findVariable root

end ContractFlow
