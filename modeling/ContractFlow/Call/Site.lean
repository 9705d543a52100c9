import ContractFlow.Syntax.Navigate

/-!
This module contains the parts of a call: what is called, on what, with which arguments and options.
-/

namespace ContractFlow.Arena

variable (a : Arena)

def withoutOptions? (n : NodeId) : Option NodeId :=
  if a.kind n == .functionCallOptions then
    match h : a.child? n "expression" with
    | none => none
    | some c =>
      have := a.lt_of_child? h
      withoutOptions? c
  else some n
termination_by a.size - n

def callee? (site : NodeId) : Option NodeId :=
  (a.child? site "expression").bind a.withoutOptions?

def callArguments (site : NodeId) : List NodeId :=
  a.items site "arguments"

def calledMember? (site : NodeId) : Option NodeId :=
  (a.callee? site).filter fun c => a.kind c == .memberAccess

def memberName (site : NodeId) : Value :=
  ((a.calledMember? site).map a.text).getD ""

def receiver? (site : NodeId) : Option NodeId :=
  (a.calledMember? site).bind fun c => a.child? c "expression"

def callSiteOf? (n : NodeId) : Option NodeId :=
  match h : a.parent? n with
  | none => none
  | some p =>
    have := a.lt_of_parent? h
    if a.role n != "expression" then none
    else
      match a.kind p with
      | .functionCallOptions => callSiteOf? p
      | .functionCall => some p
      | _ => none
termination_by n

abbrev CallOptions := List (Value × NodeId)

def setOption (options : CallOptions) (name : Value) (n : NodeId) : CallOptions :=
  match options with
  | [] => [(name, n)]
  | (k, m) :: rest => if k == name then (k, n) :: rest else (k, m) :: setOption rest name n

def optionNames (n : NodeId) : Except Fault (List Value) :=
  match (a.node n).attr? "names" with
  | none => .ok []
  | some (.list names) => .ok names
  | some (.text s) => .ok (s.toList.map fun c => .text c.toString)
  | some (.object fields) => .ok (fields.map fun f => .text f.1)
  | some _ => .error .malformedNames

def addOptions (options : CallOptions) (n : NodeId) : Except Fault CallOptions := do
  let names ← a.optionNames n
  (names.zip (a.entries n "options")).foldlM
    (fun options (name, value) =>
      match value, name with
      | none, _ => pure options
      | some _, .list _ | some _, .object _ => throw Fault.malformedNames
      | some v, name => pure (setOption options name v))
    options

/--
The options written around the called expression `n`, either in braces or, in the older form, as calls of
the members `value` and `gas`.
-/
def collectOptions (n : NodeId) (options : CallOptions) : Except Fault CallOptions :=
  match a.kind n with
  | .functionCallOptions =>
    match a.addOptions options n with
    | .error e => .error e
    | .ok options =>
      match h : a.child? n "expression" with
      | none => .ok options
      | some c =>
        have := a.lt_of_child? h
        collectOptions c options
  | .functionCall =>
    match h : a.child? n "expression" with
    | none => .ok options
    | some inner =>
      have := a.lt_of_child? h
      if a.kind inner == .memberAccess && (a.text inner == "value" || a.text inner == "gas") then
        let options := match a.callArguments n with
          | [] => options
          | v :: _ => setOption options (a.text inner) v
        match h' : a.child? inner "expression" with
        | none => .ok options
        | some c =>
          have := a.lt_of_child? h'
          collectOptions c options
      else .ok options
  | _ => .ok options
termination_by a.size - n

def callOptions (site : NodeId) : Except Fault CallOptions :=
  match a.child? site "expression" with
  | none => .ok []
  | some n => a.collectOptions n []

def CallOptions.get? (options : CallOptions) (name : String) : Option NodeId :=
  options.lookup (.text name)

end ContractFlow.Arena
