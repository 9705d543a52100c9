import ContractFlow.Program.Scope
import ContractFlow.Proofs.Control.Program

/-!
This module shows that climbing from a node finds what the innermost scope declares that one comes into on the way down.
-/

namespace ContractFlow

namespace Arena

variable (a : Arena) (n below : NodeId) (name : Value)

def declaredVariables : List NodeId :=
  if a.kind n = .variableDeclarationStatement then a.items n "declarations" else []

def parametersIn (role : String) : List NodeId :=
  (a.child? n role).elim [] fun list => a.items list "parameters"

/--
The variables of the scope into which one comes from a node to its child `below`: in a block those of the statements in
front of the child, and around the initializer of a loop none.
-/
def scopeInto : List NodeId :=
  match a.kind n with
  | .block | .uncheckedBlock => ((a.items n "statements").takeWhile (· != below)).flatMap a.declaredVariables
  | .forStatement => ((a.child? n "initializationExpression").filter (· != below)).elim [] a.declaredVariables
  | .tryCatchClause => a.parametersIn n "parameters"
  | .functionDefinition | .modifierDefinition => a.parametersIn n "parameters" ++ a.parametersIn n "returnParameters"
  | _ => []

/-- The scopes in which one is at the end of a way down, the innermost first. A callable is entered without any. -/
def scopesAlong (scopes : List (List NodeId)) : List NodeId → List (List NodeId)
  | n :: m :: path => scopesAlong (a.scopeInto n m :: if a.isCallableDefinition n then [] else scopes) (m :: path)
  | _ => scopes

theorem firstNamed?_parametersIn (role : String) :
    a.firstNamed? (a.parametersIn n role) name = a.parameterNamed? n role name := by
  unfold parametersIn parameterNamed?
  cases a.child? n role <;> rfl

theorem firstNamed?_declaredVariables : a.firstNamed? (a.declaredVariables n) name = a.declaredBy? n name := by
  unfold declaredVariables declaredBy?
  simp only [beq_iff_eq]
  split <;> rfl

theorem declaredAt?_eq : a.declaredAt? n below name = a.firstNamed? (a.scopeInto n below) name := by
  have hstatements (stmts : List NodeId) : a.firstNamed? (stmts.flatMap a.declaredVariables) name
      = stmts.findSome? fun stmt => a.declaredBy? stmt name := by
    simp only [← firstNamed?_declaredVariables]
    exact List.find?_flatMap ..
  have hparameters : (a.parameterNamed? n "parameters" name <|> a.parameterNamed? n "returnParameters" name)
      = a.firstNamed? (a.parametersIn n "parameters" ++ a.parametersIn n "returnParameters") name := by
    rw [← firstNamed?_parametersIn, ← firstNamed?_parametersIn, Option.orElse_eq_orElse, Option.orElse_eq_or]
    exact List.find?_append.symm
  unfold declaredAt? scopeInto
  generalize a.kind n = kind
  split
  · exact (hstatements _).symm
  · exact (hstatements _).symm
  · cases a.child? n "initializationExpression" with
    | none => rfl
    | some init =>
      rw [Option.bind_some, Option.filter_some, bne, ← firstNamed?_declaredVariables]
      cases init == below <;> rfl
  · exact (firstNamed?_parametersIn ..).symm
  · exact hparameters
  · exact hparameters
  · simp [firstNamed?]

theorem lexicalLookup?_of_parent? {a : Arena} {n p : NodeId} {name : Value} (h : a.parent? n = some p) :
    a.lexicalLookup? n name = (a.firstNamed? (a.scopeInto p n) name).or
      (if a.isCallableDefinition p then none else a.lexicalLookup? p name) := by
  rw [lexicalLookup?]
  split
  · next hnone => simp [h] at hnone
  · next q hq =>
    obtain rfl := Option.some.inj (h.symm.trans hq)
    rw [declaredAt?_eq]
    cases a.firstNamed? (a.scopeInto p n) name <;> rfl

theorem findSome?_scopesAlong (scopes : List (List NodeId)) (path : List NodeId) (p n : NodeId)
    (f : List NodeId → Option NodeId) : (a.scopesAlong scopes (path ++ [p] ++ [n])).findSome? f =
      (f (a.scopeInto p n)).or
        (if a.isCallableDefinition p then none else (a.scopesAlong scopes (path ++ [p])).findSome? f) := by
  induction path generalizing scopes with
  | nil =>
    show (a.scopeInto p n :: if a.isCallableDefinition p then [] else scopes).findSome? f = _
    rw [List.findSome?_cons]
    cases f (a.scopeInto p n) <;> cases a.isCallableDefinition p <;> rfl
  | cons k path ih =>
    cases path with
    | nil => exact ih _
    | cons l path => exact ih _

/--
At a node inside a callable a name stands for the first variable of that name in the innermost scope with such a
variable, among the scopes into which one comes on the way from the callable down to the node, and for none if no scope
has it.
-/
theorem lookup_finds_innermost_declaration (c : NodeId) (path : List NodeId) (hc : a.isCallableDefinition c = true)
    (hway : (c :: path ++ [n]).IsChain fun p m => a.parent? m = some p) :
    a.lexicalLookup? n name =
      (a.scopesAlong [] (c :: path ++ [n])).findSome? fun scope => a.firstNamed? scope name := by
  -- by induction on the way, from its end
  induction path using List.reverseRecOn generalizing n with
  | nil =>
    have hparent : a.parent? n = some c := by simpa using hway
    rw [lexicalLookup?_of_parent? hparent, ← List.nil_append [c], findSome?_scopesAlong, hc]
    rfl
  | append_singleton path p ih =>
    rw [← List.cons_append, List.isChain_append] at hway
    obtain ⟨hfront, -, hlast⟩ := hway
    have hparent : a.parent? n = some p := hlast p (by rw [List.getLast?_concat]; rfl) n rfl
    rw [lexicalLookup?_of_parent? hparent, ih p hfront, ← List.cons_append, findSome?_scopesAlong]

end Arena

/-! A function with a parameter `x` and the body `uint x = x; x;`. -/

namespace Shadowing

open Sample

def nodes : Array Node := #[
  node .functionDefinition none "" [("parameters", .one 1), ("body", .one 3)] [],
  parameterList 0 [2],
  parameter 1 "x",
  block 0 [4, 5],
  node .variableDeclarationStatement (some 3) "statements"
    [("declarations", .many [some 6]), ("initialValue", .one 7)] [],
  statement 3 8,
  named .variableDeclaration 4 "declarations" "x",
  identifier 4 "initialValue" "x",
  identifier 5 "expression" "x"]

def arena : Arena :=
  arenaOf nodes (by decide +kernel)

/-- In its own initial value the variable is not declared yet, and the parameter is found; behind it, it is. -/
theorem parameter_is_shadowed_behind_declaration : arena.isCallableDefinition 0 = true ∧
    arena.lexicalLookup? 7 (.text "x") = some 2 ∧ arena.lexicalLookup? 8 (.text "x") = some 6 := by
  refine ⟨rfl, ?_, ?_⟩
  · rw [arena.lookup_finds_innermost_declaration 7 _ 0 [3, 4] rfl (by decide)]
    decide +kernel
  · rw [arena.lookup_finds_innermost_declaration 8 _ 0 [3, 5] rfl (by decide)]
    decide +kernel

end Shadowing

end ContractFlow
