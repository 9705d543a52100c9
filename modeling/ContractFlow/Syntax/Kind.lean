/-!
This module contains the kinds of syntax nodes and the fields that hold their children.
-/

namespace ContractFlow

/--
The kind of a syntax node. Kinds without a meaning to the analyses keep their name.
-/
inductive Kind where
  | sourceUnit
  | contractDefinition
  | inheritanceSpecifier
  | functionDefinition
  | modifierDefinition
  | modifierInvocation
  | parameterList
  | variableDeclaration
  | block
  | uncheckedBlock
  | expressionStatement
  | variableDeclarationStatement
  | ifStatement
  | forStatement
  | whileStatement
  | doWhileStatement
  | returnStatement
  | emitStatement
  | revertStatement
  | tryStatement
  | tryCatchClause
  | throwStatement
  | breakStatement
  | continueStatement
  | placeholderStatement
  | inlineAssembly
  | assignment
  | binaryOperation
  | unaryOperation
  | conditional
  | functionCall
  | functionCallOptions
  | memberAccess
  | indexAccess
  | indexRangeAccess
  | tupleExpression
  | newExpression
  | elementaryTypeNameExpression
  | identifier
  | identifierPath
  | literal
  | elementaryTypeName
  | userDefinedTypeName
  | mapping
  | arrayTypeName
  | functionTypeName
  | usingForDirective
  | structDefinition
  | eventDefinition
  | errorDefinition
  | enumDefinition
  | userDefinedValueTypeDefinition
  | other (name : String)
deriving DecidableEq, Inhabited

namespace Kind

def name : Kind → String
  | sourceUnit => "SourceUnit"
  | contractDefinition => "ContractDefinition"
  | inheritanceSpecifier => "InheritanceSpecifier"
  | functionDefinition => "FunctionDefinition"
  | modifierDefinition => "ModifierDefinition"
  | modifierInvocation => "ModifierInvocation"
  | parameterList => "ParameterList"
  | variableDeclaration => "VariableDeclaration"
  | block => "Block"
  | uncheckedBlock => "UncheckedBlock"
  | expressionStatement => "ExpressionStatement"
  | variableDeclarationStatement => "VariableDeclarationStatement"
  | ifStatement => "IfStatement"
  | forStatement => "ForStatement"
  | whileStatement => "WhileStatement"
  | doWhileStatement => "DoWhileStatement"
  | returnStatement => "Return"
  | emitStatement => "EmitStatement"
  | revertStatement => "RevertStatement"
  | tryStatement => "TryStatement"
  | tryCatchClause => "TryCatchClause"
  | throwStatement => "Throw"
  | breakStatement => "Break"
  | continueStatement => "Continue"
  | placeholderStatement => "PlaceholderStatement"
  | inlineAssembly => "InlineAssembly"
  | assignment => "Assignment"
  | binaryOperation => "BinaryOperation"
  | unaryOperation => "UnaryOperation"
  | conditional => "Conditional"
  | functionCall => "FunctionCall"
  | functionCallOptions => "FunctionCallOptions"
  | memberAccess => "MemberAccess"
  | indexAccess => "IndexAccess"
  | indexRangeAccess => "IndexRangeAccess"
  | tupleExpression => "TupleExpression"
  | newExpression => "NewExpression"
  | elementaryTypeNameExpression => "ElementaryTypeNameExpression"
  | identifier => "Identifier"
  | identifierPath => "IdentifierPath"
  | literal => "Literal"
  | elementaryTypeName => "ElementaryTypeName"
  | userDefinedTypeName => "UserDefinedTypeName"
  | mapping => "Mapping"
  | arrayTypeName => "ArrayTypeName"
  | functionTypeName => "FunctionTypeName"
  | usingForDirective => "UsingForDirective"
  | structDefinition => "StructDefinition"
  | eventDefinition => "EventDefinition"
  | errorDefinition => "ErrorDefinition"
  | enumDefinition => "EnumDefinition"
  | userDefinedValueTypeDefinition => "UserDefinedValueTypeDefinition"
  | other name => name

def known : List Kind :=
  [.sourceUnit, .contractDefinition, .inheritanceSpecifier, .functionDefinition,
   .modifierDefinition, .modifierInvocation, .parameterList, .variableDeclaration, .block,
   .uncheckedBlock, .expressionStatement, .variableDeclarationStatement, .ifStatement,
   .forStatement, .whileStatement, .doWhileStatement, .returnStatement, .emitStatement,
   .revertStatement, .tryStatement, .tryCatchClause, .throwStatement, .breakStatement,
   .continueStatement, .placeholderStatement, .inlineAssembly, .assignment, .binaryOperation,
   .unaryOperation, .conditional, .functionCall, .functionCallOptions, .memberAccess,
   .indexAccess, .indexRangeAccess, .tupleExpression, .newExpression,
   .elementaryTypeNameExpression, .identifier, .identifierPath, .literal, .elementaryTypeName,
   .userDefinedTypeName, .mapping, .arrayTypeName, .functionTypeName, .usingForDirective,
   .structDefinition, .eventDefinition, .errorDefinition, .enumDefinition,
   .userDefinedValueTypeDefinition]

def ofName (name : String) : Kind :=
  (known.find? (·.name == name)).getD (other name)

@[simp]
theorem name_ofName (name : String) : (ofName name).name = name := by
  unfold ofName
  cases h : known.find? (·.name == name) with
  | none => rfl
  | some k => simpa using List.find?_some h

/--
The fields that hold the children of a node, in the order of evaluation. A kind without such a list
keeps its children in any field.
-/
def childRoles : Kind → Option (List String)
  | sourceUnit => some ["nodes"]
  | contractDefinition => some ["baseContracts", "nodes"]
  | inheritanceSpecifier => some ["baseName", "arguments"]
  | functionDefinition => some ["parameters", "returnParameters", "modifiers", "overrides", "body"]
  | modifierDefinition => some ["parameters", "overrides", "body"]
  | modifierInvocation => some ["modifierName", "arguments"]
  | parameterList => some ["parameters"]
  | variableDeclaration => some ["typeName", "overrides", "value"]
  | block => some ["statements"]
  | uncheckedBlock => some ["statements"]
  | expressionStatement => some ["expression"]
  | variableDeclarationStatement => some ["declarations", "initialValue"]
  | ifStatement => some ["condition", "trueBody", "falseBody"]
  | forStatement => some ["initializationExpression", "condition", "loopExpression", "body"]
  | whileStatement => some ["condition", "body"]
  | doWhileStatement => some ["body", "condition"]
  | returnStatement => some ["expression"]
  | emitStatement => some ["eventCall"]
  | revertStatement => some ["errorCall"]
  | tryStatement => some ["externalCall", "clauses"]
  | tryCatchClause => some ["parameters", "block"]
  | assignment => some ["leftHandSide", "rightHandSide"]
  | binaryOperation => some ["leftExpression", "rightExpression"]
  | unaryOperation => some ["subExpression"]
  | conditional => some ["condition", "trueExpression", "falseExpression"]
  | functionCall => some ["expression", "arguments"]
  | functionCallOptions => some ["expression", "options"]
  | memberAccess => some ["expression"]
  | indexAccess => some ["baseExpression", "indexExpression"]
  | indexRangeAccess => some ["baseExpression", "startExpression", "endExpression"]
  | tupleExpression => some ["components"]
  | newExpression => some ["typeName"]
  | elementaryTypeNameExpression => some ["typeName"]
  | userDefinedTypeName => some ["pathNode"]
  | mapping => some ["keyType", "valueType"]
  | arrayTypeName => some ["baseType", "length"]
  | usingForDirective => some ["libraryName", "typeName"]
  | structDefinition => some ["members"]
  | eventDefinition => some ["parameters"]
  | errorDefinition => some ["parameters"]
  | _ => none

def isBlock : Kind → Bool
  | block | uncheckedBlock => true
  | _ => false

def isExpression : Kind → Bool
  | identifier | literal | memberAccess | indexAccess | indexRangeAccess | functionCall
  | binaryOperation | unaryOperation | assignment | conditional | tupleExpression | newExpression
  | elementaryTypeNameExpression => true
  | _ => false

def isTypeName : Kind → Bool
  | elementaryTypeName | userDefinedTypeName | mapping | arrayTypeName | functionTypeName
  | identifierPath | parameterList => true
  | _ => false

def isStatement : Kind → Bool
  | expressionStatement | variableDeclarationStatement | returnStatement | emitStatement
  | revertStatement | ifStatement | forStatement | whileStatement | doWhileStatement
  | breakStatement | continueStatement | placeholderStatement | inlineAssembly | tryStatement
  | throwStatement => true
  | _ => false

def isPath : Kind → Bool
  | indexAccess | indexRangeAccess | memberAccess => true
  | _ => false

end Kind

end ContractFlow
