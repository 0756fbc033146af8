-- SUMMARY: The kinds of syntax nodes that the analyses tell apart.
import ShellAudit.Text.Search

/-!
# Node kinds

A grammar names the kind of each node. The kinds that some rule looks at are
constructors; all others, single tokens such as `==` among them, are `other`
with their name.
-/

namespace ShellAudit

inductive Kind where
  | program
  | compoundStatement
  | subshell
  | pipeline
  | functionDefinition
  | ifStatement
  | caseStatement
  | command
  | commandName
  | variableAssignment
  | declarationCommand
  | testCommand
  | testOperator
  | variableName
  | specialVariableName
  | subscript
  | expansion
  | simpleExpansion
  | arithmeticExpansion
  | concatenation
  | commandSubstitution
  | processSubstitution
  | word
  | number
  | string
  | rawString
  | heredocBody
  | redirect
  | localKeyword
  | other (name : String)
deriving DecidableEq, Repr, Inhabited

namespace Kind

/-- The name that a grammar gives to the kind. -/
def name : Kind → String
  | program => "program"
  | compoundStatement => "compound_statement"
  | subshell => "subshell"
  | pipeline => "pipeline"
  | functionDefinition => "function_definition"
  | ifStatement => "if_statement"
  | caseStatement => "case_statement"
  | command => "command"
  | commandName => "command_name"
  | variableAssignment => "variable_assignment"
  | declarationCommand => "declaration_command"
  | testCommand => "test_command"
  | testOperator => "test_operator"
  | variableName => "variable_name"
  | specialVariableName => "special_variable_name"
  | subscript => "subscript"
  | expansion => "expansion"
  | simpleExpansion => "simple_expansion"
  | arithmeticExpansion => "arithmetic_expansion"
  | concatenation => "concatenation"
  | commandSubstitution => "command_substitution"
  | processSubstitution => "process_substitution"
  | word => "word"
  | number => "number"
  | string => "string"
  | rawString => "raw_string"
  | heredocBody => "heredoc_body"
  | redirect => "redirect"
  | localKeyword => "local"
  | other name => name

/-- The kind of a given name. -/
def ofName : String → Kind
  | "program" => program
  | "compound_statement" => compoundStatement
  | "subshell" => subshell
  | "pipeline" => pipeline
  | "function_definition" => functionDefinition
  | "if_statement" => ifStatement
  | "case_statement" => caseStatement
  | "command" => command
  | "command_name" => commandName
  | "variable_assignment" => variableAssignment
  | "declaration_command" => declarationCommand
  | "test_command" => testCommand
  | "test_operator" => testOperator
  | "variable_name" => variableName
  | "special_variable_name" => specialVariableName
  | "subscript" => subscript
  | "expansion" => expansion
  | "simple_expansion" => simpleExpansion
  | "arithmetic_expansion" => arithmeticExpansion
  | "concatenation" => concatenation
  | "command_substitution" => commandSubstitution
  | "process_substitution" => processSubstitution
  | "word" => word
  | "number" => number
  | "string" => string
  | "raw_string" => rawString
  | "heredoc_body" => heredocBody
  | "redirect" => redirect
  | "local" => localKeyword
  | name => other name

@[simp] theorem name_ofName (s : String) : (ofName s).name = s := by
  unfold ofName
  split <;> rfl

/-- Kinds whose name speaks of an expansion; each of them is a use of a variable. -/
def isExpansion : Kind → Bool
  | expansion | simpleExpansion | arithmeticExpansion => true
  | other name => Text.contains name.toList "expansion".toList
  | _ => false

/-- Kinds of nodes that are arguments of a command. -/
def isArgument : Kind → Bool
  | word | number | expansion | simpleExpansion | string | rawString | concatenation
  | commandSubstitution | arithmeticExpansion | processSubstitution | heredocBody | redirect => true
  | _ => false

/-- Kinds of nodes that name what an expansion expands. -/
def isParameter : Kind → Bool
  | subscript | variableName | specialVariableName => true
  | _ => false

/-- Operators whose operands the shell evaluates as arithmetic. -/
def isArithmeticOperator : Kind → Bool
  | other name =>
    ["==", "!=", "<", ">", "<=", ">=", "+", "-", "*", "/", "%", "=", "+=", "-=", "*=", "/="].contains
      name
  | _ => false

/-- Whether an expansion directly below a node of this kind stands where a
command stands; `first` tells whether it is the node's first child. -/
def runsChild (parent : Kind) (first : Bool) : Bool :=
  match parent with
  | command | pipeline => first
  | program | compoundStatement | subshell | functionDefinition => true
  | _ => false

end Kind

end ShellAudit
