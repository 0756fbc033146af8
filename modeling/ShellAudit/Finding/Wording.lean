-- SUMMARY: The descriptions and recommendations that the checks give.

/-!
# Wording

The texts are part of the output. A repair is chosen by the description of a
finding, so two of them also name a repair.
-/

namespace ShellAudit.Wording

/-! ## Descriptions -/

def missingPath : String :=
  "PATH variable is missing. For security, it's recommended to explicitly declare a safe PATH at the beginning of the script."

def zerothParameter : String :=
  "Be careful when expanding parameter 0. Race condition is a possible attack."

def unquotedVariable : String :=
  "Unquoted variables in may lead to command injection or word splitting/globbing"

def unquotedSubstitution : String :=
  "Unquoted command substitution may lead to word splitting/globbing"

def evalSource : String :=
  "eval/source command with unvalidated input is extremely dangerous"

def commandInjection : String :=
  "Executin variable with unvalidated input may lead to command injection"

def arrayIndex : String :=
  "Array index with untrusted input can lead to code execution."

def globExpansion : String :=
  "Unqouted parameters may lead to expansion."

/-! ## Recommendations -/

def quoteVariables : String :=
  "Always quote variables when using them in commands"

def quoteSubstitution : String :=
  "Quote command substitution to prevent word splitting/globbing"

def avoidEval : String :=
  "Avoid using eval/source with unvalidated input. Consider alternative approaches."

def validateInput : String :=
  "Validate and sanitize all input before using it in command execution"

def validateIndices : String :=
  "Validate and sanitize array indices, especially when they come from user input."

def mendSyntax : String :=
  "Handle syntax errors before proceeding to vulnerability analysis."

def quoteParameters : String :=
  "Quote parameters to prevent glob expansion."

end ShellAudit.Wording
