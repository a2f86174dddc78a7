import Monkey.Stream

/-!
Why an evaluation failed, and how that is put to the user. A message names the kinds of the values
that did not fit, a builtin by its name and an operator by its text.
-/

namespace Monkey

inductive Kind where
  | integer | boolean | string | null | array | hash | function | builtin | returned | error
  deriving DecidableEq, Repr, Inhabited

def Kind.label : Kind → String
  | .integer => "Integer"
  | .boolean => "Boolean"
  | .string => "String"
  | .null => "Null"
  | .array => "Array"
  | .hash => "Hash"
  | .function => "Function"
  | .builtin => "Builtin"
  | .returned => "Return"
  | .error => "Error"

inductive Builtin where
  | len | first | last | rest | push | puts
  deriving DecidableEq, Repr, Inhabited

namespace Builtin

def name : Builtin → String
  | .len => "len"
  | .first => "first"
  | .last => "last"
  | .rest => "rest"
  | .push => "push"
  | .puts => "puts"

def all : List Builtin := [.len, .first, .last, .rest, .push, .puts]

def ofName? (name : String) : Option Builtin := all.find? (·.name == name)

end Builtin

inductive RuntimeError where
  | identifierNotFound (name : String)
  | unknownUnary (op : String) (operand : Kind)
  | unknownBinary (left : Kind) (op : String) (right : Kind)
  | typeMismatch (left : Kind) (op : String) (right : Kind)
  | notAFunction (kind : Kind)
  | unusableAsHashKey (kind : Kind)
  | indexNotSupported (target : Kind)
  | divisionByZero
  | wrongArgumentCount (got wanted : Nat)
  | unsupportedArgument (function : Builtin) (got : Kind)
  | argumentKind (function : Builtin) (expected got : Kind)
  | output (cause : StreamError)
  deriving DecidableEq, Repr

def RuntimeError.message : RuntimeError → String
  | .identifierNotFound name => "identifier not found: " ++ name
  | .unknownUnary op operand => "unknown operator: " ++ op ++ operand.label
  | .unknownBinary left op right =>
    "unknown operator: " ++ left.label ++ " " ++ op ++ " " ++ right.label
  | .typeMismatch left op right =>
    "type mismatch: " ++ left.label ++ " " ++ op ++ " " ++ right.label
  | .notAFunction kind => "not a function: " ++ kind.label
  | .unusableAsHashKey kind => "unusable as hash key: " ++ kind.label
  | .indexNotSupported target => "index operator not supported: " ++ target.label
  | .divisionByZero => "division by zero"
  | .wrongArgumentCount got wanted =>
    "wrong number of arguments. got=" ++ toString got ++ ", wanted=" ++ toString wanted
  | .unsupportedArgument function got =>
    "argument to `" ++ function.name ++ "` not supported, got " ++ got.label
  | .argumentKind function expected got =>
    "argument to `" ++ function.name ++ "` must be " ++ expected.label ++ ", got " ++ got.label
  | .output cause => "failed to write output: " ++ cause.message

/-- The cause without its details, as reports name it. -/
def RuntimeError.label : RuntimeError → String
  | .identifierNotFound .. => "IdentifierNotFound"
  | .unknownUnary .. => "UnknownPrefixOperator"
  | .unknownBinary .. => "UnknownInfixOperator"
  | .typeMismatch .. => "TypeMismatch"
  | .notAFunction .. => "NotAFunction"
  | .unusableAsHashKey .. => "UnusableAsHashKey"
  | .indexNotSupported .. => "IndexNotSupported"
  | .divisionByZero => "DivisionByZero"
  | .wrongArgumentCount .. => "WrongArgumentCount"
  | .unsupportedArgument .. => "UnsupportedArgument"
  | .argumentKind .. => "ArgumentType"
  | .output .. => "Output"

end Monkey
