import FieldAccess.Eval.Machine
import FieldAccess.Syntax.Expr

namespace FieldAccess

inductive TypeFault where
  | argumentCount (function : String) (expected : Nat) (found : Nat)
  | valueCount (expected : Nat) (found : Nat)
  | resultCount (found : Nat)
  | definedTarget
  | mapKey (found : Value)
  | missingKey
  | indexKind
  | notIndexable (found : Value)
  | notIterable (found : Value)
  | condition
  | operator (op : BinaryOp) (kind : String)
  | operands (op : BinaryOp) (left : Value) (right : Value)
  | operand (op : UnaryOp) (found : Value)
  | notExpression (type : TypeExpr)
  | conversionCount (type : String)
  | conversion (type : String) (found : Value)
  | noLength (found : Value)
  | makeOperand
  | notMakeable (type : TypeExpr)
  | notAppendable (found : Value)
  | stringArgument (position : Nat)

def TypeFault.message (m : Machine) : TypeFault → String
  | argumentCount function expected found =>
    function ++ " takes " ++ toString expected ++ " arguments, got " ++ toString found
  | valueCount expected found =>
    "assignment mismatch: " ++ toString expected ++ " variables but " ++ toString found ++ " values"
  | resultCount found => "call used as a value returns " ++ toString found ++ " values"
  | definedTarget => "non-name on left side of :="
  | mapKey found => "invalid map key " ++ m.render found
  | missingKey => "map literal without key"
  | indexKind => "non-integer index"
  | notIndexable found => "cannot index " ++ m.render found
  | notIterable found => "cannot range over " ++ m.render found
  | condition => "non-boolean condition"
  | operator op kind => "invalid operator " ++ op.render ++ " on " ++ kind
  | operands op left right =>
    "invalid operation " ++ m.render left ++ " " ++ op.render ++ " " ++ m.render right
  | operand op found => "invalid operation " ++ op.render ++ m.render found
  | notExpression type => type.render ++ " is not an expression"
  | conversionCount type => "conversion to " ++ type ++ " takes one value"
  | conversion type found => "cannot convert " ++ m.render found ++ " to " ++ type
  | noLength found => "invalid argument " ++ m.render found ++ " for len"
  | makeOperand => "make needs a type"
  | notMakeable type => "cannot make " ++ type.render
  | notAppendable found => "first argument to append is " ++ m.render found
  | stringArgument position => "argument " ++ toString position ++ " must be a string"

inductive UnsupportedForm where
  | compoundTargets
  | compoundValues
  | assignmentTarget
  | positionalStruct
  | indirectCall
deriving DecidableEq, Repr

def UnsupportedForm.message : UnsupportedForm → String
  | compoundTargets => "multi-target op="
  | compoundValues => "multi-value op="
  | assignmentTarget => "assignment to"
  | positionalStruct => "positional struct literal"
  | indirectCall => "indirect call"

inductive ExecFault where
  | panicked (value : Value)
  | divisionByZero
  | nilMapWrite
  | undefined (name : String)
  | noMember (base : Value) (member : String)
  | nilDereference
  | indexOutOfRange (index : Int64) (length : Nat)
  | type (fault : TypeFault)
  | unsupported (form : UnsupportedForm)
  | callDepth
  -- A result is no 64-bit integer, and the operation does not wrap.
  | overflow
  | roundLimit

def ExecFault.message (m : Machine) : ExecFault → String
  | panicked (.str text) => "panic: " ++ text
  | panicked value => "panic: " ++ m.render value
  | divisionByZero => "panic: integer divide by zero"
  | nilMapWrite => "panic: assignment to entry in nil map"
  | undefined name => "undefined: " ++ name
  | noMember base member => m.typeName base ++ " has no field or method " ++ member
  | nilDereference => "invalid memory address or nil pointer dereference"
  | indexOutOfRange index length =>
    "index out of range [" ++ toString index.toInt ++ "] with length " ++ toString length
  | type fault => "type error: " ++ fault.message m
  | unsupported form => "unsupported: " ++ form.message
  | callDepth => "call depth exceeded"
  | overflow => "integer overflow"
  | roundLimit => "round limit exceeded"

-- Running code reads and changes a machine. What it changed before a fault stays changed.
abbrev Exec :=
  EStateM ExecFault Machine

namespace Exec

variable {α : Type}

def fail (fault : ExecFault) : Exec α :=
  throw fault

def failType (fault : TypeFault) : Exec α :=
  throw (.type fault)

def ofExcept : Except ExecFault α → Exec α
  | .ok a => pure a
  | .error fault => throw fault

def ofState (x : StateM Machine α) : Exec α :=
  modifyGet x

def orFail (fault : ExecFault) : Option α → Exec α
  | some a => pure a
  | none => throw fault

end Exec

end FieldAccess
