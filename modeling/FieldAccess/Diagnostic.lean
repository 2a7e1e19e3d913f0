import FieldAccess.Syntax.Span

namespace FieldAccess

inductive Severity where
  | error
  | warning
  | info
deriving DecidableEq, Repr

def Severity.render : Severity → String
  | error => "error"
  | warning => "warning"
  | info => "info"

structure Diagnostic where
  level : Severity
  span : Span
  message : String
  context : Option String := none
deriving DecidableEq, Repr

def Diagnostic.render (d : Diagnostic) : String :=
  d.span.render ++ ": " ++ d.level.render ++ ": " ++ d.message ++
    d.context.elim "" fun context => " (" ++ context ++ ")"

structure DiagnosticLog where
  reported : List Diagnostic := []
deriving DecidableEq, Repr

namespace DiagnosticLog

def report (log : DiagnosticLog) (d : Diagnostic) : DiagnosticLog :=
  ⟨log.reported ++ [d]⟩

def reportAll (log : DiagnosticLog) (ds : List Diagnostic) : DiagnosticLog :=
  ⟨log.reported ++ ds⟩

def count (log : DiagnosticLog) (level : Severity) : Nat :=
  log.reported.countP (·.level = level)

def hasErrors (log : DiagnosticLog) : Bool :=
  0 < log.count .error

end DiagnosticLog

end FieldAccess
