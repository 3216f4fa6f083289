import JvmAccessors.Report

/-!
# Failures of an analysis

A class cannot be found, its file cannot be read, or something inside goes wrong. The last kind shows the report of what
went wrong as its own; the others show one line.
-/

namespace JvmAccessors

/-- Why the accessors of a class could not be had. -/
inductive AccessError
  | classNotFound (name : String)
  | unreadable (path reason : String)
  | internal (report : Report)
  deriving DecidableEq, Repr

namespace AccessError

/-- The report of a failure, without the reason why a file is unreadable. -/
def report : AccessError → Report
  | classNotFound name => .ofMessage s!"class {name} could not be found"
  | unreadable path _ => .ofMessage s!"could not read {path}"
  | internal r => r

/-- Whether the failure is that of a class that was not found. -/
def isClassNotFound : AccessError → Bool
  | classNotFound _ => true
  | _ => false

/-- The nearest cause. -/
def cause? : AccessError → Option String
  | classNotFound _ => none
  | unreadable _ reason => some reason
  | internal r => r.cause?

end AccessError
end JvmAccessors
