/-!
# Reports of failures

A report tells what failed and, from the outside in, what caused it. Its short form shows the outermost line alone, its
full form all of them.
-/

namespace JvmAccessors

/-- A failure and its causes, outermost first. -/
structure Report where
  headline : String
  causes : List String
  deriving DecidableEq, Repr

namespace Report

/-- The report of a failure without a cause. -/
def ofMessage (message : String) : Report := ⟨message, []⟩

/-- The report of a failure that this one caused. -/
def within (context : String) (r : Report) : Report := ⟨context, r.headline :: r.causes⟩

/-- The outermost line. -/
def short (r : Report) : String := r.headline

/-- All lines, outermost first. -/
def full (r : Report) : String := ": ".intercalate (r.headline :: r.causes)

/-- The nearest cause. -/
def cause? (r : Report) : Option String := r.causes.head?

end Report
end JvmAccessors
