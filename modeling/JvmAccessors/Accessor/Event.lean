import JvmAccessors.Accessor.Map

/-!
# Events

What happens while accessors are looked for is told in events, each with a level and a text; these make a line of the
log. A `Traced` result keeps the events before it, also when it is a failure.
-/

namespace JvmAccessors

/-- How much an event matters. -/
inductive Level
  | trace | debug | info | error
  deriving DecidableEq, Repr

/-- The name of a level. -/
def Level.name : Level → String
  | .trace => "TRACE"
  | .debug => "DEBUG"
  | .info => "INFO"
  | .error => "ERROR"

/-- Why a method whose name is that of an accessor is none. -/
inductive Rejection
  /-- It is abstract or native. -/
  | noBody
  | noCode
  /-- It makes no field access, or several. -/
  | notOneField
  /-- Its signature is not that of an accessor that makes this access. -/
  | misfit (signature : String) (access : FieldAccess)
  deriving DecidableEq, Repr

/-- What follows the name of a rejected method. -/
def Rejection.text : Rejection → String
  | .noBody => " has no body"
  | .noCode => " has no code attribute"
  | .notOneField => " does not touch exactly one field"
  | .misfit signature access => s!" {signature} does not fit a {access.direction.text} of {access.field.text}"

/-- Something that happened. -/
inductive Event
  | rejected (className method : String) (reason : Rejection)
  /-- An accessor gave way to a later one of its name. -/
  | replaced (className : String) (previous : Accessor)
  | completed (className : String) (count : Nat)
  | hit (className : String)
  | miss (className : String)
  | loading (className path : String)
  deriving DecidableEq, Repr

namespace Event

/-- The level of an event. -/
def level : Event → Level
  | rejected _ _ _ => .trace
  | _ => .debug

/-- The text of an event. -/
def message : Event → String
  | rejected className method reason => s!"{className}.{method}{reason.text}"
  | replaced className previous =>
    s!"{className}.{previous.name} {previous.signature} was replaced by a later accessor of the same name"
  | completed className count => s!"{className} has {count} accessor(s)"
  | hit className => s!"Fast path: {className}"
  | miss className => s!"Slow path: {className}"
  | loading className path => s!"Loading {className} from {path}"

end Event

/-- A line of the log. -/
structure LogEntry where
  level : Level
  message : String
  deriving DecidableEq, Repr

/-- The line that tells of an event. -/
def LogEntry.ofEvent (e : Event) : LogEntry := ⟨e.level, e.message⟩

/-- A result, or a failure, after some events. -/
structure Traced (ε α : Type) where
  events : List Event
  outcome : Except ε α

namespace Traced

/-- The lines that tell of what happened before. -/
def log {ε α : Type} (t : Traced ε α) : List LogEntry := t.events.map .ofEvent

/-- A result before which nothing happened. -/
def ofExcept {ε α : Type} (outcome : Except ε α) : Traced ε α := ⟨[], outcome⟩

/-- The same after one more event. -/
def after {ε α : Type} (event : Event) (t : Traced ε α) : Traced ε α := ⟨event :: t.events, t.outcome⟩

/-- What comes of going on with a result; a failure stays. -/
def andThen {ε α β : Type} (t : Traced ε α) (next : α → Traced ε β) : Traced ε β :=
  match t.outcome with
  | .error e => ⟨t.events, .error e⟩
  | .ok a => ⟨t.events ++ (next a).events, (next a).outcome⟩

/-- The same with its failures renamed. -/
def mapError {ε ε' α : Type} (f : ε → ε') (t : Traced ε α) : Traced ε' α := ⟨t.events, t.outcome.mapError f⟩

end Traced
end JvmAccessors
