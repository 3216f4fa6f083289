import JvmAccessors.Access.Scan
import JvmAccessors.Access.Signature
import JvmAccessors.Accessor.Event
import JvmAccessors.ClassFile.Basic
import JvmAccessors.Report

/-!
# The accessors of a class

`AccessorMap.build` judges the methods of a class in order. Only a method whose name starts with the chosen text is
looked at; its name is compared as bytes and decoded only then. A judged method is rejected for a reason or accepted
with what it does; a later accessor takes the place of an earlier one of its name.
-/

namespace JvmAccessors

/-- Why the accessors of a class could not be told. -/
inductive BuildError
  | className (cause : TextError)
  /-- The name of a method leads to no text. -/
  | methodName (cause : LookupError)
  /-- The name or the descriptor of a method. -/
  | text (cause : TextError)
  | code (cause : CodeError)
  | scan (cause : ScanError)
  /-- The type of the field that a method uses. -/
  | fieldType (cause : DescriptorError)
  deriving DecidableEq

/-- The report of accesses that could not be told. -/
def ScanError.report : ScanError → Report
  | .operand cause => .ofMessage cause.message
  | .lookup cause => .ofMessage cause.message
  | .notField offset found index =>
    .ofMessage s!"field instruction @ {offset} references a {found.kind} constant (#{index.toNat})"
  | .text cause => .ofMessage cause.message
  | .undecodable fault => (Report.ofMessage fault.cause.message).within fault.context

/-- The report of accessors that could not be told. -/
def BuildError.report : BuildError → Report
  | .className cause => .ofMessage cause.message
  | .methodName cause => .ofMessage cause.message
  | .text cause => .ofMessage cause.message
  | .code cause => .ofMessage cause.message
  | .scan cause => cause.report
  | .fieldType cause => .ofMessage cause.message

/-- The judgement on one method. -/
inductive Verdict
  /-- Its name is not that of an accessor. -/
  | ignored
  | rejected (name : String) (reason : Rejection)
  | accepted (accessor : Accessor)
  deriving DecidableEq

namespace Verdict

/-- The judgement on a method with code. -/
def ofCode (c : ClassFile) (className name : String) (m : Member) (code : Code) : Except BuildError Verdict := do
  let signature ← (c.pool.text m.descriptor).mapError .text
  match ← (scan c.pool code.bytecode).mapError .scan with
  | none => return .rejected name .notOneField
  | some access =>
    if ← (access.fits className signature).mapError .fieldType then
      return .accepted ⟨name, signature, access.field, access.direction⟩
    else return .rejected name (.misfit signature access)

/-- The judgement on a method whose name starts right. -/
def ofCandidate (c : ClassFile) (className : String) (m : Member) : Except BuildError Verdict := do
  let name ← (c.pool.text m.name).mapError .text
  if Flags.hasBody m.flags then
    match ← (Attribute.findCode c.pool m.attributes).mapError .code with
    | none => return .rejected name .noCode
    | some code => ofCode c className name m code
  else return .rejected name .noBody

/-- The judgement on a method of a class, given the bytes that the name of an accessor starts with. -/
def ofMember (c : ClassFile) (className : String) (start : Bytes) (m : Member) : Except BuildError Verdict := do
  let name ← (c.pool.utf8At m.name).mapError .methodName
  if start.isPrefixOf name then ofCandidate c className m else return .ignored

end Verdict

namespace AccessorMap

/-- The map that a judgement leaves, after the event that tells of it. -/
def settle (className : String) (m : AccessorMap) : Verdict → List Event × AccessorMap
  | .ignored => ([], m)
  | .rejected name reason => ([.rejected className name reason], m)
  | .accepted a =>
    match m.insert a with
    | (m, none) => ([], m)
    | (m, some previous) => ([.replaced className previous], m)

/-- The map that judging methods in turn leaves. -/
def collect (className : String) (judge : Member → Except BuildError Verdict) :
    AccessorMap → List Member → Traced BuildError AccessorMap
  | m, [] => .ofExcept (.ok m)
  | m, method :: rest =>
    match judge method with
    | .error e => .ofExcept (.error e)
    | .ok verdict =>
      let (events, m) := settle className m verdict
      let later := collect className judge m rest
      ⟨events ++ later.events, later.outcome⟩

/-- The accessors of a class whose names start with the given text. -/
def build (c : ClassFile) (start : String) : Traced BuildError AccessorMap :=
  match c.name with
  | .error e => .ofExcept (.error (.className e))
  | .ok className =>
    (collect className (Verdict.ofMember c className (ModifiedUtf8.encode start)) empty c.methods).andThen fun m =>
      ⟨[.completed className m.size], .ok m⟩

/-- What the names of accessors start with unless something else is asked for. -/
def defaultStart : String := "access$"

end AccessorMap
end JvmAccessors
