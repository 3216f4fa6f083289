import JvmAccessors.Proofs.ClassFile.Entries

/-!
# The slot counter

The slots of a pool are counted in sixteen bits. A `long` or a `double` in the last slot that can be declared takes the
counter past its greatest number. What comes of that depends on how the program was built (`Build`): it stops there, or
goes on from zero. `Build.parse` reads a class file as a build does.
-/

namespace JvmAccessors

/-- How something ends without a result: for a cause that is answered, or because the whole program stops. -/
inductive Ending (ε : Type)
  | failed (cause : ε)
  | stopped
  deriving DecidableEq

/-- The same ending with its cause renamed. -/
def Ending.map {ε ε' : Type} (f : ε → ε') : Ending ε → Ending ε'
  | .failed cause => .failed (f cause)
  | .stopped => .stopped

/-- What a program does where a number leaves its range. -/
inductive Build
  /-- It stops. -/
  | checked
  /-- It goes on from zero. -/
  | wrapping
  deriving DecidableEq, Repr

instance {ε : Type} : MonadLift (Reader ε) (Reader (Ending ε)) where
  monadLift p := p.mapError .failed

open Reader

/-- Reading a constant takes bytes. -/
theorem Constant.length_lt_of_read {b rest : Bytes} {k : Constant} (h : Constant.read b = .ok (k, rest)) :
    rest.length < b.length := by
  obtain ⟨-, rfl⟩ := (Constant.exact_read _ _ _).mp h
  rw [Constant.layout, List.length_append, List.length_append, Layout.u8, Bytes.length_ofNat]
  omega

namespace Build

/-- The number after one, unless the program stops. -/
def next? (build : Build) (i : UInt16) : Option UInt16 :=
  match build with
  | .checked => if i = 65535 then none else some (i + 1)
  | .wrapping => some (i + 1)

/-- The number of the slot after a constant, which is counted twice if it is a `long` or a `double`. -/
def slotAfter? (build : Build) (i : UInt16) (k : Constant) : Option UInt16 :=
  if k.isWide then (build.next? i).bind build.next? else build.next? i

/-- Reads constants as long as the number of the next slot is below the declared count. -/
def readConstants (build : Build) (count i : UInt16) : Reader (Ending ParseError) (List Constant) := fun b =>
  if i < count then
    match _h : Constant.read b with
    | .error e => .error (.failed e)
    | .ok (k, rest) =>
      match build.slotAfter? i k with
      | none => .error .stopped
      | some next => (build.readConstants count next rest).map fun (ks, rest) => (k :: ks, rest)
  else .ok ([], b)
termination_by b => b.length
decreasing_by exact Constant.length_lt_of_read _h

/-- Reads a class file off the front. -/
def readImage (build : Build) : Reader (Ending ParseError) ClassImage := do
  let (minor, major, poolCount) ← ClassImage.readHeader
  let constants ← build.readConstants poolCount 1
  ClassImage.readRest minor major poolCount constants

/-- The class file that a byte string holds. -/
def parse (build : Build) (b : Bytes) : Except (Ending ParseError) ClassFile :=
  ClassFile.ofReading .failed (build.readImage b)

end Build
end JvmAccessors
