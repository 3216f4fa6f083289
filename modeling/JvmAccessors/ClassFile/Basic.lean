import JvmAccessors.ClassFile.Attribute
import JvmAccessors.ClassFile.Flags

/-!
# Class files

`ClassImage` holds what a class file says, number for number; `ClassFile` is what it means: unknown flags dropped, the
constants in the slots they take, and super class zero read as none (`ClassImage.classFile`).
-/

namespace JvmAccessors

/-- A field or a method. -/
structure Member where
  flags : UInt16
  name : Index
  descriptor : Index
  attributes : List Attribute
  deriving DecidableEq

/-- What a class file says. -/
structure ClassImage where
  minor : UInt16
  major : UInt16
  /-- One more than the number of slots that the file declares. -/
  poolCount : UInt16
  constants : List Constant
  flags : UInt16
  thisClass : Index
  superClass : Index
  interfaces : List Index
  fields : List Member
  methods : List Member
  attributes : List Attribute
  deriving DecidableEq

/-- The bytes that every class file starts with, as a number. -/
def ClassImage.magic : UInt32 := 0xcafebabe

/-- What a class file means. -/
structure ClassFile where
  minor : UInt16
  major : UInt16
  pool : Pool
  flags : UInt16
  thisClass : Index
  superClass : Option Index
  interfaces : List Index
  fields : List Member
  methods : List Member
  attributes : List Attribute
  deriving DecidableEq

/-- A member without the flags that have no name. -/
def Member.known (holder : FlagHolder) (m : Member) : Member := { m with flags := Flags.known holder m.flags }

/-- What the numbers of a class file mean. -/
def ClassImage.classFile (image : ClassImage) : ClassFile where
  minor := image.minor
  major := image.major
  pool := Pool.ofConstants image.constants
  flags := Flags.known .classFile image.flags
  thisClass := image.thisClass
  superClass := if image.superClass = 0 then none else some image.superClass
  interfaces := image.interfaces
  fields := image.fields.map (Member.known .field)
  methods := image.methods.map (Member.known .method)
  attributes := image.attributes

/-- The name of the class, with `/` between its parts. -/
def ClassFile.name (c : ClassFile) : Except TextError String := c.pool.className c.thisClass

end JvmAccessors
