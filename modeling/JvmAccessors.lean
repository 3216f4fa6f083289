import JvmAccessors.Bytes.Request
import JvmAccessors.ClassFile.Layout
import JvmAccessors.Repository.FileTree
import JvmAccessors.Main
import JvmAccessors.Proofs.Bytecode.Grammar
import JvmAccessors.Proofs.Access.Scan
import JvmAccessors.Proofs.Outcome
import JvmAccessors.Proofs.Text.RoundTrip
import JvmAccessors.Proofs.ClassFile.FindCode
import JvmAccessors.Proofs.Accessor.Insertions
import JvmAccessors.Proofs.Accessor.Qualification
import JvmAccessors.Proofs.ClassFile.Entries
import JvmAccessors.Proofs.ClassFile.Image
import JvmAccessors.Proofs.Repository.Session
import JvmAccessors.Proofs.Text.Canonical
import JvmAccessors.Proofs.ClassFile.References
import JvmAccessors.Proofs.CommandLine.Blocks
import JvmAccessors.Proofs.Accessor.Candidates
import JvmAccessors.Proofs.Descriptor.Exact
import JvmAccessors.Proofs.Accessor.Restriction
import JvmAccessors.Proofs.Repository.Identity
import JvmAccessors.Proofs.Access.Answers
import JvmAccessors.Proofs.Accessor.Failures
import JvmAccessors.Proofs.ClassFile.Extension
import JvmAccessors.Proofs.ClassFile.Slots
import JvmAccessors.Proofs.Access.Progress
import JvmAccessors.Proofs.Bytecode.Concatenation
import JvmAccessors.Proofs.Access.Renumbering
import JvmAccessors.Proofs.ClassFile.Code
import JvmAccessors.Proofs.Accessor.Events
import JvmAccessors.Proofs.Repository.Search
import JvmAccessors.Proofs.Access.Distinction
import JvmAccessors.Proofs.Repository.InMemory
import JvmAccessors.Proofs.Repository.Confinement
import JvmAccessors.Proofs.Bytecode.Words
import JvmAccessors.Proofs.Text.Utf8
import JvmAccessors.Proofs.Bytes.Conservation
import JvmAccessors.Proofs.ClassFile.Growth
import JvmAccessors.Proofs.Access.Growth
import JvmAccessors.Proofs.Accessor.Table
