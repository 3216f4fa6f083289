/-!
# Class names

A class name is written with `.` or with `/` between its parts; class files use `/`, the internal form. Main statement:
the internal form has no `.` left, and is its own internal form (`internal_internal`).
-/

namespace JvmAccessors
namespace ClassName

/-- A separator in internal form. -/
def separator (c : Char) : Char := if c = '.' then '/' else c

/-- The internal form of a class name. -/
def internal (name : String) : String := String.ofList (name.toList.map separator)

/-- The characters of the internal form. -/
@[simp] theorem toList_internal (name : String) : (internal name).toList = name.toList.map separator := by
  simp [internal]

/-- No `.` is left in internal form. -/
theorem not_mem_internal (name : String) : '.' ∉ (internal name).toList := by
  simp only [toList_internal, List.mem_map, not_exists, not_and, separator]
  intro c _ h
  split at h
  · cases h
  · exact absurd h ‹_›

/-- The internal form is its own internal form. -/
theorem internal_internal (name : String) : internal (internal name) = internal name := by
  apply String.toList_injective
  simp only [toList_internal, List.map_map]
  congr 1
  funext c
  simp only [Function.comp, separator]
  split <;> simp_all

end ClassName
end JvmAccessors
