/-!
# Names of classes

Class files write the name of a class with slashes, `java/lang/String`.
Everywhere else in the package a class is known by its dotted name,
`java.lang.String`.

## Main results

* `dotted_dotted` — a dotted name is its own dotted form.
-/

namespace TestCost

namespace ClassName

/-- The dotted form of a name. -/
def dotted (name : String) : String :=
  String.ofList (name.toList.map fun c => if c = '/' then '.' else c)

/-- The form of a dotted name that paths are made of. -/
def slashed (name : String) : String :=
  String.ofList (name.toList.map fun c => if c = '.' then '/' else c)

theorem dotted_dotted (name : String) : dotted (dotted name) = dotted name := by
  unfold dotted
  rw [String.toList_ofList, List.map_map]
  congr 2
  funext c
  by_cases hc : c = '/' <;> simp [hc]

end ClassName

end TestCost
