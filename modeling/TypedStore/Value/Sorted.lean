import TypedStore.Value

/-!
Values with the entries of their documents, and of the scopes of code, in the order of keys.
-/

namespace TypedStore

/-- The entries in the order of their keys. -/
def Keyed.sort {α : Type} (d : Keyed String α) : Keyed String α :=
  d.mergeSort fun a b => decide (a.1 ≤ b.1)

namespace Value

mutual

/-- The value with the entries of every document in the order of their keys. -/
def sorted : Value → Value
  | .array items => .array (sortedItems items)
  | .document entries => .document (Keyed.sort (sortedEntries entries))
  | .codeWithScope text scope => .codeWithScope text (Keyed.sort (sortedEntries scope))
  | v => v

/-- The items of an array, each with its documents in order. -/
def sortedItems : List Value → List Value
  | [] => []
  | v :: rest => v.sorted :: sortedItems rest

/-- The entries of a document, each with the documents below it in order. -/
def sortedEntries : List (String × Value) → List (String × Value)
  | [] => []
  | (k, v) :: rest => (k, v.sorted) :: sortedEntries rest

end

end Value

end TypedStore
