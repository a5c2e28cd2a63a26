import TypedStore.Schema

/-!
Respelling the keys of a document from attribute names to the names that records are stored under,
and back.

At each level a key that is the first attribute's of that spelling takes the attribute's other
name, and a document below an embedded attribute is respelled by the embedded schema. Primary keys
and keys that no attribute has stay as they are. Where two keys come out the same, the later
entry's value is kept.
-/

namespace TypedStore.SchemaGraph

variable {σ : Type} [SchemaGraph σ]

/-- The attribute that a key stands for under the spelling opposite to the wanted one. -/
def renamed? (into : Naming) (s : σ) (key : String) : Option (Field σ) :=
  (fields s).find? fun f => !f.isPrimaryKey && f.spelled into.other == key

mutual

/-- A value below an attribute of this kind, respelled. -/
def renameValue (into : Naming) (kind : FieldKind σ) : Value → Value
  | .document inner =>
    match kind with
    | .embedded nested => .document (Keyed.ofPairs (renameEntries into nested inner))
    | _ => .document inner
  | v => v

/-- The entries of a document of this schema, respelled one by one. -/
def renameEntries (into : Naming) (s : σ) : List (String × Value) → List (String × Value)
  | [] => []
  | (k, v) :: rest =>
    (match renamed? into s k with
      | some f => (f.spelled into, renameValue into f.kind v)
      | none => (k, v)) :: renameEntries into s rest

end

/-- A document of this schema, respelled. -/
def rename (into : Naming) (s : σ) (d : Document) : Document :=
  Keyed.ofPairs (renameEntries into s d)

end TypedStore.SchemaGraph
