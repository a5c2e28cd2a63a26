import TypedStore.Schema

/-!
The description of a schema: a document with its title and, under each attribute's key in a record,
the attribute's type. An embedded schema is described in place, unless one of that title is being
described around it; then the property refers to that title instead, so that descriptions of
schemas that embed each other end.
-/

namespace TypedStore.SchemaGraph

variable {σ : Type} [SchemaGraph σ]

/-- The schemas of the family whose description has not been begun. -/
def unvisited (visiting : List String) : List σ := (all : List σ).filter fun s => name s ∉ visiting

theorem length_unvisited_lt {s : σ} {visiting : List String} (h : name s ∉ visiting) :
    (unvisited (name s :: visiting) : List σ).length < (unvisited visiting : List σ).length := by
  have hs : s ∈ (unvisited visiting : List σ) := by simp [unvisited, mem_all, h]
  have hlt : ((unvisited visiting : List σ).filter fun t => name t ≠ name s).length
      < (unvisited visiting : List σ).length :=
    List.length_filter_lt_length_iff_exists.2 ⟨s, hs, by simp⟩
  have heq : (unvisited (name s :: visiting) : List σ)
      = (unvisited visiting : List σ).filter fun t => name t ≠ name s := by
    simp [unvisited, List.filter_filter, not_or]
  rw [heq]
  exact hlt

/-- The properties of a schema's attributes, inside the descriptions of the named schemas. -/
def properties (byAlias : Bool) (visiting : List String) (s : σ) : Document :=
  Keyed.ofPairs <| (fields s).map fun field =>
    let kind := ("type", Value.string field.kind.typeName)
    let property : Document :=
      match field.kind with
      | .embedded nested =>
        if _h : name nested ∈ visiting then
          [kind, ("$ref", .string (name nested))]
        else
          [kind, ("title", .string (name nested)),
            ("properties", .document (properties byAlias (name nested :: visiting) nested))]
      | _ => [kind]
    (field.recordKey byAlias, .document property)
termination_by (unvisited visiting : List σ).length
decreasing_by exact length_unvisited_lt _h

/-- The description of a schema. -/
def describe (byAlias : Bool) (s : σ) : Document :=
  [("title", .string (name s)), ("type", .string "object"),
    ("properties", .document (properties byAlias [name s] s))]

end TypedStore.SchemaGraph
