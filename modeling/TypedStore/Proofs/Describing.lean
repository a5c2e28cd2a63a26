import Mathlib.Data.List.Dedup
import Mathlib.Data.List.Perm.Subperm
import TypedStore.Schema.Description

/-!
What a schema's description is made of, and why it ends.

Each key of a level stands for an attribute of the schema described there (`get?_properties`), and
what stands under it depends on the attribute's kind and on the titles the level is inside of
(`property`).

`describe?` is the description made by one traversal of the graph, with a single list of open titles
that all of it shares and a limit on how deep it goes. Every title that is opened is closed again,
and no deeper than there are titles the traversal finds the description (`describe?_eq`): each level
opens a title that was not open, of which there is one fewer below (`closed_push`).

`Nested` reads the titles of a chain of levels off a description. They are the titles that were
open when the innermost level was described, and no two of them are the same (`nested_level`).
-/

namespace TypedStore

namespace SchemaGraph

variable {σ : Type} [SchemaGraph σ] {s u : σ} {byAlias : Bool} {opened : List String} {key : String}
  {f : Field σ}

/-! ## The properties of a level -/

/-- The attribute that a key of a schema's records stands for. Of several with one key it is the
last. -/
def recordField? (byAlias : Bool) (s : σ) (key : String) : Option (Field σ) :=
  (fields s).reverse.find? fun f => f.recordKey byAlias == key

theorem recordField?_isSome (hf : f ∈ fields s) :
    (recordField? byAlias s (f.recordKey byAlias)).isSome := by
  rw [recordField?, List.find?_isSome]
  exact ⟨f, List.mem_reverse.mpr hf, beq_self_eq_true _⟩

theorem mem_of_recordField? (h : recordField? byAlias s key = some f) :
    f ∈ fields s ∧ f.recordKey byAlias = key := by
  refine ⟨List.mem_reverse.mp (List.mem_of_find?_eq_some h), ?_⟩
  simpa using List.find?_some h

/-- What a description holds for an attribute of this kind, inside the descriptions of the named
schemas. -/
inductive Property (byAlias : Bool) (opened : List String) : FieldKind σ → Document → Prop where
  /-- An attribute that embeds nothing has its type. -/
  | plain {kind : FieldKind σ} (h : ∀ nested, kind ≠ .embedded nested) :
    Property byAlias opened kind [("type", .string kind.typeName)]
  /-- One that embeds a schema which is not being described has the title and the properties of that
  schema. -/
  | expanded {nested : σ} (h : name nested ∉ opened) :
    Property byAlias opened (.embedded nested)
      [("type", .string "object"), ("title", .string (name nested)),
        ("properties", .document (properties byAlias (name nested :: opened) nested))]
  /-- One that embeds a schema which is being described has a reference. -/
  | reference {nested : σ} (h : name nested ∈ opened) :
    Property byAlias opened (.embedded nested)
      [("type", .string "object"), ("$ref", .string (name nested))]

/-- What the description has for an attribute. -/
def property (byAlias : Bool) (opened : List String) (f : Field σ) : Document :=
  match f.kind with
  | .embedded nested =>
    if name nested ∈ opened then [("type", .string "object"), ("$ref", .string (name nested))]
    else
      [("type", .string "object"), ("title", .string (name nested)),
        ("properties", .document (properties byAlias (name nested :: opened) nested))]
  | kind => [("type", .string kind.typeName)]

theorem property_spec (byAlias : Bool) (opened : List String) (f : Field σ) :
    Property byAlias opened f.kind (property byAlias opened f) := by
  unfold property
  split
  · next nested hkind =>
    rw [hkind]
    split
    · next h => exact .reference h
    · next h => exact .expanded h
  · next hplain => exact .plain hplain

theorem properties_eq (byAlias : Bool) (opened : List String) (s : σ) :
    properties byAlias opened s = Keyed.ofPairs ((fields s).map fun f =>
      (f.recordKey byAlias, .document (property byAlias opened f))) := by
  rw [properties]
  congr 2
  funext f
  unfold property
  cases f.kind <;> simp [FieldKind.typeName]

/-- Each key of a level has what describes the attribute that the key stands for. -/
theorem get?_properties (byAlias : Bool) (opened : List String) (s : σ) (key : String) :
    Keyed.get? (properties byAlias opened s) key =
      (recordField? byAlias s key).map fun f => .document (property byAlias opened f) := by
  rw [properties_eq, Keyed.get?_ofPairs, ← List.map_reverse, Keyed.get?_map, recordField?]

theorem mem_keys_properties :
    key ∈ Keyed.keys (properties byAlias opened s) ↔
      ∃ f ∈ fields s, f.recordKey byAlias = key := by
  rw [← Keyed.contains_iff, Keyed.contains, get?_properties, Option.isSome_map]
  constructor
  · intro h
    obtain ⟨f, hf⟩ := Option.isSome_iff_exists.mp h
    exact ⟨f, mem_of_recordField? hf⟩
  · rintro ⟨f, hf, rfl⟩
    exact recordField?_isSome hf

/-! ## One list of open titles -/

/-- The titles of a family, each once. -/
def titles (σ : Type) [SchemaGraph σ] : List String := ((all : List σ).map name).dedup

theorem name_mem_titles (s : σ) : name s ∈ titles σ :=
  List.mem_dedup.mpr (List.mem_map_of_mem (mem_all s))

/-- The titles of a family that are not open. -/
def closed (σ : Type) [SchemaGraph σ] (opened : List String) : List String :=
  (titles σ).filter (· ∉ opened)

theorem closed_push (h : name s ∉ opened) :
    (closed σ (name s :: opened)).length < (closed σ opened).length := by
  have hs : name s ∈ closed σ opened := by simp [closed, name_mem_titles, h]
  have heq : closed σ (name s :: opened) = (closed σ opened).filter (· ≠ name s) := by
    simp [closed, List.filter_filter, not_or]
  rw [heq]
  exact List.length_filter_lt_length_iff_exists.mpr ⟨name s, hs, by simp⟩

/-- What the description has for an attribute, and the titles that are open afterwards. The title of
an embedded schema is opened, the schema is visited, and the last title opened is closed. -/
def propertyBy? (visit : σ → List String → Option (Document × List String)) (f : Field σ)
    (opened : List String) : Option (Document × List String) :=
  match f.kind with
  | .embedded nested =>
    if name nested ∈ opened then
      some ([("type", .string "object"), ("$ref", .string (name nested))], opened)
    else do
      let (below, opened) ← visit nested (name nested :: opened)
      some ([("type", .string "object"), ("title", .string (name nested)),
        ("properties", .document below)], opened.tail)
  | kind => some ([("type", .string kind.typeName)], opened)

/-- The properties of a schema's attributes, written one after another, and the titles that are open
afterwards; nothing if this takes more levels than `depth`. -/
def visit? (byAlias : Bool) : Nat → σ → List String → Option (Document × List String)
  | 0, _, _ => none
  | depth + 1, s, opened =>
    (fields s).foldlM (fun (written, opened) f => do
      let (property, opened) ← propertyBy? (visit? byAlias depth) f opened
      some (Keyed.insert written (f.recordKey byAlias) (.document property), opened)) ([], opened)

/-- The description of a schema, and the titles that are left open. -/
def describe? (byAlias : Bool) (depth : Nat) (s : σ) : Option (Document × List String) := do
  let (below, opened) ← visit? byAlias depth s [name s]
  some ([("title", .string (name s)), ("type", .string "object"), ("properties", .document below)],
    opened)

theorem propertyBy?_eq {visit : σ → List String → Option (Document × List String)}
    (hvisit : ∀ nested, name nested ∉ opened → visit nested (name nested :: opened) =
      some (properties byAlias (name nested :: opened) nested, name nested :: opened))
    (f : Field σ) : propertyBy? visit f opened = some (property byAlias opened f, opened) := by
  unfold propertyBy? property
  cases f.kind with
  | embedded nested =>
    by_cases h : name nested ∈ opened
    · simp [h]
    · simp [h, hvisit nested h]
  | _ => rfl

/-- With as many levels as there are closed titles and one more, a visit finds the properties and
leaves the titles as they were. The induction is on the levels; an embedded schema is only visited
when its title was closed. -/
theorem visit?_eq {depth : Nat} (h : (closed σ opened).length < depth)
    (s : σ) : visit? byAlias depth s opened = some (properties byAlias opened s, opened) := by
  induction depth generalizing s opened with
  | zero => exact absurd h (Nat.not_lt_zero _)
  | succ depth ih =>
    have hproperty : ∀ f : Field σ, propertyBy? (visit? byAlias depth) f opened =
        some (property byAlias opened f, opened) := by
      refine propertyBy?_eq fun nested hnested => ih ?_ nested
      exact Nat.lt_of_lt_of_le (closed_push hnested) (Nat.le_of_lt_succ h)
    rw [visit?, properties_eq, Keyed.ofPairs]
    generalize ([] : Document) = written
    induction fields s generalizing written with
    | nil => rfl
    | cons f rest ih =>
      simp only [List.foldlM_cons, hproperty, Option.bind_eq_bind, Option.bind_some]
      exact ih _

theorem describe?_eq {depth : Nat} (h : (titles σ).length ≤ depth) (s : σ) :
    describe? byAlias depth s = some (describe byAlias s, [name s]) := by
  have hclosed : (closed σ [name s]).length < depth := by
    refine Nat.lt_of_lt_of_le (closed_push List.not_mem_nil) ?_
    exact Nat.le_trans (List.length_filter_le _ _) h
  rw [describe?, visit?_eq hclosed]
  rfl

/-! ## Levels inside one another -/

/-- Levels of a description inside one another, with their titles, the innermost first. -/
inductive Nested (root : Document) : List String → Document → Prop where
  | root {title : String} (htitle : Keyed.get? root "title" = some (.string title)) :
    Nested root [title] root
  | inside {opened : List String} {level properties property : Document} {key title : String}
    (above : Nested root opened level)
    (hproperties : Keyed.get? level "properties" = some (.document properties))
    (hproperty : Keyed.get? properties key = some (.document property))
    (htitle : Keyed.get? property "title" = some (.string title)) :
    Nested root (title :: opened) property

/-- The level describes a schema, inside of levels with these titles, its own the first of them. -/
structure Level (byAlias : Bool) (opened : List String) (u : σ) (level : Document) : Prop where
  innermost : opened.head? = some (name u)
  title : Keyed.get? level "title" = some (.string (name u))
  properties : Keyed.get? level "properties" = some (.document (properties byAlias opened u))
  keys : ∀ key, key ∈ Keyed.keys (SchemaGraph.properties byAlias opened u) ↔
    ∃ f ∈ fields u, f.recordKey byAlias = key
  attributes : ∀ key f, recordField? byAlias u key = some f → ∃ property,
    Keyed.get? (SchemaGraph.properties byAlias opened u) key = some (.document property) ∧
      Property byAlias opened f.kind property

variable {level : Document}

theorem level_of (hinnermost : opened.head? = some (name u))
    (htitle : Keyed.get? level "title" = some (.string (name u)))
    (hproperties : Keyed.get? level "properties" =
      some (.document (properties byAlias opened u))) : Level byAlias opened u level where
  innermost := hinnermost
  title := htitle
  properties := hproperties
  keys key := mem_keys_properties
  attributes key f hf := by
    refine ⟨property byAlias opened f, ?_, property_spec byAlias opened f⟩
    rw [get?_properties, hf]
    rfl

theorem nested_level (h : Nested (describe byAlias s) opened level) :
    opened.Nodup ∧ opened ⊆ titles σ ∧ ∃ u : σ, Level byAlias opened u level := by
  induction h with
  | root htitle =>
    cases htitle
    exact ⟨List.nodup_singleton _, by simp [name_mem_titles], s, level_of rfl rfl rfl⟩
  | @inside opened level properties entry key title above hproperties hproperty htitle ih =>
    obtain ⟨hnodup, hsub, u, hlevel⟩ := ih
    rw [hlevel.properties] at hproperties
    cases hproperties
    rw [get?_properties] at hproperty
    obtain ⟨f, hf, hentry⟩ := Option.map_eq_some_iff.mp hproperty
    have hspec : Property byAlias opened f.kind entry := by
      cases hentry
      exact property_spec byAlias opened f
    -- only an embedded schema whose title was closed has a title here
    generalize f.kind = kind at hspec
    cases hspec with
    | plain _ => cases htitle
    | reference _ => cases htitle
    | @expanded nested hclosed =>
      cases htitle
      refine ⟨List.nodup_cons.mpr ⟨hclosed, hnodup⟩, ?_, nested, level_of rfl rfl rfl⟩
      exact List.cons_subset.mpr ⟨name_mem_titles nested, hsub⟩

/-- Whatever the schemas embed, a traversal that keeps one list of open titles finds the description
within as many levels as there are titles, and leaves the list as it was. In the description no
level has the title of a level around it, and a level is the description of a schema: under the key
of an attribute that embeds a schema there is either a level with the title and the properties of
that schema, which no level around it has for its title, or a reference to the title of one that
has. -/
theorem describe_closes (byAlias : Bool) (s : σ) :
    (∀ depth, (titles σ).length ≤ depth →
      describe? byAlias depth s = some (describe byAlias s, [name s])) ∧
    ∀ opened level, Nested (describe byAlias s) opened level →
      opened.Nodup ∧ opened.length ≤ (titles σ).length ∧
        ∃ u : σ, Level byAlias opened u level := by
  refine ⟨fun depth hdepth => describe?_eq hdepth s, fun opened level h => ?_⟩
  obtain ⟨hnodup, hsub, hlevel⟩ := nested_level h
  exact ⟨hnodup, (hnodup.subperm hsub).length_le, hlevel⟩

end SchemaGraph

/-! ## Anti-vacuity: schemas that embed each other -/

/-- Books, and their authors with the books they are known for. -/
inductive LibrarySchema where
  | book
  | author

instance : SchemaGraph LibrarySchema where
  schema
    | .book =>
      { name := "Book", primaryKey := some "id"
        declared := [⟨"title", .string, some "t", false⟩,
          ⟨"author", .embedded .author, some "by", false⟩] }
    | .author =>
      { name := "Author"
        declared := [⟨"name", .string, none, false⟩, ⟨"work", .embedded .book, none, false⟩] }
  all := [.book, .author]
  mem_all := by rintro ⟨⟩ <;> simp

/-- The author's level in the description of a book: their work refers to the book around it. -/
def authorLevel : Document :=
  [("type", .string "object"), ("title", .string "Author"),
    ("properties", .document [("name", .document [("type", .string "string")]),
      ("work", .document [("type", .string "object"), ("$ref", .string "Book")])])]

/-- The description of a book ends within two levels, and the author's is the second of them. -/
theorem author_level :
    SchemaGraph.Nested (SchemaGraph.describe true LibrarySchema.book) ["Author", "Book"]
        authorLevel ∧
      ["Author", "Book"].Nodup ∧ (SchemaGraph.titles LibrarySchema).length = 2 ∧
      ∃ u : LibrarySchema, SchemaGraph.Level true ["Author", "Book"] u authorLevel := by
  obtain ⟨hends, hlevels⟩ := SchemaGraph.describe_closes true LibrarySchema.book
  have htwo : (SchemaGraph.titles LibrarySchema).length = 2 := by decide
  have hdescribe : SchemaGraph.describe true LibrarySchema.book =
      [("title", .string "Book"), ("type", .string "object"),
        ("properties", .document [("t", .document [("type", .string "string")]),
          ("by", .document authorLevel), ("__id", .document [("type", .string "integer")])])] :=
    (congrArg Prod.fst (Option.some.inj (hends 2 (Nat.le_of_eq htwo)))).symm
  have hnested : SchemaGraph.Nested (SchemaGraph.describe true LibrarySchema.book)
      ["Author", "Book"] authorLevel := by
    rw [hdescribe]
    exact @SchemaGraph.Nested.inside _ _ _ _ _ "by" _ (.root rfl) rfl rfl rfl
  obtain ⟨hnodup, -, hlevel⟩ := hlevels _ _ hnested
  exact ⟨hnested, hnodup, htwo, hlevel⟩

end TypedStore
