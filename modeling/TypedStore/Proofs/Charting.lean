import TypedStore.Proofs.Describing
import TypedStore.Proofs.Levels

/-!
A description as a chart of the paths into a schema.

A property of a description is reached by keys (`property?`), an attribute of a schema by names
(`Walk`), and each name has a key in records (`keysAlong`). Where every schema of the family keeps
its attributes apart (`Charted`), a name and a key stand for the same attribute
(`fieldDef?_eq_some_iff`, `recordField?_eq_some_iff`), so the keys tell the names
(`keysAlong_injective`).

What ends the description ends the paths, too: the keys that lead to a property are those of a path
that does not come twice to schemas of one name, and the keys of every such path lead to the
property of its attribute (`property?_of_walk`, `walk_of_property?`). Both are by induction along
the path, which comes to titles only that are not yet open in the description (`Fresh`). `chart_iff`
puts this together.
-/

namespace TypedStore

namespace SchemaGraph

variable {σ : Type} [SchemaGraph σ] {s t u : σ} {byAlias : Bool} {k key : String} {f g : Field σ}

/-! ## One attribute under a name, one under a key -/

/-- The schema does not list a primary key among its declared attributes, and its attributes have
distinct keys in records, by either naming. That no primary key is listed is `undeclared` for the
name of the schema's own, and `flat` and `alone` for attributes that are marked as one: they ask no
more than is needed, that such an attribute embeds nothing and has its name to itself. Where none is
marked, both hold. -/
structure Charted (s : σ) : Prop where
  undeclared : ∀ key, primaryKey s = some key → ∀ f ∈ (schema s).declared, f.name ≠ key
  recordKeys : ∀ byAlias, ((fields s).map (·.recordKey byAlias)).Nodup
  flat : ∀ f ∈ (schema s).declared, f.isPrimaryKey = true → ∀ t, f.kind ≠ .embedded t
  alone : ∀ f ∈ (schema s).declared, f.isPrimaryKey = true →
    ∀ g ∈ (schema s).declared, g.name = f.name → g = f

namespace Charted

theorem recordKey_inj (h : Charted s) (hf : f ∈ fields s) (hg : g ∈ fields s)
    (hkey : f.recordKey byAlias = g.recordKey byAlias) : f = g :=
  List.inj_on_of_nodup_map (h.recordKeys byAlias) hf hg hkey

/-- An attribute for a primary key has its name to itself. -/
theorem name_inj_of_primaryKey (h : Charted s) (hf : f ∈ fields s) (hg : g ∈ fields s)
    (hflag : f.isPrimaryKey = true) (hname : g.name = f.name) : g = f := by
  cases declared_or_primaryKey hf with
  | inl hfd =>
    rcases declared_or_primaryKey hg with hgd | ⟨key, hkey, rfl⟩
    · exact h.alone f hfd hflag g hgd hname
    · exact absurd hname.symm (h.undeclared key hkey f hfd)
  | inr hfp =>
    obtain ⟨key, hkey, rfl⟩ := hfp
    rcases declared_or_primaryKey hg with hgd | ⟨key', hkey', rfl⟩
    · exact absurd hname (h.undeclared key hkey g hgd)
    · rw [Option.some.inj (hkey.symm.trans hkey')]

theorem name_inj (h : Charted s) (hf : f ∈ fields s) (hg : g ∈ fields s)
    (hname : f.name = g.name) : f = g := by
  cases hfflag : f.isPrimaryKey with
  | true => exact (h.name_inj_of_primaryKey hf hg hfflag hname.symm).symm
  | false =>
    cases hgflag : g.isPrimaryKey with
    | true => exact h.name_inj_of_primaryKey hg hf hgflag hname
    | false =>
      -- of attributes that are for no primary key, the names are the keys
      have hkey : f.recordKey false = g.recordKey false := by
        simp [Field.recordKey, hfflag, hgflag, hname]
      exact h.recordKey_inj hf hg hkey

theorem mem_fields (h : Charted s) (hf : fieldDef? s k = some f) : f ∈ fields s := by
  by_cases hpk : primaryKey s = some k
  · obtain ⟨g, hg, hname⟩ := exists_field_of_fieldDef? hf
    rcases declared_or_primaryKey hg with hgd | ⟨key, hkey, rfl⟩
    · exact absurd hname (h.undeclared k hpk g hgd)
    · rw [fieldDef?_primaryKey hpk] at hf
      cases hf
      rw [← Option.some.inj (hkey.symm.trans hpk)]
      exact hg
  · exact fieldDef?_eq_some_of_ne hpk hf

theorem fieldDef?_eq_some_iff (h : Charted s) :
    fieldDef? s k = some f ↔ f ∈ fields s ∧ f.name = k := by
  constructor
  · intro hf
    exact ⟨h.mem_fields hf, fieldDef?_name hf⟩
  · rintro ⟨hf, rfl⟩
    obtain ⟨g, hg⟩ := exists_fieldDef?_of_mem hf
    rw [hg, h.name_inj (h.mem_fields hg) hf (fieldDef?_name hg)]

theorem recordField?_eq_some_iff (h : Charted s) :
    recordField? byAlias s key = some f ↔ f ∈ fields s ∧ f.recordKey byAlias = key := by
  constructor
  · exact mem_of_recordField?
  · rintro ⟨hf, rfl⟩
    obtain ⟨g, hg⟩ : ∃ g, recordField? byAlias s (f.recordKey byAlias) = some g :=
      Option.isSome_iff_exists.mp (recordField?_isSome hf)
    obtain ⟨hgmem, hgkey⟩ := mem_of_recordField? hg
    rw [hg, h.recordKey_inj hgmem hf hgkey]

/-- Names with one key are one name. -/
theorem eq_of_recordKey {k' : String} (h : Charted s) (hf : fieldDef? s k = some f)
    (hg : fieldDef? s k' = some g) (hkey : f.recordKey byAlias = g.recordKey byAlias) :
    f = g ∧ k = k' := by
  obtain rfl := h.recordKey_inj (h.mem_fields hf) (h.mem_fields hg) hkey
  exact ⟨rfl, (fieldDef?_name hf).symm.trans (fieldDef?_name hg)⟩

theorem recordKey_of_embedded (h : Charted s) (hf : f ∈ fields s) (hkind : f.kind = .embedded t) :
    f.recordKey false = f.name := by
  have hflag : f.isPrimaryKey = false := by
    rcases declared_or_primaryKey hf with hfd | ⟨key, -, rfl⟩
    · exact Bool.eq_false_iff.mpr fun hflag => h.flat f hfd hflag t hkind
    · cases hkind
  simp [Field.recordKey, hflag]

end Charted

/-! ## Keys and schemas along a path -/

/-- The schema that the attribute with this name embeds. -/
def entered? (s : σ) (k : String) : Option σ :=
  match (fieldDef? s k).map Field.kind with
  | some (.embedded t) => some t
  | _ => none

/-- The names of the schemas that a path comes to: the one it starts from, and each that it
enters. -/
def chain (s : σ) : List String → List String
  | [] => []
  | k :: rest =>
    name s :: match entered? s k with
      | some t => chain t rest
      | none => []

/-- The keys in records of the attributes along a path. -/
def keysAlong (byAlias : Bool) (s : σ) : List String → List String
  | [] => []
  | k :: rest =>
    ((fieldDef? s k).map (·.recordKey byAlias)).toList ++ match entered? s k with
      | some t => keysAlong byAlias t rest
      | none => []

variable {names names' : List String} {steps steps' : List Ancestor}

theorem entered?_of_embedded (hg : fieldDef? s k = some g) (hkind : g.kind = .embedded t) :
    entered? s k = some t := by
  simp [entered?, hg, hkind]

theorem chain_into (hg : fieldDef? s k = some g) (hkind : g.kind = .embedded t) :
    chain s (k :: names) = name s :: chain t names := by
  rw [chain, entered?_of_embedded hg hkind]

theorem keysAlong_into (hg : fieldDef? s k = some g) (hkind : g.kind = .embedded t) :
    keysAlong byAlias s (k :: names) = g.recordKey byAlias :: keysAlong byAlias t names := by
  rw [keysAlong, entered?_of_embedded hg hkind, hg]
  rfl

theorem chain_here : chain s [k] = [name s] := by
  rw [chain]
  cases entered? s k <;> rfl

theorem keysAlong_here (hf : fieldDef? s k = some f) :
    keysAlong byAlias s [k] = [f.recordKey byAlias] := by
  rw [keysAlong, hf]
  cases entered? s k <;> rfl

theorem chain_eq (h : Walk s names steps t f) :
    chain s names = steps.map Ancestor.owner ++ [name t] := by
  induction h with
  | here _ => exact chain_here
  | into hg hkind _ ih => rw [chain_into hg hkind, ih, List.map_cons, List.cons_append]

theorem chain_eq_cons (h : Walk s names steps t f) :
    chain s names = name s :: (chain s names).tail := by
  cases h <;> rfl

theorem keysAlong_eq (hall : ∀ u : σ, Charted u) (h : Walk s names steps t f) :
    keysAlong false s names = steps.map Ancestor.name ++ [f.recordKey false] := by
  induction h with
  | here hf => exact keysAlong_here hf
  | @into s _ _ _ _ _ _ g hg hkind _ ih =>
    obtain ⟨hmem, hname⟩ := (hall s).fieldDef?_eq_some_iff.mp hg
    rw [keysAlong_into hg hkind, ih, (hall s).recordKey_of_embedded hmem hkind, hname,
      List.map_cons, List.cons_append]

/-- Where no schema comes twice, the path remembers every step, and its keys in records are those
along the names. -/
theorem recordSegments_eq (hall : ∀ u : σ, Charted u) {p : FieldPath σ}
    (hp : FieldPath.resolve s names = .ok p) (hchain : (chain s names).Nodup) :
    p.recordSegments = keysAlong false s names := by
  obtain ⟨steps, t, f, walk, rfl⟩ := resolve_eq_ok_iff.mp hp
  have hsteps : steps.Nodup := by
    rw [chain_eq walk] at hchain
    exact (List.Nodup.of_append_left hchain).of_map _
  rw [keysAlong_eq hall walk, FieldPath.recordSegments, List.dedup_eq_self.mpr hsteps]

theorem keysAlong_ne_nil (h : Walk s names steps t f) : keysAlong byAlias s names ≠ [] := by
  cases h with
  | here hf => simp [keysAlong_here hf]
  | into hg hkind _ => simp [keysAlong_into hg hkind]

/-- The keys tell the names. -/
theorem keysAlong_injective (hall : ∀ u : σ, Charted u) (h : Walk s names steps t f)
    (h' : Walk s names' steps' u g)
    (hkeys : keysAlong byAlias s names = keysAlong byAlias s names') : names = names' := by
  induction h generalizing names' steps' with
  | here hf =>
    rw [keysAlong_here hf] at hkeys
    cases h' with
    | here hf' =>
      rw [keysAlong_here hf'] at hkeys
      rw [((hall _).eq_of_recordKey hf hf' (List.cons.inj hkeys).1).2]
    | into hg' hkind' below' =>
      rw [keysAlong_into hg' hkind'] at hkeys
      exact absurd (List.cons.inj hkeys).2.symm (keysAlong_ne_nil below')
  | into hg hkind below ih =>
    rw [keysAlong_into hg hkind] at hkeys
    cases h' with
    | here hf' =>
      rw [keysAlong_here hf'] at hkeys
      exact absurd (List.cons.inj hkeys).2 (keysAlong_ne_nil below)
    | into hg' hkind' below' =>
      rw [keysAlong_into hg' hkind'] at hkeys
      obtain ⟨hkey, hrest⟩ := List.cons.inj hkeys
      obtain ⟨rfl, rfl⟩ := (hall _).eq_of_recordKey hg hg' hkey
      rw [hkind] at hkind'
      cases hkind'
      rw [ih below' hrest]

/-! ## Properties -/

/-- The titles are distinct, and none of them is open. -/
def Fresh (opened titles : List String) : Prop :=
  titles.Nodup ∧ ∀ title ∈ titles, title ∉ opened

/-- The first title is fresh, and with it open the others are. -/
theorem fresh_cons {opened titles : List String} {title : String} :
    Fresh opened (title :: titles) ↔ title ∉ opened ∧ Fresh (title :: opened) titles := by
  rw [Fresh, Fresh, List.nodup_cons, List.forall_mem_cons]
  constructor
  · intro ⟨⟨hnew, hnodup⟩, hfirst, hothers⟩
    refine ⟨hfirst, hnodup, fun other hother => ?_⟩
    rw [List.mem_cons, not_or]
    exact ⟨fun heq => hnew (heq ▸ hother), hothers other hother⟩
  · intro ⟨hfirst, hnodup, hothers⟩
    refine ⟨⟨fun hmem => hothers title hmem (List.mem_cons_self ..), hnodup⟩, hfirst, ?_⟩
    exact fun other hother hopened => hothers other hother (List.mem_cons_of_mem _ hopened)

/-- No schema comes twice along a path exactly when those after the first are fresh with the first
one open. -/
theorem nodup_chain_iff (h : Walk s names steps t f) :
    (chain s names).Nodup ↔ Fresh [name s] (chain s names).tail := by
  have hfresh : (chain s names).Nodup ↔ Fresh [] (chain s names) := by simp [Fresh]
  rw [hfresh]
  conv_lhs => rw [chain_eq_cons h, fresh_cons]
  simp

/-- The property that keys lead to, each of them through the properties of the level before. -/
def property? (level : Document) : List String → Option Document
  | [] => some level
  | key :: rest =>
    match Keyed.get? level "properties" with
    | some (.document properties) =>
      match Keyed.get? properties key with
      | some (.document property) => property? property rest
      | _ => none
    | _ => none

theorem get?_property_type (byAlias : Bool) (opened : List String) (f : Field σ) :
    Keyed.get? (property byAlias opened f) "type" = some (.string f.kind.typeName) := by
  have hspec := property_spec byAlias opened f
  generalize property byAlias opened f = entry at hspec
  generalize f.kind = kind at hspec
  cases hspec <;> rfl

/-- There are properties below an attribute only where it embeds a schema whose title was not
open, and then they are those of the schema. -/
theorem get?_property_properties {opened : List String} {below : Value}
    (h : Keyed.get? (property byAlias opened f) "properties" = some below) :
    ∃ t, f.kind = .embedded t ∧ name t ∉ opened ∧
      below = .document (properties byAlias (name t :: opened) t) := by
  have hspec := property_spec byAlias opened f
  generalize property byAlias opened f = entry at h hspec
  generalize f.kind = kind at hspec ⊢
  cases hspec with
  | plain _ => cases h
  | reference _ => cases h
  | @expanded t hclosed =>
    cases h
    exact ⟨t, rfl, hclosed, rfl⟩

theorem property_of_embedded {opened : List String} (hkind : f.kind = .embedded t)
    (hclosed : name t ∉ opened) :
    Keyed.get? (property byAlias opened f) "properties" =
      some (.document (properties byAlias (name t :: opened) t)) := by
  rw [property, hkind]
  simp only [if_neg hclosed]
  rfl

variable {opened : List String} {level : Document}

theorem exists_properties_of_property? {keys : List String} {found : Document}
    (h : property? level (key :: keys) = some found) :
    ∃ below, Keyed.get? level "properties" = some below := by
  apply Option.isSome_iff_exists.mp
  rw [property?] at h
  split at h
  · next hsome =>
    rw [hsome]
    rfl
  · cases h

/-- One key further in a level that describes a schema. -/
theorem property?_cons
    (hlevel : Keyed.get? level "properties" = some (.document (properties byAlias opened s)))
    (rest : List String) :
    property? level (key :: rest) =
      (recordField? byAlias s key).bind fun f => property? (property byAlias opened f) rest := by
  rw [property?, hlevel]
  simp only [get?_properties]
  cases recordField? byAlias s key <;> rfl

/-- The keys of a path that comes to fresh titles only lead to the property of its attribute. -/
theorem property?_of_walk (hall : ∀ u : σ, Charted u) (h : Walk s names steps t f)
    (hlevel : Keyed.get? level "properties" = some (.document (properties byAlias opened s)))
    (hfresh : Fresh opened (chain s names).tail) :
    ∃ opened', property? level (keysAlong byAlias s names) =
      some (property byAlias opened' f) := by
  induction h generalizing opened level with
  | @here s k f hf =>
    have hfield : recordField? byAlias s (f.recordKey byAlias) = some f :=
      (hall s).recordField?_eq_some_iff.mpr ⟨(hall s).mem_fields hf, rfl⟩
    refine ⟨opened, ?_⟩
    rw [keysAlong_here hf, property?_cons hlevel, hfield]
    rfl
  | @into s t _ _ rest _ _ g hg hkind below ih =>
    have hfield : recordField? byAlias s (g.recordKey byAlias) = some g :=
      (hall s).recordField?_eq_some_iff.mpr ⟨(hall s).mem_fields hg, rfl⟩
    rw [chain_into hg hkind, List.tail_cons, chain_eq_cons below] at hfresh
    obtain ⟨hclosed, hbelow⟩ := fresh_cons.mp hfresh
    obtain ⟨opened', hfound⟩ := ih (property_of_embedded hkind hclosed) hbelow
    refine ⟨opened', ?_⟩
    rw [keysAlong_into hg hkind, property?_cons hlevel, hfield]
    exact hfound

/-- Keys that lead to a property are those of a path that comes to fresh titles only. -/
theorem walk_of_property? (hall : ∀ u : σ, Charted u) {keys : List String} (hne : keys ≠ [])
    (hlevel : Keyed.get? level "properties" = some (.document (properties byAlias opened s)))
    {found : Document} (h : property? level keys = some found) :
    ∃ names steps t f, Walk s names steps t f ∧ keysAlong byAlias s names = keys ∧
      Fresh opened (chain s names).tail := by
  induction keys generalizing s opened level with
  | nil => exact absurd rfl hne
  | cons key rest ih =>
    rw [property?_cons hlevel] at h
    obtain ⟨f, hfield, hrest⟩ := Option.bind_eq_some_iff.mp h
    obtain ⟨hmem, rfl⟩ := (hall s).recordField?_eq_some_iff.mp hfield
    have hf : fieldDef? s f.name = some f := (hall s).fieldDef?_eq_some_iff.mpr ⟨hmem, rfl⟩
    cases rest with
    | nil =>
      refine ⟨[f.name], [], s, f, .here hf, keysAlong_here hf, ?_⟩
      simp [chain_here, Fresh]
    | cons next more =>
      obtain ⟨below, hbelow⟩ := exists_properties_of_property? hrest
      obtain ⟨t, hkind, hclosed, rfl⟩ := get?_property_properties hbelow
      obtain ⟨names, steps, u, g, walk, hkeys, hfresh⟩ := ih (by simp) hbelow hrest
      refine ⟨f.name :: names, _, u, g, .into hf hkind walk, ?_, ?_⟩
      · rw [keysAlong_into hf hkind, hkeys]
      · rw [chain_into hf hkind, List.tail_cons, chain_eq_cons walk]
        exact fresh_cons.mpr ⟨hclosed, hfresh⟩

theorem get?_describe_properties (byAlias : Bool) (s : σ) :
    Keyed.get? (describe byAlias s) "properties" =
      some (.document (properties byAlias [name s] s)) :=
  rfl

/-- Where all schemas keep their attributes apart, the description charts the paths that come to no
schema twice: the keys in records along such a path, those of the path itself where records are
spelled by attribute names, lead to a property of the type of its attribute, and the keys that lead
to a property are those along exactly one such path. -/
theorem chart_iff (hall : ∀ u : σ, Charted u) (s : σ) :
    (∀ names p, FieldPath.resolve s names = .ok p → (chain s names).Nodup →
      p.recordSegments = keysAlong false s names ∧
      ∀ byAlias, ∃ found, property? (describe byAlias s) (keysAlong byAlias s names) = some found ∧
        Keyed.get? found "type" = some (.string p.field.kind.typeName)) ∧
    ∀ byAlias keys found, keys ≠ [] → property? (describe byAlias s) keys = some found →
      ∃! names, (∃ p, FieldPath.resolve s names = .ok p) ∧ (chain s names).Nodup ∧
        keysAlong byAlias s names = keys := by
  constructor
  · intro names p hp hchain
    refine ⟨recordSegments_eq hall hp hchain, fun byAlias => ?_⟩
    obtain ⟨steps, t, f, walk, rfl⟩ := resolve_eq_ok_iff.mp hp
    obtain ⟨opened, hfound⟩ := property?_of_walk hall walk (get?_describe_properties byAlias s)
      ((nodup_chain_iff walk).mp hchain)
    exact ⟨_, hfound, get?_property_type byAlias opened f⟩
  · intro byAlias keys found hne hfound
    obtain ⟨names, steps, t, f, walk, hkeys, hfresh⟩ :=
      walk_of_property? hall hne (get?_describe_properties byAlias s) hfound
    refine ⟨names, ⟨⟨_, resolve_eq_ok_iff.mpr ⟨_, _, _, walk, rfl⟩⟩,
      (nodup_chain_iff walk).mpr hfresh, hkeys⟩, ?_⟩
    intro names' ⟨⟨p, hp⟩, _, hkeys'⟩
    obtain ⟨steps', t', f', walk', -⟩ := resolve_eq_ok_iff.mp hp
    exact keysAlong_injective hall walk' walk (hkeys'.trans hkeys.symm)

end SchemaGraph

/-! ## Anti-vacuity: the way to an author's name -/

theorem library_charted (u : LibrarySchema) : SchemaGraph.Charted u := by
  cases u <;>
  exact
    { undeclared := by simp [SchemaGraph.primaryKey, SchemaGraph.schema]
      recordKeys := by decide
      flat := by simp [SchemaGraph.schema]
      alone := by simp [SchemaGraph.schema] }

/-- The name of a book's author is where its path says, by either naming, and what stands in the
description of a book by alias under the author's work is on one path. -/
theorem authorName_charted :
    (∃ p, FieldPath.resolve LibrarySchema.book ["author", "name"] = .ok p ∧
      p.recordSegments = ["author", "name"] ∧
      ∃ found, SchemaGraph.property? (SchemaGraph.describe true LibrarySchema.book)
          ["by", "name"] = some found ∧ Keyed.get? found "type" = some (.string "string")) ∧
    ∃! names, (∃ p, FieldPath.resolve LibrarySchema.book names = .ok p) ∧
      (SchemaGraph.chain LibrarySchema.book names).Nodup ∧
      SchemaGraph.keysAlong true LibrarySchema.book names = ["by", "work"] := by
  obtain ⟨hpaths, hproperties⟩ := SchemaGraph.chart_iff library_charted LibrarySchema.book
  constructor
  · obtain ⟨p, hp, htype⟩ : ∃ p, FieldPath.resolve LibrarySchema.book ["author", "name"] = .ok p ∧
        p.field.kind.typeName = "string" := ⟨_, rfl, rfl⟩
    obtain ⟨hsegments, hfound⟩ := hpaths _ p hp (by decide)
    obtain ⟨found, hlookup, hkind⟩ := hfound true
    exact ⟨p, hp, hsegments, found, hlookup, htype ▸ hkind⟩
  · obtain ⟨p, hp⟩ : ∃ p, FieldPath.resolve LibrarySchema.book ["author", "work"] = .ok p :=
      ⟨_, rfl⟩
    obtain ⟨-, hfound⟩ := hpaths _ p hp (by decide)
    obtain ⟨found, hlookup, -⟩ := hfound true
    exact hproperties true ["by", "work"] found (by simp) hlookup

end TypedStore
