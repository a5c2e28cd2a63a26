import TypedStore.Proofs.Settling

/-!
Where the literal of a single equality comes to stand.

A condition `attribute eq literal` or `attribute is literal` is a template for the literal alone.
The attribute's path is joined to a dotted key for it, and the key is split again where it is
expanded. That gives the path back unless one of its names has a dot: then the pieces of that name
are taken for names of their own, and there is nothing at all at the path
(`follow?_nest_split_join`).

So the template holds the literal at the attribute's path, and nothing else, exactly when no name
that the path was resolved from has a dot, and so does an instance made from it
(`pinned_lands_iff`). A path that a dotted key spells has no such name (`holdsOnly_of_ofDotted`).
-/

namespace TypedStore

namespace Document

/-- The document holds the value at the path, and what else it holds is on the way there or inside
the value. -/
structure HoldsOnly (d : Document) (path : List String) (v : Value) : Prop where
  held : getPath? d path = some v
  nothingElse : ∀ p w, getPath? d p = some w →
    p <+: path ∨ ∃ rest, p = path ++ rest ∧ v.follow? rest = some w

/-- A value nested under the dotted key of some names is at these names, or nothing is. -/
theorem follow?_nest_split_join {names : List String} (hne : names ≠ []) (v : Value) :
    (nest (Dotted.split (Dotted.join names)) v).follow? names =
      if ∀ name ∈ names, '.' ∉ name.toList then some v else none := by
  split
  · next h => rw [Dotted.split_join hne h, follow?_nest]
  · next h =>
    -- names that lead somewhere are among the pieces of the key, which have no dots
    refine Option.eq_none_iff_forall_ne_some.mpr fun w hw => h fun name hname => ?_
    rcases of_follow?_nest hw with hstart | ⟨rest, hnames, -⟩
    · exact Dotted.dot_notMem_of_mem_split (hstart.subset hname)
    · have hrest : rest = [] := by
        refine Dotted.eq_nil_of_join_append (Dotted.split_ne_nil (Dotted.join names)) ?_
        rw [← hnames, Dotted.join_split]
      rw [hnames, hrest, List.append_nil] at hname
      exact Dotted.dot_notMem_of_mem_split hname

end Document

variable {σ D : Type}

/-! ## The template -/

/-- Either operator makes a template for the literal under the attribute's dotted key. -/
theorem toMapping_pinned (p : FieldPath σ) {operator : Operator}
    (ho : operator = .eq ∨ operator = .is) (v : Value) :
    Expression.toMapping ⟨.field p, operator, .value v⟩ = Document.expand p.attributeKey v := by
  have hpinned : Operand.pinned (.field p) operator (.value v) =
      Document.expand p.attributeKey v := by
    rcases ho with rfl | rfl <;> rfl
  show Document.merge (Document.merge (Operand.pinned _ _ _) []) [] = _
  rw [Document.merge_nil, Document.merge_nil, hpinned]

theorem getPath?_expand_attributeKey (p : FieldPath σ) (v : Value) :
    Document.getPath? (Document.expand p.attributeKey v) p.attributePath =
      if ∀ name ∈ p.attributePath, '.' ∉ name.toList then some v else none := by
  rw [Document.getPath?_eq_follow? (attributePath_ne_nil p), Document.document_expand,
    FieldPath.attributeKey, Document.follow?_nest_split_join (attributePath_ne_nil p)]

theorem holdsOnly_expand_iff (p : FieldPath σ) (v : Value) :
    Document.HoldsOnly (Document.expand p.attributeKey v) p.attributePath v ↔
      ∀ name ∈ p.attributePath, '.' ∉ name.toList := by
  have hget := getPath?_expand_attributeKey p v
  constructor
  · intro h hdot
    rw [h.held] at hget
    split at hget
    · next hfree => exact hfree hdot
    · cases hget
  · intro hfree
    rw [if_pos hfree] at hget
    refine ⟨hget, fun q w hw => ?_⟩
    have hq : q ≠ [] := by
      rintro rfl
      cases hw
    rw [Document.getPath?_eq_follow? hq, Document.document_expand, FieldPath.attributeKey,
      Dotted.split_join (attributePath_ne_nil p) hfree] at hw
    exact Document.of_follow?_nest hw

variable [SchemaGraph σ]

/-- The names of a path are those that it was resolved from, though not all of them as often. -/
theorem mem_attributePath_iff {s : σ} {names : List String} {p : FieldPath σ}
    (h : FieldPath.resolve s names = .ok p) {name : String} :
    name ∈ p.attributePath ↔ name ∈ names := by
  obtain ⟨steps, t, f, walk, rfl⟩ := resolve_eq_ok_iff.mp h
  rw [walk.names_eq, FieldPath.attributePath]
  simp

/-- A path that a dotted key spells is one that a literal lands at. -/
theorem holdsOnly_of_ofDotted {s : σ} {key : String} {p : FieldPath σ}
    (h : FieldPath.ofDotted s key = .ok p) (v : Value) :
    Document.HoldsOnly (Document.expand p.attributeKey v) p.attributePath v := by
  rw [holdsOnly_expand_iff]
  intro name hname
  exact Dotted.dot_notMem_of_mem_split ((mem_attributePath_iff h).mp hname)

/-! ## The instance that is made -/

/-- The instance, written as a document, holds the value at the path. -/
def DocumentType.HoldsAt (type : DocumentType σ D) (d : D) (path : List String) (v : Value) :
    Prop :=
  ∃ mapping, type.toMapping d = .ok mapping ∧ Document.getPath? mapping path = some v

theorem DocumentType.holdsAt_iff {type : DocumentType σ D} {d : D} {mapping : Document}
    (h : type.toMapping d = .ok mapping) {path : List String} {v : Value} :
    type.HoldsAt d path v ↔ Document.getPath? mapping path = some v := by
  simp [DocumentType.HoldsAt, h]

namespace Model

variable (m : Model σ D)

/-- A document with a generated identifier under the primary key, if it has none. -/
def completed (t : Target) (mapping : Document) : Document :=
  if Keyed.contains mapping m.primaryKey then mapping
  else Keyed.insert mapping m.primaryKey (.int64 (m.generateId t))

theorem getPath?_completed (t : Target) (mapping : Document) {path : List String}
    (h : path.head? ≠ some m.primaryKey) :
    Document.getPath? (m.completed t mapping) path = Document.getPath? mapping path := by
  unfold completed
  split
  · rfl
  · exact Document.getPath?_insert _ _ h

/-- An identifier is put in only where there is none to be found. -/
theorem getPath?_completed_of_some (t : Target) {mapping : Document} {path : List String}
    {v : Value} (h : Document.getPath? mapping path = some v) :
    Document.getPath? (m.completed t mapping) path = some v := by
  by_cases hhead : path.head? = some m.primaryKey
  · obtain ⟨k, rest, rfl⟩ : ∃ k rest, path = k :: rest := by
      cases path with
      | nil => cases h
      | cons k rest => exact ⟨k, rest, rfl⟩
    obtain rfl : k = m.primaryKey := Option.some.inj hhead
    have hkey : Keyed.contains mapping m.primaryKey = true := by
      rw [Document.getPath?, Value.follow?] at h
      cases hget : Keyed.get? mapping m.primaryKey with
      | none =>
        rw [hget] at h
        cases h
      | some w => rw [Keyed.contains, hget, Option.isSome_some]
    rwa [completed, if_pos hkey]
  · rw [m.getPath?_completed t mapping hhead, h]

/-- A type that holds any mapping as it is makes an instance of any template. -/
theorem exists_draft (htype : m.type.Verbatim m.primaryKey) {filters : List (Expression σ)}
    {seeded : Document} (hseed : seed filters = .ok seeded) (defaults : Document) (t : Target) :
    ∃ made, m.draft filters defaults t = .ok made ∧ m.type.toMapping made =
      .ok (m.completed t (Document.merge seeded (Document.expandAll defaults))) := by
  obtain ⟨made, hmade⟩ :=
    htype.held (m.completed t (Document.merge seeded (Document.expandAll defaults)))
  refine ⟨made, ?_, (htype.same _ made).mp hmade⟩
  rw [draft, hseed]
  exact hmade

/-- Where nothing is found, the upsert stores what it makes, and the instance has what was made
with the identifier that it was stored under. -/
theorem exists_created (htype : m.type.Verbatim m.primaryKey) {filters : List (Expression σ)}
    {defaults : Document} {t : Target} {made : D} {mapping : Document}
    (hkeys : m.checkKeys defaults = .ok ()) (hnone : m.findOne filters t = .ok none)
    (hdraft : m.draft filters defaults t = .ok made) (hmade : m.type.toMapping made = .ok mapping) :
    ∃ d t' id, m.getOrCreate filters defaults t = (.ok d, t') ∧
      m.type.toMapping d = .ok (Keyed.insert mapping m.primaryKey (.int64 id)) := by
  obtain ⟨name, c, rfl⟩ : ∃ name c, t = .holding name c := by
    match t with
    | some ⟨name, some c⟩ => exact ⟨name, c, rfl⟩
    | some ⟨name, none⟩ =>
      rw [findOne_absent] at hnone
      cases hnone
    | none =>
      cases filters <;> simp [findOne, findAll, getById, collection, bind, Except.bind] at hnone
  have hrun := m.create_run name c filters defaults
  simp only [hdraft, toRecord_of_mapping hmade] at hrun
  have hget : m.getOrCreate filters defaults (.holding name c) =
      m.create filters defaults (.holding name c) := by
    rw [getOrCreate_run, hkeys, hnone]
  exact ⟨_, _, c.nextId, hget.trans hrun, htype.setId mapping made c.nextId hmade⟩

end Model

/-- The template of a single equality holds the literal at the attribute's path, and nothing else,
exactly when none of the names that the path was resolved from has a dot. An instance that is made
from it, with defaults for other attributes, has the literal there then. It is stored with it, and
comes back with it, exactly then, unless the attribute is the primary key, under which comes the
identifier that the instance is given. -/
theorem pinned_lands_iff {s : σ} {names : List String} {p : FieldPath σ}
    (h : FieldPath.resolve s names = .ok p) {operator : Operator}
    (ho : operator = .eq ∨ operator = .is) (v : Value) :
    let e : Expression σ := ⟨.field p, operator, .value v⟩
    (Document.HoldsOnly e.toMapping p.attributePath v ↔ ∀ name ∈ names, '.' ∉ name.toList) ∧
    ∀ {D : Type} (m : Model σ D) (defaults : Document), m.type.Verbatim m.primaryKey →
      (∀ k ∈ Keyed.keys defaults, Diverge (Dotted.split k) p.attributePath) → ∀ t,
        (∃ made, m.draft [e] defaults t = .ok made ∧
          ((∀ name ∈ names, '.' ∉ name.toList) → m.type.HoldsAt made p.attributePath v)) ∧
        (p.attributePath.head? ≠ some m.primaryKey → m.checkKeys defaults = .ok () →
          m.findOne [e] t = .ok none → ∃ d t', m.getOrCreate [e] defaults t = (.ok d, t') ∧
            (m.type.HoldsAt d p.attributePath v ↔ ∀ name ∈ names, '.' ∉ name.toList)) := by
  intro e
  have hmapping : e.toMapping = Document.expand p.attributeKey v := toMapping_pinned p ho v
  have hfree : (∀ name ∈ p.attributePath, '.' ∉ name.toList) ↔
      ∀ name ∈ names, '.' ∉ name.toList := by
    simp only [mem_attributePath_iff h]
  refine ⟨?template, ?made⟩
  case template => rw [hmapping, holdsOnly_expand_iff, hfree]
  case made =>
    intro D m defaults htype hdefaults t
    have hseed : Model.seed [e] = .ok e.toMapping := rfl
    obtain ⟨made, hdraft, hmade⟩ := m.exists_draft htype hseed defaults t
    -- the defaults do not reach the path, so there is what the template has there
    have hmerged : Document.getPath? (Document.merge e.toMapping (Document.expandAll defaults))
        p.attributePath = if ∀ name ∈ names, '.' ∉ name.toList then some v else none := by
      rw [Document.getPath?_merge_of_clearOf _
        (Document.clearOf_expandAll (attributePath_ne_nil p) hdefaults), hmapping,
        getPath?_expand_attributeKey]
      simp only [hfree]
    refine ⟨⟨made, hdraft, fun hdots => ?_⟩, fun hhead hkeys hnone => ?_⟩
    · rw [if_pos hdots] at hmerged
      exact (DocumentType.holdsAt_iff hmade).mpr (m.getPath?_completed_of_some t hmerged)
    · obtain ⟨d, t', id, hrun, hd⟩ := m.exists_created htype hkeys hnone hdraft hmade
      refine ⟨d, t', hrun, ?_⟩
      rw [DocumentType.holdsAt_iff hd, Document.getPath?_insert _ _ hhead,
        m.getPath?_completed _ _ hhead, hmerged]
      simp

/-! ## A name without dots, and one with a dot -/

/-- The title of a category's parent lands, in the template and in the category that is made, which
is the second one of the collection. -/
theorem parentTitle_lands :
    Document.HoldsOnly (Expression.toMapping
        ⟨.field parentTitlePath, .is, .value (.string "b")⟩) ["parent", "title"] (.string "b") ∧
      ∃ d t, keptCategories.getOrCreate [⟨.field parentTitlePath, .is, .value (.string "b")⟩] []
          (some oneCategory) = (.ok d, t) ∧
        keptCategories.type.HoldsAt d ["parent", "title"] (.string "b") := by
  have hresolved : FieldPath.resolve CategorySchema.category ["parent", "title"] =
      .ok parentTitlePath := rfl
  have hdots : ∀ name ∈ ["parent", "title"], '.' ∉ name.toList := by decide
  obtain ⟨htemplate, hmade⟩ := pinned_lands_iff hresolved (.inr rfl) (.string "b")
  obtain ⟨-, hstored⟩ := hmade keptCategories [] keptType_verbatim nofun (some oneCategory)
  obtain ⟨d, t, hrun, hholds⟩ := hstored (by decide) rfl rfl
  exact ⟨htemplate.mpr hdots, d, t, hrun, hholds.mpr hdots⟩

/-- A schema with a dot in the name of an attribute. -/
inductive OddSchema where
  | odd

instance : SchemaGraph OddSchema where
  schema
    | .odd =>
      { name := "Odd", primaryKey := some "id"
        declared := [⟨"a.b", .string, some "dot.ted", false⟩] }
  all := [.odd]
  mem_all := by rintro ⟨⟩; simp

/-- The literal for an attribute with a dot in its name comes to stand under the two pieces of the
name, and there is nothing under the name. -/
theorem dottedName_misses :
    ∃ p, FieldPath.ofField OddSchema.odd "a.b" = .ok p ∧ p.attributePath = ["a.b"] ∧
      Expression.toMapping ⟨.field p, .eq, .value (.string "x")⟩ =
        [("a", .document [("b", .string "x")])] ∧
      Document.getPath? (Expression.toMapping ⟨.field p, .eq, .value (.string "x")⟩)
        p.attributePath ≠ some (.string "x") := by
  refine ⟨_, rfl, rfl, ?_, ?_⟩
  · rw [toMapping_pinned _ (.inl rfl)]
    rfl
  · rw [toMapping_pinned _ (.inl rfl), getPath?_expand_attributeKey, if_neg (by decide)]
    exact nofun

end TypedStore
