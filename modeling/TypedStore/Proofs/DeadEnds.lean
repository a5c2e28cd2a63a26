import TypedStore.Proofs.Resolution

/-!
Which lists of names resolve, and where the others stop.

A `Way` is read off names that each enter the schema that their attribute embeds, so a walk is a way
and then an attribute of the schema that it ends at (`walk_iff`). A list of names that cannot be
walked to its end has a `DeadEnd`: a way, and then a name that the schema reached does not declare,
or an attribute there that embeds no schema although more names follow.

`resolve_iff` says that resolving follows the names to one of these ends, and what it answers at
each: a path that remembers the steps of the way, each distinct one where it was taken last
(`FieldPath.Remembers`), or the error of the dead end. Only the list without names has neither end.
-/

namespace TypedStore

variable {σ : Type} [SchemaGraph σ]

/-! ## The two ends of a way -/

/-- The names lead from a schema, by steps that each enter an embedded schema, to another schema. -/
inductive Way : σ → List String → List Ancestor → σ → Prop where
  | nil (s : σ) : Way s [] [] s
  | cons {s t u : σ} {name : String} {names : List String} {steps : List Ancestor} {g : Field σ}
    (h : SchemaGraph.fieldDef? s name = some g) (hg : g.kind = .embedded t)
    (below : Way t names steps u) :
    Way s (name :: names) (⟨name, SchemaGraph.name s⟩ :: steps) u

/-- After a way comes a name that leads nowhere: the schema reached does not declare it, or its
attribute embeds no schema and there is another name after it. The error is the one of that name. -/
def DeadEnd (s : σ) (names : List String) (e : Error) : Prop :=
  ∃ before steps t name after, Way s before steps t ∧ names = before ++ name :: after ∧
    (SchemaGraph.fieldDef? t name = none ∧ e = .unknownField (SchemaGraph.name t) name ∨
      ∃ f next more, SchemaGraph.fieldDef? t name = some f ∧ (∀ u, f.kind ≠ .embedded u) ∧
        after = next :: more ∧ e = .unknownField (SchemaGraph.name t) s!"{name}.{next}")

variable {s t : σ} {names : List String} {steps : List Ancestor} {f : Field σ} {e : Error}

/-- A walk is a way and an attribute of the schema where the way ends. -/
theorem walk_iff : Walk s names steps t f ↔ ∃ before last, names = before ++ [last] ∧
    Way s before steps t ∧ SchemaGraph.fieldDef? t last = some f := by
  constructor
  · intro h
    induction h with
    | here h => exact ⟨[], _, rfl, .nil _, h⟩
    | into h hg _ ih =>
      obtain ⟨before, last, rfl, way, hlast⟩ := ih
      exact ⟨_ :: before, last, rfl, .cons h hg way, hlast⟩
  · rintro ⟨before, last, rfl, way, hlast⟩
    induction way with
    | nil s => exact .here hlast
    | cons h hg _ ih => exact .into h hg (ih hlast)

/-- The last step of a way enters the schema where the way ends. -/
theorem Way.enters_of_getLast? (h : Way s names steps t) {a : Ancestor}
    (ha : steps.getLast? = some a) :
    ∃ u g, SchemaGraph.fieldDef? u g.name = some g ∧ g.kind = .embedded t ∧
      a = ⟨g.name, SchemaGraph.name u⟩ := by
  induction h with
  | nil s => cases ha
  | @cons s t u name names steps g h hg below ih =>
    obtain rfl := fieldDef?_name h
    cases below with
    | nil => exact ⟨s, g, h, hg, (Option.some.inj ha).symm⟩
    | cons h' hg' below' =>
      rw [List.getLast?_cons_cons] at ha
      exact ih ha

theorem not_deadEnd_nil : ¬DeadEnd s [] e := by
  rintro ⟨before, steps, t, name, after, -, hnames, -⟩
  cases before <;> cases hnames

theorem deadEnd_cons_of_undeclared {name : String} (h : SchemaGraph.fieldDef? s name = none) :
    DeadEnd s (name :: names) e ↔ e = .unknownField (SchemaGraph.name s) name := by
  constructor
  · rintro ⟨before, steps, t, name', after, way, hnames, hend⟩
    cases way with
    | nil =>
      cases hnames
      rcases hend with ⟨-, he⟩ | ⟨f, next, more, hf, -⟩
      · exact he
      · rw [h] at hf
        cases hf
    | cons hg =>
      cases hnames
      rw [h] at hg
      cases hg
  · rintro rfl
    exact ⟨[], [], s, name, names, .nil s, rfl, .inl ⟨h, rfl⟩⟩

theorem deadEnd_cons_of_embedded {name : String} (h : SchemaGraph.fieldDef? s name = some f)
    (hf : f.kind = .embedded t) : DeadEnd s (name :: names) e ↔ DeadEnd t names e := by
  constructor
  · rintro ⟨before, steps, t', name', after, way, hnames, hend⟩
    cases way with
    | nil =>
      cases hnames
      rcases hend with ⟨hnone, -⟩ | ⟨g, next, more, hg, hflat, -⟩
      · rw [h] at hnone
        cases hnone
      · rw [h] at hg
        cases hg
        exact absurd hf (hflat t)
    | cons hg hkind below =>
      cases hnames
      rw [h] at hg
      cases hg
      rw [hf] at hkind
      cases hkind
      exact ⟨_, _, t', name', after, below, rfl, hend⟩
  · rintro ⟨before, steps, t', name', after, way, rfl, hend⟩
    exact ⟨name :: before, _, t', name', after, .cons h hf way, rfl, hend⟩

theorem deadEnd_cons_of_flat {name : String} (h : SchemaGraph.fieldDef? s name = some f)
    (hf : ∀ u, f.kind ≠ .embedded u) :
    DeadEnd s (name :: names) e ↔ ∃ next more, names = next :: more ∧
      e = .unknownField (SchemaGraph.name s) s!"{name}.{next}" := by
  constructor
  · rintro ⟨before, steps, t', name', after, way, hnames, hend⟩
    cases way with
    | nil =>
      cases hnames
      rcases hend with ⟨hnone, -⟩ | ⟨g, next, more, hg, -, hafter, he⟩
      · rw [h] at hnone
        cases hnone
      · exact ⟨next, more, hafter, he⟩
    | cons hg hkind =>
      cases hnames
      rw [h] at hg
      cases hg
      exact absurd hkind (hf _)
  · rintro ⟨next, more, rfl, rfl⟩
    exact ⟨[], [], s, name, _, .nil s, rfl, .inr ⟨f, next, more, h, hf, rfl, rfl⟩⟩

/-! ## What resolving answers -/

omit [SchemaGraph σ] in
theorem embedded_or_flat (kind : FieldKind σ) :
    (∃ u, kind = .embedded u) ∨ ∀ u, kind ≠ .embedded u := by
  cases kind <;> simp

theorem resolve_cons_of_some {name : String} (h : SchemaGraph.fieldDef? s name = some f)
    (rest : List String) : FieldPath.resolve s (name :: rest) =
      FieldPath.descend { field := f, owner := SchemaGraph.name s } rest := by
  simp [FieldPath.resolve, FieldPath.ofField, h, bind, Except.bind]

theorem resolve_cons_of_none {name : String} (h : SchemaGraph.fieldDef? s name = none)
    (rest : List String) : FieldPath.resolve s (name :: rest) =
      .error (.unknownField (SchemaGraph.name s) name) := by
  simp [FieldPath.resolve, FieldPath.ofField, h, bind, Except.bind]

theorem descend_cons_of_some {p : FieldPath σ} (hp : p.field.kind = .embedded t) {name : String}
    (h : SchemaGraph.fieldDef? t name = some f) (rest : List String) : p.descend (name :: rest) =
      FieldPath.descend
        { field := f, owner := SchemaGraph.name t, ancestors := p.stepsBelow } rest := by
  simp [FieldPath.descend, FieldPath.child, FieldPath.ofField, hp, h, bind, Except.bind]

theorem descend_cons_of_none {p : FieldPath σ} (hp : p.field.kind = .embedded t) {name : String}
    (h : SchemaGraph.fieldDef? t name = none) (rest : List String) : p.descend (name :: rest) =
      .error (.unknownField (SchemaGraph.name t) name) := by
  simp [FieldPath.descend, FieldPath.child, FieldPath.ofField, hp, h, bind, Except.bind]

theorem descend_cons_of_flat {p : FieldPath σ} (hp : ∀ t, p.field.kind ≠ .embedded t)
    (name : String) (rest : List String) : p.descend (name :: rest) =
      .error (.unknownField p.owner s!"{p.field.name}.{name}") := by
  cases hk : p.field.kind <;>
    simp_all [FieldPath.descend, FieldPath.child, bind, Except.bind]

/-- How going down fails does not hang on the steps taken before: into an embedded schema it fails
as resolving does from there. -/
theorem descend_eq_error_iff {p : FieldPath σ} (hp : p.field.kind = .embedded t) {name : String}
    {rest : List String} : p.descend (name :: rest) = .error e ↔
      FieldPath.resolve t (name :: rest) = .error e := by
  induction rest generalizing p t name with
  | nil =>
    cases h : SchemaGraph.fieldDef? t name with
    | none => rw [descend_cons_of_none hp h, resolve_cons_of_none h]
    | some f =>
      rw [descend_cons_of_some hp h, resolve_cons_of_some h]
      exact iff_of_false nofun nofun
  | cons next more ih =>
    cases h : SchemaGraph.fieldDef? t name with
    | none => rw [descend_cons_of_none hp h, resolve_cons_of_none h]
    | some f =>
      rw [descend_cons_of_some hp h, resolve_cons_of_some h]
      rcases embedded_or_flat f.kind with ⟨u, hu⟩ | hflat
      · rw [ih hu, ih hu]
      · rw [descend_cons_of_flat hflat, descend_cons_of_flat hflat]

/-- Resolving fails at the dead end of the names, and without names. -/
theorem resolve_eq_error_iff : FieldPath.resolve s names = .error e ↔
    names = [] ∧ e = .malformedExpression (.emptyPath (SchemaGraph.name s)) ∨
      DeadEnd s names e := by
  induction names generalizing s with
  | nil => simp [FieldPath.resolve, not_deadEnd_nil, eq_comm]
  | cons name rest ih =>
    rw [or_iff_right fun h => List.cons_ne_nil name rest h.1]
    cases h : SchemaGraph.fieldDef? s name with
    | none => rw [resolve_cons_of_none h, deadEnd_cons_of_undeclared h, Except.error.injEq, eq_comm]
    | some f =>
      rw [resolve_cons_of_some h]
      rcases embedded_or_flat f.kind with ⟨u, hu⟩ | hflat
      · rw [deadEnd_cons_of_embedded h hu]
        cases rest with
        | nil => exact iff_of_false (by simp [FieldPath.descend]) not_deadEnd_nil
        | cons next more =>
          rw [descend_eq_error_iff hu, ih, or_iff_right fun h => List.cons_ne_nil next more h.1]
      · rw [deadEnd_cons_of_flat h hflat]
        cases rest with
        | nil => exact iff_of_false (by simp [FieldPath.descend]) (by simp)
        | cons next more =>
          rw [descend_cons_of_flat hflat, fieldDef?_name h]
          simp [eq_comm]

/-! ## What is remembered of the way -/

/-- The path ends at this attribute of the schema and remembers each distinct step once: in the
order in which the steps were taken, of a step taken again only its last occurrence, and last the
step into the schema. -/
structure FieldPath.Remembers (p : FieldPath σ) (steps : List Ancestor) (t : σ) (f : Field σ) :
    Prop where
  field : p.field = f
  owner : p.owner = SchemaGraph.name t
  ancestors : p.ancestors = steps.dedup
  once : p.ancestors.Nodup
  ordered : p.ancestors.Sublist steps
  last : ∀ rest, rest <:+ steps → rest.dedup <:+ p.ancestors
  entry : ∀ a, p.ancestors.getLast? = some a → ∃ u g, SchemaGraph.fieldDef? u g.name = some g ∧
    g.kind = .embedded t ∧ a = ⟨g.name, SchemaGraph.name u⟩

/-- What comes last of the steps comes last of the distinct ones. -/
theorem dedup_suffix {rest : List Ancestor} (h : rest <:+ steps) : rest.dedup <:+ steps.dedup := by
  obtain ⟨before, rfl⟩ := h
  rw [List.dedup_append]
  exact List.suffix_union_right before rest.dedup

theorem getLast?_dedup (steps : List Ancestor) : steps.dedup.getLast? = steps.getLast? := by
  obtain rfl | ⟨rest, a, rfl⟩ := List.eq_nil_or_concat steps
  · rfl
  · rw [List.concat_eq_append, dedup_concat, List.getLast?_concat, List.getLast?_concat]

theorem Way.remembers (way : Way s names steps t) (f : Field σ) :
    FieldPath.Remembers { field := f, owner := SchemaGraph.name t, ancestors := steps.dedup }
      steps t f where
  field := rfl
  owner := rfl
  ancestors := rfl
  once := List.nodup_dedup steps
  ordered := List.dedup_sublist steps
  last _ h := dedup_suffix h
  entry _ ha := way.enters_of_getLast? ((getLast?_dedup steps).symm.trans ha)

/-- Names are resolved when they are a way and then an attribute of the schema reached, and the path
ends at that attribute and remembers the steps of the way. Resolving fails when there are no names,
or at their dead end, with the error that the dead end has. -/
theorem resolve_iff (s : σ) (names : List String) :
    (∀ p, FieldPath.resolve s names = .ok p ↔
      ∃ before last steps t f, names = before ++ [last] ∧ Way s before steps t ∧
        SchemaGraph.fieldDef? t last = some f ∧ p.Remembers steps t f) ∧
    ∀ e, FieldPath.resolve s names = .error e ↔
      names = [] ∧ e = .malformedExpression (.emptyPath (SchemaGraph.name s)) ∨
        DeadEnd s names e := by
  refine ⟨fun p => ?_, fun e => resolve_eq_error_iff⟩
  rw [resolve_eq_ok_iff]
  constructor
  · rintro ⟨steps, t, f, walk, rfl⟩
    obtain ⟨before, last, hnames, way, hlast⟩ := walk_iff.mp walk
    exact ⟨before, last, steps, t, f, hnames, way, hlast, way.remembers f⟩
  · rintro ⟨before, last, steps, t, f, hnames, way, hlast, hp⟩
    refine ⟨steps, t, f, walk_iff.mpr ⟨before, last, hnames, way, hlast⟩, ?_⟩
    rw [← hp.field, ← hp.owner, ← hp.ancestors]

/-- From a category one gets to the title of its grandparent, by two steps of which one is
remembered. Below the title of its parent there is nothing, and parents declare no colour. -/
theorem category_ends :
    (∃ p, FieldPath.resolve CategorySchema.category ["parent", "parent", "title"] = .ok p ∧
      p.ancestors = [⟨"parent", "Category"⟩]) ∧
    FieldPath.resolve CategorySchema.category ["parent", "title", "length"] =
      .error (.unknownField "Category" "title.length") ∧
    FieldPath.resolve CategorySchema.category ["parent", "colour", "length"] =
      .error (.unknownField "Category" "colour") := by
  have hparent : SchemaGraph.fieldDef? CategorySchema.category "parent" =
      some ⟨"parent", .embedded .category, none, false⟩ := rfl
  have way : Way CategorySchema.category ["parent"] [⟨"parent", "Category"⟩] .category :=
    .cons hparent rfl (.nil _)
  refine ⟨?_, ?_, ?_⟩
  · have way₂ : Way CategorySchema.category ["parent", "parent"]
        [⟨"parent", "Category"⟩, ⟨"parent", "Category"⟩] .category := .cons hparent rfl way
    refine ⟨_, ((resolve_iff _ _).1 _).mpr ⟨["parent", "parent"], "title", _, _, _, rfl, way₂, rfl,
      way₂.remembers _⟩, by decide⟩
  · refine ((resolve_iff _ _).2 _).mpr (.inr ⟨["parent"], _, _, "title", ["length"], way, rfl,
      .inr ⟨_, "length", [], rfl, nofun, rfl, rfl⟩⟩)
  · exact ((resolve_iff _ _).2 _).mpr (.inr ⟨["parent"], _, _, "colour", ["length"], way, rfl,
      .inl ⟨rfl, rfl⟩⟩)

end TypedStore
