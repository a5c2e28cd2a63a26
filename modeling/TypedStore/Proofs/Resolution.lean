import Mathlib.Data.List.Dedup
import TypedStore.Schema.Path

/-!
What a list of names leads to in a graph of schemas that may embed one another.

`Walk` reads the names one by one: each but the last enters the schema that its attribute embeds.
`resolve_eq_ok_iff` says that resolving succeeds exactly on the walks, and that the path it gives
remembers the steps of the walk with each distinct step kept at its last occurrence only.

So a path is the list of names it was resolved from exactly when no step is taken twice
(`attributePath_eq_iff`). On a schema that embeds itself the second step through one attribute is
already a repeated one, and the path comes out shorter than the names (`resolve_repeated_step`).
-/

namespace TypedStore

section Walks

variable {σ : Type} [SchemaGraph σ]

/-- The names lead from a schema, by steps that each enter an embedded schema, to an attribute of
the schema where they end. -/
inductive Walk : σ → List String → List Ancestor → σ → Field σ → Prop where
  | here {s : σ} {name : String} {f : Field σ} (h : SchemaGraph.fieldDef? s name = some f) :
    Walk s [name] [] s f
  | into {s t u : σ} {name : String} {names : List String} {steps : List Ancestor} {f g : Field σ}
    (h : SchemaGraph.fieldDef? s name = some g) (hg : g.kind = .embedded t)
    (below : Walk t names steps u f) :
    Walk s (name :: names) (⟨name, SchemaGraph.name s⟩ :: steps) u f

theorem fieldDef?_name {s : σ} {name : String} {f : Field σ}
    (h : SchemaGraph.fieldDef? s name = some f) : f.name = name := by
  unfold SchemaGraph.fieldDef? at h
  split at h
  · cases h; rfl
  · simpa using List.find?_some h

theorem Walk.ne_nil {s t : σ} {names : List String} {steps : List Ancestor} {f : Field σ}
    (h : Walk s names steps t f) : names ≠ [] := by
  cases h <;> simp

/-- The names of a walk are those of its steps and then the attribute's. -/
theorem Walk.names_eq {s t : σ} {names : List String} {steps : List Ancestor} {f : Field σ}
    (h : Walk s names steps t f) : names = steps.map Ancestor.name ++ [f.name] := by
  induction h with
  | here h => simp [fieldDef?_name h]
  | into _ _ _ ih => simp [← ih]

/-- A step at the end keeps its place and drives out its earlier occurrences. -/
theorem dedup_concat (steps : List Ancestor) (step : Ancestor) :
    (steps ++ [step]).dedup = steps.dedup.filter (· ≠ step) ++ [step] := by
  induction steps with
  | nil => simp
  | cons a rest ih =>
    -- the head is kept when it does not come again, be it further on or as the new step
    by_cases hm : a ∈ rest
    · rw [List.cons_append, List.dedup_cons_of_mem (by simp [hm]), List.dedup_cons_of_mem hm, ih]
    · by_cases ha : a = step
      · subst ha
        rw [List.cons_append, List.dedup_cons_of_mem (by simp), List.dedup_cons_of_notMem hm, ih]
        simp
      · rw [List.cons_append, List.dedup_cons_of_notMem (by simp [hm, ha]),
          List.dedup_cons_of_notMem hm, ih]
        simp [ha]

theorem child_eq_ok_iff {p q : FieldPath σ} {t : σ} {name : String}
    (hk : p.field.kind = .embedded t) :
    p.child name = .ok q ↔ ∃ f, SchemaGraph.fieldDef? t name = some f ∧
      q = { field := f, owner := SchemaGraph.name t, ancestors := p.stepsBelow } := by
  cases hf : SchemaGraph.fieldDef? t name <;>
    simp [FieldPath.child, FieldPath.ofField, hk, hf, bind, Except.bind, eq_comm]

theorem descend_cons_eq_ok_iff {p q : FieldPath σ} {name : String} {rest : List String} :
    p.descend (name :: rest) = .ok q ↔
      ∃ mid, p.child name = .ok mid ∧ mid.descend rest = .ok q := by
  cases h : p.child name <;> simp [FieldPath.descend, h, bind, Except.bind]

theorem resolve_cons_eq_ok_iff {s : σ} {p : FieldPath σ} {name : String} {rest : List String} :
    FieldPath.resolve s (name :: rest) = .ok p ↔ ∃ f, SchemaGraph.fieldDef? s name = some f ∧
      FieldPath.descend { field := f, owner := SchemaGraph.name s } rest = .ok p := by
  cases h : SchemaGraph.fieldDef? s name <;>
    simp [FieldPath.resolve, FieldPath.ofField, h, bind, Except.bind]

theorem embedded_of_descend {p q : FieldPath σ} {name : String} {rest : List String}
    (h : p.descend (name :: rest) = .ok q) : ∃ t, p.field.kind = .embedded t := by
  obtain ⟨mid, hmid, -⟩ := descend_cons_eq_ok_iff.mp h
  unfold FieldPath.child at hmid
  split at hmid
  · next t ht => exact ⟨t, ht⟩
  · simp at hmid

/-- Going down from a path that has taken the steps of `prior`: the induction is on the names, and
what it carries along is that the ancestors are the steps taken so far, each at its last
occurrence. -/
theorem descend_eq_ok_iff (names : List String) (hne : names ≠ []) :
    ∀ {p q : FieldPath σ} {t : σ} {prior : List Ancestor}, p.field.kind = .embedded t →
      p.ancestors = prior.dedup →
      (p.descend names = .ok q ↔ ∃ steps u f, Walk t names steps u f ∧
        q = { field := f, owner := SchemaGraph.name u,
              ancestors := (prior ++ p.step :: steps).dedup }) := by
  induction names with
  | nil => exact absurd rfl hne
  | cons name rest ih =>
    intro p q t prior hk ha
    -- the invariant one level down
    have hbelow : p.stepsBelow = (prior ++ [p.step]).dedup := by
      rw [dedup_concat, FieldPath.stepsBelow, ha]
    rw [descend_cons_eq_ok_iff]
    constructor
    · rintro ⟨mid, hmid, hq⟩
      obtain ⟨g, hg, rfl⟩ := (child_eq_ok_iff hk).mp hmid
      cases rest with
      | nil =>
        cases hq
        exact ⟨[], t, g, .here hg, by simp [hbelow]⟩
      | cons next more =>
        obtain ⟨v, hv⟩ := embedded_of_descend hq
        obtain ⟨steps, u, f, hw, rfl⟩ := (ih (by simp) hv hbelow).mp hq
        refine ⟨_, u, f, .into hg hv hw, ?_⟩
        simp [FieldPath.step, fieldDef?_name hg]
    · rintro ⟨steps, u, f, hw, rfl⟩
      cases hw with
      | here hg =>
        refine ⟨_, (child_eq_ok_iff hk).mpr ⟨f, hg, rfl⟩, ?_⟩
        simp [hbelow, FieldPath.descend]
      | into hg hv below =>
        refine ⟨_, (child_eq_ok_iff hk).mpr ⟨_, hg, rfl⟩, ?_⟩
        refine (ih below.ne_nil hv hbelow).mpr ⟨_, u, f, below, ?_⟩
        simp [FieldPath.step, fieldDef?_name hg]

/-- Resolving succeeds exactly on the walks; the path keeps each distinct step at its last
occurrence. -/
theorem resolve_eq_ok_iff {s : σ} {names : List String} {p : FieldPath σ} :
    FieldPath.resolve s names = .ok p ↔ ∃ steps t f, Walk s names steps t f ∧
      p = { field := f, owner := SchemaGraph.name t, ancestors := steps.dedup } := by
  cases names with
  | nil =>
    refine ⟨fun h => by simp [FieldPath.resolve] at h, ?_⟩
    rintro ⟨steps, t, f, hw, -⟩
    exact absurd rfl hw.ne_nil
  | cons name rest =>
    rw [resolve_cons_eq_ok_iff]
    constructor
    · rintro ⟨g, hg, hq⟩
      cases rest with
      | nil => cases hq; exact ⟨[], s, g, .here hg, rfl⟩
      | cons next more =>
        obtain ⟨v, hv⟩ := embedded_of_descend hq
        obtain ⟨steps, u, f, hw, rfl⟩ :=
          (descend_eq_ok_iff _ (by simp) hv List.dedup_nil.symm).mp hq
        exact ⟨_, u, f, .into hg hv hw, by simp [FieldPath.step, fieldDef?_name hg]⟩
    · rintro ⟨steps, t, f, hw, rfl⟩
      cases hw with
      | here hg => exact ⟨f, hg, rfl⟩
      | into hg hv below =>
        refine ⟨_, hg, ?_⟩
        refine (descend_eq_ok_iff _ below.ne_nil hv List.dedup_nil.symm).mpr ⟨_, t, f, below, ?_⟩
        simp [FieldPath.step, fieldDef?_name hg]

/-! ## When a path is the names it was resolved from -/

omit [SchemaGraph σ] in
/-- The keys to an attribute are its names, unless it is a primary key with a name of its own. -/
theorem recordSegments_eq_attributePath {p : FieldPath σ}
    (h : p.field.isPrimaryKey = true → p.field.name = reservedIdKey) :
    p.recordSegments = p.attributePath := by
  cases hf : p.field.isPrimaryKey with
  | false => simp [FieldPath.recordSegments, FieldPath.attributePath, Field.recordKey, hf]
  | true => simp [FieldPath.recordSegments, FieldPath.attributePath, Field.recordKey, hf, h hf]

theorem map_name_dedup_eq_iff {steps : List Ancestor} :
    steps.dedup.map Ancestor.name = steps.map Ancestor.name ↔ steps.Nodup := by
  constructor
  · intro h
    have hlen : steps.dedup.length = steps.length := by simpa using congrArg List.length h
    exact List.dedup_eq_self.mp ((List.dedup_sublist steps).eq_of_length hlen)
  · intro h
    rw [List.dedup_eq_self.mpr h]

/-- The attribute path and the record path are the names, but for the reserved key of a primary
key, exactly when no step of the walk is taken twice. The dotted key is then the one that was
resolved. -/
theorem attributePath_eq_iff {s : σ} {names : List String} {p : FieldPath σ}
    (h : FieldPath.resolve s names = .ok p) :
    ∃ steps t f, Walk s names steps t f ∧ p.field = f ∧ names.getLast? = some f.name ∧
      (p.attributePath = names ↔ steps.Nodup) ∧
      (p.recordSegments = names.dropLast ++ [if f.isPrimaryKey then reservedIdKey else f.name] ↔
        steps.Nodup) ∧
      (steps.Nodup → ∀ key, names = Dotted.split key → p.attributeKey = key) := by
  obtain ⟨steps, t, f, hw, rfl⟩ := resolve_eq_ok_iff.mp h
  have hnames := hw.names_eq
  have hpath : FieldPath.attributePath
      { field := f, owner := SchemaGraph.name t, ancestors := steps.dedup } = names ↔
      steps.Nodup := by
    rw [hnames, FieldPath.attributePath, List.append_left_inj, map_name_dedup_eq_iff]
  refine ⟨steps, t, f, hw, rfl, by simp [hnames], hpath, ?_, ?_⟩
  · rw [hnames, FieldPath.recordSegments, List.dropLast_concat]
    simp only [Field.recordKey, Bool.false_eq_true, if_false]
    rw [List.append_left_inj, map_name_dedup_eq_iff]
  · intro hnodup key hkey
    rw [FieldPath.attributeKey, hpath.mpr hnodup, hkey, Dotted.join_split]

end Walks

/-! ## Anti-vacuity: a path below a nested attribute, and one that comes out too short -/

/-- The schema of categories, which may lie in one another. -/
inductive CategorySchema where
  | category

instance : SchemaGraph CategorySchema where
  schema
    | .category =>
      { name := "Category", primaryKey := some "id"
        declared := [⟨"title", .string, none, false⟩,
          ⟨"parent", .embedded .category, none, false⟩] }
  all := [.category]
  mem_all := by rintro ⟨⟩; simp

/-- The title of a category's parent is found under its own names. -/
theorem attributePath_parent_title :
    ∃ p, FieldPath.resolve CategorySchema.category ["parent", "title"] = .ok p ∧
      p.attributePath = ["parent", "title"] := by
  obtain ⟨p, h⟩ : ∃ p, FieldPath.resolve CategorySchema.category ["parent", "title"] = .ok p :=
    ⟨_, rfl⟩
  refine ⟨p, h, ?_⟩
  obtain ⟨steps, t, f, hw, -, -, hpath, -⟩ := attributePath_eq_iff h
  cases hw with
  | into _ _ below =>
    cases below with
    | here _ => exact hpath.mpr (by simp)
    | into _ _ below => exact absurd rfl below.ne_nil

/-- The title of a category's grandparent is taken for the title of its parent. -/
theorem resolve_repeated_step :
    ∃ p, FieldPath.resolve CategorySchema.category ["parent", "parent", "title"] = .ok p ∧
      p.attributePath = ["parent", "title"] ∧ p.recordSegments = ["parent", "title"] ∧
      p.attributePath ≠ ["parent", "parent", "title"] := by
  refine ⟨_, rfl, ?_, ?_, ?_⟩ <;> decide

end TypedStore
