import Mathlib.Logic.Relation
import TypedStore.Proofs.Renaming
import TypedStore.Proofs.Resolution

/-!
The levels of a document: its schema and the schemas entered through embedded attributes.

Main statements: a walk through a level extends to a walk from the top (`Walk.of_below`), a walk
can be cut short until it takes no step twice (`Walk.exists_nodup`), and where a schema keeps its
keys apart (`WellKeyed`) no attribute but a primary key meets the reserved key
(`WellKeyed.recordKey_ne`).
-/

namespace TypedStore

variable {σ : Type} [SchemaGraph σ] {s t u : σ}

/-! ## Attributes -/

theorem declared_subset_fields : (SchemaGraph.schema s).declared ⊆ SchemaGraph.fields s := by
  unfold SchemaGraph.fields
  split
  · simp
  · split <;> simp

theorem declared_or_primaryKey {f : Field σ} (hf : f ∈ SchemaGraph.fields s) :
    f ∈ (SchemaGraph.schema s).declared ∨
      ∃ key, SchemaGraph.primaryKey s = some key ∧ f = .primaryKey key := by
  unfold SchemaGraph.fields at hf
  split at hf
  · exact .inl hf
  · next key hkey =>
    split at hf
    · exact .inl hf
    · rcases List.mem_append.mp hf with hf | hf
      · exact .inl hf
      · exact .inr ⟨key, hkey, List.mem_singleton.mp hf⟩

theorem mem_declared_of_mem_fields {f : Field σ} (hf : f ∈ SchemaGraph.fields s)
    (hpk : SchemaGraph.primaryKey s ≠ some f.name) : f ∈ (SchemaGraph.schema s).declared := by
  rcases declared_or_primaryKey hf with hf | ⟨key, hkey, rfl⟩
  · exact hf
  · exact absurd hkey hpk

theorem fieldDef?_primaryKey {key : String} (h : SchemaGraph.primaryKey s = some key) :
    SchemaGraph.fieldDef? s key = some (.primaryKey key) := by
  simp [SchemaGraph.fieldDef?, h]

theorem fieldDef?_eq_some_of_ne {f : Field σ} {k : String}
    (hpk : SchemaGraph.primaryKey s ≠ some k) (h : SchemaGraph.fieldDef? s k = some f) :
    f ∈ SchemaGraph.fields s := by
  rw [SchemaGraph.fieldDef?, if_neg hpk] at h
  exact declared_subset_fields (List.mem_of_find?_eq_some h)

theorem mem_fields_of_fieldDef? {f : Field σ} {k : String}
    (h : SchemaGraph.fieldDef? s k = some f) (hf : f.isPrimaryKey = false) :
    f ∈ SchemaGraph.fields s ∧ SchemaGraph.primaryKey s ≠ some k := by
  -- whatever is declared under the primary key's name, a path takes it for the primary key
  have hpk : SchemaGraph.primaryKey s ≠ some k := by
    intro hpk
    rw [fieldDef?_primaryKey hpk] at h
    cases h
    cases hf
  exact ⟨fieldDef?_eq_some_of_ne hpk h, hpk⟩

theorem exists_field_of_fieldDef? {f : Field σ} {k : String}
    (h : SchemaGraph.fieldDef? s k = some f) : ∃ g ∈ SchemaGraph.fields s, g.name = k := by
  by_cases hpk : SchemaGraph.primaryKey s = some k
  · by_cases hany : (SchemaGraph.schema s).declared.any (·.name == k) = true
    · obtain ⟨g, hg, hname⟩ := List.any_eq_true.mp hany
      exact ⟨g, declared_subset_fields hg, by simpa using hname⟩
    · refine ⟨.primaryKey k, ?_, rfl⟩
      simp [SchemaGraph.fields, hpk, hany]
  · exact ⟨f, fieldDef?_eq_some_of_ne hpk h, fieldDef?_name h⟩

theorem exists_fieldDef?_of_mem {f : Field σ} (hf : f ∈ SchemaGraph.fields s) :
    ∃ g, SchemaGraph.fieldDef? s f.name = some g := by
  by_cases hpk : SchemaGraph.primaryKey s = some f.name
  · exact ⟨_, fieldDef?_primaryKey hpk⟩
  · rw [SchemaGraph.fieldDef?, if_neg hpk]
    apply Option.isSome_iff_exists.mp
    rw [List.find?_isSome]
    exact ⟨f, mem_declared_of_mem_fields hf hpk, beq_self_eq_true _⟩

/-- Where names are distinct, a field is found by its name unless that is the primary key's. -/
theorem fieldDef?_of_mem {f : Field σ} (hnodup : ((SchemaGraph.fields s).map Field.name).Nodup)
    (hf : f ∈ SchemaGraph.fields s) (hpk : SchemaGraph.primaryKey s ≠ some f.name) :
    SchemaGraph.fieldDef? s f.name = some f := by
  rw [SchemaGraph.fieldDef?, if_neg hpk]
  cases h : (SchemaGraph.schema s).declared.find? (·.name == f.name) with
  | none =>
    have := List.find?_eq_none.mp h f (mem_declared_of_mem_fields hf hpk)
    simp at this
  | some g =>
    have hg := declared_subset_fields (List.mem_of_find?_eq_some h)
    have hname : g.name = f.name := by simpa using List.find?_some h
    rw [List.inj_on_of_nodup_map hnodup hg hf hname]

/-! ## Keys kept apart -/

/-- The attribute names and the record keys of a schema are each distinct, and the reserved key is
nobody's name or alias but the primary key's. -/
structure WellKeyed (byAlias : Bool) (s : σ) : Prop where
  names : ((SchemaGraph.fields s).map Field.name).Nodup
  recordKeys : ((SchemaGraph.fields s).map (·.recordKey byAlias)).Nodup
  reservedName : ∀ f ∈ SchemaGraph.fields s, f.name = reservedIdKey →
    f.isPrimaryKey = true ∧ SchemaGraph.primaryKey s = some reservedIdKey
  reservedAlias : ∀ f ∈ SchemaGraph.fields s, f.aliasName = some reservedIdKey →
    f.isPrimaryKey = true

theorem WellKeyed.recordKey_ne {byAlias : Bool} (h : WellKeyed byAlias s) {f : Field σ}
    (hf : f ∈ SchemaGraph.fields s) (hkey : f.isPrimaryKey = false) (spelling : Bool) :
    f.recordKey spelling ≠ reservedIdKey := by
  have hname : f.name ≠ reservedIdKey := by
    intro hname
    rw [(h.reservedName f hf hname).1] at hkey
    cases hkey
  have halias : f.aliasName ≠ some reservedIdKey := by
    intro halias
    rw [h.reservedAlias f hf halias] at hkey
    cases hkey
  -- an alias counts only where records are spelled by aliases
  cases spelling with
  | false => simpa [Field.recordKey, hkey] using hname
  | true =>
    cases ha : f.aliasName with
    | none => simpa [Field.recordKey, hkey, ha] using hname
    | some a =>
      rw [ha] at halias
      simpa [Field.recordKey, hkey, ha] using halias

theorem WellKeyed.renamed?_reserved {byAlias : Bool} (h : WellKeyed byAlias s) (into : Naming) :
    SchemaGraph.renamed? into s reservedIdKey = none := by
  rw [SchemaGraph.renamed?_eq_none_iff]
  intro f hf hkey
  cases into with
  | attributes => exact h.recordKey_ne hf hkey true
  | aliases =>
    have hne := h.recordKey_ne hf hkey false
    simpa [Field.recordKey, hkey, Field.spelled, Naming.other] using hne

theorem WellKeyed.primaryKey_of_reserved {byAlias : Bool} (h : WellKeyed byAlias s)
    {f : Field σ} (hf : SchemaGraph.fieldDef? s reservedIdKey = some f) :
    SchemaGraph.primaryKey s = some reservedIdKey := by
  obtain ⟨g, hg, hname⟩ := exists_field_of_fieldDef? hf
  exact (h.reservedName g hg hname).2

/-! ## Going down -/

/-- An attribute of the first schema embeds the second. -/
def Enters (s t : σ) : Prop :=
  ∃ name f, SchemaGraph.fieldDef? s name = some f ∧ f.kind = .embedded t

theorem primaryKey_ne_of_embedded {f : Field σ} {k : String}
    (h : SchemaGraph.fieldDef? s k = some f) (hkind : f.kind = .embedded t) :
    SchemaGraph.primaryKey s ≠ some k := by
  intro hpk
  rw [fieldDef?_primaryKey hpk] at h
  cases h
  cases hkind

theorem Walk.head?_name {names : List String} {steps : List Ancestor} {f : Field σ}
    (walk : Walk s names steps u f) : ∃ g ∈ SchemaGraph.fields s, names.head? = some g.name := by
  have hdef : ∃ name g, SchemaGraph.fieldDef? s name = some g ∧ names.head? = some name := by
    cases walk with
    | here hdef => exact ⟨_, _, hdef, rfl⟩
    | into hdef => exact ⟨_, _, hdef, rfl⟩
  obtain ⟨name, _, hdef, hhead⟩ := hdef
  obtain ⟨g, hg, hname⟩ := exists_field_of_fieldDef? hdef
  exact ⟨g, hg, hname ▸ hhead⟩

theorem Walk.head?_ne {key : String} (hpk : SchemaGraph.primaryKey s = some key)
    {names : List String} {steps : List Ancestor} {f : Field σ} (walk : Walk s names steps u f)
    (hne : names ≠ [key]) : names.head? ≠ some key := by
  intro hhead
  cases walk with
  | here => exact hne (congrArg (fun k => [k]) (Option.some.inj hhead))
  | into hdef hkind =>
    cases hhead
    exact primaryKey_ne_of_embedded hdef hkind hpk

/-- What is reached from a level below is reached from the top, by two names at least. -/
theorem Walk.of_below (h : Relation.TransGen Enters s t) {names : List String}
    {steps : List Ancestor} {f : Field σ} (walk : Walk t names steps u f) :
    ∃ names' steps', Walk s names' steps' u f ∧ 2 ≤ names'.length := by
  induction h generalizing names steps with
  | single edge =>
    obtain ⟨name, g, hg, hkind⟩ := edge
    refine ⟨_, _, .into hg hkind walk, ?_⟩
    have := List.length_pos_iff.mpr walk.ne_nil
    rw [List.length_cons]
    omega
  | tail _ edge ih =>
    obtain ⟨name, g, hg, hkind⟩ := edge
    exact ih (.into hg hkind walk)

/-- The rest of a walk from one of its steps on. -/
theorem Walk.suffix_of_mem {names : List String} {steps : List Ancestor} {f : Field σ}
    (walk : Walk s names steps u f) {a : Ancestor} (ha : a ∈ steps) :
    ∃ t names' rest, Walk t names' (a :: rest) u f ∧ a.owner = SchemaGraph.name t ∧
      (a :: rest) <:+ steps ∧ Relation.ReflTransGen Enters s t := by
  induction walk with
  | here => simp at ha
  | @into s t u name names steps f g hg hkind below ih =>
    rcases List.mem_cons.mp ha with rfl | ha
    · exact ⟨s, _, steps, .into hg hkind below, rfl, List.suffix_refl _, .refl⟩
    · obtain ⟨v, names', rest, hw, howner, hsuffix, hreach⟩ := ih ha
      exact ⟨v, names', rest, hw, howner, hsuffix.trans (List.suffix_cons _ _),
        .head ⟨name, g, hg, hkind⟩ hreach⟩

/-- Whatever can be reached can be reached without taking a step twice, and as far down. -/
theorem Walk.exists_nodup (hnames : Function.Injective (SchemaGraph.name (σ := σ)))
    {names : List String} {steps : List Ancestor} {f : Field σ}
    (walk : Walk s names steps u f) :
    ∃ names' steps', Walk s names' steps' u f ∧ steps'.Nodup ∧ (steps' = [] ↔ steps = []) := by
  induction walk with
  | here h => exact ⟨_, [], .here h, .nil, Iff.rfl⟩
  | @into s t u name names steps f g hg hkind below ih =>
    obtain ⟨names', steps', hw, hnodup, -⟩ := ih
    by_cases hmem : ⟨name, SchemaGraph.name s⟩ ∈ steps'
    · -- the first step comes again further on: what lies between is left out
      obtain ⟨v, names'', rest, hw', howner, hsuffix, -⟩ := hw.suffix_of_mem hmem
      cases hnames howner
      exact ⟨names'', _, hw', hnodup.sublist hsuffix.sublist, by simp⟩
    · exact ⟨_, _, .into hg hkind hw, List.nodup_cons.mpr ⟨hmem, hnodup⟩, by simp⟩

end TypedStore
