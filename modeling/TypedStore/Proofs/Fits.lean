import TypedStore.Proofs.Levels
import TypedStore.Model

/-!
Documents that fit a schema, and their records.

Main statements: a document that fits can be respelled and read back as long as no primary key of it
gets in the way (`Fits.respellable`), and its record holds the primary key under the reserved key
and everything else where it was (`Fits.get?_moveKey`).
-/

namespace TypedStore

variable {σ : Type} [SchemaGraph σ] {s t u : σ}

/-- A document that fits a schema: keys are distinct and each is an attribute's, or else one that
no record of the schema uses, and so in the documents of embedded attributes. -/
inductive Fits (byAlias : Bool) : σ → Document → Prop where
  | intro {s : σ} {d : Document} (distinct : Keyed.Nodup d)
    (spare : ∀ k ∈ Keyed.keys d, SchemaGraph.fieldDef? s k = none →
      k ≠ reservedIdKey ∧ ∀ f ∈ SchemaGraph.fields s, f.recordKey byAlias ≠ k)
    (nested : ∀ k inner f t, Keyed.get? d k = some (.document inner) →
      SchemaGraph.fieldDef? s k = some f → f.kind = .embedded t → Fits byAlias t inner) :
    Fits byAlias s d

/-! ## Keys that come back -/

/-- A key that stands for an attribute to records stands for it to paths, unless it is a primary
key's. -/
theorem fieldDef?_of_renamed? (hk : WellKeyed true s) {k : String} {f : Field σ}
    (hclean : SchemaGraph.primaryKey s = some k → k = reservedIdKey)
    (h : SchemaGraph.renamed? .aliases s k = some f) : SchemaGraph.fieldDef? s k = some f := by
  obtain ⟨hf, hkey, rfl⟩ := SchemaGraph.renamed?_eq_some h
  refine fieldDef?_of_mem hk.names hf ?_
  intro hpk
  have hname : f.name = reservedIdKey := hclean hpk
  exact hk.recordKey_ne hf hkey false (by simpa [Field.recordKey, hkey] using hname)

theorem renamed?_respelled (hk : WellKeyed true s) {k : String}
    (hclean : ∀ f, SchemaGraph.fieldDef? s k = some f → f.isPrimaryKey = true →
      k = reservedIdKey)
    (hspare : SchemaGraph.fieldDef? s k = none →
      ∀ f ∈ SchemaGraph.fields s, f.isPrimaryKey = false → f.recordKey true ≠ k) :
    SchemaGraph.renamed? .attributes s (SchemaGraph.respelled .aliases s k) =
      SchemaGraph.renamed? .aliases s k := by
  unfold SchemaGraph.respelled
  cases h : SchemaGraph.renamed? .aliases s k with
  | some f =>
    obtain ⟨hf, hkey, -⟩ := SchemaGraph.renamed?_eq_some h
    exact SchemaGraph.renamed?_spelled hk.recordKeys hf hkey
  | none =>
    rw [SchemaGraph.renamed?_eq_none_iff]
    intro g hg hgkey heq
    cases hf : SchemaGraph.fieldDef? s k with
    | none => exact hspare hf g hg hgkey heq
    | some f =>
      cases hfkey : f.isPrimaryKey with
      | true => exact hk.recordKey_ne hg hgkey true (heq.trans (hclean f hf hfkey))
      | false =>
        have hmem := (mem_fields_of_fieldDef? hf hfkey).1
        exact SchemaGraph.renamed?_eq_none_iff.mp h f hmem hfkey (fieldDef?_name hf)

/-- A document that fits can be respelled and read back when all its primary keys are called like
the reserved key. -/
theorem Fits.respellable {d : Document} (h : Fits true s d)
    (hk : ∀ t, Relation.ReflTransGen Enters s t → WellKeyed true t)
    (hclean : ∀ t, Relation.ReflTransGen Enters s t → ∀ k f,
      SchemaGraph.fieldDef? t k = some f → f.isPrimaryKey = true → k = reservedIdKey) :
    SchemaGraph.Respellable .aliases s d := by
  induction h with
  | @intro s d distinct spare nested ih =>
    refine .intro distinct ?_ ?_
    · intro k hmem
      refine renamed?_respelled (hk s .refl) (hclean s .refl k) ?_
      intro hnone f hf _
      exact (spare k hmem hnone).2 f hf
    · intro k inner f t hget hren hkind
      have hpk : SchemaGraph.primaryKey s = some k → k = reservedIdKey :=
        fun hpk => hclean s .refl k _ (fieldDef?_primaryKey hpk) rfl
      have hdef := fieldDef?_of_renamed? (hk s .refl) hpk hren
      have hedge : Enters s t := ⟨k, f, hdef, hkind⟩
      exact ih k inner f t hget hdef hkind (fun u hu => hk u (.head hedge hu))
        (fun u hu => hclean u (.head hedge hu))

/-! ## The primary key in a record -/

namespace Model

theorem get?_moveKey_target {source target : String} {d : Document} {v : Value}
    (h : Keyed.get? d source = some v) : Keyed.get? (moveKey source target d) target = some v := by
  rw [moveKey, h]
  exact Keyed.get?_insert_self ..

theorem get?_moveKey_of_ne (source : String) {target : String} {d : Document}
    (hd : Keyed.Nodup d) {k : String} (hk : k ≠ target) :
    Keyed.get? (moveKey source target d) k =
      if k = source then none else Keyed.get? d k := by
  unfold moveKey
  cases h : Keyed.get? d source with
  | none => by_cases hks : k = source <;> simp [hks, h]
  | some v => simp [Keyed.get?_insert, Keyed.get?_erase hd, Ne.symm hk, eq_comm]

theorem mem_keys_moveKey {source target : String} {d : Document} (hd : Keyed.Nodup d) {k : String}
    (hk : k ∈ Keyed.keys (moveKey source target d)) : k = target ∨ k ∈ Keyed.keys d := by
  by_contra hnone
  rw [not_or] at hnone
  have hget := get?_moveKey_of_ne source hd hnone.1
  rw [Keyed.get?_eq_none_iff.mpr hnone.2, ite_self] at hget
  exact Keyed.get?_eq_none_iff.mp hget hk

theorem get?_moveKey {source target : String} {d : Document} (hd : Keyed.Nodup d)
    (ht : target ∉ Keyed.keys d) (k : String) :
    Keyed.get? (moveKey source target d) k =
      if k = target then Keyed.get? d source else if k = source then none else Keyed.get? d k := by
  by_cases hk : k = target
  · rw [if_pos hk, hk, moveKey]
    cases h : Keyed.get? d source with
    | none => exact Keyed.get?_eq_none_iff.mpr ht
    | some v => exact Keyed.get?_insert_self ..
  · rw [if_neg hk, get?_moveKey_of_ne source hd hk]

/-- Moving a value between keys that a path does not begin with is not seen through the path. -/
theorem getPath?_moveKey {source target : String} {d : Document} (hd : Keyed.Nodup d)
    {path : List String} (hsource : path.head? ≠ some source) (htarget : path.head? ≠ some target) :
    Document.getPath? (moveKey source target d) path = Document.getPath? d path := by
  cases path with
  | nil => rfl
  | cons k rest =>
    refine Document.getPath?_congr ?_
    rw [get?_moveKey_of_ne source hd fun h => htarget (congrArg some h),
      if_neg fun h => hsource (congrArg some h)]

theorem get?_moveKey_self {key : String} {d : Document} (hd : Keyed.Nodup d) (k : String) :
    Keyed.get? (moveKey key key d) k = Keyed.get? d k := by
  unfold moveKey
  cases h : Keyed.get? d key with
  | none => rfl
  | some v =>
    by_cases hk : key = k
    · simp [← hk, h]
    · simp [Keyed.get?_insert, Keyed.get?_erase hd, hk]

theorem nodup_moveKey (source target : String) {d : Document} (hd : Keyed.Nodup d) :
    Keyed.Nodup (moveKey source target d) := by
  unfold moveKey
  cases Keyed.get? d source with
  | none => exact hd
  | some v => exact Keyed.nodup_insert (Keyed.nodup_erase hd source) target v

end Model

theorem Fits.reserved_notMem {byAlias : Bool} {d : Document} (h : Fits byAlias s d)
    (hk : WellKeyed byAlias s) (hpk : SchemaGraph.primaryKey s ≠ some reservedIdKey) :
    reservedIdKey ∉ Keyed.keys d := by
  obtain ⟨-, spare, -⟩ := h
  intro hmem
  cases hdef : SchemaGraph.fieldDef? s reservedIdKey with
  | none => exact (spare _ hmem hdef).1 rfl
  | some f => exact hpk (hk.primaryKey_of_reserved hdef)

/-- The moved document holds the primary key's value under the reserved key, and else what was
there. -/
theorem Fits.get?_moveKey {byAlias : Bool} {d : Document} {key : String}
    (h : Fits byAlias s d) (hk : WellKeyed byAlias s)
    (hpk : SchemaGraph.primaryKey s = some key) (k : String) :
    Keyed.get? (Model.moveKey key reservedIdKey d) k =
      if k = reservedIdKey then Keyed.get? d key
      else if k = key then none else Keyed.get? d k := by
  have hd : Keyed.Nodup d := by obtain ⟨distinct, -, -⟩ := h; exact distinct
  by_cases hkey : key = reservedIdKey
  · subst hkey
    rw [Model.get?_moveKey_self hd]
    split <;> simp_all
  · exact Model.get?_moveKey hd (h.reserved_notMem hk (by simpa [hpk] using hkey)) k

end TypedStore
