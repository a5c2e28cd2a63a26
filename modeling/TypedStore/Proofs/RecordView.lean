import TypedStore.Expression
import TypedStore.Instance
import TypedStore.Proofs.Fits

/-!
What a query sees of an instance.

A condition reads the record, an instance is read as its document. `Model.Transparent` says that
both read the same at every path. The record has the type's own primary key under the reserved key,
and there a path looks for it. A primary key further down keeps its name in the record, but a path
looks for it under the reserved key all the same (`resolve_head_eid`).

So a type is transparent exactly when no path leads to such a key, unless the key is called like the
reserved one (`Model.transparent_iff`).
-/

namespace TypedStore

variable {σ : Type} [SchemaGraph σ] {s t u : σ}

/-- No path leads to a primary key but the type's own, or one that is called like the reserved
key. -/
def OwnKeyOnly (s : σ) (key : String) : Prop :=
  ∀ names p, FieldPath.resolve s names = .ok p → p.field.isPrimaryKey = true →
    names = [key] ∨ p.field.name = reservedIdKey

/-- A query sees what the instances hold: an instance whose document fits has a record, and each
path reads in it, spelled back, what the document has there, or null. -/
def Model.Transparent {D : Type} (m : Model σ D) : Prop :=
  ∀ d mapping, m.type.toMapping d = .ok mapping → Fits m.byAlias m.type.schema mapping →
    ∃ record, m.toRecord d = .ok record ∧
      ∀ names p, FieldPath.resolve m.type.schema names = .ok p →
        (Operand.field p).resolve (m.ofStored record) =
          (Document.getPath? mapping p.attributePath).getD .null

/-! ## What no foreign primary key means level by level -/

section OwnKey

variable {key : String} (hown : OwnKeyOnly s key)
include hown

theorem OwnKeyOnly.at_top {k : String} {f : Field σ} (h : SchemaGraph.fieldDef? s k = some f)
    (hf : f.isPrimaryKey = true) : k = key ∨ k = reservedIdKey := by
  rcases hown _ _ (resolve_eq_ok_iff.mpr ⟨[], s, f, .here h, rfl⟩) hf with hnames | hname
  · exact .inl (List.cons.inj hnames).1
  · exact .inr ((fieldDef?_name h).symm.trans hname)

theorem OwnKeyOnly.below {k : String} {f : Field σ} (hbelow : Relation.TransGen Enters s t)
    (h : SchemaGraph.fieldDef? t k = some f) (hf : f.isPrimaryKey = true) :
    k = reservedIdKey := by
  obtain ⟨names, steps, hw, hlen⟩ := Walk.of_below hbelow (.here h)
  rcases hown names _ (resolve_eq_ok_iff.mpr ⟨steps, t, f, hw, rfl⟩) hf with hnames | hname
  · simp [hnames] at hlen
  · exact (fieldDef?_name h).symm.trans hname

theorem Fits.respellable_record {d : Document} (h : Fits true s d)
    (hk : ∀ t, Relation.ReflTransGen Enters s t → WellKeyed true t)
    (hpk : SchemaGraph.primaryKey s = some key) :
    SchemaGraph.Respellable .aliases s (Model.moveKey key reservedIdKey d) := by
  have hget := h.get?_moveKey (hk s .refl) hpk
  obtain ⟨distinct, spare, nested⟩ := h
  have hkey : ∀ k v, Keyed.get? (Model.moveKey key reservedIdKey d) k = some v →
      k ≠ reservedIdKey → k ≠ key ∧ Keyed.get? d k = some v := by
    intro k v hv hres
    rw [hget, if_neg hres] at hv
    split at hv
    · cases hv
    · next hne => exact ⟨hne, hv⟩
  refine .intro (Model.nodup_moveKey _ _ distinct) ?_ ?_
  · intro k hmem
    obtain ⟨v, hv⟩ := Option.isSome_iff_exists.mp (Keyed.contains_iff.mpr hmem)
    refine renamed?_respelled (hk s .refl) ?_ ?_
    · intro f hf hfkey
      by_contra hres
      exact (hown.at_top hf hfkey).elim (hkey k v hv hres).1 hres
    · intro hnone f hf hfkey
      by_cases hres : k = reservedIdKey
      · rw [hres]
        exact (hk s .refl).recordKey_ne hf hfkey true
      · have hd := (hkey k v hv hres).2
        exact (spare k (Keyed.contains_iff.mp (by simp [Keyed.contains, hd])) hnone).2 f hf
  · intro k inner f t hv hren hkind
    have hres : k ≠ reservedIdKey := by
      rintro rfl
      rw [(hk s .refl).renamed?_reserved] at hren
      cases hren
    obtain ⟨hne, hd⟩ := hkey k _ hv hres
    have hclean : SchemaGraph.primaryKey s = some k → k = reservedIdKey := by
      intro hpk'
      rw [hpk] at hpk'
      exact absurd (Option.some.inj hpk').symm hne
    have hdef := fieldDef?_of_renamed? (hk s .refl) hclean hren
    have hedge : Enters s t := ⟨k, f, hdef, hkind⟩
    refine (nested k inner f t hd hdef hkind).respellable (fun u hu => hk u (.head hedge hu)) ?_
    intro u hu j g hg hgkey
    exact hown.below (.head' hedge hu) hg hgkey

/-! ## Reading along a path -/

/-- An attribute of the type itself is in the record where its path looks for it. -/
theorem Fits.get?_record {byAlias : Bool} {d : Document} (h : Fits byAlias s d)
    (hk : WellKeyed byAlias s) (hpk : SchemaGraph.primaryKey s = some key) {name : String}
    {f : Field σ} (hdef : SchemaGraph.fieldDef? s name = some f) :
    Keyed.get? (Model.moveKey key reservedIdKey d) (f.recordKey false) =
      Keyed.get? d name := by
  have hname := fieldDef?_name hdef
  rw [h.get?_moveKey hk hpk]
  cases hf : f.isPrimaryKey with
  | true =>
    have hkey : name = key := by
      rcases hown.at_top hdef hf with hkey | hres
      · exact hkey
      · rw [hres] at hdef ⊢
        exact Option.some.inj ((hk.primaryKey_of_reserved hdef).symm.trans hpk)
    simp [Field.recordKey, hf, hkey]
  | false =>
    obtain ⟨hmem, hne⟩ := mem_fields_of_fieldDef? hdef hf
    have hrec : f.recordKey false = name := by simp [Field.recordKey, hf, hname]
    rw [if_neg (hk.recordKey_ne hmem hf false), hrec, if_neg]
    rintro rfl
    exact hne hpk

/-- What is below a step from the top stays where it is in the record. -/
theorem Fits.getPath?_below {byAlias : Bool} {d : Document} (h : Fits byAlias s d)
    (hk : WellKeyed byAlias s) (hpk : SchemaGraph.primaryKey s = some key)
    (hnames : Function.Injective (SchemaGraph.name (σ := σ))) {name : String} {g : Field σ}
    (hdef : SchemaGraph.fieldDef? s name = some g) (hkind : g.kind = .embedded t)
    {names : List String} {steps : List Ancestor} {f : Field σ}
    (below : Walk t names steps u f) {path : List String} {leaf : String}
    (hpath : path =
      (⟨name, SchemaGraph.name s⟩ :: steps : List Ancestor).dedup.map Ancestor.name ++ [leaf]) :
    Document.getPath? (Model.moveKey key reservedIdKey d) path = Document.getPath? d path := by
  have hget := h.get?_moveKey hk hpk
  have hne := primaryKey_ne_of_embedded hdef hkind
  by_cases hmem : ⟨name, SchemaGraph.name s⟩ ∈ steps
  · -- the step is driven out by its own repetition, so the walk comes back to the top and to the
    -- primary key there, which must be called like the reserved key: nothing is moved
    obtain ⟨w, _, _, _, howner, _, hreach⟩ := below.suffix_of_mem hmem
    cases hnames howner
    have hkey : key = reservedIdKey :=
      hown.below (.head' ⟨name, g, hdef, hkind⟩ hreach) (fieldDef?_primaryKey hpk) rfl
    have hsame : ∀ k, Keyed.get? (Model.moveKey key reservedIdKey d) k = Keyed.get? d k := by
      intro k
      rw [hget, hkey]
      by_cases hres : k = reservedIdKey <;> simp [hres]
    cases path with
    | nil => rfl
    | cons k rest => exact Document.getPath?_congr (hsame k)
  · rw [hpath, List.dedup_cons_of_notMem hmem]
    refine Document.getPath?_congr ?_
    rw [hget, if_neg, if_neg]
    · rintro rfl
      exact hne hpk
    · rintro rfl
      exact hne (hk.primaryKey_of_reserved hdef)

/-- A path finds in the record what the names of its attributes find in the document. -/
theorem Fits.getPath?_record {byAlias : Bool} {d : Document} (h : Fits byAlias s d)
    (hk : WellKeyed byAlias s) (hpk : SchemaGraph.primaryKey s = some key)
    (hnames : Function.Injective (SchemaGraph.name (σ := σ))) {names : List String}
    {p : FieldPath σ} (hp : FieldPath.resolve s names = .ok p) :
    Document.getPath? (Model.moveKey key reservedIdKey d) p.recordSegments =
      Document.getPath? d p.attributePath := by
  obtain ⟨steps, t, f, hw, rfl⟩ := resolve_eq_ok_iff.mp hp
  cases hw with
  | here hdef =>
    have hget := h.get?_record hown hk hpk hdef
    simpa [FieldPath.recordSegments, FieldPath.attributePath, Document.getPath?_singleton,
      fieldDef?_name hdef] using hget
  | into hdef hkind below =>
    rw [recordSegments_eq_attributePath]
    · exact h.getPath?_below hown hk hpk hnames hdef hkind below rfl
    · intro hf
      rcases hown _ _ hp hf with hone | hres
      · exact absurd (List.cons.inj hone).2 below.ne_nil
      · exact hres

theorem ofStored_toStored_record {D : Type} (m : Model σ D) (hs : m.type.schema = s)
    {d : Document} (h : Fits m.byAlias s d)
    (hk : ∀ t, Relation.ReflTransGen Enters s t → WellKeyed m.byAlias t)
    (hpk : SchemaGraph.primaryKey s = some key) :
    m.ofStored (m.toStored (Model.moveKey key reservedIdKey d)) =
      Model.moveKey key reservedIdKey d := by
  unfold Model.ofStored Model.toStored
  cases hb : m.byAlias with
  | false => rfl
  | true =>
    rw [hb] at h hk
    simp only [if_true, hs]
    exact SchemaGraph.rename_rename (h.respellable_record hown hk hpk)

end OwnKey

/-! ## A document that shows a foreign primary key -/

omit [SchemaGraph σ] in
theorem getPath?_concat (d : Document) (names : List String) (k : String) :
    Document.getPath? d (names ++ [k]) = (Value.document d).follow? (names ++ [k]) := by
  cases names <;> rfl

/-- The number zero at the end of a walk, and nothing beside it, is a document that fits. -/
theorem Fits.of_walk (byAlias : Bool) {names : List String} {steps : List Ancestor} {f : Field σ}
    (walk : Walk s names steps u f) :
    ∃ d, Document.nest names (.int64 0) = .document d ∧ Fits byAlias s d := by
  induction walk with
  | @here s name f hdef =>
    refine ⟨_, rfl, .intro (by simp [Keyed.Nodup, Keyed.keys]) ?_ ?_⟩
    · intro k hk hnone
      simp [Keyed.keys] at hk
      simp [hk, hdef] at hnone
    · intro k inner g t hget
      simp [Document.nest, Keyed.get?] at hget
  | @into s t u name names steps f g hdef hkind below ih =>
    obtain ⟨inner, hinner, hfits⟩ := ih
    refine ⟨_, rfl, .intro (by simp [Keyed.Nodup, Keyed.keys]) ?_ ?_⟩
    · intro k hk hnone
      simp [Keyed.keys] at hk
      simp [hk, hdef] at hnone
    · intro k inner' g' t' hget hdef' hkind'
      simp only [Keyed.get?, Option.ite_none_right_eq_some] at hget
      obtain ⟨rfl, hget⟩ := hget
      rw [hdef] at hdef'
      cases hdef'
      rw [hkind] at hkind'
      cases hkind'
      rw [hinner] at hget
      cases hget
      exact hfits

omit [SchemaGraph σ] in
theorem follow?_nest_of_ne (names : List String) {k l : String} (h : k ≠ l) (v : Value) :
    (Document.nest (names ++ [k]) v).follow? (names ++ [l]) = none := by
  induction names with
  | nil => simp [Document.nest, Value.follow?, Keyed.get?, h]
  | cons j rest ih => simp [Document.nest, Value.follow?, Keyed.get?, ih]

theorem rename_singleton (into : Naming) (s : σ) (e : String × Value) :
    SchemaGraph.rename into s [e] = [SchemaGraph.renameEntry into s e] := by
  simp [SchemaGraph.rename, SchemaGraph.renameEntries_eq_map, Keyed.ofPairs, Keyed.insert]

theorem WellKeyed.respelled_ne {byAlias : Bool} (hk : WellKeyed byAlias s) (into : Naming)
    {k : String} (h : k ≠ reservedIdKey) : SchemaGraph.respelled into s k ≠ reservedIdKey := by
  unfold SchemaGraph.respelled
  cases hren : SchemaGraph.renamed? into s k with
  | none => exact h
  | some f =>
    obtain ⟨hf, hkey, -⟩ := SchemaGraph.renamed?_eq_some hren
    cases into with
    | aliases => exact hk.recordKey_ne hf hkey true
    | attributes =>
      have hne := hk.recordKey_ne hf hkey false
      simpa [Field.recordKey, hkey, Field.spelled] using hne

/-- An entry that comes back under its key is the one it was, or has its value respelled and
spelled back below the attribute of that name. -/
theorem renameEntry_back (hk : WellKeyed true s) {k : String} (v : Value)
    (hsame : SchemaGraph.respelled .attributes s (SchemaGraph.respelled .aliases s k) = k) :
    SchemaGraph.renameEntry .attributes s (SchemaGraph.renameEntry .aliases s (k, v)) = (k, v) ∨
      ∃ f ∈ SchemaGraph.fields s, f.name = k ∧
        SchemaGraph.renameEntry .attributes s (SchemaGraph.renameEntry .aliases s (k, v)) =
          (k, SchemaGraph.renameValue .attributes f.kind
            (SchemaGraph.renameValue .aliases f.kind v)) := by
  cases hren : SchemaGraph.renamed? .aliases s k with
  | some f =>
    obtain ⟨hf, hkey, hname⟩ := SchemaGraph.renamed?_eq_some hren
    have hback : SchemaGraph.renamed? .attributes s (f.spelled .aliases) = some f :=
      SchemaGraph.renamed?_spelled hk.recordKeys hf hkey
    refine .inr ⟨f, hf, hname, ?_⟩
    simp only [SchemaGraph.renameEntry, hren, hback]
    exact congrArg (·, _) hname
  | none =>
    left
    have hback : SchemaGraph.renamed? .attributes s k = none := by
      cases hren' : SchemaGraph.renamed? .attributes s k with
      | none => rfl
      | some g =>
        -- the key is only an alias, and comes back as the attribute's name
        obtain ⟨hg, hkey, -⟩ := SchemaGraph.renamed?_eq_some hren'
        simp only [SchemaGraph.respelled, hren, hren'] at hsame
        exact absurd hsame (SchemaGraph.renamed?_eq_none_iff.mp hren g hg hkey)
    simp [SchemaGraph.renameEntry, hren, hback]

/-- Also through its record by aliases the document has nothing under the reserved key at the end of
the walk. -/
theorem Walk.follow?_renamed {names : List String} {steps : List Ancestor} {f : Field σ}
    (walk : Walk s names steps u f)
    (hk : ∀ t, Relation.ReflTransGen Enters s t → WellKeyed true t)
    (hname : f.name ≠ reservedIdKey) {d : Document}
    (hd : Document.nest names (.int64 0) = .document d) :
    (Value.document (SchemaGraph.rename .attributes s (SchemaGraph.rename .aliases s d))).follow?
      (steps.map Ancestor.name ++ [reservedIdKey]) = none := by
  induction walk generalizing d with
  | @here s name f hdef =>
    cases hd
    have hne : name ≠ reservedIdKey := fieldDef?_name hdef ▸ hname
    have hkey := (hk s .refl).respelled_ne .attributes ((hk s .refl).respelled_ne .aliases hne)
    rw [rename_singleton, rename_singleton]
    simp [Value.follow?, Keyed.get?_singleton, SchemaGraph.renameEntry_fst, hkey]
  | @into s t u name names steps f g hdef hkind below ih =>
    have hedge : Enters s t := ⟨name, g, hdef, hkind⟩
    obtain ⟨inner, hinner, -⟩ := Fits.of_walk true below
    have hd : d = [(name, .document inner)] := by
      rw [← hinner]
      exact (Value.document.inj hd).symm
    rw [hd, rename_singleton, rename_singleton]
    simp only [List.map_cons, List.cons_append, Value.follow?, Keyed.get?_singleton]
    split
    · next hsame =>
      simp only [SchemaGraph.renameEntry_fst] at hsame
      rw [Option.bind_some]
      rcases renameEntry_back (hk s .refl) (.document inner) hsame with h | ⟨g', hg', hname', h⟩
      · rw [h, ← hinner, below.names_eq]
        exact follow?_nest_of_ne _ hname _
      · -- the attribute is the one that the walk goes through
        have hg := fieldDef?_eq_some_of_ne (primaryKey_ne_of_embedded hdef hkind) hdef
        have heq : g' = g := List.inj_on_of_nodup_map (hk s .refl).names hg' hg
          (hname'.trans (fieldDef?_name hdef).symm)
        rw [h, heq, hkind]
        exact ih (fun u hu => hk u (.head hedge hu)) hname hinner
    · rfl

/-! ## Transparency -/

namespace Model

variable {D : Type} (m : Model σ D) {key : String}

/-- Where no path leads to a foreign primary key, queries see what the instances hold. -/
theorem transparent_of_ownKeyOnly (hpk : SchemaGraph.primaryKey m.type.schema = some key)
    (hk : ∀ t, Relation.ReflTransGen Enters m.type.schema t → WellKeyed m.byAlias t)
    (hnames : Function.Injective (SchemaGraph.name (σ := σ)))
    (hown : OwnKeyOnly m.type.schema key) : m.Transparent := by
  intro d mapping hd hfits
  refine ⟨m.toStored (moveKey key reservedIdKey mapping), ?_, ?_⟩
  · simp [toRecord, hd, primaryKey, hpk, bind, Except.bind, pure, Except.pure]
  · intro names p hp
    rw [ofStored_toStored_record hown m rfl hfits hk hpk, Operand.resolve,
      hfits.getPath?_record hown (hk _ .refl) hpk hnames hp]

/-- If there were a path to a foreign primary key there would be one that takes no step twice, and
the document that has nothing but a number at its end would not be seen in its record. -/
theorem ownKeyOnly_of_transparent (hpk : SchemaGraph.primaryKey m.type.schema = some key)
    (hk : ∀ t, Relation.ReflTransGen Enters m.type.schema t → WellKeyed m.byAlias t)
    (hnames : Function.Injective (SchemaGraph.name (σ := σ)))
    (hall : ∀ mapping, Fits m.byAlias m.type.schema mapping →
      ∃ d, m.type.toMapping d = .ok mapping)
    (h : m.Transparent) : OwnKeyOnly m.type.schema key := by
  intro names p hp hflag
  obtain ⟨steps, t, f, hw, rfl⟩ := resolve_eq_ok_iff.mp hp
  by_contra hfalse
  obtain ⟨hone, hname⟩ := not_or.mp hfalse
  obtain ⟨names', steps', hw', hnodup, hiff⟩ := hw.exists_nodup hnames
  have hone' : names' ≠ [key] := by
    intro heq
    have hsteps : steps' = [] := by
      have hlen := congrArg List.length (heq.symm.trans hw'.names_eq)
      simpa using hlen
    rw [hiff.mp hsteps] at hw
    rw [hsteps] at hw'
    exact hone (hw.names_eq.trans (hw'.names_eq.symm.trans heq))
  obtain ⟨mapping, hnest, hfits⟩ := Fits.of_walk m.byAlias hw'
  obtain ⟨d, hd⟩ := hall mapping hfits
  obtain ⟨record, hrecord, hview⟩ := h d mapping hd hfits
  have hmove : moveKey key reservedIdKey mapping = mapping := by
    have hhead := hw'.head?_ne hpk hone'
    cases names' with
    | nil => exact absurd rfl hw'.ne_nil
    | cons k rest =>
      cases hnest
      have hk : k ≠ key := by simpa using hhead
      simp [moveKey, Keyed.get?_singleton, hk]
  have hstored : record = m.toStored mapping := by
    simpa [toRecord, hd, primaryKey, hpk, hmove, bind, Except.bind, pure, Except.pure, eq_comm]
      using hrecord
  -- the path reads nothing in the record, and zero in the document
  have hseen := hview names' _ (resolve_eq_ok_iff.mpr ⟨steps', t, f, hw', rfl⟩)
  have hnone : (Value.document (m.ofStored (m.toStored mapping))).follow?
      (steps'.map Ancestor.name ++ [reservedIdKey]) = none := by
    unfold ofStored toStored
    cases hb : m.byAlias with
    | true =>
      rw [hb] at hk
      exact hw'.follow?_renamed hk hname hnest
    | false =>
      simp only [Bool.false_eq_true, if_false]
      rw [← hnest, hw'.names_eq]
      exact follow?_nest_of_ne _ hname _
  have hzero : (Value.document mapping).follow? (steps'.map Ancestor.name ++ [f.name]) =
      some (.int64 0) := by
    rw [← hnest, ← hw'.names_eq]
    exact Document.follow?_nest names' _
  rw [hstored, Operand.resolve, FieldPath.recordSegments, FieldPath.attributePath,
    List.dedup_eq_self.mpr hnodup, getPath?_concat, getPath?_concat, hzero] at hseen
  simp only [Field.recordKey, show f.isPrimaryKey = true from hflag, if_true, hnone] at hseen
  cases hseen

/-- Queries see what the instances hold where no path leads to a foreign primary key, and only there
as long as every document that fits is an instance's. -/
theorem transparent_iff (hpk : SchemaGraph.primaryKey m.type.schema = some key)
    (hk : ∀ t, Relation.ReflTransGen Enters m.type.schema t → WellKeyed m.byAlias t)
    (hnames : Function.Injective (SchemaGraph.name (σ := σ))) :
    (OwnKeyOnly m.type.schema key → m.Transparent) ∧
      ((∀ mapping, Fits m.byAlias m.type.schema mapping →
        ∃ d, m.type.toMapping d = .ok mapping) → m.Transparent → OwnKeyOnly m.type.schema key) :=
  ⟨m.transparent_of_ownKeyOnly hpk hk hnames, m.ownKeyOnly_of_transparent hpk hk hnames⟩

end Model

/-! ## Anti-vacuity: a type that is seen as it is, and a key that is not -/

/-- Accounts with a profile inside, and departments with an employee, who has a key of their own. -/
inductive OfficeSchema where
  | account
  | profile
  | department
  | employee

instance : SchemaGraph OfficeSchema where
  schema
    | .account =>
      { name := "Account", primaryKey := some "id"
        declared := [⟨"name", .string, some "fullName", false⟩,
          ⟨"profile", .embedded .profile, some "about", false⟩] }
    | .profile => { name := "Profile", declared := [⟨"money", .float, some "name", false⟩] }
    | .department =>
      { name := "Department", primaryKey := some "id"
        declared := [⟨"name", .string, none, false⟩,
          ⟨"head", .embedded .employee, some "boss", false⟩] }
    | .employee =>
      { name := "Employee", primaryKey := some "eid"
        declared := [⟨"name", .string, some "n", false⟩] }
  all := [.account, .profile, .department, .employee]
  mem_all := by rintro ⟨⟩ <;> simp

theorem office_wellKeyed (byAlias : Bool) (s : OfficeSchema) : WellKeyed byAlias s := by
  cases byAlias <;> cases s <;> constructor <;> decide

/-- Accounts that are stored by alias. -/
def accounts : Model OfficeSchema Value :=
  { type := .freeForm .account, name := "accounts", byAlias := true }

/-- Departments that are stored as they come. -/
def departments : Model OfficeSchema Value :=
  { type := .freeForm .department, name := "departments", byAlias := false }

theorem account_ownKeyOnly : OwnKeyOnly OfficeSchema.account "id" := by
  have htop : ∀ f ∈ SchemaGraph.fields OfficeSchema.account,
      (f.isPrimaryKey = true → f.name = "id") ∧
        ∀ t, f.kind = .embedded t → t = OfficeSchema.profile := by
    intro f hf
    simp [SchemaGraph.fields, SchemaGraph.schema, SchemaGraph.primaryKey] at hf
    rcases hf with rfl | rfl | rfl <;> simp [Field.primaryKey]
  have hbelow : ∀ f ∈ SchemaGraph.fields OfficeSchema.profile,
      f.isPrimaryKey = false ∧ ∀ t, f.kind ≠ .embedded t := by
    intro f hf
    simp [SchemaGraph.fields, SchemaGraph.schema, SchemaGraph.primaryKey] at hf
    simp [hf]
  intro names p hp hflag
  obtain ⟨steps, t, f, hw, rfl⟩ := resolve_eq_ok_iff.mp hp
  cases hw with
  | @here _ name _ hdef =>
    left
    by_cases hpk : SchemaGraph.primaryKey OfficeSchema.account = some name
    · cases hpk
      rfl
    · rw [← (htop f (fieldDef?_eq_some_of_ne hpk hdef)).1 hflag, fieldDef?_name hdef]
  | into hdef hkind below =>
    have hne := primaryKey_ne_of_embedded hdef hkind
    cases (htop _ (fieldDef?_eq_some_of_ne hne hdef)).2 _ hkind
    cases below with
    | here hdef' =>
      have hplain := (hbelow _ (fieldDef?_eq_some_of_ne (by simp [SchemaGraph.primaryKey,
        SchemaGraph.schema]) hdef')).1
      rw [show f.isPrimaryKey = true from hflag] at hplain
      cases hplain
    | into hdef' hkind' =>
      have hne' := primaryKey_ne_of_embedded hdef' hkind'
      exact absurd hkind' ((hbelow _ (fieldDef?_eq_some_of_ne hne' hdef')).2 _)

/-- Queries on accounts see what the accounts hold, and as every document is an account's this
says that no path from an account leads to a foreign primary key. -/
theorem accounts_transparent :
    accounts.Transparent ∧ OwnKeyOnly accounts.type.schema "id" := by
  have hkey : SchemaGraph.primaryKey accounts.type.schema = some "id" := rfl
  have hnames : Function.Injective (SchemaGraph.name (σ := OfficeSchema)) := by
    intro s t h
    cases s <;> cases t <;> simp_all [SchemaGraph.name, SchemaGraph.schema]
  obtain ⟨hforth, hback⟩ :=
    accounts.transparent_iff hkey (fun s _ => office_wellKeyed true s) hnames
  have hseen := hforth account_ownKeyOnly
  exact ⟨hseen, hback (fun mapping _ => ⟨.document mapping, rfl⟩) hseen⟩

/-- A department whose head is employee number three. -/
def staffed : Document := [("id", .int64 1), ("head", .document [("eid", .int64 3)])]

/-- The number of a department's head is in the record, but the path to it reads null there. -/
theorem resolve_head_eid :
    (∀ s : OfficeSchema, WellKeyed departments.byAlias s) ∧
      Fits departments.byAlias departments.type.schema staffed ∧
      departments.type.toMapping (.document staffed) = .ok staffed ∧
      ∃ record p, departments.toRecord (.document staffed) = .ok record ∧
        FieldPath.resolve departments.type.schema ["head", "eid"] = .ok p ∧
        (Operand.field p).resolve (departments.ofStored record) = .null ∧
        Document.getPath? staffed p.attributePath = some (.int64 3) := by
  refine ⟨office_wellKeyed _, .intro ?_ ?_ ?_, rfl, _, _, rfl, rfl, rfl, rfl⟩
  · simp [Keyed.Nodup, Keyed.keys, staffed]
  · intro k hk hnone
    simp [staffed, Keyed.keys] at hk
    rcases hk with rfl | rfl <;> cases hnone
  · intro k inner f t hget hdef hkind
    have hk : k = "head" ∧ inner = [("eid", .int64 3)] := by
      simp only [staffed, Keyed.get?_cons, Keyed.get?_nil] at hget
      split at hget
      · cases hget
      · split at hget
        · next hk =>
          cases hget
          exact ⟨hk.symm, rfl⟩
        · cases hget
    obtain ⟨rfl, rfl⟩ := hk
    cases hdef
    cases hkind
    refine .intro (by simp [Keyed.Nodup, Keyed.keys]) ?_ ?_
    · intro k hk hnone
      simp [Keyed.keys] at hk
      rw [hk] at hnone
      cases hnone
    · intro k inner f t hget
      simp [Keyed.get?] at hget

end TypedStore
