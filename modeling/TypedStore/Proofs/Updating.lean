import TypedStore.Proofs.Fits
import TypedStore.Proofs.Import
import TypedStore.Proofs.Merging
import TypedStore.Proofs.Renaming
import TypedStore.Proofs.Upserting

/-!
What an update does to the other records.

An update writes the new document under the identifier that this document has. So it leaves every
record but the instance's own alone when the identifier is still that of the instance, or when
nothing else is stored under the new one, and it overwrites another record otherwise
(`update_untouched_iff`). Assignments, overrides and defaults that stay away from the primary key
keep the identifier (`id_edited`, `id_merged`). Two updates that do not are in
`update_overwrites_other`.
-/

namespace TypedStore

/-- Nothing is different under any identifier but this one. -/
def Contents.UntouchedBut (id : RecordId) (before after : Contents) : Prop :=
  ∀ k, k ≠ id → Keyed.get? after.records k = Keyed.get? before.records k

theorem Contents.untouchedBut_self (id : RecordId) (c : Contents) : c.UntouchedBut id c :=
  fun _ _ => rfl

theorem Contents.untouchedBut_update_iff (c : Contents) (id k : RecordId) (record : Document) :
    c.UntouchedBut id (c.update k record).2 ↔
      k = id ∨ ∀ stored, Keyed.get? c.records k = some stored → stored = stamped k record := by
  constructor
  · intro h
    by_cases hk : k = id
    · exact .inl hk
    · refine .inr fun stored hstored => ?_
      have hsame := h k hk
      rw [get?_update, if_pos ⟨rfl, by simp [Keyed.contains, hstored]⟩, hstored] at hsame
      exact (Option.some.inj hsame).symm
  · rintro (rfl | hsame) j hj
    · rw [get?_update, if_neg fun h => hj h.1.symm]
    · rw [get?_update]
      split
      · next h =>
        obtain ⟨rfl, hmem⟩ := h
        obtain ⟨stored, hstored⟩ := Option.isSome_iff_exists.mp hmem
        rw [hstored, hsame stored hstored]
      · rfl

/-- Identifiers are read off the primary key of the document, and from an integer there as it is. -/
def DocumentType.ReadsKey {σ D : Type} [SchemaGraph σ] (type : DocumentType σ D) (key : String) :
    Prop :=
  ∃ read : Option Value → RecordId, (∀ n, read (some (.int64 n)) = n) ∧
    ∀ mapping d, type.toMapping d = .ok mapping ∨ type.fromMapping mapping = .ok d →
      type.id d = read (Keyed.get? mapping key)

/-- The instances that are all documents have their identifiers so. -/
theorem DocumentType.freeForm_readsKey {σ : Type} [SchemaGraph σ] {s : σ} {key : String}
    (h : SchemaGraph.primaryKey s = some key) : (freeForm s).ReadsKey key := by
  refine ⟨fun v => (v.bind Value.integer?).getD 0, fun n => rfl, ?_⟩
  rintro mapping d (hd | hd)
  · cases d with
    | document entries =>
      cases hd
      show idOf s _ = _
      simp [idOf, h]
    | _ => cases hd
  · have hdoc : Value.document (Value.capEntries mapping) = d := Except.ok.inj hd
    rw [← hdoc]
    show idOf s _ = _
    simp only [idOf, h, Value.get?_capEntries]
    cases Keyed.get? mapping key with
    | none => rfl
    | some v => cases v <;> rfl

namespace Model

variable {σ D : Type} [SchemaGraph σ] (m : Model σ D)

/-- Putting the instance under its identifier leaves all records but one alone: it is the one with
that identifier, or no other record there would change. -/
def Spares (c : Contents) (id : RecordId) (d : D) : Prop :=
  m.type.id d = id ∨ ∀ stored record, Keyed.get? c.records (m.type.id d) = some stored →
    m.toRecord d = .ok record → stored = Contents.stamped (m.type.id d) record

theorem untouchedBut_iff_spares (c : Contents) (id : RecordId) {d : D} {record : Document}
    (h : m.toRecord d = .ok record) :
    c.UntouchedBut id (c.update (m.type.id d) record).2 ↔ m.Spares c id d := by
  rw [c.untouchedBut_update_iff]
  refine or_congr_right ⟨fun hsame stored record' hstored hrecord => ?_,
    fun hsame stored hstored => hsame stored record hstored h⟩
  rw [h] at hrecord
  cases hrecord
  exact hsame stored hstored

/-! ## What keeps the identifier -/

omit [SchemaGraph σ] in
theorem get?_assignAll {k : String} {assignments : List (FieldPath σ × Value)}
    (hkey : ∀ a ∈ assignments, a.1.attributePath.head? ≠ some k) {mapping assigned : Document}
    (h : assignAll mapping assignments = .ok assigned) :
    Keyed.get? assigned k = Keyed.get? mapping k := by
  induction assignments generalizing mapping with
  | nil =>
    cases h
    rfl
  | cons a rest ih =>
    obtain ⟨path, v⟩ := a
    simp only [assignAll] at h
    split at h
    · next written hwritten =>
      have hset := Document.get?_setPath mapping (hkey _ (List.mem_cons_self ..)) v
      rw [hwritten] at hset
      rw [ih (fun a ha => hkey a (List.mem_cons_of_mem _ ha)) h]
      exact hset
    · cases h

theorem get?_overrideAll {k : String} {overrides : Document} (hkey : k ∉ Keyed.keys overrides)
    {mapping overridden : Document} (h : m.overrideAll mapping overrides = .ok overridden) :
    Keyed.get? overridden k = Keyed.get? mapping k := by
  induction overrides generalizing mapping with
  | nil =>
    cases h
    rfl
  | cons e rest ih =>
    obtain ⟨j, v⟩ := e
    simp only [Keyed.keys, List.map_cons, List.mem_cons, not_or] at hkey
    simp only [overrideAll] at h
    split at h
    · rw [ih hkey.2 h, Keyed.get?_insert, if_neg (Ne.symm hkey.1)]
    · cases h

theorem get?_edited {k : String} {assignments : List (FieldPath σ × Value)}
    {overrides mapping edited : Document} {d : D}
    (hassign : ∀ a ∈ assignments, a.1.attributePath.head? ≠ some k)
    (hoverride : k ∉ Keyed.keys overrides) (hmapping : m.type.toMapping d = .ok mapping)
    (h : m.edited assignments overrides d = .ok edited) :
    Keyed.get? edited k = Keyed.get? mapping k := by
  cases ha : assignAll mapping assignments with
  | error e =>
    simp only [Model.edited, hmapping, ha, bind, Except.bind] at h
    cases h
  | ok assigned =>
    simp only [Model.edited, hmapping, ha, bind, Except.bind] at h
    rw [m.get?_overrideAll hoverride h, get?_assignAll hassign ha]

/-- Changes to other attributes keep the identifier. -/
theorem id_edited {assignments : List (FieldPath σ × Value)} {overrides edited : Document}
    {d d' : D} (hreads : m.type.ReadsKey m.primaryKey)
    (hassign : ∀ a ∈ assignments, a.1.attributePath.head? ≠ some m.primaryKey)
    (hoverride : m.primaryKey ∉ Keyed.keys overrides)
    (h : m.edited assignments overrides d = .ok edited)
    (hread : m.type.fromMapping edited = .ok d') : m.type.id d' = m.type.id d := by
  obtain ⟨read, -, hid⟩ := hreads
  cases hmapping : m.type.toMapping d with
  | error e =>
    simp only [Model.edited, hmapping, bind, Except.bind] at h
    cases h
  | ok mapping =>
    rw [hid edited d' (.inr hread), hid mapping d (.inl hmapping),
      m.get?_edited hassign hoverride hmapping h]

/-- No attribute of the schema gets in the way of the reserved key in its records. -/
def ReservedFree (s : σ) : Prop :=
  SchemaGraph.renamed? .attributes s reservedIdKey = none ∧
    ∀ f ∈ SchemaGraph.fields s, f.isPrimaryKey = false → f.name ≠ reservedIdKey

theorem get?_ofStored_reserved {record : Document} (hrecord : Keyed.Nodup record)
    (hfree : m.byAlias = true → ReservedFree m.type.schema) :
    Keyed.get? (m.ofStored record) reservedIdKey = Keyed.get? record reservedIdKey := by
  unfold ofStored
  split
  · next halias =>
    obtain ⟨hkept, hnames⟩ := hfree halias
    exact SchemaGraph.get?_rename_of_kept hrecord hkept hnames
  · rfl

/-- A stored record is read with the identifier that it is kept under, and defaults for other
attributes keep that. -/
theorem id_merged {c : Contents} (hc : c.Sound) {k : RecordId} {record mapping defaults : Document}
    {found d : D} (hmem : (k, record) ∈ c.records) (hnodup : Keyed.Nodup record)
    (hfree : m.byAlias = true → ReservedFree m.type.schema)
    (hreads : m.type.ReadsKey m.primaryKey)
    (hdefaults : ∀ key ∈ Keyed.keys defaults, (Dotted.split key).head? ≠ some m.primaryKey)
    (hfound : m.fromRecord record = .ok found) (hmapping : m.type.toMapping found = .ok mapping)
    (hread : m.type.fromMapping (Document.merge mapping (Document.expandAll defaults)) = .ok d) :
    m.type.id d = k := by
  obtain ⟨read, hinteger, hid⟩ := hreads
  have hstamp := hc.stamped k record (Keyed.get?_of_mem hc.nodup hmem)
  rw [← m.get?_ofStored_reserved hnodup hfree] at hstamp
  calc m.type.id d
    _ = read (Keyed.get? mapping m.primaryKey) := by
      rw [hid _ d (.inr hread), Document.get?_merge_expandAll mapping hdefaults]
    _ = m.type.id found := (hid mapping found (.inl hmapping)).symm
    _ = read (some (.int64 k)) := by
      rw [hid _ found (.inr hfound), get?_moveKey_target hstamp]
    _ = k := hinteger k

/-! ## The other records -/

theorem update_cases {name : String} {c : Contents} {assignments : List (FieldPath σ × Value)}
    {overrides : Document} {d d' : D} {answer : Except Error Bool} {t : Target}
    (h : m.update assignments overrides (d, .holding name c) = (answer, d', t)) :
    (∃ e, answer = .error e ∧ d' = d ∧ t = .holding name c) ∨
    ∃ edited record, m.edited assignments overrides d = .ok edited ∧
      m.type.fromMapping edited = .ok d' ∧ m.toRecord d' = .ok record ∧
      answer = .ok (c.update (m.type.id d') record).1 ∧
      t = .holding name (c.update (m.type.id d') record).2 := by
  rw [update_run] at h
  split at h
  · next edited hedited =>
    rcases m.persist_cases h with hfail | ⟨record, hread, hrecord, hanswer, ht⟩
    · exact .inl hfail
    · exact .inr ⟨edited, record, hedited, hread, hrecord, hanswer, ht⟩
  · cases h
    exact .inl ⟨_, rfl, rfl, rfl⟩

/-- An update leaves all records but the instance's own alone exactly when the instance comes out
with the identifier it had, or with one whose record stays what it is. Changes that stay away from
the primary key keep the identifier. The same goes for an upsert that finds a match, which gives
the identifier of the match to the instance it answers with when the defaults stay away from the
primary key. -/
theorem update_untouched_iff {c : Collection} (hc : c.Reachable) {before : Contents}
    (hbefore : c.contents = some before) :
    (∀ assignments overrides d answer d' t,
      m.update assignments overrides (d, some c) = (answer, d', t) →
      ∃ after, t = .holding c.name after ∧
        Keyed.keys after.records = Keyed.keys before.records ∧
        (before.UntouchedBut (m.type.id d) after ↔ m.Spares before (m.type.id d) d') ∧
        (m.type.ReadsKey m.primaryKey →
          (∀ a ∈ assignments, a.1.attributePath.head? ≠ some m.primaryKey) →
          m.primaryKey ∉ Keyed.keys overrides → m.type.id d' = m.type.id d)) ∧
    ∀ filters defaults k record answer t, m.firstMatch? filters before = some (k, record) →
      m.updateOrCreate filters defaults (some c) = (answer, t) →
      ∃ after, t = .holding c.name after ∧
        Keyed.keys after.records = Keyed.keys before.records ∧
        (before.UntouchedBut k after ↔ ∀ d, answer = .ok d → m.Spares before k d) ∧
        (m.type.ReadsKey m.primaryKey → (m.byAlias = true → ReservedFree m.type.schema) →
          Keyed.Nodup record →
          (∀ key ∈ Keyed.keys defaults, (Dotted.split key).head? ≠ some m.primaryKey) →
          ∀ d, answer = .ok d → m.type.id d = k) := by
  have hsound := hc.sound hbefore
  obtain ⟨name, contents⟩ := c
  cases hbefore
  constructor
  · intro assignments overrides d answer d' t h
    rcases m.update_cases h with ⟨e, rfl, rfl, rfl⟩ |
      ⟨edited, record, hedited, hread, hrecord, rfl, rfl⟩
    · -- an update that fails changes neither the instance nor the records
      exact ⟨before, rfl, rfl, ⟨fun _ => .inl rfl, fun _ => before.untouchedBut_self _⟩,
        fun _ _ _ => rfl⟩
    · refine ⟨_, rfl, before.keys_update .., m.untouchedBut_iff_spares before _ hrecord, ?_⟩
      intro hreads hassign hoverride
      exact m.id_edited hreads hassign hoverride hedited hread
  · intro filters defaults k record answer t hmatch h
    rcases m.updateOrCreate_cases hmatch h with ⟨e, rfl, rfl⟩ |
      ⟨found, mapping, d, record', -, hfound, hmapping, hread, hrecord', rfl, rfl⟩
    · refine ⟨before, rfl, rfl, ⟨fun _ d hd => ?_, fun _ => before.untouchedBut_self _⟩,
        fun _ _ _ _ d hd => ?_⟩
      · cases hd
      · cases hd
    · refine ⟨_, rfl, before.keys_update .., ?_, ?_⟩
      · rw [m.untouchedBut_iff_spares before k hrecord']
        refine ⟨fun h d hd => ?_, fun h => h d rfl⟩
        cases hd
        exact h
      · intro hreads hfree hnodup hdefaults d hd
        cases hd
        exact m.id_merged hsound (m.mem_of_firstMatch? hmatch) hnodup hfree hreads hdefaults
          hfound hmapping hread

end Model

/-! ## Anti-vacuity: updates that keep to their record, and two that overwrite another one -/

/-- A collection with user zero, called a, and user one, called b. -/
def twoUsers : Collection :=
  (Collection.Call.store [("name", .string "b")]).apply
    ((Collection.Call.store [("name", .string "a")]).apply noUsers)

theorem twoUsers_reachable : twoUsers.Reachable :=
  ⟨_, by decide, .call (.store _) (.call (.store _) (.new _))⟩

/-- The name of a user. -/
def namePath : FieldPath UserSchema := { field := ⟨"name", .string, none, false⟩, owner := "User" }

/-- Being called a. -/
def calledA : Expression UserSchema := ⟨.field namePath, .eq, .value (.string "a")⟩

/-- A user as it is read back. -/
def storedUser (name : String) (id : Int64) : Value :=
  .document [("name", .string name), ("id", .int64 id)]

theorem users_readsKey : users.type.ReadsKey users.primaryKey :=
  DocumentType.freeForm_readsKey rfl

/-- User zero is renamed, by an update and by an upsert, and user one stays what it is. -/
theorem update_renames_one :
    (∃ d' t after, users.update [(namePath, .string "c")] [] (user 0 "a", some twoUsers) =
        (.ok true, d', t) ∧ d' = user 0 "c" ∧ t = .holding "users" after ∧
        (twoUsers.contents.getD {}).UntouchedBut 0 after) ∧
      ∃ d t after, users.updateOrCreate [calledA] [("name", .string "c")] (some twoUsers) =
        (.ok d, t) ∧ d = storedUser "c" 0 ∧
        t = .holding "users" after ∧ (twoUsers.contents.getD {}).UntouchedBut 0 after := by
  obtain ⟨hupdate, hupsert⟩ := users.update_untouched_iff twoUsers_reachable rfl
  constructor
  · obtain ⟨d', t, hrun, hd⟩ : ∃ d' t,
        users.update [(namePath, .string "c")] [] (user 0 "a", some twoUsers) =
          (.ok true, d', t) ∧ d' = user 0 "c" := ⟨_, _, rfl, rfl⟩
    obtain ⟨after, ht, -, hiff, hkeeps⟩ := hupdate _ _ _ _ d' t hrun
    have hid := hkeeps users_readsKey (by decide) (by decide)
    exact ⟨d', t, after, hrun, hd, ht, hiff.mpr (.inl hid)⟩
  · obtain ⟨d, t, hrun, hd⟩ : ∃ d t,
        users.updateOrCreate [calledA] [("name", .string "c")] (some twoUsers) = (.ok d, t) ∧
          d = storedUser "c" 0 := ⟨_, _, rfl, rfl⟩
    obtain ⟨after, ht, -, hiff, hkeeps⟩ := hupsert _ _ 0 _ _ t rfl hrun
    have hid := hkeeps users_readsKey (fun h => nomatch h) (by unfold Keyed.Nodup; decide)
      (by decide)
    exact ⟨d, t, after, hrun, hd, ht, hiff.mpr fun d' hd' => .inl (hid d' hd')⟩

/-- With one for the identifier among the overrides, an update of user zero writes over user one;
so does an upsert that matches user zero, with one among the defaults. -/
theorem update_overwrites_other :
    twoUsers.Reachable ∧
      users.getById 1 (some twoUsers) = .ok (some (storedUser "b" 1)) ∧
      (∃ t, users.update [] [("id", .int64 1)] (user 0 "a", some twoUsers) =
          (.ok true, user 1 "a", t) ∧
        users.getById 1 t = .ok (some (storedUser "a" 1))) ∧
      ∃ t, users.updateOrCreate [calledA] [("id", .int64 1)] (some twoUsers) =
          (.ok (storedUser "a" 1), t) ∧
        users.getById 1 t = .ok (some (storedUser "a" 1)) :=
  ⟨twoUsers_reachable, rfl, ⟨_, rfl, rfl⟩, ⟨_, rfl, rfl⟩⟩

end TypedStore
