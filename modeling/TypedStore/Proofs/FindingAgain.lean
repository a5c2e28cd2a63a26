import TypedStore.Proofs.Pinning
import TypedStore.Proofs.ReadingBack

/-!
Whether an instance that had to be made is found when it is asked for again.

Under a condition that no record meets (`Model.Unmet`) the first upsert makes an instance. Asked
again it answers with that instance exactly when the new record meets the condition and is read back
as the instance (`getOrCreate_again_iff`). Where the new record does not meet it, there is still
nothing to find, and every further upsert adds one more record (`Unmet.adds_again`).

Identifiers are the store's to give, whatever a condition asks for. So an instance that is asked for
by an identifier comes out with the next one, and it is found again only if that is the one asked
for (`getOrCreate_key_iff`). In `getOrCreate_key_doubles` it is not.
-/

namespace TypedStore

/-- After a record was added there is still nothing under the next identifier. -/
theorem Contents.Sound.nextId_store_notMem {c : Contents} (hc : c.Sound) (record : Document) :
    (c.store record).2.nextId ∉ Keyed.keys (c.store record).2.records := by
  have hnext : (c.store record).2.nextId = c.nextId + 1 := rfl
  rw [hc.keys_store, hnext, List.mem_append, List.mem_singleton]
  rintro (hmem | hself)
  · obtain ⟨h0, hlt⟩ := hc.given _ hmem
    exact succ_ne_of_le h0 (Int64.le_of_lt hlt) rfl
  · exact succ_ne_of_le hc.counter (Int64.le_refl _) hself

/-- An instance that can be written takes the identifier it is given. -/
def DocumentType.TakesId {σ D : Type} [SchemaGraph σ] (type : DocumentType σ D) : Prop :=
  ∀ d mapping id, type.toMapping d = .ok mapping → type.id (type.setId d id) = id

namespace Model

variable {σ D : Type} [SchemaGraph σ] (m : Model σ D)

/-! ## One condition -/

theorem selects_singleton (e : Expression σ) (record : Document) :
    m.selects [e] record = e.satisfiedBy (m.ofStored record) := by
  have hjoined := Expression.satisfiedBy_joined_iff e [] (m.ofStored record)
  rw [Bool.eq_iff_iff, selects, Bool.and_eq_true, bne_iff_ne, satisfiesAll, commonBits,
    List.all_eq_true]
  exact hjoined.symm

/-- No record meets the condition. -/
def Unmet (e : Expression σ) (c : Contents) : Prop :=
  ∀ entry ∈ c.records, e.satisfiedBy (m.ofStored entry.2) = false

variable {m} {e : Expression σ} {name : String} {c : Contents} {defaults : Document} {d : D}
  {t : Target}

theorem firstMatch?_singleton :
    m.firstMatch? [e] c = c.records.find? fun entry => e.satisfiedBy (m.ofStored entry.2) := by
  simp only [firstMatch?, selects_singleton]
  rfl

theorem Unmet.firstMatch? (h : m.Unmet e c) : m.firstMatch? [e] c = none := by
  rw [firstMatch?_singleton, List.find?_eq_none]
  intro entry hentry
  simp [h entry hentry]

/-- What is asked for in vain is made. -/
theorem Unmet.made (h : m.Unmet e c)
    (hrun : m.getOrCreate [e] defaults (.holding name c) = (.ok d, t)) :
    m.checkKeys defaults = .ok () ∧
      m.create [e] defaults (.holding name c) = (.ok d, t) :=
  m.getOrCreate_none h.firstMatch? hrun

/-- So there is one more record. -/
theorem Unmet.adds (h : m.Unmet e c) (hnext : c.nextId ∉ Keyed.keys c.records)
    (hrun : m.getOrCreate [e] defaults (.holding name c) = (.ok d, t)) :
    ∃ after, t = .holding name after ∧ after.records.length = c.records.length + 1 := by
  obtain ⟨-, record, -, -, -, ht⟩ := m.create_cases (h.made hrun).2
  refine ⟨_, ht, ?_⟩
  rw [Contents.records_store hnext, List.length_append, List.length_singleton]

/-- A new record that does not meet the condition either leaves nothing to find. -/
theorem Unmet.store (h : m.Unmet e c) (hnext : c.nextId ∉ Keyed.keys c.records)
    {record : Document}
    (hnew : e.satisfiedBy (m.ofStored (Contents.stamped c.nextId record)) = false) :
    m.Unmet e (c.store record).2 := by
  intro entry hentry
  rw [Contents.records_store hnext, List.mem_append, List.mem_singleton] at hentry
  rcases hentry with hold | rfl
  · exact h entry hold
  · exact hnew

/-- So a further upsert adds another one. -/
theorem Unmet.adds_again (hc : c.Sound) (h : m.Unmet e c) {record : Document}
    (hnew : e.satisfiedBy (m.ofStored (Contents.stamped c.nextId record)) = false)
    (hrun : m.getOrCreate [e] defaults (.holding name (c.store record).2) = (.ok d, t)) :
    ∃ after, t = .holding name after ∧ after.records.length = c.records.length + 2 := by
  have hstill := h.store hc.nextId_notMem hnew
  obtain ⟨after, ht, hlength⟩ := hstill.adds (hc.nextId_store_notMem record) hrun
  exact ⟨after, ht, by rw [hlength, hc.length_store]⟩

/-- A new record that is the only one to meet the condition is what is found. -/
theorem Unmet.findOne_store (h : m.Unmet e c) (hnext : c.nextId ∉ Keyed.keys c.records)
    {record : Document}
    (hnew : e.satisfiedBy (m.ofStored (Contents.stamped c.nextId record)) = true) :
    m.findOne [e] (.holding name (c.store record).2) =
      some <$> m.fromRecord (Contents.stamped c.nextId record) := by
  have hfound : ((c.store record).2.records.filter fun entry => m.selects [e] entry.2) =
      [(c.nextId, Contents.stamped c.nextId record)] := by
    rw [Contents.records_store hnext, List.filter_append, List.filter_eq_nil_iff.mpr]
    · simp [selects_singleton, hnew]
    · intro entry hentry
      simp [selects_singleton, h entry hentry]
  rw [findOne, if_neg (by simp), m.findAll_holding (by simp), hfound, List.mapM_cons, List.mapM_nil]
  cases m.fromRecord (Contents.stamped c.nextId record) <;> rfl

/-- An upsert under a condition that nothing met before a record was added answers with an instance
and changes nothing, exactly when this record meets the condition and reads as the instance. -/
theorem getOrCreate_again_iff (hc : c.Sound) (h : m.Unmet e c)
    (hkeys : m.checkKeys defaults = .ok ()) (record : Document) :
    m.getOrCreate [e] defaults (.holding name (c.store record).2) =
        (.ok d, .holding name (c.store record).2) ↔
      e.satisfiedBy (m.ofStored (Contents.stamped c.nextId record)) = true ∧
        m.fromRecord (Contents.stamped c.nextId record) = .ok d := by
  cases hnew : e.satisfiedBy (m.ofStored (Contents.stamped c.nextId record)) with
  | true =>
    rw [getOrCreate_run, hkeys, h.findOne_store hc.nextId_notMem hnew]
    cases m.fromRecord (Contents.stamped c.nextId record) <;> simp [Functor.map, Except.map]
  | false =>
    refine ⟨fun hrun => ?_, nofun⟩
    -- it would have made yet another record
    obtain ⟨after, hsame, hlength⟩ := h.adds_again hc hnew hrun
    cases hsame
    rw [hc.length_store] at hlength
    omega

/-! ## By the identifier -/

/-- Whatever the primary key is called, it is under the reserved key in records. -/
theorem recordSegments_primaryKey {p : FieldPath σ} (h : m.field m.primaryKey = .ok p) :
    p.recordSegments = [reservedIdKey] := by
  unfold field FieldPath.ofField at h
  split at h
  · next f hf =>
    cases h
    cases hkey : SchemaGraph.primaryKey m.type.schema with
    | some key =>
      have hname : m.primaryKey = key := by rw [primaryKey, hkey, Option.getD_some]
      rw [hname, fieldDef?_primaryKey hkey] at hf
      cases hf
      rfl
    | none =>
      have hname : f.name = reservedIdKey := by
        rw [fieldDef?_name hf, primaryKey, hkey, Option.getD_none]
      simp [FieldPath.recordSegments, Field.recordKey, hname]
  · cases h

/-- Asking for an identifier is asking for the record that has it. -/
theorem satisfiedBy_pin_key {p : FieldPath σ} (hp : m.field m.primaryKey = .ok p) {v : Value}
    {k id : RecordId} (hv : v.integer? = some k) {record : Document}
    (hid : Keyed.get? record reservedIdKey = some (.int64 id)) :
    (Expression.pin (p, v)).satisfiedBy record = true ↔ id = k := by
  have hread : (Document.getPath? record p.recordSegments).getD .null = .int64 id := by
    rw [recordSegments_primaryKey hp]
    show ((Keyed.get? record reservedIdKey).bind some).getD .null = _
    rw [hid]
    rfl
  have hequal : (Value.int64 id).equal v = (id == k) := by
    cases v <;> cases hv <;> rfl
  show ((Document.getPath? record p.recordSegments).getD .null).equal v = true ↔ _
  rw [hread, hequal, beq_iff_eq]

/-- A record that was made is stored under attribute names with its identifier. -/
theorem get?_ofStored_made {made : D} {record : Document} (h : m.toRecord made = .ok record)
    (hfree : m.byAlias = true → ReservedFree m.type.schema) (id : RecordId) :
    Keyed.get? (m.ofStored (Contents.stamped id record)) reservedIdKey = some (.int64 id) := by
  have hstamp : Keyed.get? (Contents.stamped id record) reservedIdKey = some (.int64 id) :=
    Keyed.get?_insert_self ..
  obtain ⟨mapping, -, rfl⟩ := toRecord_eq_ok h
  cases halias : m.byAlias with
  | false => rwa [ofStored, halias]
  | true =>
    -- a record that is stored by alias was put together key by key
    have hnodup : Keyed.Nodup (m.toStored (moveKey m.primaryKey reservedIdKey mapping)) := by
      rw [toStored, halias]
      exact Keyed.nodup_ofPairs _
    have hstamped := Keyed.nodup_insert hnodup reservedIdKey (.int64 id)
    exact (m.get?_ofStored_reserved hstamped hfree).trans hstamp

/-- A record that was just added is what is read under its identifier. -/
theorem getById_stored_iff (c : Contents) (record : Document) (name : String) :
    m.getById c.nextId (.holding name (c.store record).2) = .ok (some d) ↔
      m.fromRecord (Contents.stamped c.nextId record) = .ok d := by
  rw [getById_holding, Contents.get?_store, if_pos rfl]
  cases h : m.fromRecord (Contents.stamped c.nextId record) <;> simp [h, Functor.map, Except.map]

/-- Where nothing is stored under an identifier, no record is one that is asked for by it. -/
theorem unmet_pin_key {p : FieldPath σ} (hp : m.field m.primaryKey = .ok p) {v : Value}
    {k : RecordId} (hv : v.integer? = some k) (hc : c.Sound) (hk : k ∉ Keyed.keys c.records)
    (hfree : m.byAlias = true → ReservedFree m.type.schema)
    (hrecords : ∀ entry ∈ c.records, Keyed.Nodup entry.2) :
    m.Unmet (.pin (p, v)) c := by
  intro ⟨id, record⟩ hentry
  have hstamp := hc.stamped id record (Keyed.get?_of_mem hc.nodup hentry)
  rw [← m.get?_ofStored_reserved (hrecords _ hentry) hfree] at hstamp
  rw [Bool.eq_false_iff, ne_eq, satisfiedBy_pin_key hp hv hstamp]
  rintro rfl
  exact hk (List.mem_map_of_mem hentry)

/-- An instance that is asked for by an identifier that nothing is stored under comes out with the
next identifier. Asked for again, an instance is found without another record exactly when the next
identifier was the one asked for, and it is then the one that reads under it. For a faithful type
that is the instance itself, so it has the identifier asked for and is found again exactly when that
was the next one. Otherwise every further call that succeeds makes another instance. -/
theorem getOrCreate_key_iff {c : Collection} (hc : c.Reachable) {before : Contents}
    (hbefore : c.contents = some before) {p : FieldPath σ} (hp : m.field m.primaryKey = .ok p)
    {v : Value} {k : RecordId} (hv : v.integer? = some k) (hk : k ∉ Keyed.keys before.records)
    (hfree : m.byAlias = true → ReservedFree m.type.schema)
    (hrecords : ∀ entry ∈ before.records, Keyed.Nodup entry.2) (hid : m.type.TakesId)
    (hrun : m.getOrCreate [.pin (p, v)] defaults (some c) = (.ok d, t)) :
    m.type.id d = before.nextId ∧
      (∀ d', m.getOrCreate [.pin (p, v)] defaults t = (.ok d', t) ↔
        before.nextId = k ∧ m.getById k t = .ok (some d')) ∧
      (∀ key, m.Faithful key →
        (m.type.id d = k ∧ m.getOrCreate [.pin (p, v)] defaults t = (.ok d, t) ↔
          before.nextId = k)) ∧
      (before.nextId ≠ k → ∀ d' t', m.getOrCreate [.pin (p, v)] defaults t = (.ok d', t') →
        ∃ after, t' = .holding c.name after ∧
          after.records.length = before.records.length + 2) := by
  have hsound := hc.sound hbefore
  obtain ⟨name, contents⟩ := c
  cases hbefore
  have hunmet := unmet_pin_key hp hv hsound hk hfree hrecords
  obtain ⟨hkeys, hmade⟩ := hunmet.made hrun
  obtain ⟨made, record, -, hrecord, rfl, rfl⟩ := m.create_cases hmade
  obtain ⟨mapping, hmapping, -⟩ := toRecord_eq_ok hrecord
  have hgiven : m.type.id (m.type.setId made before.nextId) = before.nextId :=
    hid made mapping before.nextId hmapping
  have hmet := satisfiedBy_pin_key hp hv (get?_ofStored_made hrecord hfree before.nextId)
  have hagain : ∀ d', m.getOrCreate [.pin (p, v)] defaults (.holding name (before.store record).2) =
      (.ok d', .holding name (before.store record).2) ↔
        before.nextId = k ∧ m.fromRecord (Contents.stamped before.nextId record) = .ok d' := by
    intro d'
    rw [getOrCreate_again_iff hsound hunmet hkeys record, hmet]
  refine ⟨hgiven, ?_, ?_, ?_⟩
  · intro d'
    rw [hagain]
    refine and_congr_right ?_
    rintro rfl
    exact (getById_stored_iff before record name).symm
  · intro key hm
    rw [hgiven, hagain, hm.fromRecord_stamped hrecord]
    simp
  · intro hne d' t' hrun'
    exact hunmet.adds_again hsound (Bool.eq_false_iff.mpr fun hnew => hne (hmet.mp hnew)) hrun'

end Model

/-! ## Anti-vacuity: a member and a user that are asked for by their identifiers -/

/-- The identifier of a member. -/
def memberIdPath : FieldPath MemberSchema := { field := .primaryKey "id", owner := "Member" }

/-- Members, after one that was there has left. -/
def leftMembers : Collection :=
  (Collection.Call.delete 0).apply
    ((Collection.Call.store []).apply { name := "members", contents := some {} })

theorem leftMembers_reachable : leftMembers.Reachable :=
  ⟨_, by decide, .call (.delete _) (.call (.store _) (.new _))⟩

/-- What a new member is like. -/
def newMember : Document :=
  [("name", .string "a"), ("address", .document [("city", .string "b"), ("zip", .string "c")])]

/-- The next member is number one, though none is left. Asked for by that number, it is made once,
by alias as well. -/
theorem getOrCreate_key_next :
    ∃ d t, (members.storing true).getOrCreate [.pin (memberIdPath, .int64 1)] newMember
        (some leftMembers) = (.ok d, t) ∧ d = { id := 1, name := "a", city := "b", zip := "c" } ∧
      (members.storing true).getOrCreate [.pin (memberIdPath, .int64 1)] newMember t =
        (.ok d, t) := by
  obtain ⟨d, t, hrun, hd⟩ : ∃ d t, (members.storing true).getOrCreate
      [.pin (memberIdPath, .int64 1)] newMember (some leftMembers) = (.ok d, t) ∧
        d = { id := 1, name := "a", city := "b", zip := "c" } := ⟨_, _, rfl, rfl⟩
  obtain ⟨-, -, hiff, -⟩ := Model.getOrCreate_key_iff (p := memberIdPath) (v := .int64 1)
    leftMembers_reachable rfl rfl rfl (by decide) (fun _ => by unfold Model.ReservedFree; decide)
    nofun (fun _ _ _ _ => rfl) hrun
  exact ⟨d, t, hrun, hd, ((hiff "id" (members_faithful true)).mpr rfl).2⟩

/-- The identifier of a user. -/
def userIdPath : FieldPath UserSchema := { field := .primaryKey "id", owner := "User" }

/-- Where there is no user yet, asking for user seven makes user zero, and asking again user one. -/
theorem getOrCreate_key_doubles :
    noUsers.Reachable ∧ users.getById 7 (some noUsers) = .ok none ∧
      ∃ t t', users.getOrCreate [.pin (userIdPath, .int64 7)] [("name", .string "a")]
          (some noUsers) = (.ok (user 0 "a"), t) ∧ users.count t = .ok 1 ∧
        users.getOrCreate [.pin (userIdPath, .int64 7)] [("name", .string "a")] t =
          (.ok (user 1 "a"), t') ∧ users.count t' = .ok 2 :=
  ⟨noUsers_reachable, rfl, _, _, rfl, rfl, rfl, rfl⟩

end TypedStore
