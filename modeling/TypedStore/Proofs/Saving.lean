import TypedStore.Model.Write
import TypedStore.Proofs.Reachable

/-!
What the operations on one instance do to a collection that is there.

`insert_run` and `persist_run` say the whole of it: the answer, the instance and the contents that
are left. `save_run_absent` and `save_run_present` are the two ways a save can go, by whether there
is a record under the instance's identifier, and `save_eq_ok` is what it did if it succeeds. No
record is under an identifier that the model generates (`generateId_notMem`).
-/

namespace TypedStore

/-- A collection with these contents, as what a model is bound to. -/
def Target.holding (name : String) (contents : Contents) : Target := some ⟨name, some contents⟩

namespace Model

variable {σ D : Type} [SchemaGraph σ] (m : Model σ D)

theorem insert_run (name : String) (c : Contents) (d : D) :
    m.insert (d, Target.holding name c) =
      match m.toRecord d with
      | .ok record => (.ok (), m.type.setId d c.nextId, Target.holding name (c.store record).2)
      | .error e => (.error e, d, Target.holding name c) := by
  cases h : m.toRecord d <;>
    simp [insert, Target.holding, h, bind, Step.get, Step.set, Step.ofExcept, Step.onSnd,
      collection, onCollection, Collection.store, Collection.change, Contents.store]

theorem persist_run (name : String) (c : Contents) (d : D) (mapping : Document) :
    m.persist mapping (d, Target.holding name c) =
      match m.type.fromMapping mapping with
      | .ok updated =>
        match m.toRecord updated with
        | .ok record =>
          (.ok (c.update (m.type.id updated) record).1, updated,
            Target.holding name (c.update (m.type.id updated) record).2)
        | .error e => (.error e, d, Target.holding name c)
      | .error e => (.error e, d, Target.holding name c) := by
  cases h : m.type.fromMapping mapping with
  | error e => simp [persist, Target.holding, h, bind, Step.get, Step.ofExcept, collection]
  | ok updated =>
    cases hr : m.toRecord updated <;>
      simp [persist, Target.holding, h, hr, bind, pure, Step.get, Step.set, Step.ofExcept,
        Step.onSnd, collection, onCollection, Collection.update, Collection.change]

/-- Where there is no collection, nothing is persisted. -/
theorem persist_absent {t : Target} (ht : ∀ name c, t ≠ .holding name c) (d : D)
    (mapping : Document) : ∃ e, m.persist mapping (d, t) = (.error e, d, t) := by
  match t with
  | none => exact ⟨_, rfl⟩
  | some ⟨name, some c⟩ => exact absurd rfl (ht name c)
  | some ⟨name, none⟩ =>
    cases h : m.type.fromMapping mapping with
    | error e => simp [persist, h, bind, Step.get, Step.ofExcept, collection]
    | ok updated =>
      cases hr : m.toRecord updated <;>
        simp [persist, h, hr, bind, Step.get, Step.ofExcept, Step.onSnd, collection, onCollection,
          Collection.update, Collection.change]

/-- Persisting fails and changes nothing, or it puts the instance that the document describes under
the identifier of that instance. -/
theorem persist_cases {name : String} {c : Contents} {d d' : D} {mapping : Document}
    {answer : Except Error Bool} {t : Target}
    (h : m.persist mapping (d, .holding name c) = (answer, d', t)) :
    (∃ e, answer = .error e ∧ d' = d ∧ t = .holding name c) ∨
    ∃ record, m.type.fromMapping mapping = .ok d' ∧ m.toRecord d' = .ok record ∧
      answer = .ok (c.update (m.type.id d') record).1 ∧
      t = .holding name (c.update (m.type.id d') record).2 := by
  rw [persist_run] at h
  split at h
  · next updated hupdated =>
    split at h
    · next record hrecord =>
      cases h
      exact .inr ⟨record, hupdated, hrecord, rfl, rfl⟩
    · cases h
      exact .inl ⟨_, rfl, rfl, rfl⟩
  · cases h
    exact .inl ⟨_, rfl, rfl, rfl⟩

/-- The document of an instance, with the assignments and then the overrides made in it. -/
def edited (assignments : List (FieldPath σ × Value)) (overrides : Document) (d : D) :
    Except Error Document := do
  let mapping ← m.type.toMapping d
  let mapping ← assignAll mapping assignments
  m.overrideAll mapping overrides

/-- An update persists the edited document, wherever it runs. -/
theorem update_eq (assignments : List (FieldPath σ × Value)) (overrides : Document) (d : D)
    (t : Target) :
    m.update assignments overrides (d, t) =
      match m.edited assignments overrides d with
      | .ok mapping => m.persist mapping (d, t)
      | .error e => (.error e, d, t) := by
  cases hm : m.type.toMapping d with
  | error e => simp [update, edited, hm, bind, Except.bind, Step.get, Step.ofExcept]
  | ok mapping =>
    cases ha : assignAll mapping assignments with
    | error e => simp [update, edited, hm, ha, bind, Except.bind, Step.get, Step.ofExcept]
    | ok assigned =>
      cases ho : m.overrideAll assigned overrides <;>
        simp [update, edited, hm, ha, ho, bind, Except.bind, Step.get, Step.ofExcept]

theorem update_run (name : String) (c : Contents) (assignments : List (FieldPath σ × Value))
    (overrides : Document) (d : D) :
    m.update assignments overrides (d, Target.holding name c) =
      match m.edited assignments overrides d with
      | .ok mapping => m.persist mapping (d, Target.holding name c)
      | .error e => (.error e, d, Target.holding name c) :=
  m.update_eq assignments overrides d _

/-- An update without changes persists the instance's own document. -/
theorem update_run_nil (name : String) (c : Contents) (d : D) :
    m.update [] [] (d, Target.holding name c) =
      match m.type.toMapping d with
      | .ok mapping => m.persist mapping (d, Target.holding name c)
      | .error e => (.error e, d, Target.holding name c) := by
  rw [update_run]
  cases hm : m.type.toMapping d <;>
    simp [edited, hm, assignAll, overrideAll, bind, Except.bind]

theorem save_run_absent {name : String} {c : Contents} {d : D}
    (h : m.type.id d ∉ Keyed.keys c.records) :
    m.save (d, Target.holding name c) =
      match m.toRecord d with
      | .ok record => (.ok true, m.type.setId d c.nextId, Target.holding name (c.store record).2)
      | .error e => (.error e, d, Target.holding name c) := by
  have hfetch : Collection.fetch ⟨name, some c⟩ (m.type.id d) = .ok none := by
    rw [Collection.fetch_eq_ok rfl, Keyed.get?_eq_none_iff.mpr h]
  have hinsert := m.insert_run name c d
  cases hr : m.toRecord d <;> rw [hr] at hinsert <;>
    simp_all [save, Target.holding, bind, pure, Step.get, Step.ofExcept, collection]

theorem save_run_present {name : String} {c : Contents} {d : D}
    (h : m.type.id d ∈ Keyed.keys c.records) :
    m.save (d, Target.holding name c) = m.update [] [] (d, Target.holding name c) := by
  obtain ⟨record, hget⟩ := Option.isSome_iff_exists.mp (Keyed.contains_iff.mpr h)
  have hfetch : Collection.fetch ⟨name, some c⟩ (m.type.id d) = .ok (some record) := by
    rw [Collection.fetch_eq_ok rfl, hget]
  simp [save, Target.holding, bind, Step.get, Step.ofExcept, collection, hfetch]

/-- What a save that succeeds has done. Where there is a record under the instance's identifier, the
instance that its own document describes has taken the place of the record under the identifier of
that instance, if there is one. Where there is none, a record was added under the next identifier,
and the instance was given it. -/
theorem save_eq_ok {name : String} {c : Contents} {d d' : D} {saved : Bool} {t : Target}
    (h : m.save (d, .holding name c) = (.ok saved, d', t)) :
    (m.type.id d ∈ Keyed.keys c.records ∧
      ∃ mapping record, m.type.toMapping d = .ok mapping ∧ m.type.fromMapping mapping = .ok d' ∧
        saved = Keyed.contains c.records (m.type.id d') ∧ m.toRecord d' = .ok record ∧
        t = .holding name (c.update (m.type.id d') record).2) ∨
    (m.type.id d ∉ Keyed.keys c.records ∧ saved = true ∧ d' = m.type.setId d c.nextId ∧
      ∃ record, m.toRecord d = .ok record ∧ t = .holding name (c.store record).2) := by
  by_cases hmem : m.type.id d ∈ Keyed.keys c.records
  · refine .inl ⟨hmem, ?_⟩
    rw [m.save_run_present hmem, m.update_run_nil] at h
    split at h
    · next mapping hmapping =>
      rcases m.persist_cases h with ⟨e, herr, -⟩ | ⟨record, hd', hrecord, hanswer, ht⟩
      · cases herr
      · rw [Contents.found_update] at hanswer
        exact ⟨mapping, record, hmapping, hd', Except.ok.inj hanswer, hrecord, ht⟩
    · cases h
  · refine .inr ⟨hmem, ?_⟩
    rw [m.save_run_absent hmem] at h
    split at h
    · next record hrecord =>
      cases h
      exact ⟨rfl, rfl, record, hrecord, rfl⟩
    · cases h

/-- A save that succeeds puts an instance under an identifier that is stored, or adds it under the
next one. -/
theorem save_cases {name : String} {c : Contents} {d d' : D} {saved : Bool} {t : Target}
    (h : m.save (d, .holding name c) = (.ok saved, d', t)) :
    (m.type.id d ∈ Keyed.keys c.records ∧
      ∃ id record, t = .holding name (c.update id record).2) ∨
    (m.type.id d ∉ Keyed.keys c.records ∧ d' = m.type.setId d c.nextId ∧
      ∃ record, m.toRecord d = .ok record ∧ t = .holding name (c.store record).2) := by
  rcases m.save_eq_ok h with ⟨hmem, _, record, -, -, -, -, ht⟩ | ⟨hmem, -, hadded⟩
  · exact .inl ⟨hmem, _, record, ht⟩
  · exact .inr ⟨hmem, hadded⟩

theorem save_holding {name : String} {c : Contents} {d d' : D} {saved : Bool} {t : Target}
    (h : m.save (d, .holding name c) = (.ok saved, d', t)) : ∃ c', t = .holding name c' := by
  rcases m.save_cases h with ⟨-, id, record, ht⟩ | ⟨-, -, record, -, ht⟩
  · exact ⟨_, ht⟩
  · exact ⟨_, ht⟩

/-! ## Reading -/

theorem getById_holding (name : String) (c : Contents) (id : RecordId) :
    m.getById id (.holding name c) =
      match Keyed.get? c.records id with
      | some record => some <$> m.fromRecord record
      | none => .ok none := by
  cases h : Keyed.get? c.records id <;>
    simp [getById, Target.holding, collection, Collection.fetch, Collection.opened, h, bind,
      Except.bind, pure, Except.pure]

/-- What is stored under an identifier as before is read as before. -/
theorem getById_congr {name : String} {c c' : Contents} {id : RecordId}
    (h : Keyed.get? c'.records id = Keyed.get? c.records id) :
    m.getById id (.holding name c') = m.getById id (.holding name c) := by
  rw [getById_holding, getById_holding, h]

theorem lastId_holding (name : String) (c : Contents) :
    m.lastId (.holding name c) =
      match (Keyed.keys c.records).getLast? with
      | some id => .ok id
      | none => .error (.emptyCollection name) := by
  have hlast : m.lastId (.holding name c) = Collection.lastRecordId ⟨name, some c⟩ := rfl
  rw [hlast]
  exact Collection.lastRecordId_eq rfl

theorem generateId_holding (name : String) (c : Contents) :
    m.generateId (.holding name c) =
      match (Keyed.keys c.records).getLast? with
      | some id => id + 1
      | none => 0 := by
  rw [generateId, lastId_holding]
  cases (Keyed.keys c.records).getLast? <;> rfl

/-- Nothing is stored under a generated identifier. -/
theorem generateId_notMem {name : String} {c : Contents} (hc : c.Sound) :
    m.generateId (.holding name c) ∉ Keyed.keys c.records := by
  rw [generateId_holding]
  cases hlast : (Keyed.keys c.records).getLast? with
  | none => simp [List.getLast?_eq_none_iff.mp hlast]
  | some last =>
    -- the last record has the greatest identifier, so none has the one after it
    intro hmem
    have hle := hc.le_of_getLast? hlast hmem
    exact succ_ne_of_le (hc.given _ hmem).1 hle rfl

end Model

end TypedStore
