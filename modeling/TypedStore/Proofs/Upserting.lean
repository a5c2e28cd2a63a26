import TypedStore.Model.Upsert
import TypedStore.Proofs.Conjunction
import TypedStore.Proofs.Saving

/-!
Finding an instance or making one, on a collection that is there.

`firstMatch?` is the record that a search for one instance stops at, and `findOne_cases` that the
search answers with the instance of that record. `getOrCreate_run`, `updateOrCreate_run` and
`create_run` are the ways the two upserts can go, and `updateOrCreate_cases` is what the second one
did where there was a match.
-/

namespace TypedStore.Model

variable {σ D : Type} [SchemaGraph σ] (m : Model σ D)

/-- Whether a query with these conditions finds the record. -/
def selects (filters : List (Expression σ)) (record : Document) : Bool :=
  m.satisfiesAll filters record && m.commonBits filters record != 0

/-- The first record that meets the conditions, with its identifier. Without conditions it is the
one under zero. -/
def firstMatch? (filters : List (Expression σ)) (c : Contents) : Option (RecordId × Document) :=
  if filters.isEmpty then (Keyed.get? c.records 0).map (0, ·)
  else c.records.find? fun e => m.selects filters e.2

theorem mem_of_firstMatch? {filters : List (Expression σ)} {c : Contents}
    {e : RecordId × Document} (h : m.firstMatch? filters c = some e) : e ∈ c.records := by
  unfold firstMatch? at h
  split at h
  · obtain ⟨record, hget, rfl⟩ := Option.map_eq_some_iff.mp h
    exact Keyed.mem_of_get? hget
  · exact List.mem_of_find?_eq_some h

theorem findAll_holding {name : String} {c : Contents} {filters : List (Expression σ)}
    (hne : filters ≠ []) :
    m.findAll filters (.holding name c) =
      (c.records.filter fun e => m.selects filters e.2).mapM fun e => m.fromRecord e.2 := by
  show m.findAll filters (some ⟨name, some c⟩) = _
  rw [m.findAll_eq hne, List.filter_map, List.mapM_map]
  rfl

/-- A search for one instance answers with the instance of the first match. -/
theorem findOne_cases {name : String} {c : Contents} {filters : List (Expression σ)}
    {found : Option D} (h : m.findOne filters (.holding name c) = .ok found) :
    (m.firstMatch? filters c = none ∧ found = none) ∨
    ∃ e d, m.firstMatch? filters c = some e ∧ m.fromRecord e.2 = .ok d ∧ found = some d := by
  by_cases hne : filters = []
  · rw [findOne, hne] at h
    simp only [List.isEmpty_nil, if_true, getById_holding] at h
    cases hget : Keyed.get? c.records 0 with
    | none =>
      rw [hget] at h
      cases h
      exact .inl ⟨by simp [firstMatch?, hne, hget], rfl⟩
    | some record =>
      rw [hget] at h
      cases hd : m.fromRecord record with
      | error e =>
        simp only [hd, Functor.map, Except.map] at h
        cases h
      | ok d =>
        simp only [hd, Functor.map, Except.map] at h
        cases h
        exact .inr ⟨(0, record), d, by simp [firstMatch?, hne, hget], hd, rfl⟩
  · have hfirst : m.firstMatch? filters c =
        (c.records.filter fun e => m.selects filters e.2).head? := by
      rw [firstMatch?, if_neg (by simpa using hne), List.head?_filter]
    rw [findOne, if_neg (by simpa using hne), m.findAll_holding hne] at h
    rw [hfirst]
    generalize c.records.filter (fun e => m.selects filters e.2) = selected at h ⊢
    cases hall : selected.mapM fun e => m.fromRecord e.2 with
    | error e =>
      rw [hall] at h
      cases h
    | ok ds =>
      rw [hall] at h
      cases h
      -- the instances found are those of the records selected, one by one
      cases mapM_eq_ok_iff.mp hall with
      | nil => exact .inl ⟨rfl, rfl⟩
      | cons hd _ => exact .inr ⟨_, _, rfl, hd, rfl⟩

/-- A search that succeeds comes back empty exactly when there is no first match. -/
theorem findOne_eq_none_iff {name : String} {c : Contents} {filters : List (Expression σ)}
    {found : Option D} (h : m.findOne filters (.holding name c) = .ok found) :
    found = none ↔ m.firstMatch? filters c = none := by
  rcases m.findOne_cases h with ⟨hfirst, hfound⟩ | ⟨e, d, hfirst, -, hfound⟩ <;>
    simp [hfirst, hfound]

theorem findOne_absent (filters : List (Expression σ)) (name : String) :
    m.findOne filters (some ⟨name, none⟩) = .error (.collectionNotFound name) := by
  cases filters with
  | nil => rfl
  | cons e rest =>
    simp [findOne, findAll, collection, Expression.merge_eq_joined, Collection.filter,
      Collection.all, Collection.opened, bind, Except.bind]

theorem exists_mapM_eq_ok {α β : Type} {f : α → Except Error β} {items : List α}
    (h : ∀ a ∈ items, ∃ b, f a = .ok b) : ∃ found, items.mapM f = .ok found := by
  induction items with
  | nil => exact ⟨[], rfl⟩
  | cons a rest ih =>
    obtain ⟨b, hb⟩ := h a (List.mem_cons_self ..)
    obtain ⟨found, hfound⟩ := ih fun a ha => h a (List.mem_cons_of_mem _ ha)
    exact ⟨b :: found, mapM_eq_ok_iff.mpr (.cons hb (mapM_eq_ok_iff.mp hfound))⟩

/-- Where all records can be read, a search answers with the first match. -/
theorem findOne_of_firstMatch? {name : String} {c : Contents} {filters : List (Expression σ)}
    {e : RecordId × Document} (hread : ∀ e ∈ c.records, ∃ d, m.fromRecord e.2 = .ok d)
    (hne : filters ≠ []) (hfirst : m.firstMatch? filters c = some e) :
    ∃ d, m.fromRecord e.2 = .ok d ∧ m.findOne filters (.holding name c) = .ok (some d) := by
  obtain ⟨found, hall⟩ : ∃ found,
      ((c.records.filter fun e => m.selects filters e.2).mapM fun e => m.fromRecord e.2) =
        .ok found :=
    exists_mapM_eq_ok fun e he => hread e (List.mem_filter.mp he).1
  have hone : m.findOne filters (.holding name c) = .ok found.head? := by
    rw [findOne, if_neg (by simpa using hne), m.findAll_holding hne, hall]
    rfl
  rcases m.findOne_cases hone with ⟨hnone, -⟩ | ⟨e', d, hfirst', hd, hhead⟩
  · rw [hfirst] at hnone
    cases hnone
  · rw [hfirst] at hfirst'
    cases hfirst'
    exact ⟨d, hd, by rw [hone, hhead]⟩

/-! ## The two upserts -/

/-- The instance that is made where there is no match, before it is given the identifier of its
record. -/
def draft (filters : List (Expression σ)) (defaults : Document) (t : Target) : Except Error D := do
  let seeded ← seed filters
  m.fromMapping t (Document.merge seeded (Document.expandAll defaults))

theorem create_run (name : String) (c : Contents) (filters : List (Expression σ))
    (defaults : Document) :
    m.create filters defaults (.holding name c) =
      match m.draft filters defaults (.holding name c) with
      | .ok made =>
        match m.toRecord made with
        | .ok record => (.ok (m.type.setId made c.nextId), .holding name (c.store record).2)
        | .error e => (.error e, .holding name c)
      | .error e => (.error e, .holding name c) := by
  cases hs : seed filters with
  | error e => simp [create, draft, hs, bind, Except.bind, Step.ofExcept]
  | ok seeded =>
    cases hd : m.fromMapping (.holding name c)
        (Document.merge seeded (Document.expandAll defaults)) with
    | error e => simp [create, draft, hs, hd, bind, Except.bind, Step.ofExcept, Step.get]
    | ok made =>
      have hinsert := m.insert_run name c made
      cases hr : m.toRecord made <;> rw [hr] at hinsert <;>
        simp [create, draft, hs, hd, hr, hinsert, bind, Except.bind, pure, Step.ofExcept, Step.get,
          Step.bringing, Except.map]

/-- An instance that is made is stored under the next identifier and gets it. -/
theorem create_cases {name : String} {c : Contents} {filters : List (Expression σ)}
    {defaults : Document} {d : D} {t : Target}
    (h : m.create filters defaults (.holding name c) = (.ok d, t)) :
    ∃ made record, m.draft filters defaults (.holding name c) = .ok made ∧
      m.toRecord made = .ok record ∧ d = m.type.setId made c.nextId ∧
      t = .holding name (c.store record).2 := by
  rw [create_run] at h
  split at h
  · next made hmade =>
    split at h
    · next record hrecord =>
      cases h
      exact ⟨made, record, hmade, hrecord, rfl, rfl⟩
    · cases h
  · cases h

theorem getOrCreate_run (filters : List (Expression σ)) (defaults : Document) (t : Target) :
    m.getOrCreate filters defaults t =
      match m.checkKeys defaults, m.findOne filters t with
      | .error e, _ => (.error e, t)
      | .ok _, .error e => (.error e, t)
      | .ok _, .ok (some found) => (.ok found, t)
      | .ok _, .ok none => m.create filters defaults t := by
  cases hc : m.checkKeys defaults with
  | error e => simp [getOrCreate, hc, bind, Step.ofExcept]
  | ok _ =>
    cases hf : m.findOne filters t with
    | error e => simp [getOrCreate, hc, hf, bind, Step.ofExcept, Step.read]
    | ok found =>
      cases found <;> simp [getOrCreate, hc, hf, bind, pure, Step.ofExcept, Step.read]

/-- The first upsert, if it succeeds, answers with the first match, or makes an instance where
there is none. -/
theorem getOrCreate_cases {name : String} {c : Contents} {filters : List (Expression σ)}
    {defaults : Document} {d : D} {t : Target}
    (h : m.getOrCreate filters defaults (.holding name c) = (.ok d, t)) :
    m.checkKeys defaults = .ok () ∧ (t = .holding name c ∨ (m.firstMatch? filters c = none ∧
      m.create filters defaults (.holding name c) = (.ok d, t))) := by
  rw [getOrCreate_run] at h
  split at h
  · cases h
  · cases h
  · next hkeys _ =>
    cases h
    exact ⟨hkeys, .inl rfl⟩
  · next hkeys hfind => exact ⟨hkeys, .inr ⟨(m.findOne_eq_none_iff hfind).mp rfl, h⟩⟩

/-- Where there is no match, the first upsert makes an instance. -/
theorem getOrCreate_none {name : String} {c : Contents} {filters : List (Expression σ)}
    {defaults : Document} {d : D} {t : Target} (hnone : m.firstMatch? filters c = none)
    (h : m.getOrCreate filters defaults (.holding name c) = (.ok d, t)) :
    m.checkKeys defaults = .ok () ∧
      m.create filters defaults (.holding name c) = (.ok d, t) := by
  rw [getOrCreate_run] at h
  split at h
  · cases h
  · cases h
  · next hfind => cases (m.findOne_eq_none_iff hfind).mpr hnone
  · next hkeys _ => exact ⟨hkeys, h⟩

theorem updateOrCreate_run (filters : List (Expression σ)) (defaults : Document) (t : Target) :
    m.updateOrCreate filters defaults t =
      match m.checkKeys defaults, m.findOne filters t with
      | .error e, _ => (.error e, t)
      | .ok _, .error e => (.error e, t)
      | .ok _, .ok (some found) =>
        match m.type.toMapping found with
        | .ok mapping =>
          match m.persist (Document.merge mapping (Document.expandAll defaults)) (found, t) with
          | (.ok _, updated, t) => (.ok updated, t)
          | (.error e, _, t) => (.error e, t)
        | .error e => (.error e, t)
      | .ok _, .ok none => m.create filters defaults t := by
  cases hc : m.checkKeys defaults with
  | error e => simp [updateOrCreate, hc, bind, Step.ofExcept]
  | ok _ =>
    cases hf : m.findOne filters t with
    | error e => simp [updateOrCreate, hc, hf, bind, Step.ofExcept, Step.read]
    | ok found =>
      cases found with
      | none => simp [updateOrCreate, hc, hf, bind, Step.ofExcept, Step.read]
      | some found =>
        cases hm : m.type.toMapping found with
        | error e => simp [updateOrCreate, hc, hf, hm, bind, Step.ofExcept, Step.read]
        | ok mapping =>
          rcases hp : m.persist (Document.merge mapping (Document.expandAll defaults)) (found, t)
            with ⟨answer, updated, t'⟩
          cases answer <;>
            simp [updateOrCreate, hc, hf, hm, hp, bind, pure, Step.ofExcept, Step.read,
              Step.bringing, Except.map]

theorem updateOrCreate_none {name : String} {c : Contents} {filters : List (Expression σ)}
    {defaults : Document} {d : D} {t : Target} (hnone : m.firstMatch? filters c = none)
    (h : m.updateOrCreate filters defaults (.holding name c) = (.ok d, t)) :
    m.checkKeys defaults = .ok () ∧
      m.create filters defaults (.holding name c) = (.ok d, t) := by
  rw [updateOrCreate_run] at h
  split at h
  · cases h
  · cases h
  · next hfind => cases (m.findOne_eq_none_iff hfind).mpr hnone
  · next hkeys _ => exact ⟨hkeys, h⟩

/-- Where there is a match, the second upsert fails and changes nothing, or it puts the match with
the defaults over it under the identifier that comes out. -/
theorem updateOrCreate_cases {name : String} {c : Contents} {filters : List (Expression σ)}
    {defaults : Document} {e : RecordId × Document} {answer : Except Error D} {t : Target}
    (hmatch : m.firstMatch? filters c = some e)
    (h : m.updateOrCreate filters defaults (.holding name c) = (answer, t)) :
    (∃ err, answer = .error err ∧ t = .holding name c) ∨
    ∃ found mapping d record, m.checkKeys defaults = .ok () ∧ m.fromRecord e.2 = .ok found ∧
      m.type.toMapping found = .ok mapping ∧
      m.type.fromMapping (Document.merge mapping (Document.expandAll defaults)) = .ok d ∧
      m.toRecord d = .ok record ∧ answer = .ok d ∧
      t = .holding name (c.update (m.type.id d) record).2 := by
  rw [updateOrCreate_run] at h
  split at h
  · cases h
    exact .inl ⟨_, rfl, rfl⟩
  · cases h
    exact .inl ⟨_, rfl, rfl⟩
  · next found hkeys hfind =>
    rcases m.findOne_cases hfind with ⟨-, hnone⟩ | ⟨e', d', hmatch', hfound, hsome⟩
    · cases hnone
    · rw [hmatch] at hmatch'
      cases hmatch'
      cases hsome
      split at h
      · next mapping hmapping =>
        split at h
        · next found' updated t' hpersist =>
          cases h
          rcases m.persist_cases hpersist with ⟨err, herr, -⟩ | ⟨record, hread, hrecord, -, rfl⟩
          · cases herr
          · exact .inr ⟨found, mapping, updated, record, hkeys, hfound, hmapping, hread, hrecord,
              rfl, rfl⟩
        · next err found' t' hpersist =>
          cases h
          rcases m.persist_cases hpersist with ⟨err', -, -, rfl⟩ | ⟨record, -, -, hok, -⟩
          · exact .inl ⟨_, rfl, rfl⟩
          · cases hok
      · cases h
        exact .inl ⟨_, rfl, rfl⟩
  · next hfind =>
    rw [(m.findOne_eq_none_iff hfind).mp rfl] at hmatch
    cases hmatch

end TypedStore.Model
