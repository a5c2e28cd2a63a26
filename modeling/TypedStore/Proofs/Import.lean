import Mathlib.Data.List.Forall2
import TypedStore.Instance
import TypedStore.Model.Query
import TypedStore.Model.Upsert
import TypedStore.Proofs.Saving

/-!
What saving many instances, or importing many objects, leaves in a collection.

Whether an element is added or takes the place of a record goes by the identifier it comes with, but
an added element is stored under the next identifier of the collection. So what is added can come
to stand where a later element says it is, and then the later one takes its place.

This is all that can happen: if no element names a record that was stored before, each has a record
of its own exactly when none names the identifier that an earlier element is given
(`Unclaimed`, `Model.import_iff`). In `bulkSave_overwritten` the second element does.
-/

namespace TypedStore

/-- No element names the identifier that an earlier one is given, when they are given identifiers
one after another. An element may name none. -/
def Unclaimed (next : RecordId) : List (Option RecordId) → Prop
  | [] => True
  | _ :: rest => some next ∉ rest ∧ Unclaimed (next + 1) rest

namespace Model

variable {σ D : Type} [SchemaGraph σ] (m : Model σ D)

/-- Saves one after another, each of an instance that names an identifier, or that has one nothing
is stored under. -/
inductive Saves (name : String) :
    Contents → List (Option RecordId) → List D → List D → Contents → Prop where
  | nil (c : Contents) : Saves name c [] [] [] c
  | cons {c c' c'' : Contents} {key : Option RecordId} {keys : List (Option RecordId)} {d d' : D}
    {ds ds' : List D} {saved : Bool}
    (named : key = some (m.type.id d) ∨ key = none ∧ m.type.id d ∉ Keyed.keys c.records)
    (step : m.save (d, .holding name c) = (.ok saved, d', .holding name c'))
    (rest : Saves name c' keys ds ds' c'') :
    Saves name c (key :: keys) (d :: ds) (d' :: ds') c''

/-- Each instance is stored under an identifier of its own and is read back from the record it was
translated to, and what was stored before is read as before. -/
structure EachKept (c : Collection) (next : RecordId) (ds after : List D) (t : Target) : Prop where
  untouched : ∀ id record, c.fetch id = .ok (some record) →
    m.getById id t = m.getById id (some c)
  length : after.length = ds.length
  readable : ∀ (i : Nat) d, ds[i]? = some d → ∃ record, m.toRecord d = .ok record ∧
    after[i]? = some (m.type.setId d (next + .ofNat i)) ∧
    m.getById (next + .ofNat i) t =
      some <$> m.fromRecord (Contents.stamped (next + .ofNat i) record)
  distinct : (∀ d id, m.type.id (m.type.setId d id) = id) → (after.map m.type.id).Nodup

namespace Saves

variable {m} {name : String} {c c'' : Contents} {keys : List (Option RecordId)} {ds ds' : List D}

/-- One save keeps the contents sound, keeps what is stored, and adds one record if any. -/
theorem sound_of_save {c' : Contents} {d d' : D} {saved : Bool} (hc : c.Sound)
    (hroom : c.nextId.toInt + 1 < idLimit)
    (h : m.save (d, .holding name c) = (.ok saved, d', .holding name c')) :
    c'.Sound ∧ c'.nextId.toInt ≤ c.nextId.toInt + 1 ∧
      Keyed.keys c.records ⊆ Keyed.keys c'.records ∧
      c'.records.length ≤ c.records.length + 1 := by
  rcases m.save_cases h with ⟨-, id, record, ht⟩ | ⟨-, -, record, -, ht⟩
  · cases ht
    refine ⟨hc.update id record, ?_, ?_, ?_⟩
    · rw [Contents.nextId_update]
      omega
    · rw [Contents.keys_update]
      exact List.Subset.refl _
    · rw [Contents.length_update]
      omega
  · cases ht
    refine ⟨hc.store hroom record, ?_, ?_, ?_⟩
    · exact Int.le_of_eq (hc.nextId_succ hroom)
    · rw [hc.keys_store]
      exact List.subset_append_left _ _
    · exact Nat.le_of_eq (hc.length_store record)

theorem length_eq (h : m.Saves name c keys ds ds' c'') : keys.length = ds.length := by
  induction h with
  | nil => rfl
  | cons _ _ _ ih => rw [List.length_cons, List.length_cons, ih]

theorem length_le (h : m.Saves name c keys ds ds' c'') (hc : c.Sound)
    (hroom : c.nextId.toInt + keys.length < idLimit) :
    c''.records.length ≤ c.records.length + keys.length := by
  induction h with
  | nil c => simp
  | cons named step rest ih =>
    rw [List.length_cons] at hroom ⊢
    obtain ⟨hc', hnext, -, hlen⟩ := sound_of_save hc (by omega) step
    have hrest := ih hc' (by omega)
    omega

theorem length_lt (h : m.Saves name c keys ds ds' c'') (hc : c.Sound)
    (hroom : c.nextId.toInt + keys.length < idLimit) {id : RecordId} (hid : some id ∈ keys)
    (hstored : id ∈ Keyed.keys c.records) :
    c''.records.length < c.records.length + keys.length := by
  induction h with
  | nil c => simp at hid
  | @cons c c' c'' key keys d d' ds ds' saved named step rest ih =>
    rw [List.length_cons] at hroom ⊢
    obtain ⟨hc', hnext, hsub, hlen⟩ := sound_of_save hc (by omega) step
    rcases List.mem_cons.mp hid with hkey | hid
    · -- the first element names the record, and so replaces it
      have hhead : m.type.id d = id := by
        rcases named with named | ⟨named, -⟩
        · exact Option.some.inj (named.symm.trans hkey.symm)
        · rw [named] at hkey
          cases hkey
      have hsame : c'.records.length = c.records.length := by
        rcases m.save_cases step with ⟨-, k, record, ht⟩ | ⟨hnot, -⟩
        · cases ht
          exact Contents.length_update k record c
        · exact absurd (hhead ▸ hstored) hnot
      have hrest := rest.length_le hc' (by omega)
      omega
    · -- the record is still there when a later element names it
      have hrest := ih hc' (by omega) hid (hsub hstored)
      omega

theorem store_of_new {c' : Contents} {key : Option RecordId} {d d' : D} {saved : Bool}
    (named : key = some (m.type.id d) ∨ key = none ∧ m.type.id d ∉ Keyed.keys c.records)
    (hnew : ∀ id, key = some id → id ∉ Keyed.keys c.records)
    (step : m.save (d, .holding name c) = (.ok saved, d', .holding name c')) :
    d' = m.type.setId d c.nextId ∧
      ∃ record, m.toRecord d = .ok record ∧ c' = (c.store record).2 := by
  have hid : m.type.id d ∉ Keyed.keys c.records := by
    rcases named with named | ⟨-, hid⟩
    · exact hnew _ named
    · exact hid
  rcases m.save_cases step with ⟨hmem, -⟩ | ⟨-, hd', record, hrecord, ht⟩
  · exact absurd hmem hid
  · cases ht
    exact ⟨hd', record, hrecord, rfl⟩

theorem new_store (hc : c.Sound) (record : Document)
    (hnew : ∀ id, some id ∈ keys → id ∉ Keyed.keys c.records) (hclaim : some c.nextId ∉ keys) :
    ∀ id, some id ∈ keys → id ∉ Keyed.keys (c.store record).2.records := by
  intro id hkey
  rw [hc.keys_store, List.mem_append, List.mem_singleton, not_or]
  refine ⟨hnew id hkey, ?_⟩
  intro heq
  exact hclaim (heq ▸ hkey)

theorem unclaimed_of_length (h : m.Saves name c keys ds ds' c'') (hc : c.Sound)
    (hroom : c.nextId.toInt + keys.length < idLimit)
    (hnew : ∀ id, some id ∈ keys → id ∉ Keyed.keys c.records)
    (hlen : c''.records.length = c.records.length + keys.length) : Unclaimed c.nextId keys := by
  induction h with
  | nil c => trivial
  | @cons c c' c'' key keys d d' ds ds' saved named step rest ih =>
    rw [List.length_cons] at hroom hlen
    obtain ⟨-, record, -, rfl⟩ := store_of_new named (fun id hid => hnew id (by simp [hid])) step
    have hsucc := hc.nextId_succ (by omega)
    have hlen' := hc.length_store record
    have hnext : (c.store record).2.nextId = c.nextId + 1 := rfl
    have hc' := hc.store (by omega) record
    -- a later element that names the record just added would replace it
    have hclaim : some c.nextId ∉ keys := by
      intro hmem
      have hlt := rest.length_lt hc' (by rw [hnext, hsucc]; omega) hmem (by simp [hc.keys_store])
      omega
    refine ⟨hclaim, ih hc' (by rw [hnext, hsucc]; omega) ?_ (by omega)⟩
    exact new_store hc record (fun id hid => hnew id (List.mem_cons_of_mem _ hid)) hclaim

/-- Where no element names a stored record or what an earlier one is given, every element is added:
what was stored stays, and the element at place `i` is stored `i` identifiers further on. -/
theorem kept (h : m.Saves name c keys ds ds' c'') (hc : c.Sound)
    (hroom : c.nextId.toInt + keys.length < idLimit)
    (hnew : ∀ id, some id ∈ keys → id ∉ Keyed.keys c.records) (hfree : Unclaimed c.nextId keys) :
    c''.records.length = c.records.length + keys.length ∧
      (∀ id ∈ Keyed.keys c.records, Keyed.get? c''.records id = Keyed.get? c.records id) ∧
      ds'.length = ds.length ∧
      ∀ (i : Nat) d, ds[i]? = some d → ∃ record, m.toRecord d = .ok record ∧
        ds'[i]? = some (m.type.setId d (c.nextId + .ofNat i)) ∧
        Keyed.get? c''.records (c.nextId + .ofNat i) =
          some (Contents.stamped (c.nextId + .ofNat i) record) := by
  induction h with
  | nil c => simp
  | @cons c c' c'' key keys d d' ds ds' saved named step rest ih =>
    obtain ⟨hclaim, hfree⟩ := hfree
    rw [List.length_cons] at hroom ⊢
    obtain ⟨hd', record, hrecord, rfl⟩ :=
      store_of_new named (fun id hid => hnew id (by simp [hid])) step
    have hsucc := hc.nextId_succ (by omega)
    have hlen' := hc.length_store record
    have hkeys := hc.keys_store record
    have hnext : (c.store record).2.nextId = c.nextId + 1 := rfl
    have hnew' := new_store hc record (fun id hid => hnew id (List.mem_cons_of_mem _ hid)) hclaim
    obtain ⟨hlen, hold, hds, hadded⟩ :=
      ih (hc.store (by omega) record) (by rw [hnext, hsucc]; omega) hnew' hfree
    refine ⟨by omega, ?_, by simp [hds], ?_⟩
    · intro id hmem
      rw [hold id (by rw [hkeys]; exact List.mem_append_left _ hmem), Contents.get?_store, if_neg]
      rintro rfl
      exact hc.nextId_notMem hmem
    · intro i e he
      cases i with
      | zero =>
        cases he
        have hzero : c.nextId + .ofNat 0 = c.nextId := by simp
        rw [hzero, hold c.nextId (by simp [hkeys]), Contents.get?_store, if_pos rfl]
        exact ⟨record, hrecord, by simp [hd'], rfl⟩
      | succ i =>
        -- one place further on in the list is one identifier further on from the start
        have hshift : c.nextId + 1 + .ofNat i = c.nextId + .ofNat (i + 1) := by
          rw [Nat.add_comm i 1, Int64.ofNat_add, ← Int64.add_assoc]
          rfl
        rw [hnext] at hadded
        rw [← hshift]
        exact hadded i e he

omit [SchemaGraph σ] in
theorem nodup_given (hroom : c.nextId.toInt + ds'.length < idLimit) (h0 : 0 ≤ c.nextId.toInt)
    (hgiven : ∀ (i : Nat) d, ds'[i]? = some d → m.type.id d = c.nextId + .ofNat i) :
    (ds'.map m.type.id).Nodup := by
  have hint : ∀ i < ds'.length, (c.nextId + Int64.ofNat i).toInt = c.nextId.toInt + i := by
    intro i hi
    exact toInt_add_ofNat h0 (by omega)
  rw [List.Nodup, List.pairwise_iff_getElem]
  intro i j hi hj hij heq
  rw [List.length_map] at hi hj
  rw [List.getElem_map, List.getElem_map, hgiven i _ (List.getElem?_eq_getElem hi),
    hgiven j _ (List.getElem?_eq_getElem hj)] at heq
  have hi' := hint i hi
  have hj' := hint j hj
  rw [heq] at hi'
  omega

/-- All elements are added exactly when none names what an earlier one is given, and then each is
kept. -/
theorem outcome (h : m.Saves name c keys ds ds' c'') (hc : c.Sound)
    (hroom : c.nextId.toInt + keys.length < idLimit)
    (hnew : ∀ id, some id ∈ keys → id ∉ Keyed.keys c.records) :
    (m.count (.holding name c'') = .ok (c.records.length + keys.length) ↔
        Unclaimed c.nextId keys) ∧
      (Unclaimed c.nextId keys →
        m.EachKept ⟨name, some c⟩ c.nextId ds ds' (.holding name c'')) := by
  have hcount : m.count (.holding name c'') = .ok c''.records.length := rfl
  rw [hcount]
  refine ⟨⟨?_, ?_⟩, ?_⟩
  · intro hlen
    exact h.unclaimed_of_length hc hroom hnew (Except.ok.inj hlen)
  · intro hfree
    rw [(h.kept hc hroom hnew hfree).1]
  · intro hfree
    obtain ⟨-, hold, hds, hadded⟩ := h.kept hc hroom hnew hfree
    refine ⟨?_, hds, ?_, ?_⟩
    · intro id record hfetch
      have hget : Keyed.get? c.records id = some record := Except.ok.inj hfetch
      exact m.getById_congr (hold id (Keyed.mem_keys_of_get? hget))
    · intro i d hd
      obtain ⟨record, hrecord, hafter, hget⟩ := hadded i d hd
      refine ⟨record, hrecord, hafter, ?_⟩
      rw [getById_holding, hget]
    · intro hid
      have hlen : keys.length = ds.length := h.length_eq
      refine nodup_given (by omega) (Int64.le_iff_toInt_le.mp hc.counter) ?_
      intro i d' hd'
      have hi : i < ds.length := by
        have := (List.getElem?_eq_some_iff.mp hd').1
        omega
      obtain ⟨record, -, hafter, -⟩ := hadded i _ (List.getElem?_eq_getElem hi)
      rw [hafter] at hd'
      cases hd'
      exact hid _ _

end Saves

/-! ## Lists of instances and of objects -/

theorem saves_of_saveEach {name : String} {c : Contents} {ds after : List D} {answer : Bool}
    {t : Target} (h : m.saveEach ds (.holding name c) = (.ok answer, after, t)) :
    ∃ c'', t = .holding name c'' ∧
      m.Saves name c (ds.map fun d => some (m.type.id d)) ds after c'' := by
  induction ds generalizing c after answer t with
  | nil =>
    cases h
    exact ⟨c, rfl, .nil c⟩
  | cons d rest ih =>
    rw [saveEach] at h
    split at h
    · next saved d' t' hsave =>
      obtain ⟨c', rfl⟩ := m.save_holding hsave
      cases hrest : m.saveEach rest (.holding name c') with
      | mk answer' out =>
        obtain ⟨after', t''⟩ := out
        rw [hrest] at h
        cases answer' with
        | error e => cases h
        | ok saved' =>
          cases h
          obtain ⟨c'', rfl, hsaves⟩ := ih hrest
          exact ⟨c'', rfl, .cons (.inl rfl) hsave hsaves⟩
    · cases h

theorem saveEach_of_saveAll {ds after : List D} {t t' : Target} {answer : Bool}
    (h : m.saveAll (ds, t) = (.ok answer, after, t')) :
    ∃ stored, m.saveEach ds t = (.ok stored, after, t') := by
  rcases heach : m.saveEach ds t with ⟨stored, after', t''⟩
  cases stored <;> simp [saveAll, heach, Except.map] at h
  exact ⟨_, by rw [h.2.1, h.2.2]⟩

/-- The identifier that an object names, if it names one. -/
def importKey (j : Json) : Option RecordId :=
  match m.imported j with
  | .ok mapping =>
    if Keyed.contains mapping m.primaryKey then
      (m.type.fromMapping mapping).toOption.map m.type.id
    else none
  | .error _ => none

/-- The instance is what the object describes, with an identifier put in if it names none. -/
def Describes (j : Json) (d : D) : Prop :=
  ∃ mapping t, m.imported j = .ok mapping ∧ m.fromMapping t mapping = .ok d

/-- Where the object names no identifier, the instance takes the one that is put in. -/
def TakesId (j : Json) : Prop :=
  ∀ mapping, m.imported j = .ok mapping → Keyed.contains mapping m.primaryKey = false →
    ∀ id d, m.type.fromMapping (Keyed.insert mapping m.primaryKey (.int64 id)) = .ok d →
      m.type.id d = id

/-- What an object describes has the identifier it names, or else one nothing is stored under. -/
theorem named_of_fromMapping {name : String} {c : Contents} {j : Json} {mapping : Document} {d : D}
    (hc : c.Sound) (htakes : m.TakesId j) (himported : m.imported j = .ok mapping)
    (hd : m.fromMapping (.holding name c) mapping = .ok d) :
    m.importKey j = some (m.type.id d) ∨
      m.importKey j = none ∧ m.type.id d ∉ Keyed.keys c.records := by
  unfold fromMapping at hd
  cases hkey : Keyed.contains mapping m.primaryKey with
  | true =>
    left
    rw [hkey, if_pos rfl] at hd
    simp [importKey, himported, hkey, hd, Except.toOption]
  | false =>
    right
    rw [hkey, if_neg (by simp)] at hd
    refine ⟨by simp [importKey, himported, hkey], ?_⟩
    rw [htakes mapping himported hkey _ d hd]
    exact m.generateId_notMem hc

theorem saveJson_eq_ok {j : Json} {t t' : Target} {d' : D}
    (h : m.saveJson j t = (.ok d', t')) :
    ∃ mapping d saved, m.imported j = .ok mapping ∧ m.fromMapping t mapping = .ok d ∧
      m.save (d, t) = (.ok saved, d', t') := by
  obtain ⟨mapping, t₁, hread, hmade⟩ := Step.bind_eq_ok h
  obtain ⟨himported, rfl⟩ := Step.ofExcept_eq_ok hread
  obtain ⟨t₂, t₃, hget, hmade⟩ := Step.bind_eq_ok hmade
  cases hget
  obtain ⟨d, t₄, hdescribed, hsaved⟩ := Step.bind_eq_ok hmade
  obtain ⟨hd, rfl⟩ := Step.ofExcept_eq_ok hdescribed
  obtain ⟨⟨saved, d''⟩, t₅, hsave, hdone⟩ := Step.bind_eq_ok hsaved
  cases hdone
  exact ⟨mapping, d, saved, himported, hd, Step.bringing_eq_ok hsave⟩

theorem saves_of_bulkSave {name : String} {c : Contents} {js : List Json} {after : List D}
    {t : Target} (hc : c.Sound) (hroom : c.nextId.toInt + js.length < idLimit)
    (htakes : ∀ j ∈ js, m.TakesId j)
    (h : m.bulkSave js (.holding name c) = (.ok after, t)) :
    ∃ ds c'', t = .holding name c'' ∧ List.Forall₂ m.Describes js ds ∧
      m.Saves name c (js.map m.importKey) ds after c'' := by
  induction js generalizing c after t with
  | nil =>
    cases h
    exact ⟨[], c, rfl, .nil, .nil c⟩
  | cons j rest ih =>
    rw [List.length_cons] at hroom
    obtain ⟨d', t', hsave, hrest⟩ := Step.bind_eq_ok h
    obtain ⟨after', t'', hrest, hpure⟩ := Step.bind_eq_ok hrest
    cases hpure
    obtain ⟨mapping, d, saved, himported, hd, hstep⟩ := m.saveJson_eq_ok hsave
    have hnamed := m.named_of_fromMapping hc (htakes j (by simp)) himported hd
    obtain ⟨c', rfl⟩ := m.save_holding hstep
    obtain ⟨hc', hnext, -, -⟩ := Saves.sound_of_save hc (by omega) hstep
    obtain ⟨ds, c'', rfl, hds, hsaves⟩ :=
      ih hc' (by omega) (fun j hj => htakes j (List.mem_cons_of_mem _ hj)) hrest
    exact ⟨d :: ds, c'', rfl, .cons ⟨mapping, _, himported, hd⟩ hds, .cons hnamed hstep hsaves⟩

/-- Where no element names a record that is stored, saving a list or importing one adds a record for
every element exactly when none names the identifier an earlier one is given. Then each element is
kept. -/
theorem import_iff {c : Collection} (hc : c.Reachable) {before : Contents}
    (hbefore : c.contents = some before) :
    (∀ ds answer after t, m.saveAll (ds, some c) = (.ok answer, after, t) →
      before.nextId.toInt + ds.length < idLimit →
      (∀ d ∈ ds, m.type.id d ∉ Keyed.keys before.records) →
        (m.count t = .ok (before.records.length + ds.length) ↔
          Unclaimed before.nextId (ds.map fun d => some (m.type.id d))) ∧
        (Unclaimed before.nextId (ds.map fun d => some (m.type.id d)) →
          m.EachKept c before.nextId ds after t)) ∧
    (∀ js after t, m.bulkSave js (some c) = (.ok after, t) →
      before.nextId.toInt + js.length < idLimit → (∀ j ∈ js, m.TakesId j) →
      (∀ j ∈ js, ∀ id, m.importKey j = some id → id ∉ Keyed.keys before.records) →
        ∃ ds, List.Forall₂ m.Describes js ds ∧
          (m.count t = .ok (before.records.length + js.length) ↔
            Unclaimed before.nextId (js.map m.importKey)) ∧
          (Unclaimed before.nextId (js.map m.importKey) →
            m.EachKept c before.nextId ds after t)) := by
  have hsound := hc.sound hbefore
  obtain ⟨name, contents⟩ := c
  cases hbefore
  constructor
  · intro ds answer after t h hroom hnew
    obtain ⟨stored, heach⟩ := m.saveEach_of_saveAll h
    obtain ⟨c'', rfl, hsaves⟩ := m.saves_of_saveEach heach
    have hlen : (ds.map fun d => some (m.type.id d)).length = ds.length := List.length_map _
    rw [← hlen] at hroom ⊢
    have hnew' : ∀ id, some id ∈ ds.map (fun d => some (m.type.id d)) →
        id ∉ Keyed.keys before.records := by
      intro id hid
      obtain ⟨d, hd, hkey⟩ := List.mem_map.mp hid
      exact Option.some.inj hkey ▸ hnew d hd
    exact hsaves.outcome hsound hroom hnew'
  · intro js after t h hroom htakes hnew
    obtain ⟨ds, c'', rfl, hds, hsaves⟩ := m.saves_of_bulkSave hsound hroom htakes h
    have hlen : (js.map m.importKey).length = js.length := List.length_map _
    rw [← hlen] at hroom ⊢
    have hnew' : ∀ id, some id ∈ js.map m.importKey → id ∉ Keyed.keys before.records := by
      intro id hid
      obtain ⟨j, hj, hkey⟩ := List.mem_map.mp hid
      exact hnew j hj id hkey
    exact ⟨ds, hds, hsaves.outcome hsound hroom hnew'⟩

end Model

/-! ## Anti-vacuity: lists that are kept, and one whose first element is overwritten -/

/-- Users, with nothing but a name beside their identifier. -/
inductive UserSchema where
  | user

instance : SchemaGraph UserSchema where
  schema
    | .user =>
      { name := "User", primaryKey := some "id", declared := [⟨"name", .string, none, false⟩] }
  all := [.user]
  mem_all := by rintro ⟨⟩; simp

/-- Users that are stored as they come. -/
def users : Model UserSchema Value := { type := .freeForm .user, name := "users", byAlias := false }

/-- A user as an object to be imported. -/
def userJson (id : Int) (name : String) : Json :=
  .object [("id", .int id), ("name", .string name)]

/-- A user as an instance. -/
def user (id : Int64) (name : String) : Value :=
  .document [("id", .int64 id), ("name", .string name)]

/-- A collection in which there was never a user. -/
def noUsers : Collection := { name := "users", contents := some {} }

theorem noUsers_reachable : noUsers.Reachable := ⟨0, by decide, .new _⟩

/-- An object without an identifier gives its user the one that is put in. -/
theorem users_takesId (j : Json) : users.TakesId j := by
  intro mapping _ _ id d hd
  have hdoc : Value.document (Value.capEntries (Keyed.insert mapping "id" (.int64 id))) = d :=
    Except.ok.inj hd
  have hid : users.type.id = DocumentType.idOf UserSchema.user := rfl
  rw [← hdoc, hid]
  simp [DocumentType.idOf, SchemaGraph.primaryKey, SchemaGraph.schema, Value.get?_capEntries,
    Value.capDates, Value.integer?]

theorem imported_userJson {n : Int} (h : Value.minInteger ≤ n ∧ n ≤ Value.maxInteger)
    (name : String) :
    users.imported (userJson n name) = .ok [("id", .int64 (.ofInt n)), ("name", .string name)] := by
  have hsorted : Keyed.sort [("id", Value.int64 (.ofInt n)), ("name", .string name)] =
      [("id", .int64 (.ofInt n)), ("name", .string name)] := by
    refine List.mergeSort_of_pairwise ?_
    simp
  have hread : users.type.format.read? (userJson n name) =
      some (.document [("id", .int64 (.ofInt n)), ("name", .string name)]) := by
    show (userJson n name).read? .wide = _
    simp [userJson, Json.read?, Json.readMembers?, Json.readInteger?, h, hsorted]
  rw [Model.imported, hread]
  rfl

/-- Two users that are saved as five and nine are stored as zero and one; so are two that are
imported. -/
theorem users_kept :
    (∃ after t, users.saveAll ([user 5 "a", user 9 "b"], some noUsers) = (.ok true, after, t) ∧
      users.count t = .ok 2 ∧
      users.EachKept noUsers 0 [user 5 "a", user 9 "b"] after t) ∧
    ∃ after t ds, users.bulkSave [userJson 5 "a", userJson 9 "b"] (some noUsers) =
        (.ok after, t) ∧
      users.count t = .ok 2 ∧ users.EachKept noUsers 0 ds after t := by
  obtain ⟨hlist, hjson⟩ := users.import_iff noUsers_reachable rfl
  have hfree : Unclaimed 0 [some 5, some 9] := ⟨by decide, by decide, trivial⟩
  constructor
  · obtain ⟨after, t, hsave⟩ : ∃ after t,
        users.saveAll ([user 5 "a", user 9 "b"], some noUsers) = (.ok true, after, t) :=
      ⟨_, _, rfl⟩
    obtain ⟨hcount, hkept⟩ := hlist _ _ after t hsave (by decide) (by simp [Keyed.keys])
    exact ⟨after, t, hsave, hcount.mpr hfree, hkept hfree⟩
  · obtain ⟨after, t, hsave⟩ : ∃ after t,
        users.bulkSave [userJson 5 "a", userJson 9 "b"] (some noUsers) = (.ok after, t) := by
      simp only [Model.bulkSave, Model.saveJson, imported_userJson (n := 5) (by decide),
        imported_userJson (n := 9) (by decide)]
      exact ⟨_, _, rfl⟩
    obtain ⟨ds, -, hcount, hkept⟩ := hjson _ after t hsave (by decide)
      (fun j _ => users_takesId j) (by simp [Keyed.keys])
    have hkeys : [userJson 5 "a", userJson 9 "b"].map users.importKey = [some 5, some 9] := by
      simp only [List.map_cons, List.map_nil, Model.importKey,
        imported_userJson (n := 5) (by decide), imported_userJson (n := 9) (by decide)]
      rfl
    rw [hkeys] at hcount hkept
    exact ⟨after, t, ds, hsave, hcount.mpr hfree, hkept hfree⟩

/-- Users one and zero are imported into an empty collection, and one user is left: the first is
stored as zero, and then the second is taken for an update of it. -/
theorem bulkSave_overwritten :
    [userJson 1 "a", userJson 0 "b"].map users.importKey = [some 1, some 0] ∧
      users.count (some noUsers) = .ok 0 ∧
      ∃ after t, users.bulkSave [userJson 1 "a", userJson 0 "b"] (some noUsers) = (.ok after, t) ∧
        after = [user 0 "a", user 0 "b"] ∧ users.count t = .ok 1 ∧
        users.getById 1 t = .ok none := by
  simp only [List.map_cons, List.map_nil, Model.importKey, Model.bulkSave, Model.saveJson,
    imported_userJson (n := 1) (by decide), imported_userJson (n := 0) (by decide)]
  refine ⟨rfl, rfl, _, _, rfl, rfl, rfl, rfl⟩

end TypedStore
