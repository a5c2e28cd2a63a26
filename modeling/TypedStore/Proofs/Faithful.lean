import TypedStore.Proofs.KeyOrder
import TypedStore.Proofs.Mirroring

/-!
Instances that come back from storage.

Storing an instance and reading it back changes two things: the record has the identifier that the
collection gives, and the primary key comes last. A type is recoverable if it reads its own documents
back and takes no notice of the second change, except that it may write the primary key last, too
(`Model.Recoverable`). Then what is read from the record of an instance, under any identifier, is
written as the instance with that identifier is (`Recoverable.fromRecord_stamped`), by alias or not.
Instances that are written as documents that are the same are alike (`Model.Alike`); a type that does
not look at the order of keys even gives the instance itself (`Model.Faithful`,
`Faithful.fromRecord_stamped`).
-/

namespace TypedStore

/-- A key that is written stands in its place or at the end: the entries are the same. -/
theorem Keyed.insert_perm_concat {κ α : Type} [DecidableEq κ] (d : Keyed κ α) (k : κ) (v : α) :
    (Keyed.insert d k v).Perm (Keyed.erase d k ++ [(k, v)]) := by
  induction d with
  | nil => rfl
  | cons e rest ih =>
    rw [Keyed.insert, Keyed.erase]
    by_cases h : e.1 = k
    · rw [if_pos h, if_pos h]
      exact (List.perm_append_singleton ..).symm
    · rw [if_neg h, if_neg h]
      exact ih.cons e

variable {σ D : Type} [SchemaGraph σ]

open SchemaGraph

namespace Model

/-- The two instances are written as documents that are the same. -/
def Alike (m : Model σ D) (d d' : D) : Prop :=
  ∃ mapping mapping', m.type.toMapping d = .ok mapping ∧ m.type.toMapping d' = .ok mapping' ∧
    Document.Same mapping mapping'

/-- An instance is read from the document that it is written as, and with the primary key moved to
the end of it, one that is alike. The identifier is the integer under the primary key, and nothing
else changes with it. Documents hold declared attributes only, aliases are kept apart at every level,
and the keys that attributes have in records without aliases are distinct. -/
structure Recoverable (m : Model σ D) (key : String) : Prop extends Aliasable m where
  primaryKey : SchemaGraph.primaryKey m.type.schema = some key
  recordKeys : (plainKeys m.type.schema key).Nodup
  back : ∀ d mapping, m.type.toMapping d = .ok mapping → m.type.fromMapping mapping = .ok d
  moved : ∀ d mapping read, m.type.toMapping d = .ok mapping →
    m.type.fromMapping mapping = .ok read →
      ∃ read', m.type.fromMapping (moveKey key key mapping) = .ok read' ∧ m.Alike read' read
  id : ∀ d mapping, m.type.toMapping d = .ok mapping →
    Keyed.get? mapping key = some (.int64 (m.type.id d))
  setId : ∀ d mapping n, m.type.toMapping d = .ok mapping →
    ∃ mapping', m.type.toMapping (m.type.setId d n) = .ok mapping' ∧
      Keyed.get? mapping' key = some (.int64 n) ∧
        Keyed.erase mapping' key = Keyed.erase mapping key

/-- What is read from the document of an instance, with the primary key at its end, is the instance
itself. -/
def ReadsBack (m : Model σ D) (key : String) : Prop :=
  ∀ d mapping, m.type.toMapping d = .ok mapping →
    m.type.fromMapping (moveKey key key mapping) = .ok d

/-- An instance is read from the entries it is written as, whatever their order. Its identifier is
the integer under the primary key, and nothing else changes with it. Its documents hold declared
attributes only, aliases are kept apart at every level, and the keys that attributes have in records
without aliases are distinct. -/
structure Faithful (m : Model σ D) (key : String) : Prop extends Aliasable m where
  primaryKey : SchemaGraph.primaryKey m.type.schema = some key
  recordKeys : (plainKeys m.type.schema key).Nodup
  back : ∀ d mapping mapping', m.type.toMapping d = .ok mapping → mapping'.Perm mapping →
    m.type.fromMapping mapping' = .ok d
  id : ∀ d mapping, m.type.toMapping d = .ok mapping →
    Keyed.get? mapping key = some (.int64 (m.type.id d))
  setId : ∀ d mapping n, m.type.toMapping d = .ok mapping →
    ∃ mapping', m.type.toMapping (m.type.setId d n) = .ok mapping' ∧
      mapping'.Perm (Keyed.insert mapping key (.int64 n))

variable {m : Model σ D} {key : String} {d : D} {mapping record : Document}

theorem toRecord_eq_ok (h : m.toRecord d = .ok record) :
    ∃ mapping, m.type.toMapping d = .ok mapping ∧
      record = m.toStored (moveKey m.primaryKey reservedIdKey mapping) := by
  unfold toRecord at h
  cases hd : m.type.toMapping d with
  | error e =>
    rw [hd] at h
    cases h
  | ok mapping =>
    rw [hd] at h
    cases h
    exact ⟨mapping, rfl, rfl⟩

/-- The record of a declared document, under any identifier, reads as the document with that one. -/
theorem fromRecord_stamped_toStored (hdeclared : Declared m.type.schema mapping)
    (hapart : ∀ t, Relation.ReflTransGen Embeds m.type.schema t → AliasesApart t)
    (hkeys : (plainKeys m.type.schema m.primaryKey).Nodup)
    {v : Value} (hv : Keyed.get? mapping m.primaryKey = some v) (n : RecordId) :
    m.fromRecord (Contents.stamped n (m.toStored (moveKey m.primaryKey reservedIdKey mapping))) =
      m.type.fromMapping (Keyed.erase mapping m.primaryKey ++ [(m.primaryKey, .int64 n)]) := by
  have hreserved := hdeclared.reserved_notMem_erase hkeys
  have hkey := Keyed.notMem_keys_erase hdeclared.nodup m.primaryKey
  have hback : m.ofStored (Contents.stamped n
      (m.toStored (moveKey m.primaryKey reservedIdKey mapping))) =
        Contents.stamped n (moveKey m.primaryKey reservedIdKey mapping) := by
    unfold ofStored toStored
    split
    · exact hdeclared.rename_stamped hapart m.primaryKey n
    · rfl
  rw [fromRecord, hback, moveKey_eq_concat hv hreserved, Contents.stamped,
    Keyed.insert_concat hreserved, moveKey_concat hreserved hkey]

namespace Recoverable

theorem primaryKey_eq (hm : m.Recoverable key) : m.primaryKey = key :=
  primaryKey_eq_of_some hm.primaryKey

/-- The record of an instance, under any identifier, is read as its document with that identifier
at the end. -/
theorem fromRecord_eq (hm : m.Recoverable key) (hd : m.type.toMapping d = .ok mapping)
    (n : RecordId) :
    m.fromRecord
        (Contents.stamped n (m.toStored (moveKey m.primaryKey reservedIdKey mapping))) =
      m.type.fromMapping (Keyed.erase mapping key ++ [(key, .int64 n)]) := by
  obtain rfl := hm.primaryKey_eq
  exact fromRecord_stamped_toStored (hm.declared d mapping hd) hm.apart hm.recordKeys
    (hm.id d mapping hd) n

theorem moveKey_eq (hm : m.Recoverable key) (hd : m.type.toMapping d = .ok mapping)
    {n : RecordId} (hget : Keyed.get? mapping key = some (.int64 n)) :
    moveKey key key mapping = Keyed.erase mapping key ++ [(key, .int64 n)] :=
  moveKey_eq_concat hget (Keyed.notMem_keys_erase (hm.declared d mapping hd).nodup key)

/-- From the record of an instance, under its own identifier, one is read that is alike. -/
theorem fromRecord_own (hm : m.Recoverable key) (h : m.toRecord d = .ok record) :
    ∃ read, m.fromRecord (Contents.stamped (m.type.id d) record) = .ok read ∧ m.Alike read d ∧
      (m.ReadsBack key → read = d) := by
  obtain ⟨mapping, hd, rfl⟩ := toRecord_eq_ok h
  obtain ⟨read, hread, halike⟩ := hm.moved d mapping d hd (hm.back d mapping hd)
  refine ⟨read, ?_, halike, fun hback => ?_⟩
  · rw [hm.fromRecord_eq hd, ← hm.moveKey_eq hd (hm.id d mapping hd), hread]
  · rw [hback d mapping hd] at hread
    exact (Except.ok.inj hread).symm

/-- From the record of an instance, under any identifier, one is read that is alike the instance with
that identifier. -/
theorem fromRecord_stamped (hm : m.Recoverable key) (h : m.toRecord d = .ok record)
    (n : RecordId) :
    ∃ read, m.fromRecord (Contents.stamped n record) = .ok read ∧
      m.Alike read (m.type.setId d n) ∧ (m.ReadsBack key → read = m.type.setId d n) := by
  obtain ⟨mapping, hd, rfl⟩ := toRecord_eq_ok h
  obtain ⟨mapping', hset, hget, hothers⟩ := hm.setId d mapping n hd
  obtain ⟨read, hread, halike⟩ := hm.moved _ mapping' _ hset (hm.back _ mapping' hset)
  refine ⟨read, ?_, halike, fun hback => ?_⟩
  · rw [hm.fromRecord_eq hd, ← hothers, ← hm.moveKey_eq hset hget, hread]
  · rw [hback _ mapping' hset] at hread
    exact (Except.ok.inj hread).symm

theorem id_setId (hm : m.Recoverable key) (h : m.toRecord d = .ok record) (n : RecordId) :
    m.type.id (m.type.setId d n) = n := by
  obtain ⟨mapping, hd, -⟩ := toRecord_eq_ok h
  obtain ⟨mapping', hset, hget, -⟩ := hm.setId d mapping n hd
  rw [hm.id _ mapping' hset] at hget
  exact Value.int64.inj (Option.some.inj hget)

/-- Instances that are alike have one identifier. -/
theorem id_of_alike (hm : m.Recoverable key) {d' : D} (h : m.Alike d d') :
    m.type.id d = m.type.id d' := by
  obtain ⟨mapping, mapping', hd, hd', hsame⟩ := h
  have hget := hsame.get?_scalar (hm.declared d' mapping' hd').nodup (hm.id d' mapping' hd') rfl
  rw [hm.id d mapping hd] at hget
  exact Value.int64.inj (Option.some.inj hget)

end Recoverable

namespace Faithful

theorem primaryKey_eq (hm : m.Faithful key) : m.primaryKey = key :=
  primaryKey_eq_of_some hm.primaryKey

/-- The record of an instance, under any identifier, reads as the instance with that identifier. -/
theorem fromRecord_stamped (hm : m.Faithful key) (h : m.toRecord d = .ok record) (n : RecordId) :
    m.fromRecord (Contents.stamped n record) = .ok (m.type.setId d n) := by
  obtain ⟨mapping, hd, rfl⟩ := toRecord_eq_ok h
  obtain ⟨mapping', hset, hperm⟩ := hm.setId d mapping n hd
  obtain rfl := hm.primaryKey_eq
  rw [fromRecord_stamped_toStored (hm.declared d mapping hd) hm.apart hm.recordKeys
    (hm.id d mapping hd)]
  refine hm.back _ mapping' _ hset ?_
  exact (Keyed.insert_perm_concat mapping m.primaryKey (.int64 n)).symm.trans hperm.symm

end Faithful

end Model

end TypedStore
