import TypedStore.Instance
import TypedStore.Model.Write
import TypedStore.Proofs.Renaming

/-!
Instances read back from their records.

A document comes back from its other spelling as long as its keys are kept apart at every level
(`KeysApart`): no two attributes have one record key, and no attribute has the key of something
that is not renamed for its record key. The primary key goes another way, under the reserved key
and back. `Recordable` is what a mapping keeps to so that neither gets in the way of the other, and
`fromRecord_toRecord` is the round trip. Only the place of the primary key is lost, which comes last,
and in a collection the identifier, which the collection gives.

A document in place of the identifier may be respelled on its way out and not on its way back. So
`Recordable` asks that there be none where the reserved key is also an alias, or the name of an
attribute; `embeddedId_respelled` is a mapping that fails in no more than that.
-/

namespace TypedStore

variable {σ D : Type} [SchemaGraph σ]

/-- The keys of a document and those it is stored under are kept apart, here and in the documents
of embedded attributes. -/
inductive KeysApart : σ → Document → Prop where
  | intro {s : σ} {d : Document} (distinct : Keyed.Nodup d)
    (recordKeys : ((SchemaGraph.fields s).map (·.recordKey true)).Nodup)
    (kept : ∀ k ∈ Keyed.keys d, SchemaGraph.renamed? .aliases s k = none →
      ∀ f ∈ SchemaGraph.fields s, f.isPrimaryKey = false → f.recordKey true ≠ k)
    (nested : ∀ k inner f t, Keyed.get? d k = some (.document inner) →
      SchemaGraph.renamed? .aliases s k = some f → f.kind = .embedded t → KeysApart t inner) :
    KeysApart s d

open SchemaGraph

theorem KeysApart.same {s : σ} {d : Document} (h : KeysApart s d) {k : String}
    (hk : k ∈ Keyed.keys d) :
    renamed? .attributes s (respelled .aliases s k) = renamed? .aliases s k := by
  obtain ⟨-, recordKeys, kept, -⟩ := h
  unfold respelled
  cases hren : renamed? .aliases s k with
  | none => exact renamed?_eq_none_iff.mpr (kept k hk hren)
  | some f =>
    obtain ⟨hf, hkey, -⟩ := renamed?_eq_some hren
    exact renamed?_recordKey recordKeys hf hkey

theorem KeysApart.respellable {s : σ} {d : Document} (h : KeysApart s d) :
    Respellable .aliases s d := by
  induction h with
  | @intro s d distinct recordKeys kept nested ih =>
    refine .intro distinct (fun k hk => ?_) ih
    exact (KeysApart.intro distinct recordKeys kept nested).same hk

namespace Model

variable (m : Model σ D)

/-- What a mapping keeps to so that it can be read back from its record: keys are distinct, and the
reserved one is nobody's but the primary key's. Where the model stores by alias all other keys are
kept apart at every level, and an attribute with the reserved key for a name or an alias is the
primary key's, too, and has no document to rename in it. -/
structure Recordable (mapping : Document) : Prop where
  distinct : Keyed.Nodup mapping
  reserved : reservedIdKey ∈ Keyed.keys mapping → reservedIdKey = m.primaryKey
  apart : m.byAlias = true → KeysApart m.type.schema (Keyed.erase mapping m.primaryKey)
  free : m.byAlias = true → ∀ f ∈ fields m.type.schema, f.isPrimaryKey = false →
    f.name = reservedIdKey ∨ f.recordKey true = reservedIdKey → f.name = m.primaryKey ∧
      ∀ t inner, f.kind = .embedded t →
        Keyed.get? mapping m.primaryKey ≠ some (.document inner)

namespace Recordable

variable {m} {mapping : Document}

theorem primaryKey_notMem (h : m.Recordable mapping) :
    m.primaryKey ∉ Keyed.keys (Keyed.erase mapping m.primaryKey) :=
  Keyed.notMem_keys_erase h.distinct _

theorem reserved_notMem (h : m.Recordable mapping) :
    reservedIdKey ∉ Keyed.keys (Keyed.erase mapping m.primaryKey) := by
  intro hmem
  have heq := h.reserved ((Keyed.keys_erase_sublist mapping m.primaryKey).subset hmem)
  rw [heq] at hmem
  exact h.primaryKey_notMem hmem

/-- An identifier comes back under one of two keys, and nothing else is under either of them. -/
theorem notMem_of_identifier (h : m.Recordable mapping) {k : String}
    (hk : k = reservedIdKey ∨ k = m.primaryKey) :
    k ∉ Keyed.keys (Keyed.erase mapping m.primaryKey) := by
  rcases hk with rfl | rfl
  · exact h.reserved_notMem
  · exact h.primaryKey_notMem

/-- The key that the identifier is stored under is nobody else's. -/
theorem respelled_ne (h : m.Recordable mapping) (halias : m.byAlias = true) {k : String}
    (hk : k ∈ Keyed.keys (Keyed.erase mapping m.primaryKey)) :
    respelled .aliases m.type.schema k ≠ respelled .aliases m.type.schema reservedIdKey := by
  obtain ⟨-, recordKeys, kept, -⟩ := h.apart halias
  have hne : k ≠ m.primaryKey := fun heq => h.primaryKey_notMem (heq ▸ hk)
  unfold respelled
  intro heq
  cases hren : renamed? .aliases m.type.schema k with
  | some f =>
    obtain ⟨hf, hplain, hname⟩ := renamed?_eq_some hren
    rw [hren] at heq
    cases hres : renamed? .aliases m.type.schema reservedIdKey with
    | none =>
      rw [hres] at heq
      exact hne (hname.symm.trans (h.free halias f hf hplain (.inr heq)).1)
    | some g =>
      -- both are renamed to one record key, so one attribute has both names
      rw [hres] at heq
      obtain ⟨hg, -, hgname⟩ := renamed?_eq_some hres
      have hsame : f = g := List.inj_on_of_nodup_map recordKeys hf hg heq
      have hfname : f.name = reservedIdKey := hsame ▸ hgname
      exact hne (hname.symm.trans (h.free halias f hf hplain (.inl hfname)).1)
  | none =>
    rw [hren] at heq
    cases hres : renamed? .aliases m.type.schema reservedIdKey with
    | none =>
      rw [hres] at heq
      have hkr : k = reservedIdKey := heq
      exact h.reserved_notMem (hkr ▸ hk)
    | some g =>
      rw [hres] at heq
      obtain ⟨hg, hplain, -⟩ := renamed?_eq_some hres
      exact kept k hk hren g hg hplain heq.symm

/-- The identifier comes back from its record under the reserved key, or already under the primary
key's name. -/
theorem renameEntry_reserved (h : m.Recordable mapping) (halias : m.byAlias = true) {v : Value}
    (hv : Keyed.get? mapping m.primaryKey = some v) :
    ∃ k, (k = reservedIdKey ∨ k = m.primaryKey) ∧
      renameEntry .attributes m.type.schema
        (renameEntry .aliases m.type.schema (reservedIdKey, v)) = (k, v) := by
  obtain ⟨-, recordKeys, -, -⟩ := h.apart halias
  -- an attribute in the way has no document to rename in it, so the identifier itself is kept
  have hsame : ∀ f ∈ fields m.type.schema, f.isPrimaryKey = false →
      f.name = reservedIdKey ∨ f.recordKey true = reservedIdKey →
      ∀ into, renameValue into f.kind v = v := by
    intro f hf hplain hres into
    refine renameValue_eq_self fun t inner hkind heq => ?_
    exact (h.free halias f hf hplain hres).2 t inner hkind (heq ▸ hv)
  cases hren : renamed? .aliases m.type.schema reservedIdKey with
  | some f =>
    obtain ⟨hf, hplain, hname⟩ := renamed?_eq_some hren
    have hfname : f.name = reservedIdKey := hname
    have hback := renamed?_recordKey recordKeys hf hplain
    refine ⟨reservedIdKey, .inl rfl, ?_⟩
    simp only [renameEntry, hren, Field.spelled, hback, hsame f hf hplain (.inl hfname), hfname]
  | none =>
    cases hback : renamed? .attributes m.type.schema reservedIdKey with
    | none => exact ⟨reservedIdKey, .inl rfl, by simp only [renameEntry, hren, hback]⟩
    | some f =>
      obtain ⟨hf, hplain, hkey⟩ := renamed?_eq_some hback
      have hfkey : f.recordKey true = reservedIdKey := hkey
      refine ⟨m.primaryKey, .inr rfl, ?_⟩
      simp only [renameEntry, hren, hback, Field.spelled, hsame f hf hplain (.inr hfkey),
        (h.free halias f hf hplain (.inr hfkey)).1]

theorem nodup_renameEntries_moveKey (h : m.Recordable mapping) (halias : m.byAlias = true)
    {v : Value} (hv : Keyed.get? mapping m.primaryKey = some v) :
    Keyed.Nodup (renameEntries .aliases m.type.schema
      (moveKey m.primaryKey reservedIdKey mapping)) := by
  obtain ⟨distinct, same, -⟩ := (h.apart halias).respellable
  have hothers := nodup_renameEntries distinct same
  rw [Keyed.Nodup, keys_renameEntries] at hothers ⊢
  rw [moveKey_eq_concat hv h.reserved_notMem, Keyed.keys, List.map_append, List.map_append,
    List.map_singleton, List.map_singleton, List.nodup_append]
  refine ⟨hothers, List.nodup_singleton _, ?_⟩
  intro k' hk' j hj
  obtain ⟨k, hk, rfl⟩ := List.mem_map.mp hk'
  rw [List.mem_singleton.mp hj]
  exact h.respelled_ne halias hk

/-- Stored by alias and read back, the moved mapping is itself again, except that the identifier
may be back under the primary key's name. -/
theorem rename_moveKey (h : m.Recordable mapping) (halias : m.byAlias = true) {v : Value}
    (hv : Keyed.get? mapping m.primaryKey = some v) :
    ∃ k, (k = reservedIdKey ∨ k = m.primaryKey) ∧
      rename .attributes m.type.schema (rename .aliases m.type.schema
        (moveKey m.primaryKey reservedIdKey mapping)) =
          Keyed.erase mapping m.primaryKey ++ [(k, v)] := by
  obtain ⟨k, hk, hentry⟩ := h.renameEntry_reserved halias hv
  have hothers : ∀ e ∈ Keyed.erase mapping m.primaryKey,
      renameEntry .attributes m.type.schema (renameEntry .aliases m.type.schema e) = e :=
    (h.apart halias).respellable.entry_back
  refine ⟨k, hk, ?_⟩
  rw [rename_rename_eq _ (h.nodup_renameEntries_moveKey halias hv),
    moveKey_eq_concat hv h.reserved_notMem, List.map_append, List.map_singleton, hentry,
    List.map_congr_left hothers, List.map_id', Keyed.ofPairs_of_nodup]
  exact Keyed.nodup_concat (Keyed.nodup_erase h.distinct _) (h.notMem_of_identifier hk) v

/-- Wherever it came back to, the identifier is moved to the end under the primary key's name. -/
theorem moveKey_back (h : m.Recordable mapping) {k : String}
    (hk : k = reservedIdKey ∨ k = m.primaryKey) (v : Value) :
    moveKey reservedIdKey m.primaryKey (Keyed.erase mapping m.primaryKey ++ [(k, v)]) =
      Keyed.erase mapping m.primaryKey ++ [(m.primaryKey, v)] := by
  by_cases hres : k = reservedIdKey
  · rw [hres, moveKey_concat h.reserved_notMem h.primaryKey_notMem]
  · -- the identifier is back already, and nothing is under the reserved key
    have hkey : k = m.primaryKey := hk.resolve_left hres
    rw [moveKey_of_notMem, hkey]
    rw [Keyed.keys, List.map_append, List.mem_append, List.map_singleton, List.mem_singleton]
    exact not_or.mpr ⟨h.reserved_notMem, Ne.symm hres⟩

/-- Moved under the reserved key, stored, read and moved back, the mapping is itself again, with the
primary key at the end. -/
theorem moveKey_ofStored_toStored (h : m.Recordable mapping) :
    moveKey reservedIdKey m.primaryKey
      (m.ofStored (m.toStored (moveKey m.primaryKey reservedIdKey mapping))) =
        moveKey m.primaryKey m.primaryKey mapping := by
  cases hv : Keyed.get? mapping m.primaryKey with
  | none =>
    have habsent := Keyed.get?_eq_none_iff.mp hv
    have hreserved : reservedIdKey ∉ Keyed.keys mapping := by
      rw [← Keyed.erase_of_notMem habsent]
      exact h.reserved_notMem
    have hback : m.ofStored (m.toStored mapping) = mapping := by
      unfold ofStored toStored
      split
      · next halias =>
        have hapart := h.apart halias
        rw [Keyed.erase_of_notMem habsent] at hapart
        exact rename_rename hapart.respellable
      · rfl
    rw [moveKey_of_notMem habsent, hback, moveKey_of_notMem hreserved, moveKey_of_notMem habsent]
  | some v =>
    obtain ⟨k, hk, hback⟩ : ∃ k, (k = reservedIdKey ∨ k = m.primaryKey) ∧
        m.ofStored (m.toStored (moveKey m.primaryKey reservedIdKey mapping)) =
          Keyed.erase mapping m.primaryKey ++ [(k, v)] := by
      unfold ofStored toStored
      split
      · next halias => exact h.rename_moveKey halias hv
      · exact ⟨reservedIdKey, .inl rfl, moveKey_eq_concat hv h.reserved_notMem⟩
    rw [hback, moveKey_eq_concat hv h.primaryKey_notMem, h.moveKey_back hk]

/-! ### Under the identifier that a collection gives -/

/-- Nothing else is stored under the reserved key. -/
theorem respelled_ne_reserved (h : m.Recordable mapping) (halias : m.byAlias = true) {k : String}
    (hk : k ∈ Keyed.keys (Keyed.erase mapping m.primaryKey)) :
    respelled .aliases m.type.schema k ≠ reservedIdKey := by
  intro heq
  unfold respelled at heq
  cases hren : renamed? .aliases m.type.schema k with
  | some f =>
    rw [hren] at heq
    obtain ⟨hf, hplain, hname⟩ := renamed?_eq_some hren
    have hkey : k = m.primaryKey := hname.symm.trans (h.free halias f hf hplain (.inr heq)).1
    exact h.primaryKey_notMem (hkey ▸ hk)
  | none =>
    rw [hren] at heq
    have hkey : k = reservedIdKey := heq
    exact h.reserved_notMem (hkey ▸ hk)

/-- An identifier comes back from under the reserved key, or is already under the primary key's
name. -/
theorem renameEntry_identifier (h : m.Recordable mapping) (halias : m.byAlias = true)
    (n : RecordId) : ∃ k, (k = reservedIdKey ∨ k = m.primaryKey) ∧
      renameEntry .attributes m.type.schema (reservedIdKey, .int64 n) = (k, .int64 n) := by
  cases hback : renamed? .attributes m.type.schema reservedIdKey with
  | none => exact ⟨reservedIdKey, .inl rfl, by simp only [renameEntry, hback]⟩
  | some f =>
    obtain ⟨hf, hplain, hkey⟩ := renamed?_eq_some hback
    have hname := (h.free halias f hf hplain (.inr hkey)).1
    refine ⟨m.primaryKey, .inr rfl, ?_⟩
    simp only [renameEntry, hback, Field.spelled, hname, renameValue]

/-- Where the reserved key is respelled, it is the primary key's name, and comes back as such. -/
theorem renameEntry_respelled (h : m.Recordable mapping) (halias : m.byAlias = true)
    (hres : respelled .aliases m.type.schema reservedIdKey ≠ reservedIdKey) (v : Value) :
    m.primaryKey = reservedIdKey ∧ (renameEntry .attributes m.type.schema
      (renameEntry .aliases m.type.schema (reservedIdKey, v))).1 = reservedIdKey := by
  obtain ⟨-, recordKeys, -, -⟩ := h.apart halias
  cases hren : renamed? .aliases m.type.schema reservedIdKey with
  | none => exact absurd (by rw [respelled, hren]) hres
  | some f =>
    obtain ⟨hf, hplain, hname⟩ := renamed?_eq_some hren
    have hfname : f.name = reservedIdKey := hname
    have hback := renamed?_recordKey recordKeys hf hplain
    refine ⟨(h.free halias f hf hplain (.inl hfname)).1.symm.trans hfname, ?_⟩
    simp only [renameEntry, hren, Field.spelled, hback, hfname]

/-- By alias, the identifier that the collection gives stands at the end of the record, and what the
instance had for one is gone, or before it under an alias. -/
theorem stamped_rename (h : m.Recordable mapping) (halias : m.byAlias = true) (n : RecordId) :
    ∃ rest : Document,
      (rest = [] ∨ ∃ v, respelled .aliases m.type.schema reservedIdKey ≠ reservedIdKey ∧
        rest = [renameEntry .aliases m.type.schema (reservedIdKey, v)]) ∧
      Contents.stamped n (rename .aliases m.type.schema
          (moveKey m.primaryKey reservedIdKey mapping)) =
        (Keyed.erase mapping m.primaryKey).map (renameEntry .aliases m.type.schema) ++ rest ++
          [(reservedIdKey, .int64 n)] := by
  have hothers : reservedIdKey ∉ Keyed.keys ((Keyed.erase mapping m.primaryKey).map
      (renameEntry .aliases m.type.schema)) := by
    rw [← renameEntries_eq_map, keys_renameEntries]
    intro hmem
    obtain ⟨k, hk, heq⟩ := List.mem_map.mp hmem
    exact h.respelled_ne_reserved halias hk heq
  cases hv : Keyed.get? mapping m.primaryKey with
  | none =>
    have habsent := Keyed.get?_eq_none_iff.mp hv
    have hsame := (h.apart halias).respellable
    rw [Keyed.erase_of_notMem habsent] at hothers hsame ⊢
    obtain ⟨distinct, same, -⟩ := hsame
    refine ⟨[], .inl rfl, ?_⟩
    rw [moveKey_of_notMem habsent, rename_eq_map (nodup_renameEntries distinct same),
      Contents.stamped, Keyed.insert_of_notMem hothers, List.append_nil]
  | some v =>
    have hmoved := rename_eq_map (h.nodup_renameEntries_moveKey halias hv)
    rw [moveKey_eq_concat hv h.reserved_notMem, List.map_append, List.map_singleton] at hmoved
    rw [moveKey_eq_concat hv h.reserved_notMem, hmoved, Contents.stamped]
    have hkey := renameEntry_fst .aliases m.type.schema (reservedIdKey, v)
    by_cases hres : respelled .aliases m.type.schema reservedIdKey = reservedIdKey
    · -- the identifier that was there is replaced
      refine ⟨[], .inl rfl, ?_⟩
      have hentry : renameEntry .aliases m.type.schema (reservedIdKey, v) =
          (reservedIdKey, (renameEntry .aliases m.type.schema (reservedIdKey, v)).2) :=
        Prod.ext (hkey.trans hres) rfl
      rw [hentry, Keyed.insert_concat hothers, List.append_nil]
    · refine ⟨_, .inr ⟨v, hres, rfl⟩, Keyed.insert_of_notMem ?_ _⟩
      rw [Keyed.keys, List.map_append, List.mem_append, List.map_singleton, List.mem_singleton,
        hkey]
      exact not_or.mpr ⟨hothers, Ne.symm hres⟩

/-- Stored under an identifier and spelled back, the mapping has that identifier at the end. -/
theorem rename_stamped (h : m.Recordable mapping) (halias : m.byAlias = true) {n : RecordId}
    {k : String} (hk : k = reservedIdKey ∨ k = m.primaryKey)
    (hid : renameEntry .attributes m.type.schema (reservedIdKey, .int64 n) = (k, .int64 n)) :
    rename .attributes m.type.schema (Contents.stamped n (rename .aliases m.type.schema
        (moveKey m.primaryKey reservedIdKey mapping))) =
      Keyed.erase mapping m.primaryKey ++ [(k, .int64 n)] := by
  have hback : ((Keyed.erase mapping m.primaryKey).map (renameEntry .aliases m.type.schema)).map
      (renameEntry .attributes m.type.schema) = Keyed.erase mapping m.primaryKey := by
    rw [List.map_map]
    exact (List.map_congr_left (h.apart halias).respellable.entry_back).trans (List.map_id' _)
  have hdistinct := Keyed.nodup_erase h.distinct m.primaryKey
  obtain ⟨rest, hrest, hstamped⟩ := h.stamped_rename halias n
  rw [hstamped, rename, renameEntries_eq_map, List.map_append, List.map_append, hback,
    List.map_singleton, hid]
  rcases hrest with rfl | ⟨v, hres, rfl⟩
  · have hall := Keyed.nodup_concat hdistinct (h.notMem_of_identifier hk) (.int64 n)
    rw [List.map_nil, List.append_nil, Keyed.ofPairs_of_nodup hall]
  · -- the alias is the primary key's, so the later of the two entries wins
    obtain ⟨hkey, hfst⟩ := h.renameEntry_respelled halias hres v
    obtain rfl : k = reservedIdKey := hk.elim id fun hk => hk.trans hkey
    obtain ⟨w, hentry⟩ : ∃ w, renameEntry .attributes m.type.schema
        (renameEntry .aliases m.type.schema (reservedIdKey, v)) = (reservedIdKey, w) :=
      ⟨_, Prod.ext hfst rfl⟩
    have hfirst : Keyed.ofPairs (Keyed.erase mapping m.primaryKey ++ [(reservedIdKey, w)]) = _ :=
      Keyed.ofPairs_of_nodup (Keyed.nodup_concat hdistinct h.reserved_notMem w)
    rw [List.map_singleton, hentry, Keyed.ofPairs, List.foldl_append, ← Keyed.ofPairs, hfirst]
    exact Keyed.insert_concat h.reserved_notMem _ _

/-- Whatever identifier the collection gives, the record is read as the mapping with that one at the
end. -/
theorem moveKey_ofStored_stamped (h : m.Recordable mapping) (n : RecordId) :
    moveKey reservedIdKey m.primaryKey (m.ofStored (Contents.stamped n
        (m.toStored (moveKey m.primaryKey reservedIdKey mapping)))) =
      Keyed.erase mapping m.primaryKey ++ [(m.primaryKey, .int64 n)] := by
  unfold ofStored toStored
  split
  · next halias =>
    obtain ⟨k, hk, hid⟩ := h.renameEntry_identifier halias n
    rw [h.rename_stamped halias hk hid, h.moveKey_back hk]
  · have hstamped : Contents.stamped n (moveKey m.primaryKey reservedIdKey mapping) =
        Keyed.erase mapping m.primaryKey ++ [(reservedIdKey, .int64 n)] := by
      cases hv : Keyed.get? mapping m.primaryKey with
      | none =>
        have habsent := Keyed.get?_eq_none_iff.mp hv
        have hreserved := h.reserved_notMem
        rw [Keyed.erase_of_notMem habsent] at hreserved ⊢
        rw [moveKey_of_notMem habsent, Contents.stamped, Keyed.insert_of_notMem hreserved]
      | some v =>
        rw [moveKey_eq_concat hv h.reserved_notMem, Contents.stamped,
          Keyed.insert_concat h.reserved_notMem]
    rw [hstamped, h.moveKey_back (.inl rfl)]

end Recordable

/-- The record of an instance whose mapping is recordable is read as that mapping, up to the place
of the primary key, and with the identifier that a collection gives it, as the mapping with that
one. So where a type gives an instance back from its mapping and does not look at the order of keys,
it gives the instance back from its record. -/
theorem fromRecord_toRecord {d : D} {mapping : Document}
    (hmapping : m.type.toMapping d = .ok mapping) (h : m.Recordable mapping) :
    ∃ record, m.toRecord d = .ok record ∧
      m.fromRecord record = m.type.fromMapping (moveKey m.primaryKey m.primaryKey mapping) ∧
      (moveKey m.primaryKey m.primaryKey mapping).Perm mapping ∧
      (∀ n, m.fromRecord (Contents.stamped n record) = m.type.fromMapping
        (Keyed.erase mapping m.primaryKey ++ [(m.primaryKey, .int64 n)])) ∧
      ((∀ a b : Document, Keyed.Nodup a → a.Perm b → m.type.fromMapping a = m.type.fromMapping b) →
        m.type.fromMapping mapping = .ok d → m.fromRecord record = .ok d) := by
  have hrecord : m.toRecord d = .ok (m.toStored (moveKey m.primaryKey reservedIdKey mapping)) := by
    rw [toRecord, hmapping]
    rfl
  have hread : m.fromRecord (m.toStored (moveKey m.primaryKey reservedIdKey mapping)) =
      m.type.fromMapping (moveKey m.primaryKey m.primaryKey mapping) := by
    rw [fromRecord, h.moveKey_ofStored_toStored]
  have hperm := perm_moveKey_self m.primaryKey h.distinct
  refine ⟨_, hrecord, hread, hperm, ?_, ?_⟩
  · intro n
    rw [fromRecord, h.moveKey_ofStored_stamped]
  · intro hblind hd
    rw [hread, ← hd]
    exact (hblind mapping _ h.distinct hperm.symm).symm

end Model

/-! ## Anti-vacuity: two attributes that trade names, at two levels of one schema -/

/-- Switches, which may hold another switch. -/
inductive SwitchSchema where
  | switch
  deriving DecidableEq

instance : SchemaGraph SwitchSchema where
  schema
    | .switch =>
      { name := "Switch", primaryKey := some "id",
        declared := [⟨"left", .any, some "right", false⟩, ⟨"right", .any, some "left", false⟩,
          ⟨"inner", .embedded .switch, some "within", false⟩] }
  all := [.switch]
  mem_all := by rintro ⟨⟩; simp

/-- A switch as an instance. -/
structure Switch where
  id : RecordId
  left : Value
  right : Value
  inner : Value

/-- Switches are read key by key, in whatever order. -/
def switchType : DocumentType SwitchSchema Switch where
  schema := .switch
  id := Switch.id
  setId d id := { d with id }
  serialize d := some (.document
    [("id", .int64 d.id), ("left", d.left), ("right", d.right), ("inner", d.inner)])
  deserialize mapping := some
    { id := ((Keyed.get? mapping "id").bind Value.integer?).getD 0
      left := (Keyed.get? mapping "left").getD .null
      right := (Keyed.get? mapping "right").getD .null
      inner := (Keyed.get? mapping "inner").getD .null }
  toJson? _ := none
  ofJson? _ := none

/-- Switches that are stored by alias. -/
def switches : Model SwitchSchema Switch :=
  { type := switchType, name := "switches", byAlias := true }

/-- What is inside the switch below, with a key that no switch declares. -/
def innerEntries : Document :=
  [("left", .null), ("spare", .bool true), ("right", .array [.string "a", .null])]

/-- A switch with another one inside. -/
def nestedSwitch : Switch :=
  { id := 7, left := .string "on", right := .int64 2, inner := .document innerEntries }

theorem innerEntries_keysApart : KeysApart SwitchSchema.switch innerEntries := by
  refine .intro (by unfold Keyed.Nodup; decide) (by decide) (by decide) ?_
  intro k inner f t hget
  have hmem := Keyed.mem_of_get? hget
  simp [innerEntries] at hmem

theorem nestedSwitch_recordable {mapping : Document}
    (h : switches.type.toMapping nestedSwitch = .ok mapping) : switches.Recordable mapping := by
  have hfree : ∀ f ∈ fields SwitchSchema.switch, f.isPrimaryKey = false →
      ¬(f.name = reservedIdKey ∨ f.recordKey true = reservedIdKey) := by decide
  cases h
  refine ⟨by unfold Keyed.Nodup; decide, by decide, fun _ => ?_, fun _ f hf hplain hres =>
    absurd hres (hfree f hf hplain)⟩
  show KeysApart SwitchSchema.switch
    [("left", .string "on"), ("right", .int64 2), ("inner", .document innerEntries)]
  refine .intro (by unfold Keyed.Nodup; decide) (by decide) (by decide) ?_
  intro k inner f t hget _ _
  have hmem := Keyed.mem_of_get? hget
  simp only [List.mem_cons, Prod.mk.injEq, reduceCtorEq, and_false, false_or, Value.document.injEq,
    List.not_mem_nil, or_false] at hmem
  rw [hmem.2]
  exact innerEntries_keysApart

/-- The switch is stored with its two sides traded, here and inside, and read back as it was. -/
theorem nestedSwitch_back :
    ∃ record, switches.toRecord nestedSwitch = .ok record ∧
      record = [("right", .string "on"), ("left", .int64 2),
        ("within", .document [("right", .null), ("spare", .bool true),
          ("left", .array [.string "a", .null])]), ("__id", .int64 7)] ∧
      switches.fromRecord record = .ok nestedSwitch := by
  obtain ⟨mapping, hmapping⟩ : ∃ mapping, switches.type.toMapping nestedSwitch = .ok mapping :=
    ⟨_, rfl⟩
  obtain ⟨record, hrecord, -, -, -, hback⟩ :=
    switches.fromRecord_toRecord hmapping (nestedSwitch_recordable hmapping)
  refine ⟨record, hrecord, ?_, hback ?_ ?_⟩
  · have hrun : switches.toRecord nestedSwitch = .ok [("right", .string "on"), ("left", .int64 2),
        ("within", .document [("right", .null), ("spare", .bool true),
          ("left", .array [.string "a", .null])]), ("__id", .int64 7)] := rfl
    rw [hrun] at hrecord
    exact (Except.ok.inj hrecord).symm
  · intro a b ha hperm
    have hget := Keyed.get?_perm ha hperm
    show Except.ok _ = Except.ok _
    simp only [hget]
  · cases hmapping
    rfl

/-! ## A document in place of the identifier -/

/-- Items, and what may stand in place of their identifier. -/
inductive ItemSchema where
  | item
  | inside
  deriving DecidableEq

instance : SchemaGraph ItemSchema where
  schema
    | .item =>
      { name := "Item", primaryKey := some "id",
        declared := [⟨"id", .embedded .inside, some "__id", false⟩] }
    | .inside =>
      { name := "Inside",
        declared := [⟨"a", .any, some "b", false⟩, ⟨"b", .any, some "a", false⟩] }
  all := [.item, .inside]
  mem_all := by rintro ⟨⟩ <;> simp

/-- Items of any form that are stored by alias. -/
def items : Model ItemSchema Value :=
  { type := .freeForm .item, name := "items", byAlias := true }

/-- The mapping of an item with a document for its identifier. -/
def embeddedId : Document := [("id", .document [("a", .int64 1)])]

theorem embeddedId_keysApart : KeysApart ItemSchema.item embeddedId := by
  refine .intro (by unfold Keyed.Nodup; decide) (by decide) (by decide) ?_
  intro k inner f t hget hren hkind
  have hmem := Keyed.mem_of_get? hget
  simp only [embeddedId, List.mem_singleton, Prod.mk.injEq, Value.document.injEq] at hmem
  obtain ⟨rfl, rfl⟩ := hmem
  cases hren
  cases hkind
  refine .intro (by unfold Keyed.Nodup; decide) (by decide) (by decide) ?_
  intro k inner f t hget
  have hmem := Keyed.mem_of_get? hget
  simp at hmem

/-- The keys are kept apart at both levels, the reserved one is an alias of the primary key only,
and the item is read from its mapping as it was. But it is respelled when it is read from its
record, where its identifier stands under an alias, and not when that was written. In a collection
its identifier is replaced. -/
theorem embeddedId_respelled :
    KeysApart items.type.schema embeddedId ∧ reservedIdKey ∉ Keyed.keys embeddedId ∧
      (∀ f ∈ fields items.type.schema, f.name = reservedIdKey ∨ f.recordKey true = reservedIdKey →
        f.name = items.primaryKey) ∧
      items.type.toMapping (.document embeddedId) = .ok embeddedId ∧
      items.type.fromMapping embeddedId = .ok (.document embeddedId) ∧
      (∃ record, items.toRecord (.document embeddedId) = .ok record ∧
        items.fromRecord record = .ok (.document [("id", .document [("b", .int64 1)])])) ∧
      ∃ d t, items.insert (.document embeddedId, some ⟨items.name, some {}⟩) = (.ok (), d, t) ∧
        items.getById 0 t = .ok (some (.document [("id", .int64 0)])) :=
  ⟨embeddedId_keysApart, by decide, by decide, rfl, rfl, ⟨_, rfl, rfl⟩, _, _, rfl, rfl⟩

end TypedStore
