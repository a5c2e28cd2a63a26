import TypedStore.Proofs.Fits
import TypedStore.Proofs.Pinning

/-!
Upserts settle: a repeated one changes nothing.

The type holds every mapping as it is (`DocumentType.Verbatim`), and the conditions pin attributes
down to literals. After a first upsert the first match is a record that the defaults are merged
into already (`Settled`): the one that was made from the template and the defaults
(`create_settled`), or the match with the defaults over it, which still meets the conditions since
the defaults are for other attributes (`update_settled`). From there an upsert finds that record,
puts it back as it is and answers with its instance (`Settled.getOrCreate_eq`,
`Settled.updateOrCreate_eq`). So it does when the first one is repeated (`getOrCreate_again`,
`updateOrCreate_again`), which is `upserts_settle`.
-/

namespace TypedStore

variable {σ D : Type} [SchemaGraph σ]

/-- Instances hold any mapping as it is, and their identifier is the integer under the primary
key. -/
structure DocumentType.Verbatim (type : DocumentType σ D) (key : String) : Prop where
  held : ∀ mapping, ∃ d, type.fromMapping mapping = .ok d
  same : ∀ mapping d, type.fromMapping mapping = .ok d ↔ type.toMapping d = .ok mapping
  id : ∀ mapping d n, type.toMapping d = .ok mapping →
    Keyed.get? mapping key = some (.int64 n) → type.id d = n
  setId : ∀ mapping d n, type.toMapping d = .ok mapping →
    type.toMapping (type.setId d n) = .ok (Keyed.insert mapping key (.int64 n))

namespace Model

variable (m : Model σ D)

/-- The type is verbatim and stores without aliases, and no attribute but the primary key has the
reserved key for its name. -/
structure Plain (key : String) : Prop where
  primaryKey : SchemaGraph.primaryKey m.type.schema = some key
  byAlias : m.byAlias = false
  reserved : ∀ f ∈ SchemaGraph.fields m.type.schema, f.name = reservedIdKey → reservedIdKey = key
  verbatim : m.type.Verbatim key

theorem toRecord_of_unaliased {m : Model σ D} (halias : m.byAlias = false) {d : D}
    {mapping : Document} (h : m.type.toMapping d = .ok mapping) :
    m.toRecord d = .ok (moveKey m.primaryKey reservedIdKey mapping) := by
  rw [toRecord_of_mapping h, toStored_of_unaliased halias]

namespace Plain

variable {m} {key : String}

theorem primaryKey_eq (hm : m.Plain key) : m.primaryKey = key :=
  primaryKey_eq_of_some hm.primaryKey

theorem ofStored_eq (hm : m.Plain key) (record : Document) : m.ofStored record = record :=
  ofStored_of_unaliased hm.byAlias record

theorem fromRecord_eq (hm : m.Plain key) (record : Document) :
    m.fromRecord record = m.type.fromMapping (moveKey reservedIdKey key record) := by
  rw [fromRecord, hm.ofStored_eq, hm.primaryKey_eq]

theorem toRecord_eq (hm : m.Plain key) {d : D} {mapping : Document}
    (h : m.type.toMapping d = .ok mapping) :
    m.toRecord d = .ok (moveKey key reservedIdKey mapping) := by
  rw [toRecord_of_unaliased hm.byAlias h, hm.primaryKey_eq]

theorem readable (hm : m.Plain key) (record : Document) : ∃ d, m.fromRecord record = .ok d := by
  rw [hm.fromRecord_eq]
  exact hm.verbatim.held _

/-- A path that is not the primary key's starts at neither the primary key nor the reserved one. -/
theorem head?_ne (hm : m.Plain key) {names : List String} {p : FieldPath σ}
    (h : FieldPath.resolve m.type.schema names = .ok p) (hne : names ≠ [key]) :
    names.head? ≠ some key ∧ names.head? ≠ some reservedIdKey := by
  obtain ⟨steps, t, f, walk, -⟩ := resolve_eq_ok_iff.mp h
  have hkey := walk.head?_ne hm.primaryKey hne
  obtain ⟨g, hg, hhead⟩ := walk.head?_name
  refine ⟨hkey, fun hres => ?_⟩
  have hname : g.name = reservedIdKey := Option.some.inj (hhead.symm.trans hres)
  rw [hm.reserved g hg hname] at hres
  exact hkey hres

end Plain

theorem exists_path_of_checkKeys {defaults : Document} (h : m.checkKeys defaults = .ok ())
    {key : String} (hkey : key ∈ Keyed.keys defaults) : ∃ p, m.path key = .ok p := by
  induction defaults with
  | nil => cases hkey
  | cons e rest ih =>
    rw [checkKeys] at h
    split at h
    · next p hp =>
      rcases List.mem_cons.mp hkey with heq | hrest
      · exact ⟨p, heq ▸ hp⟩
      · exact ih h hrest
    · cases h

/-- The conditions pin attributes down, and the defaults are for other attributes than those and the
primary key. -/
structure Upserts (key : String) (pins : List (FieldPath σ × Value)) (defaults : Document) :
    Prop where
  ne : pins ≠ []
  conditions : m.Pins pins
  keys : key ∉ Keyed.keys defaults
  apart : ∀ k ∈ Keyed.keys defaults, ∀ pin ∈ pins,
    Diverge (Dotted.split k) pin.1.attributePath
  wellFormed : defaults.WellFormed

variable {m} {key name : String} {pins : List (FieldPath σ × Value)} {defaults : Document}

open Document (assigned expandAll)

namespace Upserts

theorem head?_pin (hm : m.Plain key) (h : m.Upserts key pins defaults)
    {pin : FieldPath σ × Value} (hpin : pin ∈ pins) :
    pin.1.attributePath.head? ≠ some key ∧ pin.1.attributePath.head? ≠ some reservedIdKey :=
  hm.head?_ne (h.conditions.resolved pin hpin)
    (h.conditions.attributePath_ne_primaryKey hm.primaryKey hpin)

theorem head?_default (hm : m.Plain key) (h : m.Upserts key pins defaults)
    (hkeys : m.checkKeys defaults = .ok ()) {k : String} (hk : k ∈ Keyed.keys defaults) :
    (Dotted.split k).head? ≠ some key ∧ (Dotted.split k).head? ≠ some reservedIdKey := by
  obtain ⟨p, hp⟩ := m.exists_path_of_checkKeys hkeys hk
  refine hm.head?_ne hp fun hsplit => h.keys ?_
  have hkey : k = key := by
    rw [← Dotted.join_split k, hsplit]
    exact String.ofList_toList
  exact hkey ▸ hk

theorem clearOf (h : m.Upserts key pins defaults) {pin : FieldPath σ × Value}
    (hpin : pin ∈ pins) :
    Value.ClearOf pin.1.attributePath (.document (expandAll defaults)) :=
  Document.clearOf_expandAll (attributePath_ne_nil pin.1) fun k hk => h.apart k hk pin hpin

theorem get?_assigned (hm : m.Plain key) (h : m.Upserts key pins defaults) {k : String}
    (hk : k = key ∨ k = reservedIdKey) : Keyed.get? (assigned pins) k = none := by
  refine h.conditions.get?_assigned_eq_none fun pin hpin => ?_
  rcases hk with rfl | rfl
  · exact (h.head?_pin hm hpin).1
  · exact (h.head?_pin hm hpin).2

theorem get?_merge_expandAll (hm : m.Plain key) (h : m.Upserts key pins defaults)
    (hkeys : m.checkKeys defaults = .ok ()) (d : Document) {k : String}
    (hk : k = key ∨ k = reservedIdKey) :
    Keyed.get? (Document.merge d (expandAll defaults)) k = Keyed.get? d k := by
  refine Document.get?_merge_expandAll d fun j hj => ?_
  rcases hk with rfl | rfl
  · exact (h.head?_default hm hkeys hj).1
  · exact (h.head?_default hm hkeys hj).2

/-- Neither the primary key nor the reserved one is in the document that an instance is made
from. -/
theorem notMem_made (hm : m.Plain key) (h : m.Upserts key pins defaults)
    (hkeys : m.checkKeys defaults = .ok ()) {k : String} (hk : k = key ∨ k = reservedIdKey) :
    k ∉ Keyed.keys (Document.merge (assigned pins) (expandAll defaults)) := by
  rw [← Keyed.get?_eq_none_iff, h.get?_merge_expandAll hm hkeys _ hk]
  exact h.get?_assigned hm hk

end Upserts

/-! ## What a first upsert leaves -/

variable (m key pins defaults)

/-- The first match is a record of these entries and this identifier, and to merge the defaults into
its instance changes nothing. -/
structure Settled (c : Contents) (others : Document) (id : RecordId) : Prop where
  keyFree : key ∉ Keyed.keys others
  reservedFree : reservedIdKey ∉ Keyed.keys others
  first : m.firstMatch? (pins.map Expression.pin) c =
    some (id, others ++ [(reservedIdKey, .int64 id)])
  stored : Keyed.get? c.records id = some (others ++ [(reservedIdKey, .int64 id)])
  merged : Document.merge (others ++ [(key, .int64 id)]) (expandAll defaults) =
    others ++ [(key, .int64 id)]

variable {m key pins defaults} {c : Contents} {d : D} {t : Target}

theorem Upserts.firstMatch?_pins (h : m.Upserts key pins defaults) (c : Contents) :
    m.firstMatch? (pins.map Expression.pin) c =
      c.records.find? fun e => m.selects (pins.map Expression.pin) e.2 := by
  rw [firstMatch?, if_neg (by simpa using h.ne)]

/-! ### A new record -/

/-- The document made from the template and the defaults meets the conditions, as a record. -/
theorem Upserts.selects_made (hm : m.Plain key) (h : m.Upserts key pins defaults)
    (id : RecordId) :
    m.selects (pins.map Expression.pin)
      (Document.merge (assigned pins) (expandAll defaults) ++ [(reservedIdKey, .int64 id)]) =
        true := by
  refine h.conditions.selects_of_held fun pin hpin => ?_
  rw [hm.ofStored_eq, Document.getPath?_append_singleton _ _ (h.head?_pin hm hpin).2,
    Document.getPath?_merge_of_clearOf _ (h.clearOf hpin)]
  rw [Document.getPath?_eq_follow? (attributePath_ne_nil pin.1)]
  exact h.conditions.follow?_assigned hpin

/-- What is made of a template and defaults without identifiers is the two merged, with the next
identifier at the end: under the primary key in the instance, under the reserved key in the
record. -/
theorem create_verbatim (halias : m.byAlias = false) (htype : m.type.Verbatim m.primaryKey)
    {filters : List (Expression σ)} {seeded others : Document} (hseed : seed filters = .ok seeded)
    (hothers : Document.merge seeded (expandAll defaults) = others)
    (hkey : m.primaryKey ∉ Keyed.keys others) (hreserved : reservedIdKey ∉ Keyed.keys others)
    (hrun : m.create filters defaults (.holding name c) = (.ok d, t)) :
    ∃ record, t = .holding name (c.store record).2 ∧
      Contents.stamped c.nextId record = others ++ [(reservedIdKey, .int64 c.nextId)] ∧
      m.type.toMapping d = .ok (others ++ [(m.primaryKey, .int64 c.nextId)]) := by
  obtain ⟨made, record, hmade, hrecord, rfl, rfl⟩ := m.create_cases hrun
  -- the draft has the generated identifier, which the next one takes the place of
  obtain ⟨id, hmapping⟩ : ∃ id,
      m.type.toMapping made = .ok (others ++ [(m.primaryKey, .int64 id)]) := by
    rw [draft, hseed] at hmade
    have hmade : m.fromMapping (.holding name c)
        (Document.merge seeded (expandAll defaults)) = .ok made := hmade
    rw [hothers, Model.fromMapping, if_neg (by simpa [Keyed.contains_iff] using hkey),
      Keyed.insert_of_notMem hkey] at hmade
    exact ⟨_, (htype.same _ made).mp hmade⟩
  rw [toRecord_of_unaliased halias hmapping, moveKey_concat hkey hreserved] at hrecord
  cases hrecord
  refine ⟨_, rfl, Keyed.insert_concat hreserved .., ?_⟩
  rw [htype.setId _ made c.nextId hmapping, Keyed.insert_concat hkey]

/-- The instance that is made holds the template with the defaults, and its record is found. -/
theorem create_settled (hm : m.Plain key) (h : m.Upserts key pins defaults) (hc : c.Sound)
    (hkeys : m.checkKeys defaults = .ok ())
    (hnone : m.firstMatch? (pins.map Expression.pin) c = none)
    (hrun : m.create (pins.map Expression.pin) defaults (.holding name c) = (.ok d, t)) :
    ∃ others after, t = .holding name after ∧ after.records.length = c.records.length + 1 ∧
      m.Settled key pins defaults after others c.nextId ∧
      m.type.toMapping d = .ok (others ++ [(key, .int64 c.nextId)]) := by
  set others := Document.merge (assigned pins) (expandAll defaults) with hothers
  have hkey : key ∉ Keyed.keys others := h.notMem_made hm hkeys (.inl rfl)
  have hreserved : reservedIdKey ∉ Keyed.keys others := h.notMem_made hm hkeys (.inr rfl)
  obtain rfl := hm.primaryKey_eq
  obtain ⟨record, rfl, hstamped, hd⟩ :=
    create_verbatim hm.byAlias hm.verbatim (seed_pins pins) hothers.symm hkey hreserved hrun
  have hrecords : (c.store record).2.records =
      c.records ++ [(c.nextId, others ++ [(reservedIdKey, .int64 c.nextId)])] := by
    rw [Contents.records_store hc.nextId_notMem, hstamped]
  refine ⟨others, _, rfl, hc.length_store _, ⟨hkey, hreserved, ?first, ?stored, ?merged⟩, hd⟩
  case first =>
    rw [h.firstMatch?_pins] at hnone
    rw [h.firstMatch?_pins, hrecords, List.find?_append, hnone, Option.none_or]
    exact List.find?_cons_of_pos (h.selects_made hm c.nextId)
  case stored =>
    rw [hrecords, Keyed.get?_append, Keyed.get?_eq_none_iff.mpr hc.nextId_notMem, Option.none_or,
      Keyed.get?_singleton, if_pos rfl]
  case merged =>
    refine Document.merge_concat_eq_self ?_ ?_
    · exact Document.merge_merge _ (Document.wellFormed_expandAll h.wellFormed)
    · exact Document.get?_expandAll_eq_none fun k hk => (h.head?_default hm hkeys hk).1

/-! ### The match with the defaults over it -/

/-- The mapping of a record, with the defaults over it. -/
def overlaid (key : String) (defaults old : Document) : Document :=
  Document.merge (moveKey reservedIdKey key old) (expandAll defaults)

namespace Upserts

variable {old : Document}

theorem nodup_overlaid (h : m.Upserts key pins defaults) (hold : Keyed.Nodup old) :
    Keyed.Nodup (overlaid key defaults old) :=
  Document.nodup_merge (nodup_moveKey reservedIdKey key hold)
    (Document.wellFormed_expandAll h.wellFormed).1

theorem get?_overlaid_key (hm : m.Plain key) (h : m.Upserts key pins defaults)
    (hkeys : m.checkKeys defaults = .ok ()) {id : RecordId}
    (hid : Keyed.get? old reservedIdKey = some (.int64 id)) :
    Keyed.get? (overlaid key defaults old) key = some (.int64 id) := by
  rw [overlaid, h.get?_merge_expandAll hm hkeys _ (.inl rfl)]
  exact get?_moveKey_target hid

theorem reserved_notMem_overlaid (hm : m.Plain key) (h : m.Upserts key pins defaults)
    (hkeys : m.checkKeys defaults = .ok ()) (hold : Keyed.Nodup old) :
    reservedIdKey ∉ Keyed.keys (Keyed.erase (overlaid key defaults old) key) := by
  have hnodup := h.nodup_overlaid hold
  by_cases heq : reservedIdKey = key
  · rw [heq]
    exact Keyed.notMem_keys_erase hnodup key
  · rw [← Keyed.get?_eq_none_iff, Keyed.get?_erase hnodup, if_neg (Ne.symm heq), overlaid,
      h.get?_merge_expandAll hm hkeys _ (.inr rfl), get?_moveKey_of_ne _ hold heq, if_pos rfl]

/-- Turned into a record again, it holds what the old one did at the paths of the conditions. -/
theorem getPath?_overlaid (hm : m.Plain key) (h : m.Upserts key pins defaults)
    (hold : Keyed.Nodup old) {pin : FieldPath σ × Value} (hpin : pin ∈ pins) :
    Document.getPath? (moveKey key reservedIdKey (overlaid key defaults old))
      pin.1.attributePath = Document.getPath? old pin.1.attributePath := by
  obtain ⟨hkey, hreserved⟩ := h.head?_pin hm hpin
  calc Document.getPath? (moveKey key reservedIdKey (overlaid key defaults old)) _
    _ = Document.getPath? (overlaid key defaults old) _ :=
      getPath?_moveKey (h.nodup_overlaid hold) hkey hreserved
    _ = Document.getPath? (moveKey reservedIdKey key old) _ :=
      Document.getPath?_merge_of_clearOf _ (h.clearOf hpin)
    _ = Document.getPath? old _ := getPath?_moveKey hold hreserved hkey

end Upserts

/-- A record that ends in its identifier is put in its place as it is. -/
theorem update_concat {others stored : Document} {id : RecordId} (v : Value)
    (hreserved : reservedIdKey ∉ Keyed.keys others) (hget : Keyed.get? c.records id = some stored) :
    c.update id (others ++ [(reservedIdKey, v)]) =
      (true, { c with
        records := Keyed.insert c.records id (others ++ [(reservedIdKey, .int64 id)]) }) := by
  rw [Contents.update, if_pos (by rw [Keyed.contains, hget]; rfl), Contents.stamped,
    Keyed.insert_concat hreserved]

/-- The first match with the defaults over it is found in its place. Its instance comes out with the
identifier where it was, and is found with the identifier at the end. -/
theorem update_settled (hm : m.Plain key) (h : m.Upserts key pins defaults) (hc : c.Sound)
    (hrecords : ∀ e ∈ c.records, Keyed.Nodup e.2) {e : RecordId × Document}
    (hfirst : m.firstMatch? (pins.map Expression.pin) c = some e)
    (hrun : m.updateOrCreate (pins.map Expression.pin) defaults (.holding name c) = (.ok d, t)) :
    m.checkKeys defaults = .ok () ∧
      ∃ others mapping after, t = .holding name after ∧
        after.records.length = c.records.length ∧ m.Settled key pins defaults after others e.1 ∧
        m.type.toMapping d = .ok mapping ∧ (others ++ [(key, Value.int64 e.1)]).Perm mapping := by
  rcases m.updateOrCreate_cases hfirst hrun with ⟨err, herr, -⟩ |
    ⟨found, mapping, d', record, hkeys, hfound, hmapping, hread, hrecord, hanswer, rfl⟩
  · cases herr
  obtain rfl := Except.ok.inj hanswer
  refine ⟨hkeys, ?_⟩
  obtain ⟨id, old⟩ := e
  have hmem := m.mem_of_firstMatch? hfirst
  have hold : Keyed.Nodup old := hrecords _ hmem
  have hget : Keyed.get? c.records id = some old := Keyed.get?_of_mem hc.nodup hmem
  -- what was found is the record itself, so what is written is the record with the defaults over it
  rw [hm.fromRecord_eq, hm.verbatim.same, hmapping] at hfound
  cases hfound
  have hd : m.type.toMapping d = .ok (overlaid key defaults old) := (hm.verbatim.same _ _).mp hread
  have hid := h.get?_overlaid_key hm hkeys (hc.stamped id old hget)
  have hkey := Keyed.notMem_keys_erase (h.nodup_overlaid hold) key
  have hreserved := h.reserved_notMem_overlaid hm hkeys hold
  have hmoved := moveKey_eq_concat hid hreserved
  have hperm := Keyed.erase_concat_perm hid
  set others := Keyed.erase (overlaid key defaults old) key
  -- the new record takes the place of the old one
  rw [hm.toRecord_eq hd, hmoved] at hrecord
  cases hrecord
  rw [hm.verbatim.id _ d id hd hid, update_concat _ hreserved hget]
  refine ⟨others, _, _, rfl, ?length, ⟨hkey, hreserved, ?first, ?stored, ?merged⟩, hd, hperm⟩
  case length =>
    have hkeep := Keyed.keys_insert_of_mem (List.mem_map_of_mem (Keyed.mem_of_get? hget))
      (others ++ [(reservedIdKey, Value.int64 id)])
    simpa [Keyed.keys] using congrArg List.length hkeep
  case first =>
    rw [h.firstMatch?_pins] at hfirst ⊢
    have hselects := List.find?_some hfirst
    refine Keyed.find?_insert hfirst (h.conditions.selects_congr (fun pin hpin => ?_) hselects)
    rw [hm.ofStored_eq, hm.ofStored_eq, ← hmoved, h.getPath?_overlaid hm hold hpin]
  case stored => exact Keyed.get?_insert_self ..
  case merged =>
    refine Document.merge_eq_self_of_perm ?_ hperm
    exact Document.merge_merge _ (Document.wellFormed_expandAll h.wellFormed)

/-! ## What a repeated upsert does -/

namespace Settled

variable {others : Document} {id : RecordId}

theorem findOne_eq (hm : m.Plain key) (h : m.Upserts key pins defaults)
    (hs : m.Settled key pins defaults c others id) (name : String) :
    ∃ d, m.type.toMapping d = .ok (others ++ [(key, .int64 id)]) ∧
      m.findOne (pins.map Expression.pin) (.holding name c) = .ok (some d) := by
  obtain ⟨d, hd, hfind⟩ := m.findOne_of_firstMatch? (fun e _ => hm.readable e.2)
    (by simpa using h.ne) hs.first
  rw [hm.fromRecord_eq, moveKey_concat hs.reservedFree hs.keyFree, hm.verbatim.same] at hd
  exact ⟨d, hd, hfind⟩

theorem getOrCreate_eq (hm : m.Plain key) (h : m.Upserts key pins defaults)
    (hkeys : m.checkKeys defaults = .ok ()) (hs : m.Settled key pins defaults c others id)
    (name : String) :
    ∃ d, m.type.toMapping d = .ok (others ++ [(key, .int64 id)]) ∧
      m.getOrCreate (pins.map Expression.pin) defaults (.holding name c) =
        (.ok d, .holding name c) := by
  obtain ⟨d, hd, hfind⟩ := hs.findOne_eq hm h name
  exact ⟨d, hd, by rw [getOrCreate_run, hkeys, hfind]⟩

/-- The instance is put back as it is. -/
theorem persist_eq (hm : m.Plain key) (hs : m.Settled key pins defaults c others id)
    (hd : m.type.toMapping d = .ok (others ++ [(key, .int64 id)])) (name : String) :
    m.persist (others ++ [(key, .int64 id)]) (d, .holding name c) =
      (.ok true, d, .holding name c) := by
  have hget : Keyed.get? (others ++ [(key, Value.int64 id)]) key = some (.int64 id) := by
    rw [Keyed.get?_append, Keyed.get?_eq_none_iff.mpr hs.keyFree, Option.none_or,
      Keyed.get?_singleton, if_pos rfl]
  have hsame : c.update id (others ++ [(reservedIdKey, .int64 id)]) = (true, c) := by
    rw [update_concat _ hs.reservedFree hs.stored, Keyed.insert_get? hs.stored]
  have hrecord := hm.toRecord_eq hd
  rw [moveKey_concat hs.keyFree hs.reservedFree] at hrecord
  simp only [persist_run, (hm.verbatim.same _ d).mpr hd, hrecord, hm.verbatim.id _ d id hd hget,
    hsame]

theorem updateOrCreate_eq (hm : m.Plain key) (h : m.Upserts key pins defaults)
    (hkeys : m.checkKeys defaults = .ok ()) (hs : m.Settled key pins defaults c others id)
    (name : String) :
    ∃ d, m.type.toMapping d = .ok (others ++ [(key, .int64 id)]) ∧
      m.updateOrCreate (pins.map Expression.pin) defaults (.holding name c) =
        (.ok d, .holding name c) := by
  obtain ⟨d, hd, hfind⟩ := hs.findOne_eq hm h name
  refine ⟨d, hd, ?_⟩
  rw [updateOrCreate_run, hkeys, hfind]
  simp only [hd, hs.merged, hs.persist_eq hm hd name]

end Settled

theorem getOrCreate_again (hm : m.Plain key) (h : m.Upserts key pins defaults) (hc : c.Sound)
    (hrun : m.getOrCreate (pins.map Expression.pin) defaults (.holding name c) = (.ok d, t)) :
    m.getOrCreate (pins.map Expression.pin) defaults t = (.ok d, t) ∧
      ∃ after, t = .holding name after ∧ after.records.length ≤ c.records.length + 1 := by
  obtain ⟨hkeys, rfl | ⟨hnone, hmade⟩⟩ := m.getOrCreate_cases hrun
  · exact ⟨hrun, c, rfl, by omega⟩
  · obtain ⟨others, after, rfl, hlength, hs, hd⟩ := create_settled hm h hc hkeys hnone hmade
    obtain ⟨d', hd', hagain⟩ := hs.getOrCreate_eq hm h hkeys name
    -- both instances are read from one mapping
    have hread := (hm.verbatim.same _ d).mpr hd
    rw [(hm.verbatim.same _ d').mpr hd'] at hread
    cases hread
    exact ⟨hagain, after, rfl, by omega⟩

theorem updateOrCreate_again (hm : m.Plain key) (h : m.Upserts key pins defaults) (hc : c.Sound)
    (hrecords : ∀ e ∈ c.records, Keyed.Nodup e.2)
    (hrun : m.updateOrCreate (pins.map Expression.pin) defaults (.holding name c) = (.ok d, t)) :
    (∃ d' mapping mapping', m.updateOrCreate (pins.map Expression.pin) defaults t = (.ok d', t) ∧
      m.type.toMapping d = .ok mapping ∧ m.type.toMapping d' = .ok mapping' ∧
      mapping'.Perm mapping) ∧
      ∃ after, t = .holding name after ∧ after.records.length ≤ c.records.length + 1 := by
  cases hfirst : m.firstMatch? (pins.map Expression.pin) c with
  | none =>
    obtain ⟨hkeys, hmade⟩ := m.updateOrCreate_none hfirst hrun
    obtain ⟨others, after, rfl, hlength, hs, hd⟩ := create_settled hm h hc hkeys hfirst hmade
    obtain ⟨d', hd', hagain⟩ := hs.updateOrCreate_eq hm h hkeys name
    exact ⟨⟨d', _, _, hagain, hd, hd', .refl _⟩, after, rfl, by omega⟩
  | some e =>
    obtain ⟨hkeys, others, mapping, after, rfl, hlength, hs, hd, hperm⟩ :=
      update_settled hm h hc hrecords hfirst hrun
    obtain ⟨d', hd', hagain⟩ := hs.updateOrCreate_eq hm h hkeys name
    exact ⟨⟨d', _, _, hagain, hd, hd', hperm⟩, after, rfl, by omega⟩

theorem getOrCreate_absent (filters : List (Expression σ)) (defaults : Document) (name : String)
    (d : D) : (m.getOrCreate filters defaults (some ⟨name, none⟩)).1 ≠ .ok d := by
  rw [getOrCreate_run, findOne_absent]
  cases m.checkKeys defaults <;> exact nofun

theorem updateOrCreate_absent (filters : List (Expression σ)) (defaults : Document) (name : String)
    (d : D) : (m.updateOrCreate filters defaults (some ⟨name, none⟩)).1 ≠ .ok d := by
  rw [updateOrCreate_run, findOne_absent]
  cases m.checkKeys defaults <;> exact nofun

/-- Repeated at once, an upsert that succeeded answers again with the same instance and leaves
everything as the first one did. The two add no more than one record. Where the first one was an
update, the second finds the identifier at the end of the document: the entries are the same in
another order, in which documents do not differ. The hypothesis on the
stored documents says what holds of every document: no key is listed twice. -/
theorem upserts_settle {c : Collection} (hc : c.Reachable) (hm : m.Plain key)
    (h : m.Upserts key pins defaults)
    (hrecords : ∀ before, c.contents = some before → ∀ e ∈ before.records, Keyed.Nodup e.2) :
    (∀ d t, m.getOrCreate (pins.map Expression.pin) defaults (some c) = (.ok d, t) →
      m.getOrCreate (pins.map Expression.pin) defaults t = (.ok d, t) ∧
      ∃ before after, c.contents = some before ∧ t = .holding c.name after ∧
        after.records.length ≤ before.records.length + 1) ∧
    ∀ d t, m.updateOrCreate (pins.map Expression.pin) defaults (some c) = (.ok d, t) →
      (∃ d' mapping mapping', m.updateOrCreate (pins.map Expression.pin) defaults t = (.ok d', t) ∧
        m.type.toMapping d = .ok mapping ∧ m.type.toMapping d' = .ok mapping' ∧
        mapping'.Perm mapping) ∧
      ∃ before after, c.contents = some before ∧ t = .holding c.name after ∧
        after.records.length ≤ before.records.length + 1 := by
  obtain ⟨name, contents⟩ := c
  cases contents with
  | none =>
    constructor
    · intro d t hrun
      exact absurd (congrArg Prod.fst hrun) (getOrCreate_absent _ _ name d)
    · intro d t hrun
      exact absurd (congrArg Prod.fst hrun) (updateOrCreate_absent _ _ name d)
  | some before =>
    have hsound := hc.sound rfl
    constructor
    · intro d t hrun
      obtain ⟨hagain, after, ht, hlength⟩ := getOrCreate_again hm h hsound hrun
      exact ⟨hagain, before, after, rfl, ht, hlength⟩
    · intro d t hrun
      obtain ⟨hagain, after, ht, hlength⟩ :=
        updateOrCreate_again hm h hsound (hrecords before rfl) hrun
      exact ⟨hagain, before, after, rfl, ht, hlength⟩

end Model

/-! ## Categories kept as they are -/

/-- Documents of any shape as categories. -/
def keptType : DocumentType CategorySchema Document where
  schema := .category
  id d := ((Keyed.get? d "id").bind Value.integer?).getD 0
  setId d id := Keyed.insert d "id" (.int64 id)
  serialize d := some (.document d)
  deserialize := some
  toJson? _ := none
  ofJson? _ := none

/-- Categories of any shape, stored without aliases. -/
def keptCategories : Model CategorySchema Document :=
  { type := keptType, name := "categories", byAlias := false }

theorem keptType_verbatim : keptType.Verbatim "id" where
  held mapping := ⟨mapping, rfl⟩
  same mapping d := by
    show Except.ok mapping = Except.ok d ↔ Except.ok d = Except.ok mapping
    exact eq_comm
  id mapping d n h hid := by
    cases h
    show ((Keyed.get? mapping "id").bind Value.integer?).getD 0 = n
    rw [hid]
    rfl
  setId mapping d n h := by
    cases h
    rfl

theorem keptCategories_plain : keptCategories.Plain "id" where
  primaryKey := rfl
  byAlias := rfl
  reserved := by decide
  verbatim := keptType_verbatim

/-- A category by its title and its parent's. -/
def titles : List (FieldPath CategorySchema × Value) :=
  [(parentTitlePath, .string "b"), (titlePath, .string "a")]

/-- The identifier of the parent, for what has none. -/
def parentId : Document := [("parent.id", .int64 3)]

theorem titles_pins : keptCategories.Pins titles where
  resolved := by
    intro pin hpin
    simp only [titles, List.mem_cons, List.not_mem_nil, or_false] at hpin
    rcases hpin with rfl | rfl <;> rfl
  plain := by decide
  dotFree := by decide
  reflexive := by decide
  apart := by decide

theorem titles_upserts : keptCategories.Upserts "id" titles parentId where
  ne := by decide
  conditions := titles_pins
  keys := by decide
  apart := by decide
  wellFormed := ⟨by unfold Keyed.Nodup; decide, trivial, trivial⟩

/-- So it is with the title alone. -/
theorem title_upserts : keptCategories.Upserts "id" titles.tail parentId where
  ne := by decide
  conditions := titles_pins.tail
  keys := by decide
  apart := by decide
  wellFormed := titles_upserts.wellFormed

theorem oneCategory_nodup (before : Contents) (h : oneCategory.contents = some before) :
    ∀ e ∈ before.records, Keyed.Nodup e.2 := by
  cases h
  unfold Keyed.Nodup
  decide

/-- No category has both titles, so one is made, and found from then on. The one of that title is
given its parent's identifier once. -/
theorem category_settles :
    (∃ d t, keptCategories.getOrCreate (titles.map Expression.pin) parentId (some oneCategory) =
        (.ok d, t) ∧
      Keyed.get? d "id" = some (.int64 1) ∧
      keptCategories.getOrCreate (titles.map Expression.pin) parentId t = (.ok d, t)) ∧
    ∃ d t, keptCategories.updateOrCreate (titles.tail.map Expression.pin) parentId
        (some oneCategory) = (.ok d, t) ∧
      d = [("title", .string "a"), ("id", .int64 0), ("parent", .document [("id", .int64 3)])] ∧
      ∃ d', keptCategories.updateOrCreate (titles.tail.map Expression.pin) parentId t =
        (.ok d', t) ∧ d'.Perm d := by
  have hmade := keptCategories.upserts_settle oneCategory_reachable keptCategories_plain
    titles_upserts oneCategory_nodup
  have hfound := keptCategories.upserts_settle oneCategory_reachable keptCategories_plain
    title_upserts oneCategory_nodup
  refine ⟨⟨_, _, rfl, rfl, (hmade.1 _ _ rfl).1⟩, _, _, rfl, rfl, ?_⟩
  obtain ⟨d', mapping, mapping', hagain, hmapping, hmapping', hperm⟩ := (hfound.2 _ _ rfl).1
  cases hmapping
  cases hmapping'
  exact ⟨_, hagain, hperm⟩

end TypedStore
