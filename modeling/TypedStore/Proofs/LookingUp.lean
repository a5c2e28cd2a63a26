import TypedStore.Proofs.Charting

/-!
An attribute looked up by its name, and the list of attributes.

Paths are resolved by looking attributes up (`fieldDef?`), documents are respelled and schemas
described by going through the list (`fields`). Looking up takes the primary key's name for the
primary key and never reads what is declared under it; the list has the declaration in its place. So
the two agree on every name but that of a primary key which is declared as anything else
(`fieldDef?_eq_find?_iff`).

For paths, respelling and description to agree takes more than that, because they go by different
entries of the list: a path and a respelling by the first under a name or an alias, the description
by the last under a key in records. All of them find every entry exactly where, besides, entries are
told apart by their names and by their keys (`oneView_iff`). `views_agree_iff` puts this together,
and `ticket_views_differ` is a schema whose description lacks the key that a path reads.
-/

namespace TypedStore

namespace SchemaGraph

variable {σ : Type} [SchemaGraph σ] {s : σ} {k : String}

/-! ## The first entry under a name -/

/-- If the primary key is declared, it is declared as what it is anyway: the first declaration under
its name is the attribute that stands for it where there is none. -/
def KeyDeclared (s : σ) : Prop :=
  ∀ key, primaryKey s = some key → ∀ f, (schema s).declared.find? (·.name == key) = some f →
    f = .primaryKey key

theorem find?_fields (s : σ) (k : String) :
    (fields s).find? (·.name == k) = ((schema s).declared.find? (·.name == k)).or
      (if primaryKey s = some k then some (.primaryKey k) else none) := by
  unfold fields
  cases hkey : primaryKey s with
  | none => simp
  | some key =>
    by_cases hname : key = k
    · subst hname
      cases hfind : (schema s).declared.find? (·.name == key) with
      | none =>
        have hany : (schema s).declared.any (·.name == key) = false := by
          simpa [List.any_eq_false] using List.find?_eq_none.mp hfind
        simp [hany, hfind, Field.primaryKey]
      | some f =>
        have hany : (schema s).declared.any (·.name == key) = true :=
          List.any_eq_true.mpr
            ⟨f, List.mem_of_find?_eq_some hfind, by simpa using List.find?_some hfind⟩
        simp [hany, hfind]
    · -- the entry that may be added has another name
      have hother : (Field.primaryKey key : Field σ).name ≠ k := hname
      dsimp only
      split <;> simp [hname, hother]

theorem fieldDef?_eq_find?_iff :
    fieldDef? s k = (fields s).find? (·.name == k) ↔
      (primaryKey s = some k → ∀ f, (schema s).declared.find? (·.name == k) = some f →
        f = .primaryKey k) := by
  rw [find?_fields, fieldDef?]
  by_cases hkey : primaryKey s = some k
  · rw [if_pos hkey, if_pos hkey]
    cases (schema s).declared.find? (·.name == k) with
    | none => simp [hkey]
    | some f => simp [hkey, eq_comm]
  · simp [hkey]

/-- Where the two differ, a path takes the name for the primary key, and the list has a declaration
that says something else of it. -/
theorem primaryKey_of_ne (h : fieldDef? s k ≠ (fields s).find? (·.name == k)) :
    fieldDef? s k = some (.primaryKey k) ∧ ∃ f ∈ (schema s).declared,
      (fields s).find? (·.name == k) = some f ∧ f ≠ .primaryKey k := by
  rw [ne_eq, fieldDef?_eq_find?_iff] at h
  push Not at h
  obtain ⟨hkey, f, hf, hne⟩ := h
  refine ⟨fieldDef?_primaryKey hkey, f, List.mem_of_find?_eq_some hf, ?_, hne⟩
  rw [find?_fields, hf, Option.some_or]

/-! ## Every entry, found by everyone -/

theorem find?_of_unique {α : Type} {l : List α} {p : α → Bool} {a : α} (ha : a ∈ l)
    (hp : p a = true) (hunique : ∀ b ∈ l, p b = true → b = a) : l.find? p = some a := by
  cases h : l.find? p with
  | none => exact absurd hp (List.find?_eq_none.mp h a ha)
  | some b => rw [hunique b (List.mem_of_find?_eq_some h) (List.find?_some h)]

/-- Each attribute in the list is what its name resolves to, what its name and its alias stand for in
a document that is respelled, if it is no primary key, and what its key stands for in a
description. -/
structure OneView (s : σ) : Prop where
  resolved : ∀ f ∈ fields s, FieldPath.ofField s f.name = .ok { field := f, owner := name s }
  respelled : ∀ f ∈ fields s,
    renamed? .aliases s f.name = if f.isPrimaryKey then none else some f
  spelledBack : ∀ f ∈ fields s, f.isPrimaryKey = false →
    renamed? .attributes s (f.recordKey true) = some f
  described : ∀ f ∈ fields s, ∀ byAlias, recordField? byAlias s (f.recordKey byAlias) = some f

/-- The schema's attributes are told apart by their names and by their keys in records. -/
structure Apart (s : σ) : Prop where
  names : ∀ f ∈ fields s, ∀ g ∈ fields s, f.name = g.name → f = g
  recordKeys : ∀ byAlias, ∀ f ∈ fields s, ∀ g ∈ fields s,
    f.recordKey byAlias = g.recordKey byAlias → f = g

theorem ofField_eq_ok_iff {f : Field σ} :
    FieldPath.ofField s k = .ok { field := f, owner := name s } ↔ fieldDef? s k = some f := by
  unfold FieldPath.ofField
  cases fieldDef? s k <;> simp

/-- An attribute that is no primary key is found by a spelling that no other has. -/
theorem renamed?_of_unique {into : Naming} {f : Field σ} (hf : f ∈ fields s)
    (hflag : f.isPrimaryKey = false)
    (hunique : ∀ g ∈ fields s, g.spelled into.other = f.spelled into.other → g = f) :
    renamed? into s (f.spelled into.other) = some f := by
  refine find?_of_unique hf (by simp [hflag]) fun g hg hfound => ?_
  simp only [Bool.and_eq_true, beq_iff_eq] at hfound
  exact hunique g hg hfound.2

theorem OneView.fieldDef?_eq (h : OneView s) {f : Field σ} (hf : f ∈ fields s) :
    fieldDef? s f.name = some f := ofField_eq_ok_iff.mp (h.resolved f hf)

theorem OneView.keyDeclared (h : OneView s) : KeyDeclared s := by
  intro key hkey f hfind
  have hname : f.name = key := by simpa using List.find?_some hfind
  have hlook := h.fieldDef?_eq (declared_subset_fields (List.mem_of_find?_eq_some hfind))
  rw [hname, fieldDef?_primaryKey hkey] at hlook
  exact (Option.some.inj hlook).symm

theorem OneView.apart (h : OneView s) : Apart s where
  names f hf g hg hname := by
    have hlook := h.fieldDef?_eq hf
    rw [hname, h.fieldDef?_eq hg] at hlook
    exact (Option.some.inj hlook).symm
  recordKeys byAlias f hf g hg hkey := by
    have hlook := h.described f hf byAlias
    rw [hkey, h.described g hg byAlias] at hlook
    exact (Option.some.inj hlook).symm

theorem Apart.oneView (h : Apart s) (hkey : KeyDeclared s) : OneView s where
  resolved f hf := by
    rw [ofField_eq_ok_iff, fieldDef?_eq_find?_iff.mpr (hkey f.name)]
    refine find?_of_unique hf (beq_self_eq_true _) fun g hg hname => ?_
    exact h.names g hg f hf (by simpa using hname)
  respelled f hf := by
    cases hflag : f.isPrimaryKey with
    | true =>
      -- only the primary key has the name, and it keeps it
      refine renamed?_eq_none_iff.mpr fun g hg hplain hname => ?_
      rw [h.names g hg f hf hname, hflag] at hplain
      cases hplain
    | false => exact renamed?_of_unique hf hflag fun g hg => h.names g hg f hf
  spelledBack f hf hflag := renamed?_of_unique hf hflag fun g hg => h.recordKeys true g hg f hf
  described f hf byAlias := by
    refine find?_of_unique (List.mem_reverse.mpr hf) (beq_self_eq_true _) fun g hg hfound => ?_
    exact h.recordKeys byAlias g (List.mem_reverse.mp hg) f hf (by simpa using hfound)

theorem oneView_iff : OneView s ↔ KeyDeclared s ∧ Apart s :=
  ⟨fun h => ⟨h.keyDeclared, h.apart⟩, fun h => h.2.oneView h.1⟩

/-- Looking an attribute up gives the first in the list that has the name, for every name, exactly
where the schema does not declare its primary key otherwise than it would be anyway. Where the two
differ, a path takes the name for the primary key, and the list has a declaration that says
something else of it. A path, the respelling of a document and the description go by one and the
same entry for every attribute in the list exactly if, besides, no two different entries have one
name or one key in records; and then the description of each stands under its key. -/
theorem views_agree_iff (s : σ) :
    ((∀ k, fieldDef? s k = (fields s).find? (·.name == k)) ↔ KeyDeclared s) ∧
    (∀ k, fieldDef? s k ≠ (fields s).find? (·.name == k) →
      fieldDef? s k = some (.primaryKey k) ∧ ∃ f ∈ (schema s).declared,
        (fields s).find? (·.name == k) = some f ∧ f ≠ .primaryKey k) ∧
    (OneView s ↔ KeyDeclared s ∧ Apart s) ∧
    (OneView s → ∀ f ∈ fields s, ∀ byAlias opened,
      Keyed.get? (properties byAlias opened s) (f.recordKey byAlias) =
        some (.document (property byAlias opened f))) := by
  refine ⟨⟨?forced, ?agree⟩, fun _ => primaryKey_of_ne, oneView_iff, ?described⟩
  case forced => exact fun h key => fieldDef?_eq_find?_iff.mp (h key)
  case agree => exact fun h k => fieldDef?_eq_find?_iff.mpr (h k)
  case described =>
    intro h f hf byAlias opened
    rw [get?_properties, h.described f hf byAlias]
    rfl

end SchemaGraph

/-! ## A primary key that is declared as another attribute -/

/-- The schema of tickets, which declare their identifier like any other attribute. -/
inductive TicketSchema where
  | ticket

instance : SchemaGraph TicketSchema where
  schema
    | .ticket =>
      { name := "Ticket", primaryKey := some "id"
        declared := [⟨"id", .int, some "identifier", false⟩, ⟨"title", .string, some "t", false⟩] }
  all := [.ticket]
  mem_all := by rintro ⟨⟩; simp

open SchemaGraph in
/-- A ticket's identifier is looked up as the primary key and listed as an attribute with an alias.
Its path reads the reserved key, which the description of tickets does not have. -/
theorem ticket_views_differ :
    fieldDef? TicketSchema.ticket "id" = some (.primaryKey "id") ∧
      (fields TicketSchema.ticket).find? (·.name == "id") =
        some ⟨"id", .int, some "identifier", false⟩ ∧
      fieldDef? TicketSchema.ticket "id" ≠ (fields TicketSchema.ticket).find? (·.name == "id") ∧
      (∃ p, FieldPath.resolve TicketSchema.ticket ["id"] = .ok p ∧
        p.recordSegments = [reservedIdKey]) ∧
      ∀ byAlias opened,
        reservedIdKey ∉ Keyed.keys (properties byAlias opened TicketSchema.ticket) := by
  have hlooked : fieldDef? TicketSchema.ticket "id" = some (.primaryKey "id") := rfl
  have hlisted : (fields TicketSchema.ticket).find? (·.name == "id") =
      some ⟨"id", .int, some "identifier", false⟩ := rfl
  refine ⟨hlooked, hlisted, fun h => ?_, ⟨_, rfl, rfl⟩, fun byAlias opened hmem => ?_⟩
  · rw [hlooked, hlisted] at h
    cases h
  · have hkeys : ∀ f ∈ fields TicketSchema.ticket, f.recordKey byAlias ≠ reservedIdKey := by
      cases byAlias <;> decide
    obtain ⟨f, hf, hkey⟩ := mem_keys_properties.mp hmem
    exact hkeys f hf hkey

end TypedStore
