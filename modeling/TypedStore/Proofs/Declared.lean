import Mathlib.Logic.Relation
import TypedStore.Proofs.Fits

/-!
Documents that hold declared attributes only, stored by alias.

Where a schema keeps its aliases apart from one another and from the primary key, at every level, a
declared document can be respelled (`Declared.respellable`). So a record of it that is stored by
alias reads as the record that is stored without (`Declared.rename_stamped`). Nothing is said of
what is under the reserved key: that is written over with the identifier, by alias or not.
-/

namespace TypedStore

variable {σ : Type} [SchemaGraph σ] {s : σ}

open SchemaGraph

/-- An attribute of the first schema embeds the second. -/
def Embeds (s t : σ) : Prop := ∃ f ∈ fields s, f.kind = .embedded t

/-- Attribute names are distinct and so are record keys, and no alias is the reserved key or a
primary key's name. -/
structure AliasesApart (s : σ) : Prop where
  names : ((fields s).map Field.name).Nodup
  recordKeys : ((fields s).map (·.recordKey true)).Nodup
  aliases : ∀ f ∈ fields s, ∀ a ∈ f.aliasName,
    a ≠ reservedIdKey ∧ ∀ g ∈ fields s, g.isPrimaryKey = true → a ≠ g.name

/-- The keys that attributes have in records without aliases: the reserved one for the primary key,
however it is declared, and their own for the others. -/
def plainKeys (s : σ) (key : String) : List String :=
  reservedIdKey :: ((fields s).filter fun f => f.name != key).map (·.recordKey false)

/-- Where these keys are distinct, the reserved one is the primary key's alone. -/
theorem recordKey_ne_reserved {key : String} (h : (plainKeys s key).Nodup) {f : Field σ}
    (hf : f ∈ fields s) (hname : f.name ≠ key) : f.recordKey false ≠ reservedIdKey := by
  intro heq
  refine (List.nodup_cons.mp h).1 (List.mem_map.mpr ⟨f, ?_, heq⟩)
  exact List.mem_filter.mpr ⟨hf, bne_iff_ne.mpr hname⟩

/-- Each key is an attribute's, here and in the documents of embedded attributes. -/
inductive Declared : σ → Document → Prop where
  | intro {s : σ} {d : Document} (distinct : Keyed.Nodup d)
    (attributes : ∀ k ∈ Keyed.keys d, ∃ f ∈ fields s, f.name = k)
    (nested : ∀ k inner f t, Keyed.get? d k = some (.document inner) → f ∈ fields s →
      f.name = k → f.kind = .embedded t → Declared t inner) :
    Declared s d

theorem Declared.nodup {d : Document} (h : Declared s d) : Keyed.Nodup d := by
  obtain ⟨distinct, -, -⟩ := h
  exact distinct

theorem Declared.exists_field {d : Document} (h : Declared s d) {k : String}
    (hk : k ∈ Keyed.keys d) : ∃ f ∈ fields s, f.name = k := by
  obtain ⟨-, attributes, -⟩ := h
  exact attributes k hk

namespace AliasesApart

/-- A plain attribute with the reserved key in records by alias is called so. -/
theorem name_of_recordKey (h : AliasesApart s) {f : Field σ} (hf : f ∈ fields s)
    (hplain : f.isPrimaryKey = false) (hkey : f.recordKey true = reservedIdKey) :
    f.name = reservedIdKey := by
  cases ha : f.aliasName with
  | none => simpa [Field.recordKey, hplain, ha] using hkey
  | some a =>
    have haname : a = reservedIdKey := by simpa [Field.recordKey, hplain, ha] using hkey
    exact absurd haname (h.aliases f hf a ha).1

/-- The keys of attributes come back from their aliases, and so does the reserved key. -/
theorem same (h : AliasesApart s) {k : String}
    (hk : k = reservedIdKey ∨ ∃ f ∈ fields s, f.name = k) :
    renamed? .attributes s (respelled .aliases s k) = renamed? .aliases s k := by
  unfold respelled
  cases hren : renamed? .aliases s k with
  | some f =>
    obtain ⟨hf, hplain, -⟩ := renamed?_eq_some hren
    exact renamed?_recordKey h.recordKeys hf hplain
  | none =>
    refine renamed?_eq_none_iff.mpr fun f hf hplain hkey => ?_
    have hname : f.name ≠ k := renamed?_eq_none_iff.mp hren f hf hplain
    cases ha : f.aliasName with
    | none => exact hname (by simpa [Field.spelled, Naming.other, Field.recordKey, hplain, ha]
        using hkey)
    | some a =>
      have hak : a = k := by
        simpa [Field.spelled, Naming.other, Field.recordKey, hplain, ha] using hkey
      rcases hk with hk | ⟨g, hg, hgname⟩
      · exact (h.aliases f hf a ha).1 (hak.trans hk)
      · -- the key is not renamed, so the attribute that has it is the primary key
        have hgkey : g.isPrimaryKey = true := by
          by_contra hgplain
          exact renamed?_eq_none_iff.mp hren g hg (by simpa using hgplain) hgname
        exact (h.aliases f hf a ha).2 g hg hgkey (hak.trans hgname.symm)

/-- An identifier under the reserved key stays there and is not changed. -/
theorem renameEntry_reserved (h : AliasesApart s) (id : RecordId) :
    renameEntry .attributes s (reservedIdKey, .int64 id) = (reservedIdKey, .int64 id) := by
  unfold renameEntry
  cases hren : renamed? .attributes s reservedIdKey with
  | none => rfl
  | some f =>
    obtain ⟨hf, hplain, hkey⟩ := renamed?_eq_some hren
    show (f.name, renameValue .attributes f.kind (.int64 id)) = _
    rw [h.name_of_recordKey hf hplain hkey]
    rfl

end AliasesApart

theorem Declared.respellable {d : Document} (h : Declared s d)
    (hlevels : ∀ t, Relation.ReflTransGen Embeds s t → AliasesApart t) :
    Respellable .aliases s d := by
  induction h with
  | @intro s d distinct attributes nested ih =>
    refine .intro distinct (fun k hk => (hlevels s .refl).same (.inr (attributes k hk))) ?_
    intro k inner f t hget hren hkind
    obtain ⟨hf, -, hname⟩ := renamed?_eq_some hren
    exact ih k inner f t hget hf hname hkind fun u hu => hlevels u (.head ⟨f, hf, hkind⟩ hu)

/-! ## The record by alias and the record without -/

namespace Declared

variable {d : Document}

/-- Beside the primary key nothing is under the reserved key, if no other attribute has that key. -/
theorem reserved_notMem_erase (h : Declared s d) {key : String} (hkeys : (plainKeys s key).Nodup) :
    reservedIdKey ∉ Keyed.keys (Keyed.erase d key) := by
  intro hmem
  obtain ⟨f, hf, hname⟩ := h.exists_field ((Keyed.keys_erase_sublist d key).subset hmem)
  by_cases hkey : f.name = key
  · rw [← hname, hkey] at hmem
    exact Keyed.notMem_keys_erase h.nodup key hmem
  · refine recordKey_ne_reserved hkeys hf hkey ?_
    simp [Field.recordKey, hname]

theorem mem_keys_moveKey (h : Declared s d) {key k : String}
    (hk : k ∈ Keyed.keys (Model.moveKey key reservedIdKey d)) :
    k = reservedIdKey ∨ ∃ f ∈ fields s, f.name = k :=
  (Model.mem_keys_moveKey h.nodup hk).imp_right h.exists_field

/-- Off the reserved key, what is stored by alias reads as it was. -/
theorem renameEntry_moveKey (h : Declared s d)
    (hlevels : ∀ t, Relation.ReflTransGen Embeds s t → AliasesApart t) {key : String}
    {e : String × Value} (he : e ∈ Model.moveKey key reservedIdKey d)
    (hne : e.1 ≠ reservedIdKey) :
    renameEntry .attributes s (renameEntry .aliases s e) = e := by
  refine (h.respellable hlevels).entry_back e ?_
  have hmoved := Model.get?_moveKey_of_ne key h.nodup hne
  rw [Keyed.get?_of_mem (Model.nodup_moveKey key reservedIdKey h.nodup) he] at hmoved
  split at hmoved
  · cases hmoved
  · exact Keyed.mem_of_get? hmoved.symm

/-- A stored record by alias, under attribute names again, is the record that is stored without
aliases. -/
theorem rename_stamped (h : Declared s d)
    (hlevels : ∀ t, Relation.ReflTransGen Embeds s t → AliasesApart t) (key : String)
    (id : RecordId) :
    rename .attributes s
        (Contents.stamped id (rename .aliases s (Model.moveKey key reservedIdKey d))) =
      Contents.stamped id (Model.moveKey key reservedIdKey d) := by
  have hapart := hlevels s .refl
  have hdistinct : Keyed.Nodup (Model.moveKey key reservedIdKey d) :=
    Model.nodup_moveKey key reservedIdKey h.nodup
  have hsame : ∀ k ∈ Keyed.keys (Model.moveKey key reservedIdKey d),
      renamed? Naming.aliases.other s (respelled .aliases s k) = renamed? .aliases s k :=
    fun k hk => hapart.same (h.mem_keys_moveKey hk)
  set moved := Model.moveKey key reservedIdKey d
  -- neither renaming runs two keys together, so each is entry by entry
  have hforth : Keyed.Nodup (renameEntries .aliases s moved) :=
    nodup_renameEntries hdistinct hsame
  have hboth : renameEntries .attributes s (rename .aliases s moved) =
      moved.map fun e => renameEntry .attributes s (renameEntry .aliases s e) := by
    rw [rename_eq_map hforth, renameEntries_eq_map, List.map_map]
    rfl
  have hkeys : ∀ e ∈ moved, (renameEntry .attributes s (renameEntry .aliases s e)).1 = e.1 := by
    intro e he
    rw [renameEntry_fst, renameEntry_fst]
    exact respelled_respelled (hsame e.1 (List.mem_map_of_mem he))
  have hback : Keyed.Nodup (renameEntries .attributes s (rename .aliases s moved)) := by
    rw [hboth, Keyed.Nodup, Keyed.keys, List.map_map]
    show (moved.map fun e => (renameEntry .attributes s (renameEntry .aliases s e)).1).Nodup
    rw [List.map_congr_left hkeys]
    exact hdistinct
  rw [Contents.stamped, rename_insert hback (hapart.renameEntry_reserved id), rename,
    Keyed.ofPairs_of_nodup hback, hboth, Keyed.insert_map_of_agree hdistinct hkeys]
  · rfl
  · intro e he hne
    exact h.renameEntry_moveKey hlevels he hne

end Declared

end TypedStore
