import Mathlib.Data.List.Nodup
import TypedStore.Schema.Renaming

/-!
Respelling a document and reading it back.

A key comes back from its other name when that name stands for the same attribute as the key did,
and a document comes back when all its keys do, here and in the documents of embedded attributes.
`Respellable` says so and `rename_rename` is the round trip. It needs no more than that: aliases
may permute the attribute names, and a schema may embed itself.
-/

namespace TypedStore.SchemaGraph

variable {σ : Type} [SchemaGraph σ] {into : Naming} {s : σ}

theorem renamed?_eq_some {k : String} {f : Field σ} (h : renamed? into s k = some f) :
    f ∈ fields s ∧ f.isPrimaryKey = false ∧ f.spelled into.other = k := by
  have hf := List.find?_some h
  simp only [Bool.and_eq_true, Bool.not_eq_true', beq_iff_eq] at hf
  exact ⟨List.mem_of_find?_eq_some h, hf⟩

theorem renamed?_eq_none_iff {k : String} :
    renamed? into s k = none ↔
      ∀ f ∈ fields s, f.isPrimaryKey = false → f.spelled into.other ≠ k := by
  simp [renamed?, List.find?_eq_none]

/-- Where no two attributes have one name of a spelling, each is found by its own. -/
theorem renamed?_spelled {f : Field σ} (hnodup : ((fields s).map (·.spelled into.other)).Nodup)
    (hf : f ∈ fields s) (hkey : f.isPrimaryKey = false) :
    renamed? into s (f.spelled into.other) = some f := by
  cases h : renamed? into s (f.spelled into.other) with
  | none => exact absurd rfl (renamed?_eq_none_iff.mp h f hf hkey)
  | some g =>
    obtain ⟨hg, -, hsame⟩ := renamed?_eq_some h
    rw [List.inj_on_of_nodup_map hnodup hg hf hsame]

theorem renamed?_recordKey {f : Field σ} (h : ((fields s).map (·.recordKey true)).Nodup)
    (hf : f ∈ fields s) (hkey : f.isPrimaryKey = false) :
    renamed? .attributes s (f.recordKey true) = some f := by
  have hnodup : ((fields s).map (·.spelled Naming.attributes.other)).Nodup := h
  exact renamed?_spelled hnodup hf hkey

/-- The other name of a key; a key that no attribute has is its own. -/
def respelled (into : Naming) (s : σ) (k : String) : String :=
  match renamed? into s k with
  | some f => f.spelled into
  | none => k

/-- An entry of a document of this schema, respelled. -/
def renameEntry (into : Naming) (s : σ) (e : String × Value) : String × Value :=
  match renamed? into s e.1 with
  | some f => (f.spelled into, renameValue into f.kind e.2)
  | none => e

theorem renameEntry_fst (into : Naming) (s : σ) (e : String × Value) :
    (renameEntry into s e).1 = respelled into s e.1 := by
  unfold renameEntry respelled
  cases renamed? into s e.1 <;> rfl

theorem renameEntries_eq_map (into : Naming) (s : σ) (d : Document) :
    renameEntries into s d = d.map (renameEntry into s) := by
  induction d with
  | nil => rfl
  | cons e rest ih => rw [renameEntries, ih]; rfl

theorem keys_renameEntries (into : Naming) (s : σ) (d : Document) :
    Keyed.keys (renameEntries into s d) = (Keyed.keys d).map (respelled into s) := by
  simp [renameEntries_eq_map, Keyed.keys, renameEntry_fst]

/-- A key that stays as it is, and that no other key is respelled to, keeps its value. -/
theorem get?_rename_of_kept {d : Document} (hd : Keyed.Nodup d) {k : String}
    (hkept : renamed? into s k = none)
    (hfree : ∀ f ∈ fields s, f.isPrimaryKey = false → f.spelled into ≠ k) :
    Keyed.get? (rename into s d) k = Keyed.get? d k := by
  have hsame : ∀ e : String × Value, e.1 = k → renameEntry into s e = e := by
    rintro e rfl
    simp [renameEntry, hkept]
  have hkey : ∀ e : String × Value, (renameEntry into s e).1 = k ↔ e.1 = k := by
    intro e
    rw [renameEntry_fst, respelled]
    cases h : renamed? into s e.1 with
    | none => rfl
    | some f =>
      obtain ⟨hf, hplain, -⟩ := renamed?_eq_some h
      refine ⟨fun heq => absurd heq (hfree f hf hplain), ?_⟩
      rintro rfl
      rw [hkept] at h
      cases h
  rw [rename, Keyed.ofPairs, Keyed.get?_foldl_insert, renameEntries_eq_map, ← List.map_reverse,
    Keyed.get?_map_of_kept hkey hsame, Keyed.get?_nil, Option.or_none]
  exact (Keyed.get?_perm hd d.reverse_perm.symm k).symm

/-- Every key's other name stands for the attribute that the key stands for, in the document and
in those of its embedded attributes. -/
inductive Respellable (into : Naming) : σ → Document → Prop where
  | intro {s : σ} {d : Document} (distinct : Keyed.Nodup d)
    (same : ∀ k ∈ Keyed.keys d, renamed? into.other s (respelled into s k) = renamed? into s k)
    (nested : ∀ k inner f t, Keyed.get? d k = some (.document inner) →
      renamed? into s k = some f → f.kind = .embedded t → Respellable into t inner) :
    Respellable into s d

theorem respelled_respelled {k : String}
    (h : renamed? into.other s (respelled into s k) = renamed? into s k) :
    respelled into.other s (respelled into s k) = k := by
  rw [respelled, h]
  cases hk : renamed? into s k with
  | some f => exact (renamed?_eq_some hk).2.2
  | none => simp [respelled, hk]

/-- Keys that can be got back do not fall together. -/
theorem nodup_renameEntries {d : Document} (distinct : Keyed.Nodup d)
    (same : ∀ k ∈ Keyed.keys d, renamed? into.other s (respelled into s k) = renamed? into s k) :
    Keyed.Nodup (renameEntries into s d) := by
  rw [Keyed.Nodup, keys_renameEntries]
  refine List.Nodup.map_on ?_ distinct
  intro j hj k hk heq
  rw [← respelled_respelled (same j hj), heq, respelled_respelled (same k hk)]

/-- As long as no two keys fall together, no entry is lost. -/
theorem rename_eq_map {d : Document} (h : Keyed.Nodup (renameEntries into s d)) :
    rename into s d = d.map (renameEntry into s) := by
  rw [rename, Keyed.ofPairs_of_nodup h, renameEntries_eq_map]

/-- A write under a key that stays as it is, before the respelling or after it. -/
theorem rename_insert {d : Document} (h : Keyed.Nodup (renameEntries into s d)) {k : String}
    {v : Value} (hkept : renameEntry into s (k, v) = (k, v)) :
    rename into s (Keyed.insert d k v) = Keyed.insert (rename into s d) k v := by
  by_cases hk : k ∈ Keyed.keys d
  · have hmap : (Keyed.insert d k v).map (renameEntry into s) =
        Keyed.insert (d.map (renameEntry into s)) k v := by
      have hkey : respelled into s k = k := by
        rw [← renameEntry_fst into s (k, v), hkept]
      rw [Keyed.Nodup, keys_renameEntries] at h
      refine Keyed.map_insert hkept fun e he => ?_
      rw [renameEntry_fst]
      refine ⟨fun heq => ?_, fun heq => by rw [heq, hkey]⟩
      exact List.inj_on_of_nodup_map h (List.mem_map_of_mem he) hk (heq.trans hkey.symm)
    rw [rename_eq_map h]
    rw [renameEntries_eq_map] at h
    rw [rename, renameEntries_eq_map, hmap, Keyed.ofPairs_of_nodup (Keyed.nodup_insert h k v)]
  · rw [Keyed.insert_of_notMem hk, rename, rename, Keyed.ofPairs, renameEntries_eq_map,
      List.map_append, List.foldl_append, List.map_singleton, hkept, renameEntries_eq_map]
    rfl

/-- Two respellings, one after the other, go entry by entry. -/
theorem rename_rename_eq (into' : Naming) {d : Document}
    (h : Keyed.Nodup (renameEntries into s d)) :
    rename into' s (rename into s d) =
      Keyed.ofPairs (d.map fun e => renameEntry into' s (renameEntry into s e)) := by
  rw [rename_eq_map h, rename, renameEntries_eq_map, List.map_map]
  rfl

theorem renameValue_eq_self {kind : FieldKind σ} {v : Value}
    (h : ∀ t inner, kind = .embedded t → v ≠ .document inner) : renameValue into kind v = v := by
  cases v with
  | document inner =>
    cases kind with
    | embedded t => exact absurd rfl (h t inner rfl)
    | _ => rfl
  | _ => rfl

theorem renameValue_renameValue {kind : FieldKind σ} {v : Value}
    (h : ∀ inner t, v = .document inner → kind = .embedded t →
      rename into.other t (rename into t inner) = inner) :
    renameValue into.other kind (renameValue into kind v) = v := by
  cases v with
  | document inner =>
    cases kind with
    | embedded t => exact congrArg Value.document (h inner t rfl rfl)
    | _ => rfl
  | _ => rfl

/-- An entry comes back when its key does and the document below it does. -/
theorem renameEntry_renameEntry {e : String × Value}
    (same : renamed? into.other s (respelled into s e.1) = renamed? into s e.1)
    (nested : ∀ inner f t, e.2 = .document inner → renamed? into s e.1 = some f →
      f.kind = .embedded t → rename into.other t (rename into t inner) = inner) :
    renameEntry into.other s (renameEntry into s e) = e := by
  obtain ⟨k, v⟩ := e
  unfold respelled at same
  cases hk : renamed? into s k with
  | none =>
    rw [hk] at same
    simp [renameEntry, hk, same]
  | some f =>
    rw [hk] at same
    have hv : renameValue into.other f.kind (renameValue into f.kind v) = v :=
      renameValue_renameValue fun inner t hinner ht => nested inner f t hinner hk ht
    simp [renameEntry, hk, same, hv, (renamed?_eq_some hk).2.2]

theorem rename_rename_of_entries {d : Document} (distinct : Keyed.Nodup d)
    (same : ∀ k ∈ Keyed.keys d, renamed? into.other s (respelled into s k) = renamed? into s k)
    (back : ∀ e ∈ d, renameEntry into.other s (renameEntry into s e) = e) :
    rename into.other s (rename into s d) = d := by
  rw [rename_rename_eq _ (nodup_renameEntries distinct same), List.map_congr_left back,
    List.map_id', Keyed.ofPairs_of_nodup distinct]

/-- Every entry of a document that can be respelled comes back. -/
theorem Respellable.entry_back {d : Document} (h : Respellable into s d) :
    ∀ e ∈ d, renameEntry into.other s (renameEntry into s e) = e := by
  induction h with
  | @intro s d distinct same nested ih =>
    rintro ⟨k, v⟩ he
    refine renameEntry_renameEntry (same k (List.mem_map_of_mem he)) ?_
    rintro inner f t rfl hk ht
    have hget := Keyed.get?_of_mem distinct he
    obtain ⟨distinct', same', -⟩ := nested k inner f t hget hk ht
    exact rename_rename_of_entries distinct' same' (ih k inner f t hget hk ht)

/-- A respelled document is the document again when it is spelled back. -/
theorem rename_rename {d : Document} (h : Respellable into s d) :
    rename into.other s (rename into s d) = d := by
  obtain ⟨distinct, same, -⟩ := id h
  exact rename_rename_of_entries distinct same h.entry_back

end TypedStore.SchemaGraph
