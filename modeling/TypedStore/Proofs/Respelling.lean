import TypedStore.Proofs.Declared
import TypedStore.Proofs.KeyOrder

/-!
Respelling documents whose keys come in another order.

Documents that are the same are respelled alike (`Respellable.rename_same`), and what was respelled
can be spelled back (`Respellable.back`), also when its keys have changed places in between
(`Respellable.rename_of_same`). So models store documents that are the same alike
(`Model.toStored_same`). A document of declared attributes is one in any order of keys
(`Declared.of_same`).
-/

namespace TypedStore

variable {σ : Type} [SchemaGraph σ] {into : Naming} {s : σ} {d e : Document}

theorem Naming.other_other (into : Naming) : into.other.other = into := by
  cases into <;> rfl

namespace SchemaGraph

/-- A renamed entry has a document only where it had one, respelled if the attribute embeds it. -/
theorem eq_document_of_renameValue {t : σ} {v : Value} {inner : Document}
    (h : renameValue into (.embedded t) v = .document inner) :
    ∃ before, v = .document before ∧ inner = rename into t before := by
  cases v with
  | document before => exact ⟨before, rfl, (Value.document.inj h).symm⟩
  | _ => cases h

/-- What a value is respelled to does not hang on the order of keys, if it does not in the document
of an embedded attribute. -/
theorem renameValue_sorted {kind : FieldKind σ} {v : Value}
    (nested : ∀ inner t, v = .document inner → kind = .embedded t →
      Document.Same (rename into t (Document.sorted inner)) (rename into t inner)) :
    (renameValue into kind v.sorted).sorted = (renameValue into kind v).sorted := by
  cases v with
  | document inner =>
    cases kind with
    | embedded t => exact congrArg Value.document (nested inner t rfl rfl)
    | _ => exact Value.sorted_sorted (.document inner)
  | array items => exact Value.sorted_sorted (.array items)
  | codeWithScope text scope => exact Value.sorted_sorted (.codeWithScope text scope)
  | _ => rfl

namespace Respellable

theorem nodup (h : Respellable into s d) : Keyed.Nodup d := by
  obtain ⟨distinct, -, -⟩ := h
  exact distinct

theorem nodup_renameEntries (h : Respellable into s d) : Keyed.Nodup (renameEntries into s d) := by
  obtain ⟨distinct, same, -⟩ := h
  exact SchemaGraph.nodup_renameEntries distinct same

theorem rename_eq_map (h : Respellable into s d) :
    rename into s d = d.map (renameEntry into s) :=
  SchemaGraph.rename_eq_map h.nodup_renameEntries

theorem nodup_rename (h : Respellable into s d) : Keyed.Nodup (rename into s d) := by
  rw [h.rename_eq_map, ← renameEntries_eq_map]
  exact h.nodup_renameEntries

/-- What was respelled can be spelled back. -/
theorem back (h : Respellable into s d) : Respellable into.other s (rename into s d) := by
  induction h with
  | @intro s d distinct same nested ih =>
    have hd : Respellable into s d := .intro distinct same nested
    refine .intro hd.nodup_rename ?_ ?_
    · intro k' hk'
      rw [hd.rename_eq_map, ← renameEntries_eq_map, keys_renameEntries] at hk'
      obtain ⟨k, hk, rfl⟩ := List.mem_map.mp hk'
      rw [respelled_respelled (same k hk), Naming.other_other, same k hk]
    · intro k' inner' f t hget hren hkind
      have hmem := Keyed.mem_of_get? hget
      rw [hd.rename_eq_map, List.mem_map] at hmem
      obtain ⟨⟨k, v⟩, he, hentry⟩ := hmem
      -- the key stands for the attribute that the key it comes from stands for
      have hkey : respelled into s k = k' := by
        rw [← renameEntry_fst into s (k, v), hentry]
      have hk : renamed? into s k = some f := by
        rw [← same k (List.mem_map_of_mem he), hkey, hren]
      have hvalue : renameValue into (.embedded t) v = .document inner' := by
        simpa [renameEntry, hk, hkind] using congrArg Prod.snd hentry
      obtain ⟨inner, rfl, rfl⟩ := eq_document_of_renameValue hvalue
      exact ih k inner f t (Keyed.get?_of_mem distinct he) hk hkind

/-! ## Keys in another order -/

/-- Documents that are the same can be respelled alike. -/
theorem of_same (h : Respellable into s e) (hsame : Document.Same d e) : Respellable into s d := by
  induction h generalizing d with
  | @intro s e distinct same nested ih =>
    refine .intro (hsame.nodup_iff.mpr distinct) ?_ ?_
    · exact fun k hk => same k (hsame.mem_keys_iff.mp hk)
    · intro k inner f t hget hren hkind
      obtain ⟨inner', hget', hinner⟩ := hsame.get?_document distinct hget
      exact ih k inner' f t hget' hren hkind hinner

theorem same_sorted (h : Respellable into s d) :
    Document.Same (rename into s (Document.sorted d)) (rename into s d) := by
  induction h with
  | @intro s d distinct same nested ih =>
    have hd : Respellable into s d := .intro distinct same nested
    have hsorted : Respellable into s (Document.sorted d) := hd.of_same (Document.same_sorted d)
    refine (Document.same_iff_perm hsorted.nodup_rename).mpr ?_
    rw [hsorted.rename_eq_map, hd.rename_eq_map]
    refine (((Document.sorted_perm d).map _).map _).trans (.of_eq ?_)
    simp only [Keyed.mapValues, List.map_map]
    refine List.map_congr_left ?_
    rintro ⟨k, v⟩ he
    simp only [Function.comp_apply, renameEntry]
    cases hk : renamed? into s k with
    | none => exact congrArg (k, ·) (Value.sorted_sorted v)
    | some f =>
      refine congrArg (f.spelled into, ·) (renameValue_sorted ?_)
      intro inner t hv hkind
      subst hv
      exact ih k inner f t (Keyed.get?_of_mem distinct he) hk hkind

/-- Documents that are the same are respelled alike. -/
theorem rename_same (h : Respellable into s e) (hsame : Document.Same d e) :
    Document.Same (rename into s d) (rename into s e) := by
  have hd := (h.of_same hsame).same_sorted
  rw [hsame] at hd
  exact hd.symm.trans h.same_sorted

/-- A document that is respelled, put in another order and spelled back is the same again. -/
theorem rename_of_same (h : Respellable into s d) (hsame : Document.Same e (rename into s d)) :
    Document.Same (rename into.other s e) d := by
  have hback := h.back.rename_same hsame
  rwa [rename_rename h] at hback

end Respellable

end SchemaGraph

open SchemaGraph

/-! ## What a model stores -/

namespace Model

variable {D : Type} {m : Model σ D}

/-- Documents that are the same are stored alike, if they can be respelled where that takes it. -/
theorem toStored_same (h : m.byAlias = true → Respellable .aliases m.type.schema e)
    (hsame : Document.Same d e) : Document.Same (m.toStored d) (m.toStored e) := by
  unfold toStored
  split
  · next halias => exact (h halias).rename_same hsame
  · exact hsame

theorem nodup_toStored (h : m.byAlias = true → Respellable .aliases m.type.schema e)
    (he : Keyed.Nodup e) : Keyed.Nodup (m.toStored e) := by
  unfold toStored
  split
  · next halias => exact (h halias).nodup_rename
  · exact he

end Model

namespace Declared

/-- Of documents that are the same, one is declared when the other is. -/
theorem of_same (h : Declared s e) (hsame : Document.Same d e) : Declared s d := by
  induction h generalizing d with
  | @intro s e distinct attributes nested ih =>
    refine .intro (hsame.nodup_iff.mpr distinct) ?_ ?_
    · exact fun k hk => attributes k (hsame.mem_keys_iff.mp hk)
    · intro k inner f t hget hf hname hkind
      obtain ⟨inner', hget', hinner⟩ := hsame.get?_document distinct hget
      exact ih k inner' f t hget' hf hname hkind hinner

/-- An attribute that is there may get any value but a document. -/
theorem insert (h : Declared s d) {k : String} (hk : k ∈ Keyed.keys d) {v : Value}
    (hv : ∀ inner, v ≠ .document inner) : Declared s (Keyed.insert d k v) := by
  obtain ⟨distinct, attributes, nested⟩ := h
  refine .intro (Keyed.nodup_insert distinct k v) ?_ ?_
  · rw [Keyed.keys_insert_of_mem hk]
    exact attributes
  · intro j inner f t hget
    rw [Keyed.get?_insert] at hget
    split at hget
    · exact absurd (Option.some.inj hget) (hv inner)
    · exact nested j inner f t hget

end Declared

end TypedStore
