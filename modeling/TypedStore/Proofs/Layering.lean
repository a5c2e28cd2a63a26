import TypedStore.DocumentType

/-!
Which layer a setting of a document type comes from.

Filling gaps is associative, and over settings that leave everything open it changes nothing
(`orElse_assoc`, `empty_orElse`), so a list of bases is one layer: what is inherited from two lists,
one after the other, is what is inherited from the first, with what is inherited from the second
behind it (`inherit_append`).

A setting that is filled on its own (`Layered`) is then the first one given among the layers, the
nearest first. So it is for the database and for the naming. The name of the collection is found
among the overrides and the type's own settings only, since the schema's name stands before whatever
the bases say (`settings_layered`).
-/

namespace TypedStore

namespace Settings

variable {α : Type}

/-! ## Layers over one another -/

theorem empty_orElse (s : Settings) : orElse {} s = s := by
  simp [orElse]

theorem orElse_assoc (s t u : Settings) : (s.orElse t).orElse u = s.orElse (t.orElse u) := by
  simp [orElse, Option.or_assoc]

/-- Overrides and own settings, the nearer first, over what is inherited. -/
theorem compose_eq_foldr (own : Option Settings) (parent overrides : Settings) :
    compose own parent overrides = (overrides :: own.toList).foldr orElse parent := by
  cases own with
  | none => rfl
  | some own => exact orElse_assoc overrides own parent

/-- Bases are layers over settings that leave everything open. -/
theorem inherit_eq_foldr (bases : List Settings) : inherit bases = bases.foldr orElse {} := by
  induction bases with
  | nil => rfl
  | cons base rest ih =>
    show (orElse {} base).orElse (inherit rest) = _
    rw [empty_orElse, ih, List.foldr_cons]

theorem foldr_orElse (layers : List Settings) (last : Settings) :
    layers.foldr orElse last = (inherit layers).orElse last := by
  rw [inherit_eq_foldr]
  induction layers with
  | nil => exact (empty_orElse last).symm
  | cons layer rest ih => rw [List.foldr_cons, List.foldr_cons, ih, orElse_assoc]

/-- Farther bases are a fallback for the nearer ones. -/
theorem inherit_append (nearer farther : List Settings) :
    inherit (nearer ++ farther) = (inherit nearer).orElse (inherit farther) :=
  calc inherit (nearer ++ farther)
      = nearer.foldr orElse (farther.foldr orElse {}) := by
        rw [inherit_eq_foldr, List.foldr_append]
    _ = nearer.foldr orElse (inherit farther) := by rw [inherit_eq_foldr farther]
    _ = (inherit nearer).orElse (inherit farther) := foldr_orElse nearer _

/-! ## One setting -/

/-- The setting starts out open, and it is filled from the same setting of the next layer. -/
structure Layered (setting : Settings → Option α) : Prop where
  empty : setting {} = none
  orElse : ∀ s t, setting (s.orElse t) = (setting s).or (setting t)

theorem layered_database : Layered database := ⟨rfl, fun _ _ => rfl⟩

theorem layered_name : Layered name := ⟨rfl, fun _ _ => rfl⟩

theorem layered_byAlias : Layered byAlias := ⟨rfl, fun _ _ => rfl⟩

namespace Layered

variable {setting : Settings → Option α}

theorem foldr (h : Layered setting) (layers : List Settings) (last : Settings) :
    setting (layers.foldr Settings.orElse last) =
      (layers.findSome? setting).or (setting last) := by
  induction layers with
  | nil => rfl
  | cons layer rest ih =>
    rw [List.foldr_cons, h.orElse, ih, List.findSome?_cons]
    cases setting layer <;> rfl

theorem compose (h : Layered setting) (own : Option Settings) (parent overrides : Settings) :
    setting (Settings.compose own parent overrides) =
      ((overrides :: own.toList).findSome? setting).or (setting parent) := by
  rw [compose_eq_foldr, h.foldr]

theorem inherit (h : Layered setting) (bases : List Settings) :
    setting (Settings.inherit bases) = bases.findSome? setting := by
  rw [inherit_eq_foldr, h.foldr, h.empty, Option.or_none]

end Layered

end Settings

namespace DocumentType

variable {σ D : Type} [SchemaGraph σ]

open Settings

/-- Under any overrides, the naming and the database of a type are the first that is set by the
overrides, by the type itself and by its bases in their order. The name of its collection is the
first that is set by the overrides and by the type itself, and else the name of its schema, whatever
the bases are. What is inherited from two lists of bases, one after the other, is what is inherited
from the first, with its gaps filled by what is inherited from the second. -/
theorem settings_layered (type : DocumentType σ D) (overrides : Settings) :
    (type.settings overrides).byAlias =
      (overrides :: type.own.toList ++ type.bases).findSome? byAlias ∧
    (type.settings overrides).database =
      (overrides :: type.own.toList ++ type.bases).findSome? database ∧
    (type.settings overrides).name =
      some (((overrides :: type.own.toList).findSome? name).getD type.schemaName) ∧
    (∀ bases, ({ type with bases }.settings overrides).name = (type.settings overrides).name) ∧
    ∀ nearer farther,
      inherit (nearer ++ farther) = (inherit nearer).orElse (inherit farther) := by
  have hname (bases : List Settings) : ({ type with bases }.settings overrides).name =
      some (((overrides :: type.own.toList).findSome? name).getD type.schemaName) := by
    rw [settings, resolve, layered_name.compose]
    exact Option.or_some
  refine ⟨?naming, ?database, hname type.bases, ?uninherited, inherit_append⟩
  case naming =>
    rw [settings, resolve, layered_byAlias.compose, List.findSome?_append]
    exact congrArg _ (layered_byAlias.inherit type.bases)
  case database =>
    rw [settings, resolve, layered_database.compose, List.findSome?_append]
    exact congrArg _ (layered_database.inherit type.bases)
  case uninherited =>
    intro bases
    rw [hname bases, hname type.bases]

end DocumentType

end TypedStore
