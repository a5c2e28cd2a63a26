import Mathlib.Logic.Relation
import TypedStore.Instance
import TypedStore.Model.Binding

/-!
One schema for each collection of a database, for good.

A `World` is a cluster with the databases that were made there and the models that were defined.
Whatever is done in it (`Acts`), by whichever model and through whichever clone of a database, what
is bound stays bound as it is (`Acts.consistent`), also where collections are dropped and made
anew, and models are registered again with other databases.

Registering is refused exactly where the collection is bound to a schema of another name, and then
nothing at all has changed (`register_conflict`, `register_free`). `registering_lasts` puts this
together: two models that are ever bound to one collection through one database have schemas of one
name.
-/

namespace TypedStore

namespace Cluster

variable (c : Cluster) (db other : Database) (name : String)

theorem boundSchema?_setRegistry (r : Registry) :
    (c.setRegistry db r).boundSchema? other name =
      if db.registry = other.registry then Keyed.get? r name else c.boundSchema? other name := by
  rw [boundSchema?, registry_setRegistry]
  split <;> rfl

/-- The registries are numbered in the order in which they were made. -/
def Numbered : Prop := Keyed.keys c.registries = List.range c.registries.length

/-- What is bound in the databases is still bound as it was. -/
def Extends (databases : List Database) (before after : Cluster) : Prop :=
  ∀ db ∈ databases, ∀ name bound,
    before.boundSchema? db name = some bound → after.boundSchema? db name = some bound

end Cluster

namespace Model

variable {σ D : Type} [SchemaGraph σ] {m : Model σ D} {db : Database} {c : Cluster}

/-! ## Registering -/

/-- A collection that is bound to another schema is left alone, and so is the model. -/
theorem register_conflict {bound : String} (h : c.boundSchema? db m.name = some bound)
    (hne : bound ≠ m.type.schemaName) :
    register db (m, c) = (.error (.schemaConflict m.name bound m.type.schemaName), m, c) := by
  simp [register, bind, Step.get, h, hne, Step.fail, Step.ofExcept]

/-- What is left of registering when nothing is in its way. -/
def claim (m : Model σ D) (db : Database) : Step (Model σ D × Cluster) Unit := do
  Step.onSnd <| Cluster.onStore db fun s => (.ok (), s.ensure m.name)
  Step.onSnd <| Cluster.onStore db <| Store.within m.name <|
    Collection.setSchema (SchemaGraph.describe m.byAlias m.type.schema)
  let (_, c) ← Step.get
  Step.set ({ m with database := some db },
    c.setRegistry db (Keyed.insert (c.registry db) m.name m.type.schemaName))

theorem register_eq_claim
    (h : ∀ bound, c.boundSchema? db m.name = some bound → bound = m.type.schemaName) :
    register db (m, c) = m.claim db (m, c) := by
  cases hbound : c.boundSchema? db m.name with
  | none => simp [register, claim, bind, Step.get, hbound]
  | some bound => simp [register, claim, bind, Step.get, hbound, h bound hbound]

omit [SchemaGraph σ] in
/-- A collection that was just made has room for a description. -/
theorem within_ensure (s : Store) (name : String) (schema : Document) :
    ∃ s', Store.within name (Collection.setSchema schema) (s.ensure name) = (.ok (), s') := by
  simp [Store.within, Store.ensure, Store.collection, Store.put, Collection.setSchema,
    Collection.change, Collection.create]

/-- Any other collection is bound, and the model to it. -/
theorem register_free
    (h : ∀ bound, c.boundSchema? db m.name = some bound → bound = m.type.schemaName) :
    ∃ stores, register db (m, c) = (.ok (), { m with database := some db },
      Cluster.setRegistry { c with stores } db
        (Keyed.insert (c.registry db) m.name m.type.schemaName)) := by
  obtain ⟨s', hs'⟩ := within_ensure (c.store db) m.name
    (SchemaGraph.describe m.byAlias m.type.schema)
  rw [register_eq_claim h]
  simp only [claim, bind, Step.onSnd, Cluster.onStore, Step.get, Step.set, Cluster.store_setStore,
    if_true, hs']
  exact ⟨_, rfl⟩

/-- Registering is refused and changes nothing, or it binds the collection and the model. -/
theorem register_cases {answer : Except Error Unit} {m' : Model σ D} {c' : Cluster}
    (h : register db (m, c) = (answer, m', c')) :
    (∃ bound, c.boundSchema? db m.name = some bound ∧ bound ≠ m.type.schemaName ∧
      answer = .error (.schemaConflict m.name bound m.type.schemaName) ∧ m' = m ∧ c' = c) ∨
    ((∀ bound, c.boundSchema? db m.name = some bound → bound = m.type.schemaName) ∧
      answer = .ok () ∧ m' = { m with database := some db } ∧
      ∃ stores, c' = Cluster.setRegistry { c with stores } db
        (Keyed.insert (c.registry db) m.name m.type.schemaName)) := by
  by_cases hconflict :
      ∃ bound, c.boundSchema? db m.name = some bound ∧ bound ≠ m.type.schemaName
  · obtain ⟨bound, hbound, hne⟩ := hconflict
    rw [register_conflict hbound hne] at h
    cases h
    exact .inl ⟨bound, hbound, hne, rfl, rfl, rfl⟩
  · have hfree : ∀ bound, c.boundSchema? db m.name = some bound → bound = m.type.schemaName := by
      intro bound hbound
      exact Decidable.byContradiction fun hne => hconflict ⟨bound, hbound, hne⟩
    obtain ⟨stores, hrun⟩ := register_free hfree
    rw [hrun] at h
    cases h
    exact .inr ⟨hfree, rfl, rfl, stores, rfl⟩

/-- A definition fails and changes nothing, or the model is not bound and nothing is changed
either, or the model is registered. -/
theorem define_cases {type : DocumentType σ D} {overrides : Settings}
    {answer : Except Error (Model σ D)} {c' : Cluster}
    (h : define type overrides c = (answer, c')) :
    (∃ e, answer = .error e ∧ c' = c) ∨
    (∃ m, answer = .ok m ∧ m.database = none ∧ c' = c) ∨
    ∃ db m₀ m, (type.settings overrides).database = some db ∧ answer = .ok m ∧
      register db (m₀, c) = (.ok (), m, c') := by
  by_cases hkey : (SchemaGraph.primaryKey type.schema).isNone
  · simp [define, hkey, bind, Step.fail, Step.ofExcept] at h
    exact .inl ⟨_, h.1.symm, h.2.symm⟩
  · cases hdb : (type.settings overrides).database with
    | none =>
      simp [define, hkey, hdb, pure] at h
      exact .inr (.inl ⟨_, h.1.symm, rfl, h.2.symm⟩)
    | some db =>
      let m₀ : Model σ D :=
        { type, name := (type.settings overrides).collectionName
          byAlias := (type.settings overrides).storedByAlias }
      rcases hrun : register db (m₀, c) with ⟨answer', m, c₁⟩
      cases answer' with
      | error e =>
        simp [define, hkey, hdb, bind, Step.bringing, m₀, hrun, Except.map] at h
        rcases register_cases hrun with ⟨bound, -, -, -, -, hc⟩ | ⟨-, hok, -⟩
        · exact .inl ⟨e, h.1.symm, by rw [← h.2, hc]⟩
        · cases hok
      | ok _ =>
        simp [define, hkey, hdb, bind, pure, Step.bringing, m₀, hrun, Except.map] at h
        exact .inr (.inr ⟨db, m₀, m, rfl, h.1.symm, by rw [← h.2]; exact hrun⟩)

end Model

/-! ## What registering does to the bindings -/

namespace Cluster

variable {c : Cluster} {db : Database} {databases : List Database}

theorem Extends.refl (databases : List Database) (c : Cluster) : Extends databases c c :=
  fun _ _ _ _ h => h

/-- Binding a collection again to the schema it is bound to, or for the first time, changes no other
binding. -/
theorem extends_bound {name schemaName : String}
    (h : ∀ bound, c.boundSchema? db name = some bound → bound = schemaName)
    (stores : Keyed Nat Store) :
    Extends databases c
      (setRegistry { c with stores } db (Keyed.insert (c.registry db) name schemaName)) := by
  intro other _ key bound hbound
  rw [boundSchema?_setRegistry]
  by_cases hdb : db.registry = other.registry
  · have hsame : c.boundSchema? other = c.boundSchema? db := by
      funext key
      simp only [boundSchema?, registry, hdb]
    rw [hsame] at hbound
    rw [if_pos hdb, Keyed.get?_insert]
    by_cases hkey : name = key
    · subst hkey
      rw [if_pos rfl, h bound hbound]
    · rw [if_neg hkey]
      exact hbound
  · rw [if_neg hdb]
    exact hbound

/-- A registry of its own comes with a new number and leaves the others alone. -/
theorem extends_new {new : Database} (hnew : new.registry = c.registries.length)
    (hold : ∀ db ∈ databases, db.registry < c.registries.length) (stores : Keyed Nat Store) :
    Extends databases c (setRegistry { c with stores } new []) := by
  intro db hdb name bound hbound
  have hlt := hold db hdb
  rw [boundSchema?_setRegistry, if_neg (by omega)]
  exact hbound

theorem Numbered.setRegistry (h : c.Numbered) (hdb : db.registry ≤ c.registries.length)
    (stores : Keyed Nat Store) (r : Registry) :
    (Cluster.setRegistry { c with stores } db r).Numbered ∧
      db.registry < (Cluster.setRegistry { c with stores } db r).registries.length ∧
      c.registries.length ≤ (Cluster.setRegistry { c with stores } db r).registries.length := by
  have hlen (d : Keyed Nat Registry) : d.length = (Keyed.keys d).length := (List.length_map _).symm
  unfold Numbered at h ⊢
  simp only [Cluster.setRegistry]
  rcases Nat.lt_or_eq_of_le hdb with hlt | heq
  · have hmem : db.registry ∈ Keyed.keys c.registries := by
      rw [h]
      exact List.mem_range.mpr hlt
    have hkeys := Keyed.keys_insert_of_mem hmem r
    rw [hlen (Keyed.insert c.registries db.registry r), hkeys, ← hlen]
    exact ⟨h, hlt, Nat.le_refl _⟩
  · have hout : db.registry ∉ Keyed.keys c.registries := by
      rw [h, List.mem_range]
      omega
    rw [Keyed.insert_of_notMem hout, List.length_append, List.length_singleton, Keyed.keys,
      List.map_append, List.range_succ]
    exact ⟨by rw [← Keyed.keys, h, heq]; rfl, by omega, by omega⟩

end Cluster

/-! ## Whatever is done -/

/-- A model with the types that it is for. -/
structure AnyModel where
  {σ D : Type}
  [graph : SchemaGraph σ]
  model : Model σ D

attribute [instance] AnyModel.graph

namespace AnyModel

variable (a : AnyModel)

/-- The name of the model's collection. -/
def name : String := a.model.name

/-- The name of the model's schema. -/
def schemaName : String := a.model.type.schemaName

/-- The database that the model is registered with. -/
def database : Option Database := a.model.database

end AnyModel

/-- A cluster with the databases that were made in it and the models that were defined. -/
structure World where
  cluster : Cluster := {}
  databases : List Database := []
  models : List AnyModel := []

/-- What may be done in a world: make a database, or one that shares the store of another; define a
model, which may fail; register a model, also one that is registered already; do anything with the
store of a database, as dropping a collection; run an operation of a model, as clearing it.
Databases are only used after they were made. -/
inductive Acts : World → World → Prop where
  | create (w : World) (s : Store) :
    Acts w { w with
      cluster := (w.cluster.create s).2
      databases := (w.cluster.create s).1 :: w.databases }
  | share {w : World} {db : Database} (known : db ∈ w.databases) :
    Acts w { w with
      cluster := (w.cluster.share db).2
      databases := (w.cluster.share db).1 :: w.databases }
  | define {w : World} {σ D : Type} [SchemaGraph σ] {type : DocumentType σ D}
    {overrides : Settings} {m : Model σ D} {c : Cluster}
    (known : ∀ db, (type.settings overrides).database = some db → db ∈ w.databases)
    (h : Model.define type overrides w.cluster = (.ok m, c)) :
    Acts w { w with cluster := c, models := ⟨m⟩ :: w.models }
  | defineFails {w : World} {σ D : Type} [SchemaGraph σ] {type : DocumentType σ D}
    {overrides : Settings} {e : Error} {c : Cluster}
    (h : Model.define type overrides w.cluster = (.error e, c)) :
    Acts w { w with cluster := c }
  | register {w : World} {i : Nat} {a : AnyModel} {db : Database} {answer : Except Error Unit}
    {m : Model a.σ a.D} {c : Cluster} (defined : w.models[i]? = some a) (known : db ∈ w.databases)
    (h : Model.register db (a.model, w.cluster) = (answer, m, c)) :
    Acts w { w with cluster := c, models := w.models.set i ⟨m⟩ }
  | onStore {w : World} {db : Database} {α : Type} (step : Step Store α)
    (known : db ∈ w.databases) :
    Acts w { w with cluster := (Cluster.onStore db step w.cluster).2 }
  | run {w : World} {a : AnyModel} {α : Type} (step : Step Target α) (defined : a ∈ w.models) :
    Acts w { w with cluster := (a.model.run step w.cluster).2 }
  | runWith {w : World} {a : AnyModel} {α β : Type} (step : Step (β × Target) α) (b : β)
    (defined : a ∈ w.models) :
    Acts w { w with cluster := (a.model.runWith step (b, w.cluster)).2.2 }

/-- The registries of the databases are numbered, and each model that is registered with a database
is bound there to its schema. -/
structure World.Consistent (w : World) : Prop where
  numbered : w.cluster.Numbered
  databases : ∀ db ∈ w.databases, db.registry < w.cluster.registries.length
  models : ∀ a ∈ w.models, ∀ db, a.database = some db →
    db ∈ w.databases ∧ w.cluster.boundSchema? db a.name = some a.schemaName

/-- There are no fewer databases later on, and what is bound in them stays bound as it is. -/
structure World.Advances (w w' : World) : Prop where
  databases : w.databases ⊆ w'.databases
  bindings : Cluster.Extends w.databases w.cluster w'.cluster

namespace World

variable {w w' w'' : World}

theorem Advances.refl (w : World) : w.Advances w :=
  ⟨List.Subset.refl _, .refl _ _⟩

theorem Advances.trans (h : w.Advances w') (h' : w'.Advances w'') : w.Advances w'' where
  databases := List.Subset.trans h.databases h'.databases
  bindings db hdb name bound hbound :=
    h'.bindings db (h.databases hdb) name bound (h.bindings db hdb name bound hbound)

/-- A world stays consistent if new databases are numbered and new models are bound. -/
theorem Consistent.advance (hw : w.Consistent) (h : w.Advances w')
    (hnumbered : w'.cluster.Numbered)
    (hlen : w.cluster.registries.length ≤ w'.cluster.registries.length)
    (hdatabases : ∀ db ∈ w'.databases,
      db ∈ w.databases ∨ db.registry < w'.cluster.registries.length)
    (hmodels : ∀ a ∈ w'.models, a ∈ w.models ∨ ∀ db, a.database = some db →
      db ∈ w'.databases ∧ w'.cluster.boundSchema? db a.name = some a.schemaName) :
    w'.Consistent where
  numbered := hnumbered
  databases db hdb := by
    rcases hdatabases db hdb with hold | hnew
    · exact Nat.lt_of_lt_of_le (hw.databases db hold) hlen
    · exact hnew
  models a ha db hdb := by
    rcases hmodels a ha with hold | hnew
    · obtain ⟨hknown, hbound⟩ := hw.models a hold db hdb
      exact ⟨h.databases hknown, h.bindings db hknown _ _ hbound⟩
    · exact hnew db hdb

end World

/-! ## Whatever is done, what is bound stays bound -/

section Step

variable {w w' : World}

/-- A database with a registry of its own is new. -/
theorem World.Consistent.withDatabase (hw : w.Consistent) {db : Database}
    (hnew : db.registry = w.cluster.registries.length) (stores : Keyed Nat Store) :
    w.Advances { w with
        cluster := Cluster.setRegistry { w.cluster with stores } db []
        databases := db :: w.databases } ∧
      World.Consistent { w with
        cluster := Cluster.setRegistry { w.cluster with stores } db []
        databases := db :: w.databases } := by
  obtain ⟨hnumbered, hlt, hlen⟩ :=
    hw.numbered.setRegistry (Nat.le_of_eq hnew) stores []
  have hadv : w.Advances { w with
      cluster := Cluster.setRegistry { w.cluster with stores } db []
      databases := db :: w.databases } :=
    ⟨List.subset_cons_self .., Cluster.extends_new hnew hw.databases stores⟩
  refine ⟨hadv, hw.advance hadv hnumbered hlen ?_ fun a ha => .inl ha⟩
  intro other hother
  rcases List.mem_cons.mp hother with rfl | hold
  · exact .inr hlt
  · exact .inl hold

/-- A model that is registered takes its place among the models. -/
theorem World.Consistent.withModel (hw : w.Consistent) {σ D : Type} [SchemaGraph σ]
    {m₀ m : Model σ D} {db : Database} {c : Cluster} (known : db ∈ w.databases)
    (h : Model.register db (m₀, w.cluster) = (.ok (), m, c)) {models : List AnyModel}
    (hmodels : ∀ a ∈ models, a ∈ w.models ∨ a = ⟨m⟩) :
    w.Advances { w with cluster := c, models } ∧
      World.Consistent { w with cluster := c, models } := by
  rcases Model.register_cases h with ⟨bound, -, -, herr, -⟩ | ⟨hfree, -, rfl, stores, rfl⟩
  · cases herr
  obtain ⟨hnumbered, -, hlen⟩ := hw.numbered.setRegistry (Nat.le_of_lt (hw.databases db known))
    stores (Keyed.insert (w.cluster.registry db) m₀.name m₀.type.schemaName)
  have hadv : w.Advances { w with
      cluster := Cluster.setRegistry { w.cluster with stores } db
        (Keyed.insert (w.cluster.registry db) m₀.name m₀.type.schemaName)
      models } :=
    ⟨List.Subset.refl _, Cluster.extends_bound hfree stores⟩
  refine ⟨hadv, hw.advance hadv hnumbered hlen (fun db hdb => .inl hdb) ?_⟩
  intro a ha
  rcases hmodels a ha with hold | rfl
  · exact .inl hold
  · refine .inr fun other hother => ?_
    cases hother
    refine ⟨known, ?_⟩
    rw [Cluster.boundSchema?_setRegistry, if_pos rfl]
    exact Keyed.get?_insert_self ..

/-- Where only stores change, nothing that is bound does. -/
theorem World.Consistent.withStores (hw : w.Consistent) {c : Cluster}
    (h : c.registries = w.cluster.registries) :
    w.Advances { w with cluster := c } ∧ World.Consistent { w with cluster := c } := by
  have hbound : ∀ db, c.boundSchema? db = w.cluster.boundSchema? db := by
    intro db
    funext name
    simp only [Cluster.boundSchema?, Cluster.registry, h]
  have hadv : w.Advances { w with cluster := c } := by
    refine ⟨List.Subset.refl _, fun db _ name bound hold => ?_⟩
    rw [hbound]
    exact hold
  refine ⟨hadv, hw.advance hadv ?_ (Nat.le_of_eq (by rw [h])) (fun db hdb => .inl hdb)
    fun a ha => .inl ha⟩
  show Keyed.keys c.registries = List.range c.registries.length
  rw [h]
  exact hw.numbered

theorem putTarget_registries {σ D : Type} (m : Model σ D) (c : Cluster) (t : Target) :
    (m.putTarget c t).registries = c.registries := by
  unfold Model.putTarget
  split <;> rfl

theorem Acts.consistent (h : Acts w w') (hw : w.Consistent) : w.Advances w' ∧ w'.Consistent := by
  cases h with
  | create s => exact hw.withDatabase rfl _
  | share known => exact hw.withDatabase rfl _
  | define known hrun =>
    rcases Model.define_cases hrun with ⟨e, herr, -⟩ | ⟨m, hok, hnone, rfl⟩ |
      ⟨db, m₀, m, hdb, hok, hreg⟩
    · cases herr
    · cases hok
      refine ⟨⟨List.Subset.refl _, .refl _ _⟩, hw.numbered, hw.databases, fun a ha db hdb => ?_⟩
      rcases List.mem_cons.mp ha with rfl | hold
      · cases hnone.symm.trans hdb
      · exact hw.models a hold db hdb
    · cases hok
      exact hw.withModel (known db hdb) hreg fun a ha => (List.mem_cons.mp ha).symm
  | defineFails hrun =>
    rcases Model.define_cases hrun with ⟨e, -, rfl⟩ | ⟨m, hok, -⟩ | ⟨db, m₀, m, -, hok, -⟩
    · exact ⟨.refl _, hw⟩
    · cases hok
    · cases hok
  | register defined known hrun =>
    rcases Model.register_cases hrun with ⟨bound, -, -, -, rfl, rfl⟩ | ⟨-, rfl, -⟩
    · -- the refused model is put back as it was
      refine ⟨⟨List.Subset.refl _, .refl _ _⟩, hw.numbered, hw.databases, fun b hb => ?_⟩
      rcases List.mem_or_eq_of_mem_set hb with hold | rfl
      · exact hw.models b hold
      · exact hw.models _ (List.mem_of_getElem? defined)
    · exact hw.withModel known hrun fun b hb => List.mem_or_eq_of_mem_set hb
  | onStore step known => exact hw.withStores rfl
  | run step defined => exact hw.withStores (putTarget_registries ..)
  | runWith step b defined => exact hw.withStores (putTarget_registries ..)

/-- The same for whole runs. -/
theorem consistent_of_acts (h : Relation.ReflTransGen Acts w w') (hw : w.Consistent) :
    w.Advances w' ∧ w'.Consistent := by
  induction h with
  | refl => exact ⟨.refl _, hw⟩
  | tail _ hstep ih =>
    obtain ⟨hadv, hw'⟩ := hstep.consistent ih.2
    exact ⟨ih.1.trans hadv, hw'⟩

end Step

theorem World.consistent_empty : World.Consistent {} where
  numbered := rfl
  databases := nofun
  models := nofun

/-- Whatever is done with databases, their clones and models: what is bound stays bound as it is,
and two models that are ever bound to one collection of a database have schemas of one name. A model
is refused exactly if its collection is bound to a schema of another name, and then the model, the
stores and all bindings are what they were. -/
theorem registering_lasts {w w' : World} (hw : Relation.ReflTransGen Acts {} w)
    (hrun : Relation.ReflTransGen Acts w w') :
    (∀ db ∈ w.databases, ∀ name bound, w.cluster.boundSchema? db name = some bound →
      w'.cluster.boundSchema? db name = some bound) ∧
    (∀ a ∈ w.models, ∀ b ∈ w'.models, ∀ db, a.database = some db → b.database = some db →
      a.name = b.name → a.schemaName = b.schemaName) ∧
    (∀ a : AnyModel, ∀ db : Database,
      ((∃ e after, Model.register db (a.model, w'.cluster) = (.error e, after)) ↔
        ∃ bound, w'.cluster.boundSchema? db a.name = some bound ∧ bound ≠ a.schemaName) ∧
      (∀ e m c, Model.register db (a.model, w'.cluster) = (.error e, m, c) →
        (∃ bound, e = .schemaConflict a.name bound a.schemaName ∧
          w'.cluster.boundSchema? db a.name = some bound) ∧ m = a.model ∧ c = w'.cluster)) ∧
    ∀ {σ D : Type} [SchemaGraph σ] (type : DocumentType σ D) (overrides : Settings) e c,
      Model.define type overrides w'.cluster = (.error e, c) → c = w'.cluster := by
  obtain ⟨-, hconsistent⟩ := consistent_of_acts hw World.consistent_empty
  obtain ⟨hadv, hconsistent'⟩ := consistent_of_acts hrun hconsistent
  refine ⟨hadv.bindings, ?_, ?_, ?_⟩
  · intro a ha b hb db hadb hbdb hname
    obtain ⟨hknown, hbound⟩ := hconsistent.models a ha db hadb
    have hlater := hadv.bindings db hknown _ _ hbound
    have hother := (hconsistent'.models b hb db hbdb).2
    rw [← hname, hlater] at hother
    exact Option.some.inj hother
  · intro a db
    refine ⟨⟨?_, ?_⟩, ?_⟩
    · rintro ⟨e, ⟨m, c⟩, hfail⟩
      rcases Model.register_cases hfail with ⟨bound, hbound, hne, -⟩ | ⟨-, hok, -⟩
      · exact ⟨bound, hbound, hne⟩
      · cases hok
    · rintro ⟨bound, hbound, hne⟩
      exact ⟨_, _, Model.register_conflict hbound hne⟩
    · intro e m c hfail
      rcases Model.register_cases hfail with ⟨bound, hbound, -, herr, hm, hc⟩ | ⟨-, hok, -⟩
      · cases herr
        exact ⟨⟨bound, rfl, hbound⟩, hm, hc⟩
      · cases hok
  · intro σ D _ type overrides e c hfail
    rcases Model.define_cases hfail with ⟨_, -, hc⟩ | ⟨m, hok, -⟩ | ⟨db, m₀, m, -, hok, -⟩
    · exact hc
    · cases hok
    · cases hok

/-! ## Anti-vacuity: a collection stays the users' after it was dropped -/

/-- Users and administrators, whose schemas have different names. -/
inductive StaffSchema where
  | user
  | admin

instance : SchemaGraph StaffSchema where
  schema
    | .user => { name := "User", primaryKey := some "id", declared := [] }
    | .admin => { name := "Admin", primaryKey := some "id", declared := [] }
  all := [.user, .admin]
  mem_all := by rintro ⟨⟩ <;> simp

/-- The only database. -/
def staffDatabase : Database := ⟨0, 0⟩

/-- Users, in the collection of that name. -/
def staffUsers : Model StaffSchema Value :=
  { type := .freeForm .user, name := "user", byAlias := false, database := some staffDatabase }

/-- Administrators that want the same collection. -/
def staffAdmins : Model StaffSchema Value :=
  { type := .freeForm .admin, name := "user", byAlias := false }

/-- A new database. -/
def madeWorld : World :=
  { cluster := (Cluster.create {} []).2, databases := [staffDatabase], models := [] }

/-- The database with the users defined. -/
def definedWorld : World :=
  { madeWorld with
    cluster := (Model.define (.freeForm StaffSchema.user)
      { database := some staffDatabase, name := some "user" } madeWorld.cluster).2
    models := [⟨staffUsers⟩] }

/-- The database with the users' collection dropped. -/
def droppedWorld : World :=
  { definedWorld with
    cluster := (Cluster.onStore staffDatabase (Store.drop "user") definedWorld.cluster).2 }

/-- The collection is still the users' when it is dropped: the administrators are refused, and it is
not made again. -/
theorem admins_refused :
    definedWorld.cluster.boundSchema? staffDatabase "user" = some "User" ∧
      droppedWorld.cluster.store staffDatabase = [] ∧
      droppedWorld.cluster.boundSchema? staffDatabase "user" = some "User" ∧
      ∃ e, Model.register staffDatabase (staffAdmins, droppedWorld.cluster) =
        (.error e, staffAdmins, droppedWorld.cluster) := by
  have hmade : Acts {} madeWorld := .create {} []
  have hrun : Model.define (.freeForm StaffSchema.user)
      { database := some staffDatabase, name := some "user" } madeWorld.cluster =
        (.ok staffUsers, definedWorld.cluster) := rfl
  have hdefined : Acts madeWorld definedWorld := by
    refine .define ?_ hrun
    intro db hdb
    cases hdb
    exact List.mem_singleton_self _
  have hdropped : Acts definedWorld droppedWorld :=
    .onStore (Store.drop "user") (List.mem_singleton_self _)
  obtain ⟨hbound, -, hregister, -⟩ :=
    registering_lasts (.tail (.single hmade) hdefined) (.single hdropped)
  have hstill := hbound staffDatabase (List.mem_singleton_self _) "user" "User" rfl
  obtain ⟨hrefused, hsame⟩ := hregister ⟨staffAdmins⟩ staffDatabase
  obtain ⟨e, ⟨m, c⟩, hfail⟩ := hrefused.mpr ⟨"User", hstill, by decide⟩
  obtain ⟨-, rfl, rfl⟩ := hsame e m c hfail
  exact ⟨rfl, rfl, hstill, e, hfail⟩

end TypedStore
