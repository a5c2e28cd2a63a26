import TypedStore.Model.Binding
import TypedStore.Model.Upsert
import TypedStore.Proofs.Updating

/-!
Operations that fail change nothing.

A step is `Atomic` when it leaves the state as it was wherever it fails. Most of an operation only
looks (`Quiet`), then one step writes or fails, and what comes after the write never fails (`Sure`).
So the operation is atomic, by `Atomic.after` up to the write and by `Atomic.bind_sure` behind it.

A model runs its operations on the collection it is bound to, inside a cluster. What a failure
leaves there has every store and every registry as it was (`failure_harmless`).
-/

namespace TypedStore

namespace Step

variable {S T α β : Type}

/-- The step leaves the state as it is. -/
def Quiet (step : Step S α) : Prop := ∀ s, (step s).2 = s

/-- The step does not fail. -/
def Sure (step : Step S α) : Prop := ∀ s, ∃ a, (step s).1 = .ok a

/-- Where the step fails, it leaves the state as it was. -/
def Atomic (step : Step S α) : Prop := ∀ s e t, step s = (.error e, t) → t = s

theorem Quiet.pure (a : α) : Quiet (Pure.pure a : Step S α) := fun _ => rfl

theorem Quiet.ofExcept (answer : Except Error α) : Quiet (Step.ofExcept answer : Step S α) :=
  fun _ => rfl

theorem Quiet.get : Quiet (Step.get : Step S S) := fun _ => rfl

theorem Quiet.read (f : S → Except Error α) : Quiet (Step.read f) := fun _ => rfl

theorem Quiet.atomic {step : Step S α} (h : Quiet step) : Atomic step := by
  intro s e t hrun
  rw [← h s, hrun]

/-- A step that only looks may come before anything atomic. -/
theorem Atomic.after {step : Step S α} {next : α → Step S β} (h : Quiet step)
    (hnext : ∀ a, Atomic (next a)) : Atomic (step >>= next) := by
  intro s e t hrun
  rcases hstep : step s with ⟨answer, u⟩
  have hu : u = s := by rw [← h s, hstep]
  subst hu
  cases answer with
  | ok a =>
    rw [bind_run_ok hstep] at hrun
    exact hnext a _ e t hrun
  | error e' =>
    rw [bind_run_error hstep] at hrun
    cases hrun
    rfl

theorem Sure.pure (a : α) : Sure (Pure.pure a : Step S α) := fun _ => ⟨a, rfl⟩

theorem Sure.get : Sure (Step.get : Step S S) := fun s => ⟨s, rfl⟩

theorem Sure.set (s : S) : Sure (Step.set s) := fun _ => ⟨(), rfl⟩

theorem Sure.bind {step : Step S α} {next : α → Step S β} (h : Sure step)
    (hnext : ∀ a, Sure (next a)) : Sure (step >>= next) := by
  intro s
  obtain ⟨a, ha⟩ := h s
  have hstep : step s = (.ok a, (step s).2) := by rw [← ha]
  rw [bind_run_ok hstep]
  exact hnext a _

/-- A step that does not fail may come after anything atomic. -/
theorem Atomic.bind_sure {step : Step S α} {next : α → Step S β} (h : Atomic step)
    (hnext : ∀ a, Sure (next a)) : Atomic (step >>= next) := by
  intro s e t hrun
  rcases hstep : step s with ⟨answer, u⟩
  cases answer with
  | ok a =>
    rw [bind_run_ok hstep] at hrun
    obtain ⟨b, hb⟩ := hnext a u
    rw [hrun] at hb
    cases hb
  | error e' =>
    rw [bind_run_error hstep] at hrun
    cases hrun
    exact h s _ _ hstep

theorem Atomic.onSnd {step : Step T α} (h : Atomic step) :
    Atomic (Step.onSnd step : Step (S × T) α) := by
  rintro ⟨s, t⟩ e u hrun
  rcases hstep : step t with ⟨answer, t'⟩
  simp only [Step.onSnd, hstep] at hrun
  cases hrun
  rw [h t e t' hstep]

theorem Atomic.bringing {step : Step (S × T) α} (h : Atomic step) (s : S) :
    Atomic (Step.bringing s step) := by
  intro t e t' hrun
  rcases hstep : step (s, t) with ⟨answer, s', u⟩
  rw [Step.bringing, hstep] at hrun
  cases answer with
  | ok a => cases hrun
  | error e' =>
    cases hrun
    exact congrArg Prod.snd (h (s, t) _ _ hstep)

end Step

open Step

/-- A write on a collection fails only where the collection is absent. -/
theorem Collection.change_atomic {α : Type} (f : Contents → α × Contents) :
    Atomic (Collection.change f) := by
  intro c e c' hrun
  cases hc : c.contents with
  | some contents =>
    rw [Collection.change_present f hc] at hrun
    cases hrun
  | none =>
    rw [Collection.change_absent f hc] at hrun
    cases hrun
    rfl

namespace Model

variable {σ D : Type} [SchemaGraph σ] (m : Model σ D)

theorem onCollection_atomic {α : Type} {step : Step Collection α} (h : Atomic step) :
    Atomic (m.onCollection step) := by
  rintro (_ | c) e t hrun
  · cases hrun
    rfl
  · rcases hstep : step c with ⟨answer, c'⟩
    simp only [onCollection, hstep] at hrun
    cases hrun
    rw [h c e c' hstep]

/-! ## The operations -/

theorem insert_atomic : Atomic m.insert := by
  refine .after .get fun ⟨d, t⟩ => ?_
  refine .after (.ofExcept _) fun _ => ?_
  refine .after (.ofExcept _) fun record => ?_
  have hstore := m.onCollection_atomic (Collection.change_atomic (Contents.store record))
  refine .bind_sure (.onSnd hstore) fun id => ?_
  exact .bind .get fun _ => .set _

theorem persist_atomic (mapping : Document) : Atomic (m.persist mapping) := by
  refine .after .get fun ⟨_, t⟩ => ?_
  refine .after (.ofExcept _) fun _ => ?_
  refine .after (.ofExcept _) fun updated => ?_
  refine .after (.ofExcept _) fun record => ?_
  have hupdate := m.onCollection_atomic
    (Collection.change_atomic (Contents.update (m.type.id updated) record))
  refine .bind_sure (.onSnd hupdate) fun found => ?_
  exact .bind .get fun _ => .bind (.set _) fun _ => .pure found

theorem update_atomic (assignments : List (FieldPath σ × Value)) (overrides : Document) :
    Atomic (m.update assignments overrides) := by
  refine .after .get fun ⟨d, _⟩ => ?_
  refine .after (.ofExcept _) fun mapping => ?_
  refine .after (.ofExcept _) fun assigned => ?_
  refine .after (.ofExcept _) fun overridden => ?_
  exact m.persist_atomic overridden

theorem save_atomic : Atomic m.save := by
  refine .after .get fun ⟨d, t⟩ => ?_
  refine .after (.ofExcept _) fun c => ?_
  refine .after (.ofExcept _) fun found => ?_
  cases found with
  | some _ => exact m.update_atomic [] []
  | none => exact m.insert_atomic.bind_sure fun _ => .pure true

theorem deleteById_atomic (id : RecordId) : Atomic (m.deleteById id) :=
  m.onCollection_atomic (Collection.change_atomic (Contents.delete id))

theorem create_atomic (filters : List (Expression σ)) (defaults : Document) :
    Atomic (m.create filters defaults) := by
  refine .after (.ofExcept _) fun seeded => ?_
  refine .after .get fun t => ?_
  refine .after (.ofExcept _) fun made => ?_
  exact (m.insert_atomic.bringing made).bind_sure fun _ => .pure _

theorem getOrCreate_atomic (filters : List (Expression σ)) (defaults : Document) :
    Atomic (m.getOrCreate filters defaults) := by
  refine .after (.ofExcept _) fun _ => ?_
  refine .after (.read _) fun found => ?_
  cases found with
  | some found => exact (Quiet.pure found).atomic
  | none => exact m.create_atomic filters defaults

theorem updateOrCreate_atomic (filters : List (Expression σ)) (defaults : Document) :
    Atomic (m.updateOrCreate filters defaults) := by
  refine .after (.ofExcept _) fun _ => ?_
  refine .after (.read _) fun found => ?_
  cases found with
  | none => exact m.create_atomic filters defaults
  | some found =>
    refine .after (.ofExcept _) fun mapping => ?_
    exact ((m.persist_atomic _).bringing found).bind_sure fun _ => .pure _

end Model

/-! ## The cluster around the collection -/

/-- Every store and every registry of the first cluster is what it is in the second. -/
def Cluster.Same (c c' : Cluster) : Prop :=
  ∀ db : Database, c.store db = c'.store db ∧ c.registry db = c'.registry db

/-- Where the step fails, it leaves every store and every registry as it was. -/
def Step.Harmless {α : Type} (step : Step Cluster α) : Prop :=
  ∀ c e c', step c = (.error e, c') → c'.Same c

/-- Where the step fails, it leaves the instance it is called on, every store and every registry as
they were. -/
def Step.HarmlessOn {D α : Type} (step : Step (D × Cluster) α) : Prop :=
  ∀ d c e d' c', step (d, c) = (.error e, d', c') → d' = d ∧ c'.Same c

/-- A collection put back as it was found leaves the store as it was. -/
theorem Store.put_collection (s : Store) (name : String) :
    s.put name (s.collection name).contents = s := by
  show s.put name (Keyed.get? s name) = s
  cases h : Keyed.get? s name with
  | some contents => exact Keyed.insert_get? h
  | none => exact Keyed.erase_of_notMem (Keyed.get?_eq_none_iff.mp h)

namespace Model

variable {σ D : Type} [SchemaGraph σ] (m : Model σ D)

omit [SchemaGraph σ] in
theorem putTarget_target (c : Cluster) : (m.putTarget c (m.target c)).Same c := by
  intro other
  unfold putTarget target
  cases m.database with
  | none => exact ⟨rfl, rfl⟩
  | some db =>
    refine ⟨?_, rfl⟩
    show (c.setStore db ((c.store db).put m.name _)).store other = c.store other
    rw [Store.put_collection, Cluster.store_setStore]
    split
    · next h => simp only [Cluster.store, h]
    · rfl

omit [SchemaGraph σ] in
theorem run_harmless {α : Type} {step : Step Target α} (h : Atomic step) :
    (m.run step).Harmless := by
  intro c e c' hrun
  rcases hstep : step (m.target c) with ⟨answer, t⟩
  simp only [run, hstep] at hrun
  cases hrun
  rw [h _ _ _ hstep]
  exact m.putTarget_target c

omit [SchemaGraph σ] in
theorem runWith_harmlessOn {α : Type} {step : Step (D × Target) α} (h : Atomic step) :
    (m.runWith step).HarmlessOn := by
  intro d c e d' c' hrun
  rcases hstep : step (d, m.target c) with ⟨answer, d'', t⟩
  simp only [runWith, hstep] at hrun
  cases hrun
  cases h _ _ _ hstep
  exact ⟨rfl, m.putTarget_target c⟩

/-- Whatever the model, the type, the cluster and what an operation is called with: an operation
that fails leaves all records, counters and descriptions, all bindings and the caller's instance as
they were. The model may be bound or not, and its collection present or absent. -/
theorem failure_harmless :
    (m.runWith m.insert).HarmlessOn ∧
    (∀ assignments overrides, (m.runWith (m.update assignments overrides)).HarmlessOn) ∧
    (m.runWith m.save).HarmlessOn ∧
    (∀ id, (m.run (m.deleteById id)).Harmless) ∧
    (∀ filters defaults, (m.run (m.getOrCreate filters defaults)).Harmless) ∧
    (∀ filters defaults, (m.run (m.updateOrCreate filters defaults)).Harmless) ∧
    (∀ filters, (m.run (.read (m.findAll filters))).Harmless) ∧
    ∀ mapping, (m.run (.read fun t => m.fromMapping t mapping)).Harmless := by
  refine ⟨?insert, ?update, ?save, ?delete, ?get, ?upsert, ?find, ?build⟩
  case insert => exact m.runWith_harmlessOn m.insert_atomic
  case update => exact fun _ _ => m.runWith_harmlessOn (m.update_atomic _ _)
  case save => exact m.runWith_harmlessOn m.save_atomic
  case delete => exact fun _ => m.run_harmless (m.deleteById_atomic _)
  case get => exact fun _ _ => m.run_harmless (m.getOrCreate_atomic _ _)
  case upsert => exact fun _ _ => m.run_harmless (m.updateOrCreate_atomic _ _)
  case find => exact fun _ => m.run_harmless (Quiet.read _).atomic
  case build => exact fun _ => m.run_harmless (Quiet.read _).atomic

end Model

/-! ## Anti-vacuity: an update that comes to nothing, and an insertion without a collection -/

/-- Users, registered with a database. -/
def boundUsers : Model UserSchema Value := { users with database := some ⟨0, 0⟩ }

/-- A cluster in which there are users. -/
def userCluster : Cluster :=
  { stores := [(0, [("users", twoUsers.contents.getD {})])] }

/-- A cluster from which the users were dropped. -/
def noUserCluster : Cluster := { stores := [(0, [])] }

/-- An update with an unknown attribute among its overrides changes neither the user nor what is
stored, though another override comes first. Nor does an insertion into a collection that was
dropped. -/
theorem update_fails_harmless :
    (∃ c', boundUsers.runWith (boundUsers.update [] [("name", .string "c"), ("age", .int64 3)])
        (user 0 "a", userCluster) = (.error (.unknownField "User" "age"), user 0 "a", c') ∧
      c'.Same userCluster) ∧
    ∃ c', boundUsers.runWith boundUsers.insert (user 0 "a", noUserCluster) =
        (.error (.collectionNotFound "users"), user 0 "a", c') ∧ c'.Same noUserCluster := by
  obtain ⟨hinsert, hupdate, -⟩ := boundUsers.failure_harmless
  constructor
  · obtain ⟨c', hrun⟩ : ∃ c', boundUsers.runWith
        (boundUsers.update [] [("name", .string "c"), ("age", .int64 3)])
        (user 0 "a", userCluster) = (.error (.unknownField "User" "age"), user 0 "a", c') :=
      ⟨_, rfl⟩
    exact ⟨c', hrun, (hupdate _ _ _ _ _ _ _ hrun).2⟩
  · obtain ⟨c', hrun⟩ : ∃ c', boundUsers.runWith boundUsers.insert (user 0 "a", noUserCluster) =
        (.error (.collectionNotFound "users"), user 0 "a", c') := ⟨_, rfl⟩
    exact ⟨c', hrun, (hinsert _ _ _ _ _ hrun).2⟩

end TypedStore
