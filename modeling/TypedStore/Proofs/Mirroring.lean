import TypedStore.Model.Upsert
import TypedStore.Proofs.Agreement
import TypedStore.Proofs.Declared
import TypedStore.Proofs.Saving

/-!
Storing by alias cannot be seen from outside.

Two models of one type, of which only the second stores by alias, work on two collections. The
collections mirror each other when the first has under each identifier what the second has there,
under attribute names (`Contents.Mirrors`). Every operation keeps it so and answers alike: queries
because conditions see attribute names either way, writes because a record by alias reads as the
record without (`toRecord_agree`). So a caller who starts with empty collections never gets to see a
difference, whatever the caller asks and however that depends on what was seen
(`history_storing`).
-/

namespace TypedStore

variable {σ D : Type} [SchemaGraph σ] {s : σ}

open SchemaGraph

/-! ## Collections that mirror each other -/

/-- Under each identifier the first contents have what the second have by alias. -/
structure Contents.Mirrors (s : σ) (plain aliased : Contents) : Prop where
  records : plain.records = Keyed.mapValues (rename .attributes s) aliased.records
  counter : plain.nextId = aliased.nextId

/-- Two collections of one name, both absent or with contents that mirror each other. -/
structure Collection.Mirrors (s : σ) (plain aliased : Collection) : Prop where
  name : plain.name = aliased.name
  contents : Option.Rel (Contents.Mirrors s) plain.contents aliased.contents

/-- Two models are both without a collection, or have collections that mirror each other. -/
def Target.Mirrors (s : σ) (plain aliased : Target) : Prop :=
  Option.Rel (Collection.Mirrors s) plain aliased

/-- What is stored of the first record is what is stored of the second by alias. -/
def StoredAlike (s : σ) (record record' : Document) : Prop :=
  ∀ id, Contents.stamped id record = rename .attributes s (Contents.stamped id record')

namespace Contents.Mirrors

variable {c c' : Contents} {record record' : Document}

theorem store (h : Mirrors s c c') (hr : StoredAlike s record record') :
    (c.store record).1 = (c'.store record').1 ∧
      Mirrors s (c.store record).2 (c'.store record').2 := by
  refine ⟨h.counter, ?_, ?_⟩
  · show Keyed.insert c.records c.nextId (stamped c.nextId record) = _
    rw [h.records, h.counter, hr, ← Keyed.insert_mapValues]
    rfl
  · show c.nextId + 1 = c'.nextId + 1
    rw [h.counter]

theorem update (h : Mirrors s c c') (hr : StoredAlike s record record') (id : RecordId) :
    (c.update id record).1 = (c'.update id record').1 ∧
      Mirrors s (c.update id record).2 (c'.update id record').2 := by
  unfold Contents.update
  rw [h.records, Keyed.contains_mapValues, hr, ← Keyed.insert_mapValues]
  split
  · exact ⟨rfl, rfl, h.counter⟩
  · exact ⟨rfl, h⟩

theorem delete (h : Mirrors s c c') (id : RecordId) :
    (c.delete id).1 = (c'.delete id).1 ∧ Mirrors s (c.delete id).2 (c'.delete id).2 := by
  unfold Contents.delete
  rw [h.records, Keyed.contains_mapValues, ← Keyed.erase_mapValues]
  exact ⟨rfl, rfl, h.counter⟩

end Contents.Mirrors

namespace Collection.Mirrors

variable {c c' : Collection}

theorem opened (h : Mirrors s c c') : Answers (Contents.Mirrors s) c.opened c'.opened := by
  obtain ⟨name, contents⟩ := c
  obtain ⟨name', contents'⟩ := c'
  obtain ⟨rfl, hcontents⟩ := h
  cases hcontents with
  | some h => exact .ok h
  | none => exact .error _

theorem fetch (h : Mirrors s c c') (id : RecordId) :
    Answers (fun r r' => r = r'.map (rename .attributes s)) (c.fetch id) (c'.fetch id) := by
  refine h.opened.bind fun a b hab => .ok ?_
  rw [hab.records, Keyed.get?_mapValues]

theorem all (h : Mirrors s c c') :
    Answers (fun rs rs' => rs = rs'.map (rename .attributes s)) c.all c'.all := by
  refine h.opened.bind fun a b hab => .ok ?_
  rw [hab.records, Keyed.mapValues, List.map_map, List.map_map]
  rfl

theorem size (h : Mirrors s c c') : Answers Eq c.size c'.size := by
  refine h.opened.bind fun a b hab => .ok ?_
  rw [hab.records, Keyed.mapValues, List.length_map]

theorem lastRecordId (h : Mirrors s c c') : Answers Eq c.lastRecordId c'.lastRecordId := by
  refine h.opened.bind fun a b hab => ?_
  rw [hab.records, Keyed.mapValues, List.getLast?_map, h.name]
  cases b.records.getLast? with
  | none => exact .error _
  | some e => exact .ok rfl

theorem change {α : Type} {f g : Contents → α × Contents}
    (h : ∀ c c', Contents.Mirrors s c c' →
      (f c).1 = (g c').1 ∧ Contents.Mirrors s (f c).2 (g c').2) :
    Step.Agree (Mirrors s) Eq (Collection.change f) (Collection.change g) := by
  rintro ⟨name, contents⟩ ⟨name', contents'⟩ ⟨hname, hcontents⟩
  cases hcontents with
  | some hab =>
    obtain ⟨hanswer, hleft⟩ := h _ _ hab
    exact ⟨.ok hanswer, hname, .some hleft⟩
  | none =>
    cases hname
    exact ⟨.error _, rfl, .none⟩

theorem store_agree {record record' : Document} (hr : StoredAlike s record record') :
    Step.Agree (Mirrors s) Eq (Collection.store record) (Collection.store record') :=
  change fun _ _ h => h.store hr

theorem update_agree {record record' : Document} (hr : StoredAlike s record record')
    (id : RecordId) :
    Step.Agree (Mirrors s) Eq (Collection.update id record) (Collection.update id record') :=
  change fun _ _ h => h.update hr id

theorem delete_agree (id : RecordId) :
    Step.Agree (Mirrors s) Eq (Collection.delete id) (Collection.delete id) :=
  change fun _ _ h => h.delete id

theorem clear (recreate : Bool) (h : Mirrors s c c') :
    Mirrors s (if recreate then c.remove.create else c.remove)
      (if recreate then c'.remove.create else c'.remove) := by
  cases recreate with
  | true => exact ⟨h.name, .some ⟨rfl, rfl⟩⟩
  | false => exact ⟨h.name, .none⟩

end Collection.Mirrors

/-! ## Operations that agree -/

namespace Model

/-- The model with its records stored by alias, or not. -/
def storing (m : Model σ D) (byAlias : Bool) : Model σ D := { m with byAlias }

/-- The instances of the type hold declared attributes only, and aliases are kept apart at every
level. -/
structure Aliasable (m : Model σ D) : Prop where
  declared : ∀ d mapping, m.type.toMapping d = .ok mapping → Declared m.type.schema mapping
  apart : ∀ t, Relation.ReflTransGen Embeds m.type.schema t → AliasesApart t

variable (m : Model σ D) {t t' : Target}

/-! ### Reading -/

theorem collection_agree (h : Target.Mirrors m.type.schema t t') :
    Answers (Collection.Mirrors m.type.schema) ((m.storing false).collection t)
      ((m.storing true).collection t') := by
  cases h with
  | some h => exact .ok h
  | none => exact .error _

theorem fromRecord_agree (record : Document) :
    (m.storing false).fromRecord (rename .attributes m.type.schema record) =
      (m.storing true).fromRecord record := rfl

theorem getById_agree (h : Target.Mirrors m.type.schema t t') (id : RecordId) :
    Answers Eq ((m.storing false).getById id t) ((m.storing true).getById id t') := by
  refine (m.collection_agree h).bind fun c c' hc => (hc.fetch id).bind fun r r' hr => ?_
  rw [hr]
  cases r' with
  | none => exact .ok rfl
  | some record =>
    show Answers Eq (some <$> (m.storing false).fromRecord (rename .attributes _ record)) _
    rw [fromRecord_agree]
    exact .refl _

theorem fromRecords_agree (records : List Document) :
    (records.map (rename .attributes m.type.schema)).mapM (m.storing false).fromRecord =
      records.mapM (m.storing true).fromRecord := by
  rw [List.mapM_map]
  exact congrArg (records.mapM ·) (funext m.fromRecord_agree)

theorem all_agree (h : Target.Mirrors m.type.schema t t') :
    Answers Eq ((m.storing false).all t) ((m.storing true).all t') := by
  refine (m.collection_agree h).bind fun c c' hc => hc.all.bind fun rs rs' hrs => .of_eq ?_
  rw [hrs, m.fromRecords_agree]

theorem count_agree (h : Target.Mirrors m.type.schema t t') :
    Answers Eq ((m.storing false).count t) ((m.storing true).count t') :=
  (m.collection_agree h).bind fun _ _ hc => hc.size

theorem lastId_agree (h : Target.Mirrors m.type.schema t t') :
    Answers Eq ((m.storing false).lastId t) ((m.storing true).lastId t') :=
  (m.collection_agree h).bind fun _ _ hc => hc.lastRecordId

theorem findAll_agree (h : Target.Mirrors m.type.schema t t') (filters : List (Expression σ)) :
    Answers Eq ((m.storing false).findAll filters t) ((m.storing true).findAll filters t') := by
  unfold findAll
  split
  · exact m.all_agree h
  · refine (m.collection_agree h).bind fun c c' hc => (Answers.refl _).bind fun e _ he => ?_
    cases he
    refine (hc.all.bind fun rs rs' hrs => ?_ : Answers
      (fun rs rs' => rs = rs'.map (rename .attributes m.type.schema)) _ _).bind
      fun rs rs' hrs => .of_eq ?_
    · -- conditions are evaluated on a record under attribute names, in both
      refine .ok ?_
      rw [hrs, List.filter_map]
      rfl
    · rw [hrs, m.fromRecords_agree]

theorem findOne_agree (h : Target.Mirrors m.type.schema t t') (filters : List (Expression σ)) :
    Answers Eq ((m.storing false).findOne filters t) ((m.storing true).findOne filters t') := by
  unfold findOne
  split
  · exact m.getById_agree h 0
  · refine (m.findAll_agree h filters).bind fun ds ds' hds => ?_
    rw [hds]
    exact .refl _

theorem fromMapping_agree (h : Target.Mirrors m.type.schema t t') (mapping : Document) :
    (m.storing false).fromMapping t mapping = (m.storing true).fromMapping t' mapping := by
  have hid : (m.storing false).generateId t = (m.storing true).generateId t' := by
    unfold generateId
    rw [(m.lastId_agree h).eq]
  unfold fromMapping
  rw [hid]
  rfl

/-! ### Writing -/

variable {m}

theorem toRecord_agree (hm : m.Aliasable) (d : D) :
    Answers (StoredAlike m.type.schema) ((m.storing false).toRecord d)
      ((m.storing true).toRecord d) := by
  show Answers _ (m.type.toMapping d >>= _) (m.type.toMapping d >>= _)
  cases hd : m.type.toMapping d with
  | error e => exact .error e
  | ok mapping =>
    exact .ok fun id => ((hm.declared d mapping hd).rename_stamped hm.apart m.primaryKey id).symm

variable (m)

theorem onCollection_agree {α : Type} {f g : Step Collection α}
    (h : Step.Agree (Collection.Mirrors m.type.schema) Eq f g) :
    Step.Agree (Target.Mirrors m.type.schema) Eq ((m.storing false).onCollection f)
      ((m.storing true).onCollection g) := by
  intro t t' ht
  cases ht with
  | some hc =>
    obtain ⟨hanswer, hleft⟩ := h _ _ hc
    exact ⟨hanswer, .some hleft⟩
  | none => exact ⟨.error _, .none⟩

theorem deleteById_agree (id : RecordId) :
    Step.Agree (Target.Mirrors m.type.schema) Eq ((m.storing false).deleteById id)
      ((m.storing true).deleteById id) :=
  m.onCollection_agree (Collection.Mirrors.delete_agree id)

theorem clear_agree (recreate : Bool) :
    Step.Agree (Target.Mirrors m.type.schema) Eq ((m.storing false).clear recreate)
      ((m.storing true).clear recreate) :=
  m.onCollection_agree fun _ _ h => ⟨.ok rfl, h.clear recreate⟩

/-- An instance beside collections that mirror each other. -/
abbrev Shared : D × Target → D × Target → Prop := Step.Beside D (Target.Mirrors m.type.schema)

variable {m}

theorem insert_agree (hm : m.Aliasable) :
    Step.Agree m.Shared Eq (m.storing false).insert (m.storing true).insert := by
  refine .bind .get ?_
  rintro ⟨d, t⟩ ⟨_, t'⟩ ⟨rfl, ht⟩
  refine .bind (.ofExcept (m.collection_agree ht)) fun _ _ _ => ?_
  refine .bind (.ofExcept (toRecord_agree hm d)) fun record record' hr => ?_
  refine .bind (.onSnd (m.onCollection_agree (Collection.Mirrors.store_agree hr))) ?_
  rintro id _ rfl
  refine .bind .get ?_
  rintro ⟨_, t⟩ ⟨_, t'⟩ ⟨-, ht⟩
  exact .set ⟨rfl, ht⟩

theorem persist_agree (hm : m.Aliasable) (mapping : Document) :
    Step.Agree m.Shared Eq ((m.storing false).persist mapping)
      ((m.storing true).persist mapping) := by
  refine .bind .get ?_
  rintro ⟨d, t⟩ ⟨_, t'⟩ ⟨rfl, ht⟩
  refine .bind (.ofExcept (m.collection_agree ht)) fun _ _ _ => ?_
  refine .bind (.ofExcept (.refl _)) ?_
  rintro updated _ rfl
  refine .bind (.ofExcept (toRecord_agree hm updated)) fun record record' hr => ?_
  refine .bind (.onSnd (m.onCollection_agree (Collection.Mirrors.update_agree hr _))) ?_
  rintro found _ rfl
  refine .bind .get ?_
  rintro ⟨_, t⟩ ⟨_, t'⟩ ⟨-, ht⟩
  refine .bind (.set ⟨rfl, ht⟩) fun _ _ _ => ?_
  exact .pure rfl

theorem overrideAll_storing (m : Model σ D) (byAlias : Bool) (mapping overrides : Document) :
    (m.storing byAlias).overrideAll mapping overrides = m.overrideAll mapping overrides := by
  induction overrides generalizing mapping with
  | nil => rfl
  | cons e rest ih =>
    simp only [overrideAll, ih]
    rfl

theorem checkKeys_storing (m : Model σ D) (byAlias : Bool) (defaults : Document) :
    (m.storing byAlias).checkKeys defaults = m.checkKeys defaults := by
  induction defaults with
  | nil => rfl
  | cons e rest ih =>
    simp only [checkKeys, ih]
    rfl

theorem update_agree (hm : m.Aliasable) (assignments : List (FieldPath σ × Value))
    (overrides : Document) :
    Step.Agree m.Shared Eq ((m.storing false).update assignments overrides)
      ((m.storing true).update assignments overrides) := by
  refine .bind .get ?_
  rintro ⟨d, t⟩ ⟨_, t'⟩ ⟨rfl, ht⟩
  refine .bind (.ofExcept (.refl _)) ?_
  rintro mapping _ rfl
  refine .bind (.ofExcept (.refl _)) ?_
  rintro assigned _ rfl
  refine .bind (.ofExcept (.of_eq ?_)) ?_
  · rw [overrideAll_storing, overrideAll_storing]
  · rintro overridden _ rfl
    exact persist_agree hm overridden

theorem save_agree (hm : m.Aliasable) :
    Step.Agree m.Shared Eq (m.storing false).save (m.storing true).save := by
  refine .bind .get ?_
  rintro ⟨d, t⟩ ⟨_, t'⟩ ⟨rfl, ht⟩
  refine .bind (.ofExcept (m.collection_agree ht)) fun c c' hc => ?_
  -- there is a record in one collection exactly where there is one in the other
  refine .bind (.ofExcept (hc.fetch _)) fun r r' hr => ?_
  rw [hr]
  cases r' with
  | some record => exact update_agree hm [] []
  | none =>
    refine .bind (insert_agree hm) fun _ _ _ => ?_
    exact .pure rfl

theorem create_agree (hm : m.Aliasable) (filters : List (Expression σ)) (defaults : Document) :
    Step.Agree (Target.Mirrors m.type.schema) Eq ((m.storing false).create filters defaults)
      ((m.storing true).create filters defaults) := by
  refine .bind (.ofExcept (.refl _)) ?_
  rintro seeded _ rfl
  refine .bind .get fun t t' ht => ?_
  refine .bind (.ofExcept (.of_eq (m.fromMapping_agree ht _))) ?_
  rintro made _ rfl
  refine .bind (.bringing (insert_agree hm) made) ?_
  rintro ⟨_, made⟩ ⟨_, _⟩ ⟨-, rfl⟩
  exact .pure rfl

theorem getOrCreate_agree (hm : m.Aliasable) (filters : List (Expression σ))
    (defaults : Document) :
    Step.Agree (Target.Mirrors m.type.schema) Eq ((m.storing false).getOrCreate filters defaults)
      ((m.storing true).getOrCreate filters defaults) := by
  refine .bind (.ofExcept (.of_eq ?_)) fun _ _ _ => ?_
  · rw [checkKeys_storing, checkKeys_storing]
  refine .bind (.read fun t t' ht => m.findOne_agree ht filters) ?_
  rintro found _ rfl
  cases found with
  | some found => exact .pure rfl
  | none => exact create_agree hm filters defaults

theorem updateOrCreate_agree (hm : m.Aliasable) (filters : List (Expression σ))
    (defaults : Document) :
    Step.Agree (Target.Mirrors m.type.schema) Eq
      ((m.storing false).updateOrCreate filters defaults)
      ((m.storing true).updateOrCreate filters defaults) := by
  refine .bind (.ofExcept (.of_eq ?_)) fun _ _ _ => ?_
  · rw [checkKeys_storing, checkKeys_storing]
  refine .bind (.read fun t t' ht => m.findOne_agree ht filters) ?_
  rintro found _ rfl
  cases found with
  | none => exact create_agree hm filters defaults
  | some found =>
    refine .bind (.ofExcept (.refl _)) ?_
    rintro mapping _ rfl
    refine .bind (.bringing (persist_agree hm _) found) ?_
    rintro ⟨_, updated⟩ ⟨_, _⟩ ⟨-, rfl⟩
    exact .pure rfl

end Model

/-! ## Sequences of operations -/

/-- An operation on a model, with what it is called with. A collection that is cleared is made
anew. -/
inductive Request (σ D : Type) where
  | insert (d : D)
  | update (d : D) (assignments : List (FieldPath σ × Value)) (overrides : Document)
  | save (d : D)
  | delete (d : D)
  | deleteById (id : RecordId)
  | getById (id : RecordId)
  | all
  | findAll (filters : List (Expression σ))
  | findOne (filters : List (Expression σ))
  | getOrCreate (filters : List (Expression σ)) (defaults : Document)
  | updateOrCreate (filters : List (Expression σ)) (defaults : Document)
  | count
  | lastId
  | clear

/-- What an operation gives back if it succeeds. -/
inductive Answer (D : Type) where
  | done
  | flag (b : Bool)
  | found (d : Option D)
  | instances (ds : List D)
  | made (d : D)
  | number (n : Nat)
  | identifier (id : RecordId)

/-- What a caller gets to see of an operation: its answer or failure, and the instance it was called
on as the operation left it. -/
structure Seen (D : Type) where
  answer : Except Error (Answer D)
  left : Option D

namespace Seen

/-- What is seen of a step on a target. -/
def ofStep {α : Type} (wrap : α → Answer D) (step : Step Target α) (t : Target) :
    Seen D × Target :=
  (⟨(step t).1.map wrap, none⟩, (step t).2)

/-- What is seen of a step on an instance and a target. -/
def ofStepOn {α : Type} (wrap : α → Answer D) (d : D) (step : Step (D × Target) α) (t : Target) :
    Seen D × Target :=
  (⟨(step (d, t)).1.map wrap, some (step (d, t)).2.1⟩, (step (d, t)).2.2)

variable {t t' : Target} {α : Type} (wrap : α → Answer D)

theorem ofStep_agree (h : Target.Mirrors s t t') {f g : Step Target α}
    (hagree : Step.Agree (Target.Mirrors s) Eq f g) :
    (ofStep wrap f t).1 = (ofStep wrap g t').1 ∧
      Target.Mirrors s (ofStep wrap f t).2 (ofStep wrap g t').2 := by
  obtain ⟨hanswer, hleft⟩ := hagree t t' h
  exact ⟨by simp only [ofStep, hanswer.eq], hleft⟩

theorem ofStepOn_agree (d : D) (h : Target.Mirrors s t t') {f g : Step (D × Target) α}
    (hagree : Step.Agree (Step.Beside D (Target.Mirrors s)) Eq f g) :
    (ofStepOn wrap d f t).1 = (ofStepOn wrap d g t').1 ∧
      Target.Mirrors s (ofStepOn wrap d f t).2 (ofStepOn wrap d g t').2 := by
  obtain ⟨hanswer, hd, hleft⟩ := hagree (d, t) (d, t') ⟨rfl, h⟩
  exact ⟨by simp only [ofStepOn, hanswer.eq, hd], hleft⟩

end Seen

namespace Model

/-- Carries out an operation. -/
def perform (m : Model σ D) : Request σ D → Target → Seen D × Target
  | .insert d => Seen.ofStepOn (fun _ => .done) d m.insert
  | .update d assignments overrides => Seen.ofStepOn .flag d (m.update assignments overrides)
  | .save d => Seen.ofStepOn .flag d m.save
  | .delete d => Seen.ofStep .flag (m.delete d)
  | .deleteById id => Seen.ofStep .flag (m.deleteById id)
  | .getById id => Seen.ofStep .found (.read (m.getById id))
  | .all => Seen.ofStep .instances (.read m.all)
  | .findAll filters => Seen.ofStep .instances (.read (m.findAll filters))
  | .findOne filters => Seen.ofStep .found (.read (m.findOne filters))
  | .getOrCreate filters defaults => Seen.ofStep .made (m.getOrCreate filters defaults)
  | .updateOrCreate filters defaults => Seen.ofStep .made (m.updateOrCreate filters defaults)
  | .count => Seen.ofStep .number (.read m.count)
  | .lastId => Seen.ofStep .identifier (.read m.lastId)
  | .clear => Seen.ofStep (fun _ => .done) (m.clear true)

/-- All that a caller sees of some operations, each of which may depend on what was seen before, and
the target that is left. -/
def history (m : Model σ D) (caller : List (Seen D) → Request σ D) (start : Target) :
    Nat → List (Seen D) × Target
  | 0 => ([], start)
  | n + 1 =>
    let (seen, t) := m.history caller start n
    let (next, t) := m.perform (caller seen) t
    (seen ++ [next], t)

variable {m : Model σ D} {t t' : Target}

/-- An operation shows the same by alias and without, and keeps the collections alike. -/
theorem perform_agree (hm : m.Aliasable) (request : Request σ D)
    (h : Target.Mirrors m.type.schema t t') :
    ((m.storing false).perform request t).1 = ((m.storing true).perform request t').1 ∧
      Target.Mirrors m.type.schema ((m.storing false).perform request t).2
        ((m.storing true).perform request t').2 := by
  cases request with
  | insert d => exact Seen.ofStepOn_agree _ d h (insert_agree hm)
  | update d assignments overrides =>
    exact Seen.ofStepOn_agree _ d h (update_agree hm assignments overrides)
  | save d => exact Seen.ofStepOn_agree _ d h (save_agree hm)
  | delete d => exact Seen.ofStep_agree _ h (m.deleteById_agree _)
  | deleteById id => exact Seen.ofStep_agree _ h (m.deleteById_agree id)
  | getById id => exact Seen.ofStep_agree _ h (.read fun _ _ ht => m.getById_agree ht id)
  | all => exact Seen.ofStep_agree _ h (.read fun _ _ ht => m.all_agree ht)
  | findAll filters => exact Seen.ofStep_agree _ h (.read fun _ _ ht => m.findAll_agree ht filters)
  | findOne filters => exact Seen.ofStep_agree _ h (.read fun _ _ ht => m.findOne_agree ht filters)
  | getOrCreate filters defaults =>
    exact Seen.ofStep_agree _ h (getOrCreate_agree hm filters defaults)
  | updateOrCreate filters defaults =>
    exact Seen.ofStep_agree _ h (updateOrCreate_agree hm filters defaults)
  | count => exact Seen.ofStep_agree _ h (.read fun _ _ ht => m.count_agree ht)
  | lastId => exact Seen.ofStep_agree _ h (.read fun _ _ ht => m.lastId_agree ht)
  | clear => exact Seen.ofStep_agree _ h (m.clear_agree true)

theorem history_agree (hm : m.Aliasable) (caller : List (Seen D) → Request σ D)
    (h : Target.Mirrors m.type.schema t t') (n : Nat) :
    ((m.storing false).history caller t n).1 = ((m.storing true).history caller t' n).1 ∧
      Target.Mirrors m.type.schema ((m.storing false).history caller t n).2
        ((m.storing true).history caller t' n).2 := by
  induction n with
  | zero => exact ⟨rfl, h⟩
  | succ n ih =>
    -- the caller has seen the same so far, so it asks for the same next
    obtain ⟨hseen, hleft⟩ := ih
    have hnext := perform_agree hm (caller ((m.storing false).history caller t n).1) hleft
    simp only [history]
    rw [← hseen, hnext.1]
    exact ⟨rfl, hnext.2⟩

/-- From empty collections a caller sees the same of a model that stores by alias as of one that
does not. -/
theorem history_storing (hm : m.Aliasable) (caller : List (Seen D) → Request σ D)
    (description description' : Document) (n : Nat) :
    ((m.storing false).history caller (.holding m.name { schema := description }) n).1 =
      ((m.storing true).history caller (.holding m.name { schema := description' }) n).1 := by
  have hstart : Target.Mirrors m.type.schema (.holding m.name { schema := description })
      (.holding m.name { schema := description' }) := .some ⟨rfl, .some ⟨rfl, rfl⟩⟩
  exact (history_agree hm caller hstart n).1

end Model

/-! ## Anti-vacuity: members, whose addresses trade the names of their attributes -/

/-- Members and their addresses. -/
inductive MemberSchema where
  | member
  | address
  deriving DecidableEq

instance : SchemaGraph MemberSchema where
  schema
    | .member =>
      { name := "Member", primaryKey := some "id",
        declared := [⟨"name", .string, some "fullName", false⟩,
          ⟨"address", .embedded .address, some "addr", false⟩] }
    | .address =>
      { name := "Address",
        declared := [⟨"city", .string, some "zip", false⟩, ⟨"zip", .string, some "city", false⟩] }
  all := [.member, .address]
  mem_all := by rintro ⟨⟩ <;> simp

/-- A member as an instance. -/
structure Member where
  id : RecordId
  name : String
  city : String
  zip : String

/-- The text under a key. -/
def textAt? (d : Document) (key : String) : Option String :=
  match Keyed.get? d key with
  | some (.string text) => some text
  | _ => none

/-- Members hold all their attributes and no others. -/
def memberType : DocumentType MemberSchema Member where
  schema := .member
  id := Member.id
  setId d id := { d with id }
  serialize d := some (.document [("id", .int64 d.id), ("name", .string d.name),
    ("address", .document [("city", .string d.city), ("zip", .string d.zip)])])
  deserialize mapping := do
    let id ← (Keyed.get? mapping "id").bind Value.integer?
    let name ← textAt? mapping "name"
    let address ← (Keyed.get? mapping "address").bind Value.document?
    let city ← textAt? address "city"
    let zip ← textAt? address "zip"
    some { id, name, city, zip }
  toJson? _ := none
  ofJson? _ := none

/-- Members, however they are stored. -/
def members : Model MemberSchema Member :=
  { type := memberType, name := "members", byAlias := false }

theorem member_apart (t : MemberSchema) : AliasesApart t := by
  cases t <;> exact ⟨by decide, by decide, by decide⟩

theorem address_declared (city zip : String) :
    Declared MemberSchema.address [("city", .string city), ("zip", .string zip)] := by
  refine .intro ?_ ?_ ?_
  · show ["city", "zip"].Nodup
    decide
  · show ∀ k ∈ ["city", "zip"], ∃ f ∈ fields MemberSchema.address, f.name = k
    decide
  · intro k inner f t hget
    have hmem := Keyed.mem_of_get? hget
    simp at hmem

theorem members_aliasable : members.Aliasable := by
  refine ⟨fun d mapping h => ?_, fun t _ => member_apart t⟩
  cases h
  refine .intro ?_ ?_ ?_
  · show ["id", "name", "address"].Nodup
    decide
  · show ∀ k ∈ ["id", "name", "address"], ∃ f ∈ fields MemberSchema.member, f.name = k
    decide
  · intro k inner f t hget hf hname hkind
    have hmem := Keyed.mem_of_get? hget
    simp only [List.mem_cons, Prod.mk.injEq, reduceCtorEq, and_false, false_or,
      Value.document.injEq, List.not_mem_nil, or_false] at hmem
    obtain ⟨rfl, rfl⟩ := hmem
    have haddress : ∀ f ∈ fields MemberSchema.member, f.name = "address" →
        f.kind = .embedded .address := by decide
    rw [haddress f hf hname] at hkind
    cases hkind
    exact address_declared d.city d.zip

/-- The city of a member. -/
def cityPath : FieldPath MemberSchema :=
  { field := ⟨"city", .string, some "zip", false⟩, owner := "Address",
    ancestors := [⟨"address", "Member"⟩] }

/-- A caller that adds a member, moves that member from b to d, and lists those who live there. -/
def memberCaller : List (Seen Member) → Request MemberSchema Member
  | [] => .insert { id := 5, name := "a", city := "b", zip := "c" }
  | [⟨_, some d⟩] => .update d [(cityPath, .string "d")] []
  | _ => .findAll [⟨.field cityPath, .eq, .value (.string "d")⟩]

/-- The caller sees the member move, stored by alias as without. -/
theorem memberCaller_sees :
    ((members.storing true).history memberCaller (.holding members.name {}) 3).1.map Seen.answer =
      [.ok .done, .ok (.flag true),
        .ok (.instances [{ id := 0, name := "a", city := "d", zip := "c" }])] := by
  rw [← Model.history_storing members_aliasable memberCaller [] [] 3]
  rfl

end TypedStore
