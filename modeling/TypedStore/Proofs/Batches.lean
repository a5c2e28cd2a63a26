import TypedStore.Proofs.Failing
import TypedStore.Proofs.Import
import TypedStore.Proofs.ReadingBack

/-!
How far a batch of saves gets.

A batch takes its elements in turn, each on what the ones before it left (`InTurn`). Either they
all go through, or some do and the next one fails (`InTurn.through_or_fails`), and a save that fails
leaves everything as it was (`save_atomic`, `saveJson_atomic`). So a batch that goes through has its
elements saved in turn (`bulkSave_eq_ok_iff`, `saveAll_eq_ok_iff`), and one that fails ends where
the batch of the elements before the failing one ends, which goes through (`bulkSave_eq_error_iff`,
`saveAll_eq_error_iff`).

An instance carries the identifier that its record was put under, and later saves take no record
away (`save_carriesId`, `save_keeps_records`), so there is a record under each of these identifiers
at the end of a batch (`inTurn_hasRecord`). `batch_iff` puts this together.
-/

namespace TypedStore

/-- Elements taken one after another, each on the state that the ones before it left. `R a s b s'`
says that on `s` the element `a` is answered with `b` and leaves `s'`. -/
inductive InTurn {α β S : Type} (R : α → S → β → S → Prop) : List α → S → List β → S → Prop where
  | nil (s : S) : InTurn R [] s [] s
  | cons {a : α} {b : β} {as : List α} {bs : List β} {s s' s'' : S}
    (first : R a s b s') (rest : InTurn R as s' bs s'') : InTurn R (a :: as) s (b :: bs) s''

namespace InTurn

variable {α β S : Type} {R : α → S → β → S → Prop} {as : List α} {bs : List β} {s s' : S}

theorem length_eq (h : InTurn R as s bs s') : bs.length = as.length := by
  induction h with
  | nil => rfl
  | cons _ _ ih => rw [List.length_cons, List.length_cons, ih]

theorem mono {R' : α → S → β → S → Prop} (himp : ∀ a s b s', R a s b s' → R' a s b s')
    (h : InTurn R as s bs s') : InTurn R' as s bs s' := by
  induction h with
  | nil => exact .nil _
  | cons first _ ih => exact .cons (himp _ _ _ _ first) ih

/-- What no element undoes holds to the end. -/
theorem preserves {P : S → Prop} (hstep : ∀ a s b s', R a s b s' → P s → P s')
    (h : InTurn R as s bs s') (hs : P s) : P s' := by
  induction h with
  | nil => exact hs
  | cons first _ ih => exact ih (hstep _ _ _ _ first hs)

/-- What each answer comes with, and no later element undoes, holds of all answers in the end. -/
theorem forall_answers {P : β → S → Prop} (hnew : ∀ a s b s', R a s b s' → P b s')
    (hstep : ∀ b' a s b s', R a s b s' → P b' s → P b' s') (h : InTurn R as s bs s') :
    ∀ b ∈ bs, P b s' := by
  induction h with
  | nil => simp
  | cons first rest ih =>
    rw [List.forall_mem_cons]
    exact ⟨rest.preserves (hstep _) (hnew _ _ _ _ first), ih⟩

/-- Where each element is answered or fails, they all go through, or some go through and the next
one fails. -/
theorem through_or_fails {Fails : α → S → Prop} (hone : ∀ a s, (∃ b s', R a s b s') ∨ Fails a s)
    (as : List α) (s : S) :
    (∃ bs s', InTurn R as s bs s') ∨
    ∃ before a later bs s', as = before ++ a :: later ∧ InTurn R before s bs s' ∧ Fails a s' := by
  induction as generalizing s with
  | nil => exact .inl ⟨[], s, .nil s⟩
  | cons a rest ih =>
    rcases hone a s with ⟨b, u, first⟩ | hfails
    · rcases ih u with ⟨bs, s', hrest⟩ | ⟨before, a', later, bs, s', rfl, hbefore, hfails⟩
      · exact .inl ⟨b :: bs, s', .cons first hrest⟩
      · exact .inr ⟨a :: before, a', later, b :: bs, s', rfl, .cons first hbefore, hfails⟩
    · exact .inr ⟨[], a, rest, [], s, rfl, .nil s, hfails⟩

end InTurn

namespace Model

variable {σ D : Type} [SchemaGraph σ] (m : Model σ D)

/-! ## Importing objects -/

/-- The object is imported: what it describes is saved, under the identifier generated from what
is stored at that moment if it names none. -/
def Imports (j : Json) (t : Target) (d' : D) (t' : Target) : Prop :=
  ∃ mapping d saved, m.imported j = .ok mapping ∧
    m.type.fromMapping (if Keyed.contains mapping m.primaryKey then mapping
      else Keyed.insert mapping m.primaryKey (.int64 (m.generateId t))) = .ok d ∧
    m.save (d, t) = (.ok saved, d', t')

theorem saveJson_eq_ok_iff {j : Json} {t t' : Target} {d' : D} :
    m.saveJson j t = (.ok d', t') ↔ m.Imports j t d' t' := by
  constructor
  · intro h
    obtain ⟨mapping, d, saved, himported, hd, hsave⟩ := m.saveJson_eq_ok h
    exact ⟨mapping, d, saved, himported, hd, hsave⟩
  · rintro ⟨mapping, d, saved, himported, hd, hsave⟩
    have hd' : m.fromMapping t mapping = .ok d := hd
    rw [saveJson_run, himported]
    simp only [hd', hsave]

theorem saveJson_atomic (j : Json) : Step.Atomic (m.saveJson j) := by
  refine .after (.ofExcept _) fun mapping => ?_
  refine .after .get fun t => ?_
  refine .after (.ofExcept _) fun d => ?_
  exact (m.save_atomic.bringing d).bind_sure fun _ => .pure _

theorem imports_or_fails (j : Json) (t : Target) :
    (∃ d t', m.Imports j t d t') ∨ ∃ e, m.saveJson j t = (.error e, t) := by
  rcases hrun : m.saveJson j t with ⟨answer, t'⟩
  cases answer with
  | ok d => exact .inl ⟨d, t', m.saveJson_eq_ok_iff.mp hrun⟩
  | error e =>
    obtain rfl := m.saveJson_atomic j _ _ _ hrun
    exact .inr ⟨e, rfl⟩

variable {js before : List Json} {j : Json} {ds : List D} {t t' : Target} {e : Error}

theorem bulkSave_goes (h : InTurn m.Imports js t ds t') : m.bulkSave js t = (.ok ds, t') := by
  induction h with
  | nil => rfl
  | cons first _ ih =>
    rw [bulkSave, Step.bind_run_ok (m.saveJson_eq_ok_iff.mpr first), Step.bind_run_ok ih,
      Step.pure_run]

theorem bulkSave_fails (hbefore : InTurn m.Imports before t ds t')
    (hj : m.saveJson j t' = (.error e, t')) (later : List Json) :
    m.bulkSave (before ++ j :: later) t = (.error e, t') := by
  induction hbefore with
  | nil => rw [List.nil_append, bulkSave, Step.bind_run_error hj]
  | cons first _ ih =>
    rw [List.cons_append, bulkSave, Step.bind_run_ok (m.saveJson_eq_ok_iff.mpr first),
      Step.bind_run_error (ih hj)]

theorem bulkSave_eq_ok_iff : m.bulkSave js t = (.ok ds, t') ↔ InTurn m.Imports js t ds t' := by
  refine ⟨fun h => ?_, m.bulkSave_goes⟩
  rcases InTurn.through_or_fails m.imports_or_fails js t with
    ⟨ds', u, hturn⟩ | ⟨before, j, later, ds', u, rfl, hbefore, e, hj⟩
  · rw [m.bulkSave_goes hturn] at h
    cases h
    exact hturn
  · rw [m.bulkSave_fails hbefore hj] at h
    cases h

theorem bulkSave_eq_error_iff :
    m.bulkSave js t = (.error e, t') ↔
      ∃ before j later ds, js = before ++ j :: later ∧ InTurn m.Imports before t ds t' ∧
        m.saveJson j t' = (.error e, t') := by
  constructor
  · intro h
    rcases InTurn.through_or_fails m.imports_or_fails js t with
      ⟨ds', u, hturn⟩ | ⟨before, j, later, ds', u, rfl, hbefore, e', hj⟩
    · rw [m.bulkSave_goes hturn] at h
      cases h
    · rw [m.bulkSave_fails hbefore hj] at h
      cases h
      exact ⟨before, j, later, ds', rfl, hbefore, hj⟩
  · rintro ⟨before, j, later, ds, rfl, hbefore, hj⟩
    exact m.bulkSave_fails hbefore hj later

/-! ## Saving instances -/

/-- The instance is saved, and comes back as what it was stored as; the flag tells whether it found
or was given a record. -/
def Stores (d : D) (t : Target) (outcome : Bool × D) (t' : Target) : Prop :=
  m.save (d, t) = (.ok outcome.1, outcome.2, t')

theorem stores_or_fails (d : D) (t : Target) :
    (∃ outcome t', m.Stores d t outcome t') ∨ ∃ e, m.save (d, t) = (.error e, d, t) := by
  rcases hrun : m.save (d, t) with ⟨answer, d', t'⟩
  cases answer with
  | ok saved => exact .inl ⟨(saved, d'), t', hrun⟩
  | error e =>
    cases m.save_atomic _ _ _ hrun
    exact .inr ⟨e, rfl⟩

variable {d : D} {after dsBefore : List D} {outcome : Bool × D} {outcomes : List (Bool × D)}
  {answer : Bool}

theorem saveEach_cons (first : m.Stores d t outcome t') (rest : List D) :
    m.saveEach (d :: rest) t =
      ((m.saveEach rest t').1.map (outcome.1 && ·), outcome.2 :: (m.saveEach rest t').2.1,
        (m.saveEach rest t').2.2) := by
  rw [Stores] at first
  rw [saveEach, first]

theorem saveEach_goes (h : InTurn m.Stores ds t outcomes t') :
    m.saveEach ds t = (.ok (outcomes.all Prod.fst), outcomes.map Prod.snd, t') := by
  induction h with
  | nil => rfl
  | cons first _ ih =>
    rw [m.saveEach_cons first, ih]
    rfl

theorem saveEach_fails (hbefore : InTurn m.Stores dsBefore t outcomes t')
    (hd : m.save (d, t') = (.error e, d, t')) (later : List D) :
    m.saveEach (dsBefore ++ d :: later) t =
      (.error e, outcomes.map Prod.snd ++ d :: later, t') := by
  induction hbefore with
  | nil =>
    rw [List.nil_append, saveEach, hd]
    rfl
  | cons first _ ih =>
    rw [List.cons_append, m.saveEach_cons first, ih hd]
    rfl

theorem saveAll_goes (h : InTurn m.Stores ds t outcomes t') :
    m.saveAll (ds, t) =
      (.ok (!ds.isEmpty && outcomes.all Prod.fst), outcomes.map Prod.snd, t') := by
  rw [saveAll, m.saveEach_goes h]
  rfl

theorem saveAll_fails (hbefore : InTurn m.Stores dsBefore t outcomes t')
    (hd : m.save (d, t') = (.error e, d, t')) (later : List D) :
    m.saveAll (dsBefore ++ d :: later, t) =
      (.error e, outcomes.map Prod.snd ++ d :: later, t') := by
  rw [saveAll, m.saveEach_fails hbefore hd]
  rfl

theorem saveAll_eq_ok_iff :
    m.saveAll (ds, t) = (.ok answer, after, t') ↔
      ∃ outcomes, InTurn m.Stores ds t outcomes t' ∧
        answer = (!ds.isEmpty && outcomes.all Prod.fst) ∧ after = outcomes.map Prod.snd := by
  constructor
  · intro h
    rcases InTurn.through_or_fails m.stores_or_fails ds t with
      ⟨outcomes, u, hturn⟩ | ⟨before, d, later, outcomes, u, rfl, hbefore, e, hd⟩
    · rw [m.saveAll_goes hturn] at h
      cases h
      exact ⟨outcomes, hturn, rfl, rfl⟩
    · rw [m.saveAll_fails hbefore hd] at h
      cases h
  · rintro ⟨outcomes, hturn, rfl, rfl⟩
    exact m.saveAll_goes hturn

theorem saveAll_eq_error_iff :
    m.saveAll (ds, t) = (.error e, after, t') ↔
      ∃ before d later answer stored, ds = before ++ d :: later ∧ after = stored ++ d :: later ∧
        stored.length = before.length ∧ m.saveAll (before, t) = (.ok answer, stored, t') ∧
        m.save (d, t') = (.error e, d, t') := by
  constructor
  · intro h
    rcases InTurn.through_or_fails m.stores_or_fails ds t with
      ⟨outcomes, u, hturn⟩ | ⟨before, d, later, outcomes, u, rfl, hbefore, e', hd⟩
    · rw [m.saveAll_goes hturn] at h
      cases h
    · rw [m.saveAll_fails hbefore hd] at h
      cases h
      have hlength : (outcomes.map Prod.snd).length = before.length := by
        rw [List.length_map, hbefore.length_eq]
      exact ⟨before, d, later, _, _, rfl, rfl, hlength, m.saveAll_goes hbefore, hd⟩
  · rintro ⟨before, d, later, answer, stored, rfl, rfl, -, hbefore, hd⟩
    obtain ⟨outcomes, houtcomes, -, rfl⟩ := m.saveAll_eq_ok_iff.mp hbefore
    exact m.saveAll_fails houtcomes hd later

/-! ## Identifiers of what was stored -/

/-- There is a record under the identifier that the instance carries. -/
def HasRecord (d : D) (t : Target) : Prop :=
  ∃ name c, t = .holding name c ∧ m.type.id d ∈ Keyed.keys c.records

/-- An instance that can be written carries the identifier that it is given. -/
def TakesIds : Prop :=
  ∀ d mapping id, m.type.toMapping d = .ok mapping → m.type.id (m.type.setId d id) = id

/-- An instance keeps its identifier when it is made anew from its own document. -/
def KeepsIds : Prop :=
  ∀ d mapping d', m.type.toMapping d = .ok mapping → m.type.fromMapping mapping = .ok d' →
    m.type.id d' = m.type.id d

/-- The instance that comes back, if it was stored, carries the identifier under which its record
is: the record of the instance that came, where that was added, or else its own. -/
def CarriesId (d : D) (_ : Target) (outcome : Bool × D) (t' : Target) : Prop :=
  outcome.1 = true → ∃ name c record, t' = .holding name c ∧
    (m.toRecord d = .ok record ∨ m.toRecord outcome.2 = .ok record) ∧
    Keyed.get? c.records (m.type.id outcome.2) =
      some (Contents.stamped (m.type.id outcome.2) record)

variable {m} {d' : D} {saved : Bool}

/-- Only into a collection that is there can anything be saved. -/
theorem holding_of_save (h : m.save (d, t) = (.ok saved, d', t')) :
    ∃ name c, t = .holding name c := by
  match t, h with
  | some ⟨name, some c⟩, _ => exact ⟨name, c, rfl⟩

theorem save_carriesId (hids : m.TakesIds) (h : m.Stores d t outcome t') :
    m.CarriesId d t outcome t' := by
  intro hflag
  obtain ⟨name, c, rfl⟩ := holding_of_save h
  rcases m.save_eq_ok h with
    ⟨-, mapping, record, -, -, hfound, hrecord, rfl⟩ | ⟨-, -, hd', record, hrecord, rfl⟩
  · refine ⟨name, _, record, rfl, .inr hrecord, ?_⟩
    rw [Contents.get?_update, if_pos ⟨rfl, hfound.symm.trans hflag⟩]
  · obtain ⟨mapping, hmapping, -⟩ := toRecord_eq_ok hrecord
    refine ⟨name, _, record, rfl, .inl hrecord, ?_⟩
    rw [hd', hids d mapping c.nextId hmapping, Contents.get?_store, if_pos rfl]

theorem CarriesId.hasRecord (h : m.CarriesId d t outcome t') (hflag : outcome.1 = true) :
    m.HasRecord outcome.2 t' := by
  obtain ⟨name, c, record, rfl, -, hget⟩ := h hflag
  exact ⟨name, c, rfl, Keyed.mem_keys_of_get? hget⟩

theorem save_keeps_records {other : D} (h : m.save (d, t) = (.ok saved, d', t'))
    (hother : m.HasRecord other t) : m.HasRecord other t' := by
  obtain ⟨name, c, rfl, hmem⟩ := hother
  rcases m.save_cases h with ⟨-, id, record, rfl⟩ | ⟨-, -, record, -, rfl⟩
  · refine ⟨name, _, rfl, ?_⟩
    rw [Contents.keys_update]
    exact hmem
  · exact ⟨name, _, rfl, Keyed.mem_keys_insert.mpr (.inr hmem)⟩

/-- Where identifiers are kept, a save that does not fail finds its record or adds one. -/
theorem save_answers_true (hkeeps : m.KeepsIds) (h : m.save (d, t) = (.ok saved, d', t')) :
    saved = true := by
  obtain ⟨name, c, rfl⟩ := holding_of_save h
  rcases m.save_eq_ok h with ⟨hmem, mapping, record, hmapping, hd', rfl, -, -⟩ | ⟨-, hsaved, -⟩
  · rw [hkeeps d mapping d' hmapping hd']
    exact Keyed.contains_iff.mpr hmem
  · exact hsaved

theorem inTurn_hasRecord (hids : m.TakesIds) (h : InTurn m.Stores ds t outcomes t') :
    ∀ outcome ∈ outcomes, outcome.1 = true → m.HasRecord outcome.2 t' := by
  let P (outcome : Bool × D) (t : Target) : Prop := outcome.1 = true → m.HasRecord outcome.2 t
  have hnew : ∀ d t outcome t', m.Stores d t outcome t' → P outcome t' :=
    fun d t outcome t' hsave => (save_carriesId hids hsave).hasRecord
  have hstep : ∀ outcome d t other t', m.Stores d t other t' → P outcome t → P outcome t' :=
    fun outcome d t other t' hsave hheld hflag => save_keeps_records hsave (hheld hflag)
  exact h.forall_answers hnew hstep

theorem inTurn_answers_true (hkeeps : m.KeepsIds) (h : InTurn m.Stores ds t outcomes t') :
    ∀ outcome ∈ outcomes, outcome.1 = true := by
  let P (outcome : Bool × D) (_ : Target) : Prop := outcome.1 = true
  have hnew : ∀ d t outcome t', m.Stores d t outcome t' → P outcome t' :=
    fun d t outcome t' hsave => save_answers_true hkeeps hsave
  have hstep : ∀ outcome d t other t', m.Stores d t other t' → P outcome t → P outcome t' :=
    fun _ _ _ _ _ _ hflag => hflag
  exact h.forall_answers (P := P) hnew hstep

/-! ## Batches -/

variable (m)

/-- Whatever the model is bound to and whatever the list, a batch that goes through has its elements
saved in turn. One that fails has gone through the elements before some element, on their own, and
fails on that element, whatever comes after it; the instances from there on are as they were. The
instances that were stored up to the end of a batch, or up to where one fails, carry the identifiers
that their records were put under, and there still is a record under each. -/
theorem batch_iff (t : Target) :
    (∀ js ds t', m.bulkSave js t = (.ok ds, t') ↔ InTurn m.Imports js t ds t') ∧
    (∀ js e t', m.bulkSave js t = (.error e, t') ↔
      ∃ before j later ds, js = before ++ j :: later ∧ m.bulkSave before t = (.ok ds, t') ∧
        m.saveJson j t' = (.error e, t')) ∧
    (∀ ds answer after t', m.saveAll (ds, t) = (.ok answer, after, t') ↔
      ∃ outcomes, InTurn m.Stores ds t outcomes t' ∧
        answer = (!ds.isEmpty && outcomes.all Prod.fst) ∧ after = outcomes.map Prod.snd) ∧
    (∀ ds e after t', m.saveAll (ds, t) = (.error e, after, t') ↔
      ∃ before d later answer stored, ds = before ++ d :: later ∧ after = stored ++ d :: later ∧
        stored.length = before.length ∧ m.saveAll (before, t) = (.ok answer, stored, t') ∧
        m.save (d, t') = (.error e, d, t')) ∧
    ∀ ds outcomes t', InTurn m.Stores ds t outcomes t' →
      (m.TakesIds → InTurn m.CarriesId ds t outcomes t' ∧
        ∀ outcome ∈ outcomes, outcome.1 = true → m.HasRecord outcome.2 t') ∧
      (m.KeepsIds → ∀ outcome ∈ outcomes, outcome.1 = true) := by
  refine ⟨?imported, ?importFails, ?saved, ?saveFails, ?ids⟩
  case imported => exact fun js ds t' => m.bulkSave_eq_ok_iff
  case importFails =>
    intro js e t'
    simp only [bulkSave_eq_error_iff, bulkSave_eq_ok_iff]
  case saved => exact fun ds answer after t' => m.saveAll_eq_ok_iff
  case saveFails => exact fun ds e after t' => m.saveAll_eq_error_iff
  case ids =>
    intro ds outcomes t' h
    refine ⟨fun hids => ⟨h.mono ?_, inTurn_hasRecord hids h⟩, fun hkeeps => ?_⟩
    · exact fun d t outcome t' hsave => save_carriesId hids hsave
    · exact inTurn_answers_true hkeeps h

/-- In the cluster, too: a batch that fails leaves every store and every registry as the batch of
the elements before the failing one does, which goes through. -/
theorem run_batch_fails (c c' : Cluster) (e : Error) :
    (∀ js, m.run (m.bulkSave js) c = (.error e, c') →
      ∃ before j later ds, js = before ++ j :: later ∧
        m.run (m.bulkSave before) c = (.ok ds, c')) ∧
    ∀ ds after, m.runWith m.saveAll (ds, c) = (.error e, after, c') →
      ∃ before d later answer stored, ds = before ++ d :: later ∧ after = stored ++ d :: later ∧
        m.runWith m.saveAll (before, c) = (.ok answer, stored, c') := by
  constructor
  · intro js h
    rcases hrun : m.bulkSave js (m.target c) with ⟨answer, t⟩
    rw [run, hrun] at h
    cases h
    obtain ⟨before, j, later, ds, hjs, hbefore, -⟩ := m.bulkSave_eq_error_iff.mp hrun
    refine ⟨before, j, later, ds, hjs, ?_⟩
    rw [run, m.bulkSave_eq_ok_iff.mpr hbefore]
  · intro ds after h
    rcases hrun : m.saveAll (ds, m.target c) with ⟨answer, after', t⟩
    rw [runWith, hrun] at h
    cases h
    obtain ⟨before, d, later, answer, stored, hds, hafter, -, hbefore, -⟩ :=
      m.saveAll_eq_error_iff.mp hrun
    refine ⟨before, d, later, answer, stored, hds, hafter, ?_⟩
    rw [runWith, hbefore]

end Model

/-! ## Anti-vacuity: batches that stop at what is not a user -/

theorem users_takesIds : users.TakesIds := by
  intro d mapping id h
  cases d with
  | document entries =>
    show DocumentType.idOf UserSchema.user
      (DocumentType.withId UserSchema.user (.document entries) id) = id
    simp [DocumentType.idOf, DocumentType.withId, SchemaGraph.primaryKey, SchemaGraph.schema,
      Value.integer?]
  | _ => cases h

theorem users_keepsIds : users.KeepsIds := by
  obtain ⟨read, -, hread⟩ := users_readsKey
  intro d mapping d' hmapping hd'
  rw [hread mapping d' (.inr hd'), hread mapping d (.inl hmapping)]

/-- A user and then a number are imported, or saved: the user is stored and carries the identifier
of the record, the number is refused as it is, and so is the batch, whatever comes after the
number. -/
theorem users_stop :
    (∃ t, users.bulkSave [userJson 5 "a"] (some noUsers) = (.ok [user 0 "a"], t) ∧
      users.count t = .ok 1 ∧
      ∀ later, users.bulkSave (userJson 5 "a" :: .int 7 :: later) (some noUsers) =
        (.error (.invalidDocument (.notObject "User")), t)) ∧
    ∃ t, users.saveAll ([user 5 "a"], some noUsers) = (.ok true, [user 0 "a"], t) ∧
      users.HasRecord (user 0 "a") t ∧
      ∀ later, users.saveAll (user 5 "a" :: .int64 7 :: later, some noUsers) =
        (.error (.invalidDocument (.notMapping "User" (Value.int64 7).typeName)),
          user 0 "a" :: .int64 7 :: later, t) := by
  obtain ⟨-, himportFails, hsaved, hsaveFails, hids⟩ := users.batch_iff (some noUsers)
  constructor
  · obtain ⟨t, hbefore, hcount, hseven⟩ : ∃ t,
        users.bulkSave [userJson 5 "a"] (some noUsers) = (.ok [user 0 "a"], t) ∧
        users.count t = .ok 1 ∧
        users.saveJson (.int 7) t = (.error (.invalidDocument (.notObject "User")), t) := by
      simp only [Model.bulkSave, Model.saveJson, imported_userJson (n := 5) (by decide)]
      exact ⟨_, rfl, rfl, rfl⟩
    refine ⟨t, hbefore, hcount, fun later => ?_⟩
    exact (himportFails _ _ _).mpr ⟨_, _, later, _, rfl, hbefore, hseven⟩
  · obtain ⟨t, hbefore, hseven⟩ : ∃ t,
        users.saveAll ([user 5 "a"], some noUsers) = (.ok true, [user 0 "a"], t) ∧
        users.save (.int64 7, t) = (.error (.invalidDocument (.notMapping "User"
          (Value.int64 7).typeName)), .int64 7, t) := ⟨_, rfl, rfl⟩
    refine ⟨t, hbefore, ?_, fun later => ?_⟩
    · obtain ⟨outcomes, hturn, -, hafter⟩ := (hsaved _ _ _ _).mp hbefore
      obtain ⟨hcarried, htrue⟩ := hids _ _ _ hturn
      obtain ⟨outcome, hmem, heq⟩ := List.mem_map.mp (hafter ▸ List.mem_singleton_self _)
      rw [← heq]
      exact (hcarried users_takesIds).2 outcome hmem (htrue users_keepsIds outcome hmem)
    · exact (hsaveFails _ _ _ _).mpr
        ⟨[user 5 "a"], _, later, _, [user 0 "a"], rfl, rfl, rfl, hbefore, hseven⟩

end TypedStore
