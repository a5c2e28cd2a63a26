import Mathlib.Data.List.Forall2
import TypedStore.Model.Query
import TypedStore.Instance
import TypedStore.Proofs.Reachable
import TypedStore.Proofs.Resolution

/-!
What a query with several conditions finds.

The conditions become one expression, grouped to the left under `and`. On anything but two
integers `and` is the conjunction of truths, and so it is from there on to the right. Two integers
it joins bit by bit, so as long as the values are integers the expression holds their common bits
(`leadingBits`), which may be none though every single one is true.

So a record satisfies the joined expression when it satisfies every condition and the leading
integers have a bit in common (`satisfiedBy_joined_iff`), and a query finds exactly the records
that satisfy every condition when no record falls into that gap
(`findAll_eq_conjunction_iff`). One falls into it in `findAll_disjoint_bits`.
-/

namespace TypedStore

namespace Value

/-- The bits that the integers at the head of a list have in common, up to the first value that is
no integer. -/
def leadingBits : List Value → Int64
  | [] => -1
  | v :: rest =>
    match v.integer? with
    | some n => n &&& leadingBits rest
    | none => -1

@[simp] theorem truthy_bool (b : Bool) : (Value.bool b).truthy = b := rfl

theorem truthy_of_integer? {v : Value} {n : Int64} (h : v.integer? = some n) :
    v.truthy = true ↔ n ≠ 0 := by
  cases v with
  | int32 a =>
    simp only [integer?, Option.some.injEq] at h
    subst h
    simp [truthy, ← Int64.toInt_inj, ← Int32.toInt_inj]
  | int64 a => simp_all [integer?, truthy]
  | _ => simp [integer?] at h

theorem apply_and_integers {v w : Value} {a b : Int64} (hv : v.integer? = some a)
    (hw : w.integer? = some b) : Operator.and.apply v w = .int64 (a &&& b) := by
  simp [Operator.apply, hv, hw]

theorem apply_and_of_left {v : Value} (hv : v.integer? = none) (w : Value) :
    Operator.and.apply v w = .bool (v.truthy && w.truthy) := by
  simp [Operator.apply, hv]

theorem apply_and_of_right (v : Value) {w : Value} (hw : w.integer? = none) :
    Operator.and.apply v w = .bool (v.truthy && w.truthy) := by
  cases hv : v.integer? <;> simp [Operator.apply, hv, hw]

/-- From a value that is no integer on, `and` is the conjunction of truths. -/
theorem truthy_foldl_and {v : Value} (hv : v.integer? = none) (rest : List Value) :
    (rest.foldl Operator.and.apply v).truthy = true ↔
      v.truthy = true ∧ ∀ w ∈ rest, w.truthy = true := by
  induction rest generalizing v with
  | nil => simp
  | cons w rest ih =>
    rw [List.foldl_cons, apply_and_of_left hv, ih rfl]
    simp [and_assoc]

/-- From an integer on, `and` gathers the common bits as long as integers follow. -/
theorem truthy_foldl_and_integer {v : Value} {a : Int64} (hv : v.integer? = some a)
    (rest : List Value) :
    (rest.foldl Operator.and.apply v).truthy = true ↔
      a &&& leadingBits rest ≠ 0 ∧ ∀ w ∈ rest, w.truthy = true := by
  induction rest generalizing v a with
  | nil => simp [leadingBits, truthy_of_integer? hv]
  | cons w rest ih =>
    rw [List.foldl_cons]
    cases hw : w.integer? with
    | some b =>
      rw [apply_and_integers hv hw, ih rfl, Int64.and_assoc]
      simp only [leadingBits, hw, List.mem_cons, forall_eq_or_imp]
      refine ⟨fun ⟨hbits, hrest⟩ => ⟨hbits, ?_, hrest⟩, fun ⟨hbits, _, hrest⟩ => ⟨hbits, hrest⟩⟩
      rw [truthy_of_integer? hw]
      rintro rfl
      simp at hbits
    | none =>
      rw [apply_and_of_right v hw, truthy_foldl_and rfl]
      simp [leadingBits, hw, truthy_of_integer? hv, and_assoc]

/-- The truth of several values under `and`. -/
theorem truthy_foldl_iff (v : Value) (rest : List Value) :
    (rest.foldl Operator.and.apply v).truthy = true ↔
      (∀ w ∈ v :: rest, w.truthy = true) ∧ leadingBits (v :: rest) ≠ 0 := by
  cases hv : v.integer? with
  | some a =>
    rw [truthy_foldl_and_integer hv]
    simp only [leadingBits, hv, List.mem_cons, forall_eq_or_imp, truthy_of_integer? hv]
    refine ⟨fun ⟨hbits, hrest⟩ => ⟨⟨?_, hrest⟩, hbits⟩, fun ⟨⟨_, hrest⟩, hbits⟩ => ⟨hbits, hrest⟩⟩
    rintro rfl
    simp at hbits
  | none =>
    rw [truthy_foldl_and hv]
    simp [leadingBits, hv]

end Value

namespace Expression

variable {σ : Type}

/-- Several expressions as one, grouped to the left. -/
def joined (operator : Operator) (e : Expression σ) (rest : List (Expression σ)) : Expression σ :=
  rest.foldl (fun merged f => ⟨.expr merged, operator, .expr f⟩) e

theorem mergeFrom_eq_joined (operator : Operator) (e : Expression σ)
    (rest : List (Expression σ)) :
    mergeFrom operator e (rest.map .expr) = .ok (joined operator e rest) := by
  induction rest generalizing e with
  | nil => rfl
  | cons f rest ih => exact ih _

theorem merge_eq_joined (operator : Operator) (e : Expression σ) (rest : List (Expression σ)) :
    merge operator (.expr e :: rest.map .expr) = .ok (joined operator e rest) :=
  mergeFrom_eq_joined operator e rest

theorem evaluate_joined (operator : Operator) (e : Expression σ) (rest : List (Expression σ))
    (record : Document) :
    (joined operator e rest).evaluate record =
      (rest.map (·.evaluate record)).foldl operator.apply (e.evaluate record) := by
  induction rest generalizing e with
  | nil => rfl
  | cons f rest ih => exact ih _

/-- A record satisfies joined conditions when it satisfies each of them and the integers at their
head have a bit in common. -/
theorem satisfiedBy_joined_iff (e : Expression σ) (rest : List (Expression σ))
    (record : Document) :
    (joined .and e rest).satisfiedBy record = true ↔
      (∀ f ∈ e :: rest, f.satisfiedBy record = true) ∧
        Value.leadingBits ((e :: rest).map (·.evaluate record)) ≠ 0 := by
  rw [satisfiedBy, evaluate_joined, Value.truthy_foldl_iff]
  simp [satisfiedBy]

end Expression

/-! ## Queries -/

theorem mapM_eq_ok_iff {α β : Type} {f : α → Except Error β} {items : List α} {found : List β} :
    items.mapM f = .ok found ↔ List.Forall₂ (fun a b => f a = .ok b) items found := by
  induction items generalizing found with
  | nil => cases found <;> simp [pure, Except.pure]
  | cons a rest ih =>
    rw [List.mapM_cons]
    cases ha : f a with
    | error e => cases found <;> simp [ha, bind, Except.bind]
    | ok b =>
      cases hr : rest.mapM f with
      | error e => cases found <;> simp [ha, hr, ← ih, bind, Except.bind]
      | ok bs => cases found <;> simp [ha, hr, ← ih, bind, Except.bind, pure, Except.pure]

namespace Model

variable {σ D : Type} [SchemaGraph σ] (m : Model σ D)

/-- Whether a record satisfies every one of some conditions. -/
def satisfiesAll (filters : List (Expression σ)) (record : Document) : Bool :=
  filters.all fun f => f.satisfiedBy (m.ofStored record)

/-- The bits that the conditions' leading integers have in common on a record. -/
def commonBits (filters : List (Expression σ)) (record : Document) : Int64 :=
  Value.leadingBits (filters.map (·.evaluate (m.ofStored record)))

/-- The query on a collection that is there: it reads off the records that satisfy the joined
conditions. -/
theorem findAll_eq {contents : Contents} {name : String} {filters : List (Expression σ)}
    (hne : filters ≠ []) :
    m.findAll filters (some ⟨name, some contents⟩) =
      ((contents.records.map Prod.snd).filter fun r =>
        m.satisfiesAll filters r && m.commonBits filters r != 0).mapM m.fromRecord := by
  obtain ⟨e, rest, rfl⟩ := List.exists_cons_of_ne_nil hne
  have hcond : (fun r => (Expression.joined .and e rest).satisfiedBy (m.ofStored r)) =
      fun r => m.satisfiesAll (e :: rest) r && m.commonBits (e :: rest) r != 0 := by
    funext r
    rw [Bool.eq_iff_iff, Expression.satisfiedBy_joined_iff]
    simp [satisfiesAll, commonBits]
  simp [findAll, collection, Expression.merge_eq_joined, Collection.filter, Collection.all,
    Collection.opened, bind, Except.bind, pure, Except.pure, ← hcond]

/-- A query that answers reads off, by ascending identifier, the records that satisfy every
condition and give the leading integers a common bit. They are all the records that satisfy every
condition exactly when none of those is without such a bit. -/
theorem findAll_eq_conjunction_iff {c : Collection} (hc : c.Reachable)
    {filters : List (Expression σ)} (hne : filters ≠ []) {found : List D}
    (h : m.findAll filters (some c) = .ok found) :
    ∃ contents, c.contents = some contents ∧ (Keyed.keys contents.records).Pairwise (· < ·) ∧
      ((contents.records.map Prod.snd).filter fun r =>
        m.satisfiesAll filters r && m.commonBits filters r != 0).mapM m.fromRecord = .ok found ∧
      (((contents.records.map Prod.snd).filter (m.satisfiesAll filters)).mapM m.fromRecord =
          .ok found ↔
        ∀ r ∈ contents.records.map Prod.snd, m.satisfiesAll filters r = true →
          m.commonBits filters r ≠ 0) := by
  obtain ⟨name, _ | contents⟩ := c
  · obtain ⟨e, rest, rfl⟩ := List.exists_cons_of_ne_nil hne
    simp [findAll, collection, Expression.merge_eq_joined, Collection.filter, Collection.all,
      Collection.opened, bind, Except.bind] at h
  rw [m.findAll_eq hne] at h
  refine ⟨contents, rfl, (hc.sound rfl).ascending, h, ?_⟩
  set records := contents.records.map Prod.snd
  have hsplit : (records.filter fun r => m.satisfiesAll filters r && m.commonBits filters r != 0) =
      (records.filter (m.satisfiesAll filters)).filter fun r => m.commonBits filters r != 0 := by
    rw [List.filter_filter]
    exact List.filter_congr fun r _ => Bool.and_comm ..
  constructor
  · intro hall r hr hsat
    -- both readings have the length of the answer, so the second test drops no record
    have hlen := (mapM_eq_ok_iff.mp h).length_eq
    rw [hsplit, ← (mapM_eq_ok_iff.mp hall).length_eq] at hlen
    have hkeep := List.length_filter_eq_length_iff.mp hlen r (List.mem_filter.mpr ⟨hr, hsat⟩)
    simpa using hkeep
  · intro hbits
    have hkeep : ((records.filter (m.satisfiesAll filters)).filter
        fun r => m.commonBits filters r != 0) = records.filter (m.satisfiesAll filters) := by
      refine List.filter_eq_self.mpr ?_
      intro r hr
      obtain ⟨hr, hsat⟩ := List.mem_filter.mp hr
      simpa using hbits r hr hsat
    rw [← h, hsplit, hkeep]

end Model

/-! ## Anti-vacuity: a condition that finds its record, and two that hide it from each other -/

/-- Categories that are stored as they come. -/
def categories : Model CategorySchema Value :=
  { type := .freeForm .category, name := "categories", byAlias := false }

/-- A collection with one category in it. -/
def oneCategory : Collection :=
  (Collection.Call.store [("title", .string "a")]).apply
    { name := "categories", contents := some {} }

theorem oneCategory_reachable : oneCategory.Reachable :=
  ⟨_, by decide, .call (.store _) (.new _)⟩

/-- The title of a category. -/
def titlePath : FieldPath CategorySchema :=
  { field := ⟨"title", .string, none, false⟩, owner := "Category" }

/-- The category as it is read back. -/
def storedCategory : Value := .document [("title", .string "a"), ("id", .int64 0)]

/-- The one category of that title is all that the query by title finds. -/
theorem findAll_by_title :
    categories.findAll [⟨.field titlePath, .eq, .value (.string "a")⟩] (some oneCategory) =
        .ok [storedCategory] ∧
      ((((oneCategory.contents.getD {}).records.map Prod.snd).filter (categories.satisfiesAll
        [⟨.field titlePath, .eq, .value (.string "a")⟩])).mapM categories.fromRecord =
          .ok [storedCategory]) := by
  have h : categories.findAll [⟨.field titlePath, .eq, .value (.string "a")⟩] (some oneCategory) =
      .ok [storedCategory] := rfl
  refine ⟨h, ?_⟩
  obtain ⟨contents, hc, -, -, hiff⟩ :=
    categories.findAll_eq_conjunction_iff oneCategory_reachable (by simp) h
  cases hc
  refine hiff.mpr ?_
  intro r hr _
  have hbits : categories.commonBits [⟨.field titlePath, .eq, .value (.string "a")⟩] r = -1 := rfl
  rw [hbits]
  decide

/-- The length of the title, one, and the number after it, two, are both true of the category. They
have no bit in common, so the two conditions together do not find what each of them finds. -/
theorem findAll_disjoint_bits :
    categories.findAll [⟨.field titlePath, .len, .value .null⟩] (some oneCategory) =
        .ok [storedCategory] ∧
      categories.findAll [⟨.node (.field titlePath) .len (.value .null), .add, .value (.int64 1)⟩]
        (some oneCategory) = .ok [storedCategory] ∧
      categories.findAll [⟨.field titlePath, .len, .value .null⟩,
        ⟨.node (.field titlePath) .len (.value .null), .add, .value (.int64 1)⟩]
        (some oneCategory) = .ok [] := by
  refine ⟨rfl, rfl, rfl⟩

end TypedStore
