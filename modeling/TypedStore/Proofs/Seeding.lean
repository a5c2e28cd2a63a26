import TypedStore.Proofs.FindingAgain
import TypedStore.Proofs.Settling

/-!
Conditions built with `and`, `or` and `not`, as what is asked for and as what is made.

The leaves of a `Condition` pin attributes down to literals. On a record it is as true as its
operators make the truths of its leaves (`evaluate_toExpression`). As a template it is blind to the
operators: the literals of all leaves are assigned, of those below a `not` as well
(`Condition.follow?_toMapping`). So in the record that is made of it all leaves are true
(`satisfiedBy_made`), and the record meets the condition exactly when these make the condition true,
when it is `affirmed`. Only then is the record found again (`getOrCreate_condition_iff`). A category
that is not to be called a is made with that title, time and again (`getOrCreate_negation_doubles`).
-/

namespace TypedStore

/-- A condition on attributes and the literals they are compared to. -/
inductive Condition (σ : Type) where
  | pin (path : FieldPath σ) (literal : Value)
  | and (left right : Condition σ)
  | or (left right : Condition σ)
  | not (inner : Condition σ)

namespace Condition

section Trees

variable {σ : Type}

/-- The condition as an expression. -/
def toExpression : Condition σ → Expression σ
  | pin path literal => .pin (path, literal)
  | and left right => left.toExpression.and right.toExpression
  | or left right => left.toExpression.or right.toExpression
  | not inner => ⟨.expr inner.toExpression, .not, .value .null⟩

/-- The leaves, from left to right. -/
def pins : Condition σ → List (FieldPath σ × Value)
  | pin path literal => [(path, literal)]
  | and left right => left.pins ++ right.pins
  | or left right => left.pins ++ right.pins
  | not inner => inner.pins

/-- The truth of the condition, given that of its leaves. -/
def truth (holds : FieldPath σ × Value → Bool) : Condition σ → Bool
  | pin path literal => holds (path, literal)
  | and left right => left.truth holds && right.truth holds
  | or left right => left.truth holds || right.truth holds
  | not inner => !inner.truth holds

/-- Whether the condition is true where all its leaves are. -/
def affirmed (condition : Condition σ) : Bool := condition.truth fun _ => true

/-- The truth depends on that of the leaves only. -/
theorem truth_congr {condition : Condition σ} {holds holds' : FieldPath σ × Value → Bool}
    (h : ∀ pin ∈ condition.pins, holds pin = holds' pin) :
    condition.truth holds = condition.truth holds' := by
  induction condition with
  | pin path literal => exact h _ (List.mem_singleton_self _)
  | and left right ihl ihr | or left right ihl ihr =>
    rw [truth, truth, ihl fun pin hpin => h pin (List.mem_append_left _ hpin),
      ihr fun pin hpin => h pin (List.mem_append_right _ hpin)]
  | not inner ih => rw [truth, truth, ih h]

/-- The value on a record is the truth of the condition: no two integers meet in it. -/
theorem evaluate_toExpression (condition : Condition σ) (record : Document) :
    condition.toExpression.evaluate record =
      .bool (condition.truth fun pin => (Expression.pin pin).satisfiedBy record) := by
  induction condition with
  | pin path literal => rfl
  | and left right ihl ihr =>
    show Operator.and.apply (left.toExpression.evaluate record)
      (right.toExpression.evaluate record) = _
    rw [ihl, ihr]
    rfl
  | or left right ihl ihr =>
    show Operator.or.apply (left.toExpression.evaluate record)
      (right.toExpression.evaluate record) = _
    rw [ihl, ihr]
    rfl
  | not inner ih =>
    show Operator.not.apply (inner.toExpression.evaluate record) .null = _
    rw [ih]
    rfl

theorem satisfiedBy_toExpression (condition : Condition σ) (record : Document) :
    condition.toExpression.satisfiedBy record =
      condition.truth fun pin => (Expression.pin pin).satisfiedBy record := by
  rw [Expression.satisfiedBy, evaluate_toExpression, Value.truthy_bool]

/-! ## The template -/

/-- Whatever operators are above them, the leaves are what the tree pins down. -/
theorem pins_toExpression (condition : Condition σ) :
    condition.toExpression.pins = condition.pins := by
  induction condition with
  | pin path literal => rfl
  | and left right ihl ihr | or left right ihl ihr =>
    simp only [toExpression, Expression.and, Expression.or, Expression.pins_expr_left]
    exact congrArg₂ (· ++ ·) ihl ihr
  | not inner ih =>
    rw [toExpression, Expression.pins_expr_left, ih]
    exact List.append_nil _

end Trees

variable {σ D : Type} [SchemaGraph σ] {m : Model σ D} {condition : Condition σ}

theorem collects_toMapping (h : m.Pins condition.pins) :
    Template.Collects condition.toExpression.toMapping condition.pins := by
  have hseparable : Template.Separable condition.toExpression.pins := by
    rw [pins_toExpression]
    exact h.separable
  exact condition.pins_toExpression ▸ Template.collects_toMapping hseparable

/-- The template holds every literal at its path, whatever operators are above it. -/
theorem follow?_toMapping (h : m.Pins condition.pins) {pin : FieldPath σ × Value}
    (hpin : pin ∈ condition.pins) :
    (Value.document condition.toExpression.toMapping).follow? pin.1.attributePath =
      some pin.2 :=
  (collects_toMapping h).follow?_of_apart h.apart hpin

theorem notMem_toMapping (h : m.Pins condition.pins) {k : String}
    (hk : ∀ pin ∈ condition.pins, pin.1.attributePath.head? ≠ some k) :
    k ∉ Keyed.keys condition.toExpression.toMapping :=
  Keyed.get?_eq_none_iff.mp ((collects_toMapping h).get?_eq_none hk)

/-- In a record that is made of the template all leaves are true. -/
theorem satisfiedBy_made (h : m.Pins condition.pins)
    (hreserved : ∀ pin ∈ condition.pins, pin.1.attributePath.head? ≠ some reservedIdKey)
    (v : Value) :
    condition.toExpression.satisfiedBy
      (condition.toExpression.toMapping ++ [(reservedIdKey, v)]) = condition.affirmed := by
  rw [satisfiedBy_toExpression, affirmed]
  refine truth_congr fun pin hpin => ?_
  have hheld := follow?_toMapping h hpin
  rw [← Document.getPath?_eq_follow? (attributePath_ne_nil pin.1)] at hheld
  show ((Document.getPath? _ pin.1.recordSegments).getD .null).equal pin.2 = true
  rw [h.recordSegments_eq hpin, Document.getPath?_append_singleton _ _ (hreserved pin hpin), hheld]
  exact h.reflexive pin hpin

end Condition

/-! ## What is made of a condition -/

namespace Model

variable {σ D : Type} [SchemaGraph σ] {m : Model σ D}

/-- Attributes of the type itself, each compared once, may be pinned down together. -/
theorem Pins.of_fields {pins : List (FieldPath σ × Value)}
    (hfields : ∀ pin ∈ pins, m.field pin.1.field.name = .ok pin.1)
    (hplain : ∀ pin ∈ pins, pin.1.field.isPrimaryKey = false)
    (hdots : ∀ pin ∈ pins, '.' ∉ pin.1.field.name.toList)
    (hreflexive : ∀ pin ∈ pins, pin.2.equal pin.2 = true)
    (hdistinct : (pins.map fun pin => pin.1.field.name).Nodup) : m.Pins pins := by
  have hpath : ∀ pin ∈ pins, pin.1.attributePath = [pin.1.field.name] := by
    intro pin hpin
    have hfield := hfields pin hpin
    unfold field FieldPath.ofField at hfield
    split at hfield
    · rw [← Except.ok.inj hfield]
      rfl
    · cases hfield
  refine ⟨?resolved, hplain, ?dotFree, hreflexive, ?apart⟩
  case resolved =>
    intro pin hpin
    have hfield : FieldPath.ofField m.type.schema pin.1.field.name = .ok pin.1 :=
      hfields pin hpin
    rw [hpath pin hpin, FieldPath.resolve, hfield]
    rfl
  case dotFree =>
    intro pin hpin name hname
    rw [hpath pin hpin, List.mem_singleton] at hname
    rw [hname]
    exact hdots pin hpin
  case apart =>
    refine (List.pairwise_map.mp hdistinct).imp_of_mem ?_
    intro a b ha hb hne
    rw [hpath a ha, hpath b hb]
    simp [Diverge, List.cons_prefix_cons, hne, Ne.symm hne]

/-- Paths that pins resolve to, other than under the reserved key, do not start at the primary key
of the type. -/
theorem Pins.head?_ne_primaryKey {pins : List (FieldPath σ × Value)} (h : m.Pins pins)
    (hreserved : ∀ pin ∈ pins, pin.1.attributePath.head? ≠ some reservedIdKey) :
    ∀ pin ∈ pins, pin.1.attributePath.head? ≠ some m.primaryKey := by
  intro pin hpin
  cases hkey : SchemaGraph.primaryKey m.type.schema with
  | none =>
    rw [primaryKey, hkey]
    exact hreserved pin hpin
  | some key =>
    rw [primaryKey, hkey]
    obtain ⟨steps, s, f, walk, -⟩ := resolve_eq_ok_iff.mp (h.resolved pin hpin)
    exact walk.head?_ne hkey (h.attributePath_ne_primaryKey hkey hpin)

/-- The record that is made of a condition meets it exactly when the condition is affirmed, and
exactly then it is found again and nothing more is added. Otherwise every further call that succeeds
adds one more record. The leaves may be at any paths that diverge, as those of the type's own
attributes do when each of these occurs in one leaf (`Pins.of_fields`). -/
theorem getOrCreate_condition_iff {c : Collection} (hc : c.Reachable) {before : Contents}
    (hbefore : c.contents = some before) (halias : m.byAlias = false)
    (htype : m.type.Verbatim m.primaryKey) {condition : Condition σ}
    (hpins : m.Pins condition.pins)
    (hreserved : ∀ pin ∈ condition.pins, pin.1.attributePath.head? ≠ some reservedIdKey)
    (hunmet : m.Unmet condition.toExpression before) {d : D} {t : Target}
    (hrun : m.getOrCreate [condition.toExpression] [] (some c) = (.ok d, t)) :
    ∃ record after, t = .holding c.name after ∧
      after.records = before.records ++ [(before.nextId, record)] ∧ m.fromRecord record = .ok d ∧
      condition.toExpression.satisfiedBy record = condition.affirmed ∧
      (m.getOrCreate [condition.toExpression] [] t = (.ok d, t) ↔ condition.affirmed = true) ∧
      (condition.affirmed = false → ∀ d' t',
        m.getOrCreate [condition.toExpression] [] t = (.ok d', t') →
          ∃ after', t' = .holding c.name after' ∧
            after'.records.length = before.records.length + 2) := by
  have hsound := hc.sound hbefore
  obtain ⟨name, contents⟩ := c
  cases hbefore
  obtain ⟨hkeys, hmade⟩ := hunmet.made hrun
  have hkey := Condition.notMem_toMapping hpins (hpins.head?_ne_primaryKey hreserved)
  have hfree := Condition.notMem_toMapping hpins hreserved
  obtain ⟨record, rfl, hstamped, hd⟩ :=
    create_verbatim halias htype rfl (Document.merge_nil _) hkey hfree hmade
  have hread : m.fromRecord (Contents.stamped before.nextId record) = .ok d := by
    rw [fromRecord, ofStored_of_unaliased halias, hstamped, moveKey_concat hfree hkey, htype.same]
    exact hd
  have hmet : condition.toExpression.satisfiedBy
      (m.ofStored (Contents.stamped before.nextId record)) = condition.affirmed := by
    rw [ofStored_of_unaliased halias, hstamped, Condition.satisfiedBy_made hpins hreserved]
  refine ⟨_, _, rfl, Contents.records_store hsound.nextId_notMem record, hread, ?_, ?_, ?_⟩
  · rwa [ofStored_of_unaliased halias] at hmet
  · rw [getOrCreate_again_iff hsound hunmet hkeys record, hmet]
    exact and_iff_left hread
  · intro hdenied d' t' hagain
    exact hunmet.adds_again hsound (hmet.trans hdenied) hagain

end Model

/-! ## Anti-vacuity: a category that is made once, and one that is made each time -/

/-- The parent of a category. -/
def parentPath : FieldPath CategorySchema :=
  { field := ⟨"parent", .embedded .category, none, false⟩, owner := "Category" }

/-- Titled b, and not without that parent. -/
def titledBelow : Condition CategorySchema :=
  .and (.pin titlePath (.string "b")) (.not (.not (.pin parentPath (.string "c"))))

/-- There is no such category yet. It is made, and then it is there. -/
theorem getOrCreate_condition_once :
    ∃ d t, keptCategories.getOrCreate [titledBelow.toExpression] [] (some oneCategory) =
        (.ok d, t) ∧
      d = [("title", .string "b"), ("parent", .string "c"), ("id", .int64 1)] ∧
      keptCategories.getOrCreate [titledBelow.toExpression] [] t = (.ok d, t) := by
  have hpins : keptCategories.Pins titledBelow.pins := by
    refine Model.Pins.of_fields ?_ (by decide) (by decide) (by decide) (by decide)
    intro pin hpin
    simp only [titledBelow, Condition.pins, List.singleton_append, List.mem_cons,
      List.not_mem_nil, or_false] at hpin
    rcases hpin with rfl | rfl <;> rfl
  obtain ⟨d, t, hrun, hd⟩ : ∃ d t,
      keptCategories.getOrCreate [titledBelow.toExpression] [] (some oneCategory) = (.ok d, t) ∧
        d = [("title", .string "b"), ("parent", .string "c"), ("id", .int64 1)] := ⟨_, _, rfl, rfl⟩
  obtain ⟨_, _, -, -, -, -, hiff, -⟩ := Model.getOrCreate_condition_iff oneCategory_reachable rfl
    rfl keptType_verbatim hpins (by decide) (by unfold Model.Unmet; decide) hrun
  exact ⟨d, t, hrun, hd, hiff.mpr rfl⟩

/-- Not titled a. -/
def untitled : Condition CategorySchema := .not (.pin titlePath (.string "a"))

/-- The one category is titled a. So one that is not is made, with that title, and asked for again
another one. -/
theorem getOrCreate_negation_doubles :
    oneCategory.Reachable ∧
      keptCategories.findAll [untitled.toExpression] (some oneCategory) = .ok [] ∧
      ∃ t t', keptCategories.getOrCreate [untitled.toExpression] [] (some oneCategory) =
          (.ok [("title", .string "a"), ("id", .int64 1)], t) ∧
        keptCategories.getOrCreate [untitled.toExpression] [] t =
          (.ok [("title", .string "a"), ("id", .int64 2)], t') ∧
        keptCategories.count t' = .ok 3 :=
  ⟨oneCategory_reachable, rfl, _, _, rfl, rfl, rfl⟩

end TypedStore
