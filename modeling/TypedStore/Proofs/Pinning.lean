import TypedStore.Proofs.Levels
import TypedStore.Proofs.Templates
import TypedStore.Proofs.Upserting

/-!
Conditions that pin attributes down to literals, as conditions and as templates.

The document that such conditions are a template for holds each literal at its path, as long as the
paths diverge (`follow?_assigned`). A record meets them when it holds at each path something equal
to the literal (`selects_pins`). So it meets them when it holds the literals themselves
(`Pins.selects_of_held`), and as long as it holds the same there as another record that does
(`Pins.selects_congr`).
-/

namespace TypedStore

variable {σ D : Type} [SchemaGraph σ]

/-- The condition that an attribute is equal to a literal. -/
def Expression.pin (pin : FieldPath σ × Value) : Expression σ :=
  ⟨.field pin.1, .eq, .value pin.2⟩

open Document
open Template (Separable collects_assigned)

/-! ## The template -/

omit [SchemaGraph σ] in
theorem toMapping_pin (pin : FieldPath σ × Value) :
    (Expression.pin pin).toMapping = expand pin.1.attributeKey pin.2 := by
  show merge (merge (expand pin.1.attributeKey pin.2) []) [] = _
  rw [merge_nil, merge_nil]

omit [SchemaGraph σ] in
/-- Whatever operator joins two conditions, the template is that of both. -/
theorem toMapping_expr_expr (operator : Operator) (e f : Expression σ) :
    (Expression.mk (.expr e) operator (.expr f)).toMapping = merge e.toMapping f.toMapping := by
  show merge (merge [] e.toMapping) f.toMapping = _
  rw [nil_merge]

omit [SchemaGraph σ] in
theorem toMapping_joined (e : Expression σ) (rest : List (Expression σ)) :
    (Expression.joined .and e rest).toMapping =
      rest.foldl (fun d f => merge d f.toMapping) e.toMapping := by
  induction rest generalizing e with
  | nil => rfl
  | cons f rest ih =>
    show (Expression.joined .and ⟨.expr e, .and, .expr f⟩ rest).toMapping = _
    rw [ih, List.foldl_cons, toMapping_expr_expr]

omit [SchemaGraph σ] in
/-- The conditions are a template for the literals at their paths. -/
theorem seed_pins (pins : List (FieldPath σ × Value)) :
    Model.seed (pins.map Expression.pin) = .ok (assigned pins) := by
  cases pins with
  | nil => rfl
  | cons pin rest =>
    show (Expression.merge .and (((pin :: rest).map Expression.pin).map Operand.expr) >>= _) = _
    rw [List.map_cons, List.map_cons, Expression.merge_eq_joined]
    show Except.ok (Expression.joined .and (Expression.pin pin) (rest.map Expression.pin)).toMapping
      = _
    rw [toMapping_joined, List.foldl_map, assigned, List.foldl_cons, nil_merge]
    simp only [toMapping_pin]

/-- What a model asks of the attributes that conditions pin down: every path is the one that its
names spell, so it takes no step twice, and it leads to no primary key; no name has a dot; the
literals are equal to themselves; the paths diverge. -/
structure Model.Pins (m : Model σ D) (pins : List (FieldPath σ × Value)) : Prop where
  resolved : ∀ pin ∈ pins, FieldPath.resolve m.type.schema pin.1.attributePath = .ok pin.1
  plain : ∀ pin ∈ pins, pin.1.field.isPrimaryKey = false
  dotFree : ∀ pin ∈ pins, ∀ name ∈ pin.1.attributePath, '.' ∉ name.toList
  reflexive : ∀ pin ∈ pins, pin.2.equal pin.2 = true
  apart : pins.Pairwise fun a b => Diverge a.1.attributePath b.1.attributePath

namespace Model.Pins

variable {m : Model σ D} {pins : List (FieldPath σ × Value)}

theorem of_sublist {pins' : List (FieldPath σ × Value)} (h : m.Pins pins)
    (hsub : pins'.Sublist pins) : m.Pins pins' where
  resolved pin hpin := h.resolved pin (hsub.subset hpin)
  plain pin hpin := h.plain pin (hsub.subset hpin)
  dotFree pin hpin := h.dotFree pin (hsub.subset hpin)
  reflexive pin hpin := h.reflexive pin (hsub.subset hpin)
  apart := h.apart.sublist hsub

theorem tail {pin : FieldPath σ × Value} (h : m.Pins (pin :: pins)) : m.Pins pins :=
  h.of_sublist (List.sublist_cons_self ..)

theorem recordSegments_eq (h : m.Pins pins) {pin : FieldPath σ × Value} (hpin : pin ∈ pins) :
    pin.1.recordSegments = pin.1.attributePath := by
  refine recordSegments_eq_attributePath fun hkey => ?_
  rw [h.plain pin hpin] at hkey
  cases hkey

/-- The path of the primary key alone leads to the primary key, so it is none of these. -/
theorem attributePath_ne_primaryKey (h : m.Pins pins) {key : String}
    (hkey : SchemaGraph.primaryKey m.type.schema = some key) {pin : FieldPath σ × Value}
    (hpin : pin ∈ pins) : pin.1.attributePath ≠ [key] := by
  intro hpath
  have hresolved := h.resolved pin hpin
  rw [hpath] at hresolved
  obtain ⟨f, hf, hp⟩ := resolve_cons_eq_ok_iff.mp hresolved
  rw [fieldDef?_primaryKey hkey] at hf
  cases hf
  have hfield := h.plain pin hpin
  rw [← Except.ok.inj hp] at hfield
  cases hfield

theorem separable (h : m.Pins pins) : Separable pins := ⟨h.dotFree, h.apart.imp .inl⟩

/-- The template holds every literal at its path. -/
theorem follow?_assigned (h : m.Pins pins) {pin : FieldPath σ × Value} (hpin : pin ∈ pins) :
    (Value.document (assigned pins)).follow? pin.1.attributePath = some pin.2 :=
  (collects_assigned h.separable).follow?_of_apart h.apart hpin

theorem get?_assigned_eq_none (h : m.Pins pins) {k : String}
    (hk : ∀ pin ∈ pins, pin.1.attributePath.head? ≠ some k) : Keyed.get? (assigned pins) k = none :=
  (collects_assigned h.separable).get?_eq_none hk

end Model.Pins

/-! ## Meeting the conditions -/

namespace Model

variable (m : Model σ D) {pins : List (FieldPath σ × Value)}

theorem commonBits_pins (record : Document) :
    m.commonBits (pins.map Expression.pin) record = -1 := by
  cases pins with
  | nil => rfl
  | cons pin rest => rfl

/-- A record is found when it holds at each path something equal to the literal. -/
theorem selects_pins (record : Document) :
    m.selects (pins.map Expression.pin) record = true ↔
      ∀ pin ∈ pins, ((getPath? (m.ofStored record) pin.1.recordSegments).getD .null).equal pin.2 =
        true := by
  rw [selects, m.commonBits_pins, satisfiesAll, List.all_map]
  simp [Expression.satisfiedBy, Expression.evaluate, Expression.pin, Operand.resolve,
    Operator.apply]

variable {m}

/-- Records that hold the same at the paths of the conditions are found alike. -/
theorem Pins.selects_congr (h : m.Pins pins) {record record' : Document}
    (hsame : ∀ pin ∈ pins, getPath? (m.ofStored record) pin.1.attributePath =
      getPath? (m.ofStored record') pin.1.attributePath)
    (hrecord : m.selects (pins.map Expression.pin) record = true) :
    m.selects (pins.map Expression.pin) record' = true := by
  rw [selects_pins] at hrecord ⊢
  intro pin hpin
  rw [h.recordSegments_eq hpin, ← hsame pin hpin, ← h.recordSegments_eq hpin]
  exact hrecord pin hpin

/-- A record that holds the literals at their paths is found. -/
theorem Pins.selects_of_held (h : m.Pins pins) {record : Document}
    (hheld : ∀ pin ∈ pins, getPath? (m.ofStored record) pin.1.attributePath = some pin.2) :
    m.selects (pins.map Expression.pin) record = true := by
  rw [selects_pins]
  intro pin hpin
  rw [h.recordSegments_eq hpin, hheld pin hpin]
  exact h.reflexive pin hpin

end Model

end TypedStore
