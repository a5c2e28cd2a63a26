import TypedStore.Expression
import TypedStore.Proofs.Equality
import TypedStore.Proofs.Surviving

/-!
What the value of an expression depends on.

Every operator but `is` and `isNot` makes of normal forms the normal form of what it makes of the
values (`Operator.apply_normal`): it reads integers without their width and documents without their
order, and what it answers depends on no more. Putting arrays together is where the width of the
operands comes through in the answer, so the answers agree up to width as well and not to the bit.
Conditions of one shape with width-equivalent literals therefore find the same records, also after a
trip through JSON, which widens every integer (`Expression.evaluate_widthEquivalent`).

Neither reaches further than that. The scope of a piece of code is compared as a whole, the width of
its integers included, and what JSON has no form for comes back as something else
(`scopes_and_bytes`).
-/

namespace TypedStore

namespace Value

/-! ## What operators read of a value -/

@[simp] theorem integer?_normal (v : Value) : v.normal.integer? = v.integer? := by
  cases v <;> simp [integer?]

@[simp] theorem truthy_normal (v : Value) : v.normal.truthy = v.truthy := by
  cases v with
  | int32 n => simp [truthy, bne, ← Int64.toInt_inj, ← Int32.toInt_inj]
  | _ => simp [truthy]

@[simp] theorem compare?_normal (v w : Value) : v.normal.compare? w.normal = v.compare? w := by
  cases v <;> cases w <;> simp [compare?, number?]

@[simp] theorem normal_ofInt (n : Int) : (ofInt n).normal = ofInt n := by
  unfold ofInt
  split <;> rfl

end Value

namespace Operator

open Value

theorem size_normal (v : Value) : (size v).normal = size v.normal := by
  cases v <;> simp [size]

theorem holds_normal {container item : Value} (hcontainer : container.WellFormed)
    (hitem : item.WellFormed) : holds container.normal item.normal = holds container item := by
  cases container with
  | array items =>
    simp only [normal_array, holds, List.any_map]
    rw [Bool.eq_iff_iff, List.any_eq_true, List.any_eq_true]
    refine exists_congr fun v => and_congr_right fun hv => ?_
    rw [Function.comp_apply, equal_normal (wellFormed_array.mp hcontainer v hv) hitem]
  | _ => cases item <;> simp [holds]

theorem concatenation?_normal (v w : Value) :
    concatenation? v.normal w.normal = (concatenation? v w).map normal := by
  cases v <;> cases w <;> simp [concatenation?]

theorem arithmetic_normal (onInts : Int → Int → Int) (onFloats : Float → Float → Float)
    (v w : Value) :
    (arithmetic onInts onFloats v w).normal = arithmetic onInts onFloats v.normal w.normal := by
  simp only [arithmetic, number?_normal]
  split <;> simp

theorem bitwise_normal (op : Int64 → Int64 → Int64) (v w : Value) :
    (bitwise op v w).normal = bitwise op v.normal w.normal := by
  simp only [bitwise, integer?_normal]
  split <;> simp

theorem quotient_normal (v w : Value) : (quotient v w).normal = quotient v.normal w.normal := by
  simp only [quotient, number?_normal]
  split
  · split <;> simp
  · simp

theorem negation_normal (v : Value) : (negation v).normal = negation v.normal := by
  simp only [negation, number?_normal]
  split <;> simp

/-- Every operator but the two of identity answers without regard to the width of integers and the
order of keys. -/
theorem apply_normal {o : Operator} {v w : Value} (his : o ≠ .is) (hisNot : o ≠ .isNot)
    (hv : v.WellFormed) (hw : w.WellFormed) : (o.apply v w).normal = o.apply v.normal w.normal := by
  cases o with
  | eq | ne => simp [apply, equal_normal hv hw]
  | lt | le | gt | ge => simp [apply]
  | and | or =>
    -- whether bits or truths are joined is settled without the width
    simp only [apply, integer?_normal, truthy_normal]
    split <;> simp
  | xor =>
    cases v with
    | bool a => cases w <;> simp [apply, bitwise, integer?]
    | _ => simp [apply, bitwise_normal]
  | add =>
    simp only [apply, concatenation?_normal]
    cases concatenation? v w <;> simp [arithmetic_normal]
  | sub => exact arithmetic_normal ..
  | div => exact quotient_normal ..
  | neg => exact negation_normal v
  | not => simp [apply]
  | contains | notContains => simp [apply, holds_normal hw hv]
  | is => exact absurd rfl his
  | isNot => exact absurd rfl hisNot
  | concat =>
    simp only [apply, concatenation?_normal]
    cases concatenation? v w <;> simp
  | startsWith | endsWith => cases v <;> cases w <;> simp [apply]
  | len => exact size_normal v

/-- What an operator answers is a scalar, or it is two arrays put together. -/
theorem isScalar_or_concatenation (o : Operator) (v w : Value) :
    (o.apply v w).isScalar = true ∨ concatenation? v w = some (o.apply v w) := by
  have harithmetic (onInts : Int → Int → Int) (onFloats : Float → Float → Float) :
      (arithmetic onInts onFloats v w).isScalar = true := by
    unfold arithmetic
    split
    · unfold ofInt
      split <;> rfl
    · rfl
    · rfl
  cases o with
  | add =>
    cases h : concatenation? v w with
    | none => exact .inl (by simpa [apply, h] using harithmetic _ _)
    | some u => exact .inr (by simp [apply, h])
  | concat =>
    cases h : concatenation? v w with
    | none => exact .inl (by simp [apply, h, isScalar])
    | some u => exact .inr (by simp [apply, h])
  | sub => exact .inl (harithmetic _ _)
  | _ =>
    left
    simp only [apply, quotient, negation, size, bitwise, ofInt]
    repeat' split
    all_goals rfl

theorem apply_wellFormed (o : Operator) {v w : Value} (hv : v.WellFormed) (hw : w.WellFormed) :
    (o.apply v w).WellFormed := by
  rcases isScalar_or_concatenation o v w with hscalar | hconcat
  · exact wellFormed_of_isScalar hscalar
  · cases v <;> cases w <;>
      simp only [concatenation?, reduceCtorEq, Option.some.injEq] at hconcat
    -- two texts, then two arrays
    · rw [← hconcat]
      trivial
    · rw [wellFormed_array] at hv hw
      rw [← hconcat, wellFormed_array]
      intro u hu
      exact (List.mem_append.mp hu).elim (hv u) (hw u)

end Operator

/-! ## Looking up an attribute -/

namespace Value

theorem WellFormed.follow? {v u : Value} (hv : v.WellFormed) {path : List String}
    (h : v.follow? path = some u) : u.WellFormed := by
  induction path generalizing v with
  | nil =>
    cases h
    exact hv
  | cons k rest ih =>
    cases v with
    | document entries =>
      obtain ⟨w, hget, hrest⟩ := Option.bind_eq_some_iff.mp h
      exact ih (hv.get? hget) hrest
    | _ => simp [Value.follow?] at h

theorem follow?_normal {v : Value} (hv : v.WellFormed) (path : List String) :
    v.normal.follow? path = (v.follow? path).map normal := by
  induction path generalizing v with
  | nil => rfl
  | cons k rest ih =>
    cases v with
    | document entries =>
      rw [normal_document, follow?, follow?, get?_sort_normal (wellFormed_document.mp hv).1]
      cases hget : Keyed.get? entries k with
      | none => rfl
      | some w => exact ih (hv.get? hget)
    | _ => simp [follow?]

end Value

theorem Document.getPath?_wellFormed {d : Document} (hd : d.WellFormed) {path : List String}
    {v : Value} (h : getPath? d path = some v) : v.WellFormed := by
  cases path with
  | nil => cases h
  | cons k rest => exact Value.WellFormed.follow? hd h

/-- Documents with one normal form have values with one normal form at the end of each path. -/
theorem Document.getPath?_normal_congr {d e : Document} (hd : d.WellFormed) (he : e.WellFormed)
    (h : (Value.document d).normal = (Value.document e).normal) (path : List String) :
    (getPath? d path).map Value.normal = (getPath? e path).map Value.normal := by
  cases path with
  | nil => rfl
  | cons k rest =>
    rw [getPath?, getPath?, ← Value.follow?_normal hd, ← Value.follow?_normal he, h]

/-! ## Expressions of one shape -/

namespace Operand

variable {σ : Type} {l l' : Operand σ} {record record' : Document}

/-- Every literal lists each key once, at every depth. -/
def WellFormed : Operand σ → Prop
  | .field _ => True
  | .value literal => literal.WellFormed
  | .node left _ right => left.WellFormed ∧ right.WellFormed

/-- Two operands of one shape, without a test of identity, whose literals are width-equivalent. -/
inductive WidthEquivalent : Operand σ → Operand σ → Prop where
  | field (path : FieldPath σ) : WidthEquivalent (.field path) (.field path)
  | value {v w : Value} (h : v.WidthEquivalent w) : WidthEquivalent (.value v) (.value w)
  | node {l l' r r' : Operand σ} {o : Operator} (his : o ≠ .is) (hisNot : o ≠ .isNot)
    (hl : WidthEquivalent l l') (hr : WidthEquivalent r r') :
    WidthEquivalent (.node l o r) (.node l' o r')

theorem WidthEquivalent.wellFormed_iff (h : WidthEquivalent l l') :
    l.WellFormed ↔ l'.WellFormed := by
  induction h with
  | field path => exact Iff.rfl
  | value h => exact h.wellFormed_iff
  | node _ _ _ _ ihl ihr => exact and_congr ihl ihr

/-- An operand that has a partner is one for itself. -/
theorem WidthEquivalent.left (h : WidthEquivalent l l') : WidthEquivalent l l := by
  induction h with
  | field path => exact .field path
  | value _ => exact .value (.refl _)
  | node his hisNot _ _ ihl ihr => exact .node his hisNot ihl ihr

theorem resolve_wellFormed (hrecord : record.WellFormed) (h : l.WellFormed) :
    (l.resolve record).WellFormed := by
  induction l with
  | field path =>
    rw [resolve]
    cases hget : Document.getPath? record path.recordSegments with
    | none => trivial
    | some v => exact Document.getPath?_wellFormed hrecord hget
  | value literal => exact h
  | node left o right ihl ihr => exact o.apply_wellFormed (ihl h.1) (ihr h.2)

/-- Operands of one shape have values with one normal form. -/
theorem resolve_normal_congr (h : WidthEquivalent l l') (hl : l.WellFormed)
    (hrecord : record.WellFormed) (hrecord' : record'.WellFormed)
    (hsame : (Value.document record).normal = (Value.document record').normal) :
    (l.resolve record).normal = (l'.resolve record').normal := by
  induction h with
  | field path =>
    have hpath := Document.getPath?_normal_congr hrecord hrecord' hsame path.recordSegments
    rw [resolve, resolve, ← Option.getD_map Value.normal, hpath, Option.getD_map]
  | value h => exact h.normal_eq hl
  | @node l l' r r' o his hisNot hleft hright ihl ihr =>
    have hl' := hleft.wellFormed_iff.mp hl.1
    have hr' := hright.wellFormed_iff.mp hl.2
    rw [resolve, resolve,
      Operator.apply_normal his hisNot (resolve_wellFormed hrecord hl.1)
        (resolve_wellFormed hrecord hl.2),
      Operator.apply_normal his hisNot (resolve_wellFormed hrecord' hl')
        (resolve_wellFormed hrecord' hr'),
      ihl hl.1, ihr hl.2]

end Operand

namespace Expression

variable {σ : Type}

/-- Expressions of one shape, without a test of identity and with width-equivalent literals, have
width-equivalent values on width-equivalent records, and either both records satisfy them or neither
does. So a record of what survives JSON, which comes back with every integer in 64 bits, satisfies an
expression when it did before. -/
theorem evaluate_widthEquivalent {e e' : Expression σ} {record other : Document}
    (hshape : (Operand.expr e).WidthEquivalent (.expr e')) (he : (Operand.expr e).WellFormed)
    (hrecord : record.WellFormed)
    (hother : (Value.document record).WidthEquivalent (.document other)) :
    (e.evaluate record).WidthEquivalent (e'.evaluate other) ∧
    e.satisfiedBy record = e'.satisfiedBy other ∧
    ∀ f : JsonFormat, f.Lawful → (Value.document record).widened.Survives →
      ∃ imported, f.read? (f.write (.document record)) = some (.document imported) ∧
        (e.evaluate record).WidthEquivalent (e.evaluate imported) ∧
        e.satisfiedBy record = e.satisfiedBy imported := by
  have hvalue := Operand.resolve_wellFormed hrecord he
  have hcongr {e' : Expression σ} {other : Document}
      (hshape : (Operand.expr e).WidthEquivalent (.expr e'))
      (hother : (Value.document record).WidthEquivalent (.document other)) :
      (e.evaluate record).WidthEquivalent (e'.evaluate other) ∧
        e.satisfiedBy record = e'.satisfiedBy other := by
    have hnormal : (e.evaluate record).normal = (e'.evaluate other).normal :=
      Operand.resolve_normal_congr hshape he hrecord (hother.wellFormed_iff.mp hrecord)
        (hother.normal_eq hrecord)
    refine ⟨(Value.widthEquivalent_iff hvalue).mpr hnormal, ?_⟩
    rw [satisfiedBy, satisfiedBy, ← Value.truthy_normal, hnormal, Value.truthy_normal]
  obtain ⟨hequivalent, hsatisfied⟩ := hcongr hshape hother
  refine ⟨hequivalent, hsatisfied, fun f hf hsurvives => ?_⟩
  -- what comes back from JSON is the normal form of the record, up to the order of keys
  obtain ⟨imported, hread, hsorted⟩ := hf.read?_document hsurvives
  refine ⟨imported, hread, hcongr hshape.left ((Value.widthEquivalent_iff hrecord).mpr ?_)⟩
  rw [← Value.widened_sorted (.document imported), hsorted, ← Value.widened_sorted,
    Value.widened_widened]

end Expression

/-! ## Anti-vacuity: one order, asked for twice -/

/-- The lines of an order. -/
def linesPath : FieldPath Unit := { field := ⟨"lines", .array, none, false⟩, owner := "Order" }

/-- The number of an order. -/
def numberPath : FieldPath Unit := { field := ⟨"number", .int, none, false⟩, owner := "Order" }

/-- Orders with an article among their lines and a number up to a limit. -/
def ordersWith (article limit : Value) : Expression Unit :=
  ⟨.node (.value article) .contains (.field linesPath), .and,
    .node (.field numberPath) .le (.value limit)⟩

/-- The order is found by literals of either width, in either order of its keys, and also after it
came back from JSON. -/
theorem orders_found :
    (ordersWith (.int32 2) (.int64 3)).satisfiedBy narrowOrder = true ∧
      (ordersWith (.int64 2) (.int32 3)).satisfiedBy wideOrder = true ∧
      ∃ imported, JsonFormat.extended.read? (JsonFormat.extended.write (.document narrowOrder)) =
          some (.document imported) ∧
        (ordersWith (.int32 2) (.int64 3)).satisfiedBy imported = true := by
  have hsame : (Value.document narrowOrder).WidthEquivalent (.document wideOrder) :=
    (Value.widthEquivalent_iff narrowOrder_wellFormed).mpr
      ((Value.equal_iff narrowOrder_wellFormed wideOrder_wellFormed rfl rfl).mp rfl)
  have hshape : (Operand.expr (ordersWith (.int32 2) (.int64 3))).WidthEquivalent
      (.expr (ordersWith (.int64 2) (.int32 3))) := by
    have hwiden (n : Int32) : (Value.int32 n).WidthEquivalent (.int64 n.toInt64) :=
      .rel _ _ (.widen n)
    refine .node (by decide) (by decide) ?_ ?_
    · exact .node (by decide) (by decide) (.value (hwiden 2)) (.field linesPath)
    · exact .node (by decide) (by decide) (.field numberPath) (.value (hwiden 3).symm)
  have hsurvives : (Value.document narrowOrder).widened.Survives := by
    refine .document (by decide) ?_
    intro e he
    simp only [narrowOrder, Value.widenedEntries, List.mem_cons, List.not_mem_nil, or_false] at he
    rcases he with rfl | rfl
    · exact .int64 _
    · refine .array ?_
      intro v hv
      simp only [Value.widenedItems, List.mem_cons, List.not_mem_nil, or_false] at hv
      rcases hv with rfl | rfl
      · exact .int64 _
      · exact .string _
  have hfound : (ordersWith (.int32 2) (.int64 3)).satisfiedBy narrowOrder = true := rfl
  obtain ⟨-, hother, himported⟩ := Expression.evaluate_widthEquivalent hshape
    ⟨⟨trivial, trivial⟩, trivial, trivial⟩ narrowOrder_wellFormed hsame
  obtain ⟨imported, hread, -, hsatisfied⟩ := himported _ JsonFormat.extended_lawful hsurvives
  exact ⟨hfound, hother ▸ hfound, imported, hread, hsatisfied ▸ hfound⟩

/-- The note that goes with an order. -/
def notePath : FieldPath Unit := { field := ⟨"note", .any, none, false⟩, owner := "Order" }

/-- A piece of code that counts up from a number. -/
def counter (first : Value) : Value := .codeWithScope "first++" [("first", first)]

/-- The scopes of two pieces of code are width-equivalent, and yet an order that has one of them for
its note is not found by the other. Where the note has no bytes, an order with a note is not found
any more when it came back from JSON. -/
theorem scopes_and_bytes :
    ((Value.document [("first", .int32 1)]).WidthEquivalent (.document [("first", .int64 1)]) ∧
      (⟨.field notePath, .eq, .value (counter (.int32 1))⟩ : Expression Unit).satisfiedBy
        [("note", counter (.int32 1))] = true ∧
      (⟨.field notePath, .eq, .value (counter (.int32 1))⟩ : Expression Unit).satisfiedBy
        [("note", counter (.int64 1))] = false) ∧
    ∃ imported,
      JsonFormat.extended.read? (JsonFormat.extended.write
        (.document [("note", .special (.binary 0 []))])) = some (.document imported) ∧
      (⟨.node (.field notePath) .not (.value .null), .not, .value .null⟩ :
        Expression Unit).satisfiedBy [("note", .special (.binary 0 []))] = true ∧
      (⟨.node (.field notePath) .not (.value .null), .not, .value .null⟩ :
        Expression Unit).satisfiedBy imported = false := by
  refine ⟨⟨?_, rfl, rfl⟩, [("note", .array [])], ?_, rfl, rfl⟩
  · exact .rel _ _ (.entry [] "first" [] (.widen 1))
  · simp [JsonFormat.extended, Value.sorted, Value.sortedEntries, Keyed.sort, Json.ofValue,
      Json.ofEntries, Json.ofSpecial, Json.read?, Json.readMembers?, Json.readItems?]

end TypedStore
