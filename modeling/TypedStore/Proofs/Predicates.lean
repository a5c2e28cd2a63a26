import TypedStore.Proofs.Conjunction

/-!
Conditions read as formulas.

Which work a connective does is settled by its operands when they are there: two integers are joined
bit by bit, anything else by truth. Comparisons and the other tests answer with booleans, and
booleans lead to booleans, so no two integers ever meet in an expression that is built from tests,
and its value is the formula it looks like (`Operand.resolve_predicate`).

With arbitrary operands `or` and `not` are still what they are called: two integers have a bit
together exactly when one of them has a bit (`Operator.truthy_or`). `xor` is not, and neither is
`and`, whose gap `leadingBits` describes.
-/

namespace TypedStore

namespace Operator

/-- Whether the operator answers every pair of operands with a boolean. -/
def isTest : Operator → Bool
  | .eq | .ne | .lt | .le | .gt | .ge | .not | .contains | .notContains | .is | .isNot
  | .startsWith | .endsWith => true
  | _ => false

/-- A test answers with its truth. -/
theorem apply_of_isTest {o : Operator} (h : o.isTest = true) (v w : Value) :
    o.apply v w = .bool (o.apply v w).truthy := by
  cases o with
  | and | or | xor | add | sub | div | neg | concat | len => cases h
  | startsWith | endsWith => cases v <;> cases w <;> rfl
  | _ => rfl

theorem truthy_or (v w : Value) : (Operator.or.apply v w).truthy = (v.truthy || w.truthy) := by
  cases hv : v.integer? with
  | none => simp [apply, hv]
  | some a =>
    cases hw : w.integer? with
    | none => simp [apply, hv, hw]
    | some b =>
      have hbits : Operator.or.apply v w = .int64 (a ||| b) := by simp [apply, hv, hw]
      rw [Bool.eq_iff_iff, Bool.or_eq_true, hbits, Value.truthy_of_integer? rfl,
        Value.truthy_of_integer? hv, Value.truthy_of_integer? hw, ne_eq, Int64.or_eq_zero_iff,
        not_and_or]

theorem truthy_not (v w : Value) : (Operator.not.apply v w).truthy = !v.truthy := rfl

/-- From any value on, `or` asks whether one of the values is true. -/
theorem truthy_foldl_or (v : Value) (rest : List Value) :
    (rest.foldl Operator.or.apply v).truthy = true ↔ ∃ w ∈ v :: rest, w.truthy = true := by
  induction rest generalizing v with
  | nil => simp
  | cons w rest ih =>
    rw [List.foldl_cons, ih]
    simp only [List.mem_cons, exists_eq_or_imp, truthy_or, Bool.or_eq_true, or_assoc]

end Operator

namespace Operand

variable {σ : Type}

/-- A test of any two operands, or predicates under a connective. -/
inductive IsPredicate : Operand σ → Prop where
  | test (l : Operand σ) {o : Operator} (h : o.isTest = true) (r : Operand σ) :
    IsPredicate (.node l o r)
  | and {l r : Operand σ} (hl : IsPredicate l) (hr : IsPredicate r) : IsPredicate (.node l .and r)
  | or {l r : Operand σ} (hl : IsPredicate l) (hr : IsPredicate r) : IsPredicate (.node l .or r)
  | xor {l r : Operand σ} (hl : IsPredicate l) (hr : IsPredicate r) : IsPredicate (.node l .xor r)

/-- The operand read as a formula over the truths of what is no connective. -/
def reading (record : Document) : Operand σ → Bool
  | .node l .and r => l.reading record && r.reading record
  | .node l .or r => l.reading record || r.reading record
  | .node l .xor r => l.reading record ^^ r.reading record
  | .node l .not _ => !(l.resolve record).truthy
  | operand => (operand.resolve record).truthy

theorem reading_of_isTest (l : Operand σ) {o : Operator} (h : o.isTest = true) (r : Operand σ)
    (record : Document) :
    (node l o r).reading record = (o.apply (l.resolve record) (r.resolve record)).truthy := by
  cases o <;> first | rfl | cases h

/-- The value of a predicate is what it says. -/
theorem resolve_predicate {operand : Operand σ} (h : operand.IsPredicate) (record : Document) :
    operand.resolve record = .bool (operand.reading record) := by
  induction h with
  | test l h r => rw [resolve, Operator.apply_of_isTest h, reading_of_isTest l h]
  | and hl hr ihl ihr | or hl hr ihl ihr | xor hl hr ihl ihr =>
    -- the operands are booleans by now, no integers
    rw [resolve, ihl, ihr]
    rfl

end Operand

namespace Expression

variable {σ : Type}

/-- A record satisfies expressions joined by `or` when it satisfies one of them. -/
theorem satisfiedBy_joined_or (e : Expression σ) (rest : List (Expression σ))
    (record : Document) :
    (joined .or e rest).satisfiedBy record = true ↔
      ∃ f ∈ e :: rest, f.satisfiedBy record = true := by
  rw [satisfiedBy, evaluate_joined, Operator.truthy_foldl_or]
  simp [satisfiedBy]

/-- The value of a predicate is the boolean that is got by reading its operators as connectives, and
that of its negation the other one. Whatever the values of two expressions are, a record satisfies
them joined by `or` when it satisfies one of them, and a negation when it does not satisfy what is
negated. So it satisfies any list of expressions merged by `or` when it satisfies one of them. -/
theorem reads_as_formula {e : Expression σ} (he : (Operand.expr e).IsPredicate)
    (f g : Expression σ) {filters : List (Expression σ)} (hne : filters ≠ []) (record : Document) :
    e.evaluate record = .bool ((Operand.expr e).reading record) ∧
    e.not.evaluate record = .bool (!(Operand.expr e).reading record) ∧
    (f.or g).satisfiedBy record = (f.satisfiedBy record || g.satisfiedBy record) ∧
    f.not.satisfiedBy record = !f.satisfiedBy record ∧
    ∃ merged, merge .or (filters.map .expr) = .ok merged ∧
      (merged.satisfiedBy record = true ↔ ∃ f ∈ filters, f.satisfiedBy record = true) := by
  have hvalue : e.evaluate record = .bool ((Operand.expr e).reading record) :=
    Operand.resolve_predicate he record
  refine ⟨hvalue, ?negation, ?either, ?neither, ?merged⟩
  case negation =>
    show Operator.not.apply (e.evaluate record) .null = _
    rw [hvalue]
    rfl
  case either => exact Operator.truthy_or ..
  case neither => exact Operator.truthy_not ..
  case merged =>
    obtain ⟨f, rest, rfl⟩ := List.exists_cons_of_ne_nil hne
    exact ⟨joined .or f rest, merge_eq_joined .or f rest, satisfiedBy_joined_or f rest record⟩

end Expression

/-! ## Anti-vacuity: bits below a negation -/

/-- Whether the category has its title. -/
def titledA : Expression CategorySchema := ⟨.field titlePath, .eq, .value (.string "a")⟩

/-- The bits that the length of a title has in common with two. -/
def lengthBits : Expression CategorySchema :=
  ⟨.node (.field titlePath) .len (.value .null), .and, .value (.int64 2)⟩

/-- A title of length one has no bit in common with two, so the negation is true of the category,
and it is for its title that the category satisfies the one or the other. -/
theorem lengthBits_negated :
    (titledA.and lengthBits.not).evaluate [("title", .string "a")] = .bool true ∧
      lengthBits.satisfiedBy [("title", .string "a")] = false ∧
      ∃ merged, Expression.merge .or [.expr lengthBits, .expr titledA] = .ok merged ∧
        merged.satisfiedBy [("title", .string "a")] = true := by
  have htitled : titledA.satisfiedBy [("title", .string "a")] = true := rfl
  have hpredicate : (Operand.expr (titledA.and lengthBits.not)).IsPredicate :=
    .and (.test _ rfl _) (.test _ rfl _)
  obtain ⟨hvalue, -, -, -, merged, hmerged, hsatisfied⟩ :=
    Expression.reads_as_formula hpredicate titledA lengthBits
      (List.cons_ne_nil lengthBits [titledA]) [("title", .string "a")]
  exact ⟨hvalue, rfl, merged, hmerged, hsatisfied.mpr ⟨titledA, by simp, htitled⟩⟩

end TypedStore
