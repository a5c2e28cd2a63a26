import TypedStore.Schema.Path
import TypedStore.Document.Merge
import TypedStore.Value.Display

/-!
Expressions over records: operators applied to attributes, literals and expressions.

An expression is used in two ways. As a condition it is evaluated on a record, where an attribute
that the record lacks is null. As a template it gives the assignments it pins down: each
`attribute eq literal` and `attribute is literal` in it (`toMapping`).
-/

namespace TypedStore

/-- An operand: an attribute of the record, a literal or an expression. -/
inductive Operand (σ : Type) where
  | field (path : FieldPath σ)
  | value (literal : Value)
  | node (left : Operand σ) (operator : Operator) (right : Operand σ)

/-- An operator with its operands. -/
structure Expression (σ : Type) where
  left : Operand σ
  operator : Operator
  right : Operand σ

variable {σ : Type}

/-- The expression as an operand of another. -/
def Operand.expr (e : Expression σ) : Operand σ := .node e.left e.operator e.right

namespace Operand

/-- The expression an operand is, if it is one. -/
def expression? : Operand σ → Option (Expression σ)
  | .node left operator right => some ⟨left, operator, right⟩
  | _ => none

/-- The operand's value in a record. -/
def resolve (record : Document) : Operand σ → Value
  | .field path => (Document.getPath? record path.recordSegments).getD .null
  | .value literal => literal
  | .node left operator right => operator.apply (left.resolve record) (right.resolve record)

/-- What a single node pins down: an attribute that is to be equal to a literal. -/
def pinned : Operand σ → Operator → Operand σ → Document
  | .field path, .eq, .value literal => Document.expand path.attributeKey literal
  | .field path, .is, .value literal => Document.expand path.attributeKey literal
  | _, _, _ => []

/-- The assignments that the operand pins down; those further right win. -/
def toMapping : Operand σ → Document
  | .node left operator right =>
    Document.merge (Document.merge (pinned left operator right) left.toMapping) right.toMapping
  | _ => []

/-- The operand as it is shown. -/
def display : Operand σ → String
  | .field path => path.display
  | .value literal => literal.display
  | .node left operator right =>
    "<" ++ left.display ++ "|" ++ operator.name ++ "|" ++ right.display ++ ">"

/-- Equality of trees; literals must be identical. -/
def same [SchemaGraph σ] : Operand σ → Operand σ → Bool
  | .field p, .field q => p == q
  | .value v, .value w => v.identical w
  | .node l o r, .node l' o' r' => l.same l' && o == o' && r.same r'
  | _, _ => false

end Operand

namespace Expression

/-- The expression's value in a record. -/
def evaluate (e : Expression σ) (record : Document) : Value :=
  e.operator.apply (e.left.resolve record) (e.right.resolve record)

/-- Whether the record satisfies the expression. -/
def satisfiedBy (e : Expression σ) (record : Document) : Bool := (e.evaluate record).truthy

/-- The assignments that the expression pins down. -/
def toMapping (e : Expression σ) : Document := (Operand.expr e).toMapping

/-- The expression as it is shown. -/
def display (e : Expression σ) : String := (Operand.expr e).display

/-- Equality of expression trees. -/
def same [SchemaGraph σ] (e f : Expression σ) : Bool := (Operand.expr e).same (.expr f)

instance [SchemaGraph σ] : BEq (Expression σ) := ⟨same⟩

/-- Both conditions. -/
def and (e f : Expression σ) : Expression σ := ⟨.expr e, .and, .expr f⟩

/-- Either condition. -/
def or (e f : Expression σ) : Expression σ := ⟨.expr e, .or, .expr f⟩

/-- The condition the other way round. -/
def not (e : Expression σ) : Expression σ := ⟨.expr e, .not, .value .null⟩

/-- The expression merged with the operands that follow, grouped to the left. -/
def mergeFrom (operator : Operator) : Expression σ → List (Operand σ) → Except Error (Expression σ)
  | merged, [] => .ok merged
  | merged, operand :: rest =>
    match operand.expression? with
    | some e => mergeFrom operator ⟨.expr merged, operator, .expr e⟩ rest
    | none => .error (.malformedExpression .mergedOperand)

/-- One expression of several, grouped to the left. There must be at least one operand, and each
must be an expression. -/
def merge (operator : Operator) : List (Operand σ) → Except Error (Expression σ)
  | [] => .error (.malformedExpression .emptyMerge)
  | operand :: rest =>
    match operand.expression? with
    | some e => mergeFrom operator e rest
    | none => .error (.malformedExpression .mergedOperand)

/-- An expression whose left operand may not be a literal. -/
def onRecord (left : Operand σ) (operator : Operator) (right : Operand σ) :
    Except Error (Expression σ) :=
  match left with
  | .value literal => .error (.malformedExpression (.literalLeft operator literal.display))
  | left => .ok ⟨left, operator, right⟩

/-- The left operand among the items, the characters or the keys of the right one. -/
def isIn (left right : Operand σ) : Except Error (Expression σ) := onRecord left .contains right

/-- The left operand not among the items, the characters or the keys of the right one. -/
def notIn (left right : Operand σ) : Except Error (Expression σ) := onRecord left .notContains right

/-- The left operand identical to the right one. -/
def is (left right : Operand σ) : Except Error (Expression σ) := onRecord left .is right

/-- The left operand not identical to the right one. -/
def isNot (left right : Operand σ) : Except Error (Expression σ) := onRecord left .isNot right

/-- The left operand continued by the right one. -/
def concat (left right : Operand σ) : Except Error (Expression σ) := onRecord left .concat right

end Expression

end TypedStore
