import TypedStore.Value.Comparison

/-!
The operators of expressions and what each makes of its operands.

Every operator answers for every pair of values. The comparisons, `contains`, `is`, `startsWith`,
`endsWith` and `not` answer with a boolean; arithmetic and `concat` answer null where the operands
do not fit. `and` and `or` of two integers work bit by bit, of anything else on truth.
-/

namespace TypedStore

/-- The operator of an expression. `neg`, `not` and `len` look at their left operand only. -/
inductive Operator where
  | eq | ne | lt | le | gt | ge
  | and | or | xor
  | add | sub | div | neg | not
  | contains | notContains | is | isNot
  | concat | startsWith | endsWith | len
  deriving DecidableEq, Repr

namespace Operator

/-- The name an operator is written with. -/
def name : Operator → String
  | .eq => "eq"
  | .ne => "ne"
  | .lt => "lt"
  | .le => "le"
  | .gt => "gt"
  | .ge => "ge"
  | .and => "and"
  | .or => "or"
  | .xor => "xor"
  | .add => "add"
  | .sub => "sub"
  | .div => "truediv"
  | .neg => "neg"
  | .not => "not"
  | .contains => "contains"
  | .notContains => "not_contains"
  | .is => "is"
  | .isNot => "is_not"
  | .concat => "concat"
  | .startsWith => "startswith"
  | .endsWith => "endswith"
  | .len => "len"

/-- All operators. -/
def all : List Operator :=
  [eq, ne, lt, le, gt, ge, and, or, xor, add, sub, div, neg, not,
    contains, notContains, is, isNot, concat, startsWith, endsWith, len]

/-- The operator written with a name. -/
def ofName? (text : String) : Option Operator := all.find? fun o => o.name == text

theorem ofName?_name (o : Operator) : ofName? o.name = some o := by
  cases o <;> decide

/-- Whether the characters occur in a row in the text. -/
def occursIn (needle : List Char) : List Char → Bool
  | [] => needle.isEmpty
  | c :: rest => needle.isPrefixOf (c :: rest) || occursIn needle rest

/-- Whether a container holds an item: an array an equal value, a text a part of it, a document a
key. -/
def holds (container item : Value) : Bool :=
  match container, item with
  | .array items, v => items.any fun w => w.equal v
  | .string text, .string part => occursIn part.toList text.toList
  | .document entries, .string key => Keyed.contains entries key
  | _, _ => false

/-- Bitwise operation on two integers, of either width. -/
def bitwise (op : Int64 → Int64 → Int64) (v w : Value) : Value :=
  match v.integer?, w.integer? with
  | some a, some b => .int64 (op a b)
  | _, _ => .null

/-- Two integers give the exact integer, or null when it leaves the 64-bit range; other numbers
meet as doubles. -/
def arithmetic (onInts : Int → Int → Int) (onFloats : Float → Float → Float) (v w : Value) :
    Value :=
  match v.number?, w.number? with
  | some (.int a), some (.int b) => .ofInt (onInts a.toInt b.toInt)
  | some a, some b => .double (onFloats a.toFloat b.toFloat)
  | _, _ => .null

/-- Texts and arrays put one after the other. -/
def concatenation? (v w : Value) : Option Value :=
  match v, w with
  | .string a, .string b => some (.string (a ++ b))
  | .array a, .array b => some (.array (a ++ b))
  | _, _ => none

/-- The quotient as a double, even of integers; none by zero. -/
def quotient (v w : Value) : Value :=
  match v.number?, w.number? with
  | some a, some b => if b.toFloat == 0.0 then .null else .double (a.toFloat / b.toFloat)
  | _, _ => .null

/-- The number with its sign changed. -/
def negation (v : Value) : Value :=
  match v.number? with
  | some (.int n) => .ofInt (-n.toInt)
  | some (.float x) => .double (-x)
  | none => .null

/-- How many characters, items or keys there are. -/
def size (v : Value) : Value :=
  match v with
  | .string text => .int64 (Int64.ofNat text.length)
  | .array items => .int64 (Int64.ofNat items.length)
  | .document entries => .int64 (Int64.ofNat entries.length)
  | _ => .null

/-- What the operator makes of a left and a right value. -/
def apply (o : Operator) (v w : Value) : Value :=
  match o with
  | .eq => .bool (v.equal w)
  | .ne => .bool (!v.equal w)
  | .lt => .bool (v.compare? w == some .lt)
  | .le => .bool (v.compare? w == some .lt || v.compare? w == some .eq)
  | .gt => .bool (v.compare? w == some .gt)
  | .ge => .bool (v.compare? w == some .gt || v.compare? w == some .eq)
  | .and =>
    match v.integer?, w.integer? with
    | some a, some b => .int64 (a &&& b)
    | _, _ => .bool (v.truthy && w.truthy)
  | .or =>
    match v.integer?, w.integer? with
    | some a, some b => .int64 (a ||| b)
    | _, _ => .bool (v.truthy || w.truthy)
  | .xor =>
    match v, w with
    | .bool a, .bool b => .bool (a ^^ b)
    | v, w => bitwise (· ^^^ ·) v w
  | .add => (concatenation? v w).getD (arithmetic (· + ·) (· + ·) v w)
  | .sub => arithmetic (· - ·) (· - ·) v w
  | .div => quotient v w
  | .neg => negation v
  | .not => .bool (!v.truthy)
  | .contains => .bool (holds w v)
  | .notContains => .bool (!holds w v)
  | .is => .bool (v.identical w)
  | .isNot => .bool (!v.identical w)
  | .concat => (concatenation? v w).getD .null
  | .startsWith =>
    match v, w with
    | .string text, .string start => .bool (start.toList.isPrefixOf text.toList)
    | _, _ => .bool false
  | .endsWith =>
    match v, w with
    | .string text, .string ending => .bool (ending.toList.isSuffixOf text.toList)
    | _, _ => .bool false
  | .len => size v

end Operator

end TypedStore
