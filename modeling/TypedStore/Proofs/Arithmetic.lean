import Mathlib.Data.Option.NAry
import TypedStore.Proofs.Evaluation

/-!
Integer arithmetic in expressions.

`total?` is what a tree of sums, differences and negations comes to in the integers, where there is
no greatest and no least. The evaluator has 64 bits at every node of the tree. A node that does not
fit is null, and null stays null through all three operators (`Computes.apply_null_left`,
`Computes.apply_null_right`, `negation_null`), so nothing ever wraps and nothing comes back into
range.

The tree is `Sound` when the record has every attribute in it and 64 bits hold what each of its
parts comes to. By induction over the tree the evaluator finds the exact integer where it is sound,
and null where it is not (`IntegerTree.settled`).
-/

namespace TypedStore

namespace Value

/-- 64 bits hold the integer. -/
def InRange (n : Int) : Prop := minInteger ≤ n ∧ n ≤ maxInteger

instance (n : Int) : Decidable (InRange n) := inferInstanceAs (Decidable (_ ∧ _))

theorem inRange_toInt (n : Int64) : InRange n.toInt := by
  have hlt : n.toInt < maxInteger + 1 := n.toInt_lt
  exact ⟨n.le_toInt, Int.le_of_lt_add_one hlt⟩

theorem exists_int64_of_inRange {n : Int} (h : InRange n) :
    ∃ m : Int64, ofInt n = .int64 m ∧ m.toInt = n := by
  refine ⟨Int64.ofInt n, if_pos h, ?_⟩
  exact Int64.toInt_ofInt_of_le h.1 (Int.lt_add_one_of_le h.2)

theorem ofInt_of_not_inRange {n : Int} (h : ¬ InRange n) : ofInt n = .null := if_neg h

theorem number?_of_integer? {v : Value} {n : Int64} (h : v.integer? = some n) :
    v.number? = some (.int n) := by
  cases v with
  | int32 _ | int64 _ =>
    cases h
    rfl
  | _ => cases h

end Value

namespace Operator

open Value

variable {v w : Value} {a b : Int64}

/-! ## One operator -/

theorem concatenation?_of_integer? (h : v.integer? = some a) (w : Value) :
    concatenation? v w = none := by
  cases v with
  | int32 _ | int64 _ => rfl
  | _ => cases h

theorem concatenation?_null (v : Value) : concatenation? v .null = none := by
  cases v <;> rfl

theorem arithmetic_of_integer? (onInts : Int → Int → Int) (onFloats : Float → Float → Float)
    (hv : v.integer? = some a) (hw : w.integer? = some b) :
    arithmetic onInts onFloats v w = .ofInt (onInts a.toInt b.toInt) := by
  rw [arithmetic, number?_of_integer? hv, number?_of_integer? hw]

theorem arithmetic_null (onInts : Int → Int → Int) (onFloats : Float → Float → Float) (v : Value) :
    arithmetic onInts onFloats v .null = .null := by
  have hnone : Value.null.number? = none := rfl
  rw [arithmetic, hnone]
  rcases v.number? with _ | _ | _ <;> rfl

theorem negation_of_integer? (hv : v.integer? = some a) : negation v = .ofInt (-a.toInt) := by
  rw [negation, number?_of_integer? hv]

theorem negation_null : negation .null = .null := rfl

/-- The operators that make one integer of two, and what they do to exact integers. -/
inductive Computes : Operator → (Int → Int → Int) → Prop where
  | add : Computes .add (· + ·)
  | sub : Computes .sub (· - ·)

variable {o : Operator} {op : Int → Int → Int}

/-- Two integers, whatever their widths, make the exact integer if there is room for it. -/
theorem Computes.apply_eq (h : Computes o op) (hv : v.integer? = some a)
    (hw : w.integer? = some b) : o.apply v w = .ofInt (op a.toInt b.toInt) := by
  cases h with
  | add =>
    rw [apply, concatenation?_of_integer? hv, Option.getD_none]
    exact arithmetic_of_integer? _ _ hv hw
  | sub => exact arithmetic_of_integer? _ _ hv hw

theorem Computes.apply_null_left (h : Computes o op) (w : Value) : o.apply .null w = .null := by
  cases h <;> rfl

theorem Computes.apply_null_right (h : Computes o op) (v : Value) : o.apply v .null = .null := by
  cases h with
  | add =>
    rw [apply, concatenation?_null, Option.getD_none]
    exact arithmetic_null ..
  | sub => exact arithmetic_null ..

/-- An operator answers with no narrow integer: putting together makes texts and arrays, and
whatever counts or computes makes wide ones. -/
theorem apply_ne_int32 (o : Operator) (v w : Value) (n : Int32) : o.apply v w ≠ .int32 n := by
  have hofInt (m : Int) : ofInt m ≠ .int32 n := by
    unfold ofInt
    split <;> simp
  have hconcat : concatenation? v w ≠ some (.int32 n) := by
    unfold concatenation?
    split <;> simp
  cases o with
  | add | concat =>
    simp only [apply, arithmetic]
    cases hc : concatenation? v w with
    | none =>
      rw [Option.getD_none]
      repeat' split
      all_goals simp [hofInt]
    | some u =>
      rw [hc] at hconcat
      simpa using hconcat
  | _ =>
    simp only [apply, quotient, negation, size, bitwise, arithmetic]
    repeat' split
    all_goals simp [hofInt]

theorem apply_eq_int64 {n : Int64} (h : (o.apply v w).integer? = some n) :
    o.apply v w = .int64 n := by
  have hnarrow := apply_ne_int32 o v w
  cases hu : o.apply v w with
  | int64 m =>
    rw [hu] at h
    exact congrArg Value.int64 (Option.some.inj h)
  | int32 m => exact absurd hu (hnarrow m)
  | _ =>
    rw [hu] at h
    cases h

end Operator

/-! ## A tree of operators -/

namespace Operand

open Operator (Computes)
open Value (InRange)

variable {σ : Type} {record : Document} {operand l r : Operand σ} {o : Operator}
  {op : Int → Int → Int}

/-- A tree of sums, differences and negations over integers and over attributes that hold an
integer or are missing from the record. What stands to the right of a negation is not looked at. -/
inductive IntegerTree (record : Document) : Operand σ → Prop where
  | literal {v : Value} {n : Int64} (h : v.integer? = some n) : IntegerTree record (.value v)
  | held {path : FieldPath σ} {v : Value} {n : Int64}
    (hv : Document.getPath? record path.recordSegments = some v) (h : v.integer? = some n) :
    IntegerTree record (.field path)
  | missing {path : FieldPath σ} (h : Document.getPath? record path.recordSegments = none) :
    IntegerTree record (.field path)
  | add {l r : Operand σ} (hl : IntegerTree record l) (hr : IntegerTree record r) :
    IntegerTree record (.node l .add r)
  | sub {l r : Operand σ} (hl : IntegerTree record l) (hr : IntegerTree record r) :
    IntegerTree record (.node l .sub r)
  | neg {l : Operand σ} (hl : IntegerTree record l) (r : Operand σ) :
    IntegerTree record (.node l .neg r)

/-- What the tree comes to in the integers, unless an attribute is missing. -/
def total? (record : Document) : Operand σ → Option Int
  | .value literal => literal.integer?.map Int64.toInt
  | .field path =>
    ((Document.getPath? record path.recordSegments).bind Value.integer?).map Int64.toInt
  | .node l .add r => Option.map₂ (· + ·) (l.total? record) (r.total? record)
  | .node l .sub r => Option.map₂ (· - ·) (l.total? record) (r.total? record)
  | .node l .neg _ => (l.total? record).map (- ·)
  | .node _ _ _ => none

/-- The operand and the operands that its value is made of. -/
def parts : Operand σ → List (Operand σ)
  | .node l .neg r => .node l .neg r :: l.parts
  | .node l o r => .node l o r :: (l.parts ++ r.parts)
  | leaf => [leaf]

/-- The record has the attribute, if the operand is one, and 64 bits hold what it comes to. -/
structure Representable (record : Document) (operand : Operand σ) : Prop where
  present : ∀ path, operand = .field path →
    (Document.getPath? record path.recordSegments).isSome
  inRange : ∀ n, operand.total? record = some n → InRange n

/-- No attribute in the tree is missing, and no part of it comes to more than 64 bits hold. -/
def Sound (record : Document) (operand : Operand σ) : Prop :=
  ∀ part ∈ operand.parts, part.Representable record

theorem total?_computes (h : Computes o op) :
    (node l o r).total? record = Option.map₂ op (l.total? record) (r.total? record) := by
  cases h <;> rfl

theorem parts_computes (h : Computes o op) :
    (node l o r).parts = .node l o r :: (l.parts ++ r.parts) := by
  cases h <;> rfl

theorem representable_node_iff {n : Int} (h : (node l o r).total? record = some n) :
    (node l o r).Representable record ↔ InRange n := by
  constructor
  · intro hnode
    exact hnode.inRange n h
  · intro hn
    refine ⟨nofun, fun m hm => ?_⟩
    rw [h] at hm
    exact Option.some.inj hm ▸ hn

theorem sound_computes_iff (h : Computes o op) :
    (node l o r).Sound record ↔
      (node l o r).Representable record ∧ l.Sound record ∧ r.Sound record := by
  rw [Sound, parts_computes h, List.forall_mem_cons, List.forall_mem_append]
  rfl

theorem sound_neg_iff :
    (node l .neg r).Sound record ↔ (node l .neg r).Representable record ∧ l.Sound record :=
  List.forall_mem_cons

theorem total?_literal {v : Value} {n : Int64} (h : v.integer? = some n) :
    (value v : Operand σ).total? record = some n.toInt := by
  rw [total?, h, Option.map_some]

theorem total?_held {path : FieldPath σ} {v : Value} {n : Int64}
    (hv : Document.getPath? record path.recordSegments = some v) (h : v.integer? = some n) :
    (field path).total? record = some n.toInt := by
  rw [total?, hv, Option.bind_some, h, Option.map_some]

theorem sound_leaf {n : Int64} (hparts : operand.parts = [operand])
    (hpresent : ∀ path, operand = .field path →
      (Document.getPath? record path.recordSegments).isSome)
    (htotal : operand.total? record = some n.toInt) : operand.Sound record := by
  rw [Sound, hparts, List.forall_mem_singleton]
  refine ⟨hpresent, fun m hm => ?_⟩
  rw [htotal] at hm
  exact Option.some.inj hm ▸ Value.inRange_toInt n

theorem sound_literal {v : Value} {n : Int64} (h : v.integer? = some n) :
    (value v : Operand σ).Sound record :=
  sound_leaf rfl nofun (total?_literal h)

theorem sound_held {path : FieldPath σ} {v : Value} {n : Int64}
    (hv : Document.getPath? record path.recordSegments = some v) (h : v.integer? = some n) :
    (field path).Sound record := by
  refine sound_leaf rfl ?_ (total?_held hv h)
  rintro _ ⟨⟩
  rw [hv]
  rfl

theorem not_sound_missing {path : FieldPath σ}
    (h : Document.getPath? record path.recordSegments = none) : ¬ (field path).Sound record := by
  intro hsound
  have hpresent := (hsound (.field path) (List.mem_singleton_self _)).present path rfl
  rw [h] at hpresent
  cases hpresent

/-! ## What the evaluator finds -/

/-- The operand's value is its exact integer if it is sound, and null if it is not. -/
structure Settled (record : Document) (operand : Operand σ) : Prop where
  sound : operand.Sound record → ∃ n : Int64, (operand.resolve record).integer? = some n ∧
    operand.total? record = some n.toInt
  unsound : ¬ operand.Sound record → operand.resolve record = .null

namespace Settled

theorem of_integer? {n : Int64} (hvalue : (operand.resolve record).integer? = some n)
    (htotal : operand.total? record = some n.toInt) (hsound : operand.Sound record) :
    Settled record operand where
  sound _ := ⟨n, hvalue, htotal⟩
  unsound hunsound := absurd hsound hunsound

theorem of_null (hvalue : operand.resolve record = .null) (hunsound : ¬ operand.Sound record) :
    Settled record operand where
  sound hsound := absurd hsound hunsound
  unsound _ := hvalue

/-- A node over sound operands is settled by its own integer. -/
theorem of_ofInt {n : Int} (hvalue : operand.resolve record = .ofInt n)
    (htotal : operand.total? record = some n) (hsound : operand.Sound record ↔ InRange n) :
    Settled record operand := by
  by_cases hn : InRange n
  · obtain ⟨m, hm, rfl⟩ := Value.exists_int64_of_inRange hn
    refine of_integer? ?_ htotal (hsound.mpr hn)
    rw [hvalue, hm]
    rfl
  · refine of_null ?_ (mt hsound.mp hn)
    rw [hvalue, Value.ofInt_of_not_inRange hn]

theorem computes (h : Computes o op) (hl : Settled record l) (hr : Settled record r) :
    Settled record (.node l o r) := by
  by_cases hls : l.Sound record
  · by_cases hrs : r.Sound record
    · obtain ⟨a, ha, hla⟩ := hl.sound hls
      obtain ⟨b, hb, hrb⟩ := hr.sound hrs
      have htotal : (node l o r).total? record = some (op a.toInt b.toInt) := by
        rw [total?_computes h, hla, hrb, Option.map₂_some_some]
      refine of_ofInt (h.apply_eq ha hb) htotal ?_
      rw [sound_computes_iff h, representable_node_iff htotal]
      exact and_iff_left ⟨hls, hrs⟩
    · refine of_null ?_ fun hs => hrs ((sound_computes_iff h).mp hs).2.2
      rw [resolve, hr.unsound hrs]
      exact h.apply_null_right _
  · refine of_null ?_ fun hs => hls ((sound_computes_iff h).mp hs).2.1
    rw [resolve, hl.unsound hls]
    exact h.apply_null_left _

theorem neg (hl : Settled record l) (r : Operand σ) : Settled record (.node l .neg r) := by
  by_cases hls : l.Sound record
  · obtain ⟨a, ha, hla⟩ := hl.sound hls
    have htotal : (node l .neg r).total? record = some (-a.toInt) := by
      rw [total?, hla, Option.map_some]
    refine of_ofInt (Operator.negation_of_integer? ha) htotal ?_
    rw [sound_neg_iff, representable_node_iff htotal]
    exact and_iff_left hls
  · refine of_null ?_ fun hs => hls (sound_neg_iff.mp hs).2
    rw [resolve, hl.unsound hls]
    exact Operator.negation_null

end Settled

/-- Every tree is settled. The induction is over the tree: a leaf is sound unless it is missing, and
above an unsound operand all is null. -/
theorem IntegerTree.settled (h : operand.IntegerTree record) : Settled record operand := by
  induction h with
  | literal h => exact .of_integer? h (total?_literal h) (sound_literal h)
  | @held path v n hv h =>
    have hvalue : (Operand.field path).resolve record = v := by
      rw [resolve, hv, Option.getD_some]
    exact .of_integer? (hvalue ▸ h) (total?_held hv h) (sound_held hv h)
  | missing h =>
    refine .of_null ?_ (not_sound_missing h)
    rw [resolve, h, Option.getD_none]
  | add _ _ ihl ihr => exact .computes .add ihl ihr
  | sub _ _ ihl ihr => exact .computes .sub ihl ihr
  | neg _ r ihl => exact .neg ihl r

end Operand

namespace Expression

variable {σ : Type}

/-- A tree of sums, differences and negations over integers of either width and over attributes that
hold an integer or are missing: its value is the exact integer, in 64 bits, if no attribute is
missing and 64 bits hold the exact integer of every part of the tree, and it is null in every other
case, also where they would hold what the whole tree comes to. -/
theorem evaluate_exact_or_null {e : Expression σ} {record : Document}
    (h : (Operand.expr e).IntegerTree record) :
    ((Operand.expr e).Sound record → ∃ n : Int64,
      (Operand.expr e).total? record = some n.toInt ∧ e.evaluate record = .int64 n) ∧
    (¬ (Operand.expr e).Sound record → e.evaluate record = .null) := by
  obtain ⟨hexact, hnull⟩ := h.settled
  refine ⟨fun hsound => ?_, hnull⟩
  obtain ⟨n, hvalue, hn⟩ := hexact hsound
  exact ⟨n, hn, Operator.apply_eq_int64 hvalue⟩

end Expression

/-! ## Anti-vacuity: there and back -/

/-- One more than the number of an order, less one. -/
def numberThereAndBack : Expression Unit :=
  ⟨.node (.field numberPath) .add (.value (.int32 1)), .sub, .value (.int64 1)⟩

theorem numberThereAndBack_integerTree (n : Int64) :
    (Operand.expr numberThereAndBack).IntegerTree [("number", .int64 n)] :=
  .sub (.add (.held rfl rfl) (.literal rfl)) (.literal rfl)

/-- Of the number seven it makes seven, and of the greatest one null, though that is what it comes
to: there is no room for one more on the way. -/
theorem number_thereAndBack :
    numberThereAndBack.evaluate [("number", .int64 7)] = .int64 7 ∧
      (Operand.expr numberThereAndBack).total? [("number", .int64 9223372036854775807)] =
        some Value.maxInteger ∧
      numberThereAndBack.evaluate [("number", .int64 9223372036854775807)] = .null := by
  obtain ⟨hexact, -⟩ := Expression.evaluate_exact_or_null (numberThereAndBack_integerTree 7)
  obtain ⟨-, hnull⟩ :=
    Expression.evaluate_exact_or_null (numberThereAndBack_integerTree 9223372036854775807)
  refine ⟨?_, rfl, hnull fun hsound => ?_⟩
  · have hsound : (Operand.expr numberThereAndBack).Sound [("number", .int64 7)] := by
      refine (Operand.sound_computes_iff .sub).mpr ⟨?_, ?_, Operand.sound_literal rfl⟩
      · exact (Operand.representable_node_iff (n := 7) rfl).mpr (by decide)
      · refine (Operand.sound_computes_iff .add).mpr
          ⟨?_, Operand.sound_held rfl rfl, Operand.sound_literal rfl⟩
        exact (Operand.representable_node_iff (n := 8) rfl).mpr (by decide)
    obtain ⟨n, hn, hvalue⟩ := hexact hsound
    have hseven : n = 7 := Int64.toInt_inj.mp (Option.some.inj hn).symm
    rw [hvalue, hseven]
  · have hthere := ((Operand.sound_computes_iff .sub).mp hsound).2.1
    have hroom := ((Operand.sound_computes_iff .add).mp hthere).1
    exact absurd (hroom.inRange 9223372036854775808 rfl) (by decide)

end TypedStore
