import Mathlib.Data.List.Induction
import Mathlib.Logic.Relation
import TypedStore.Proofs.Conjunction
import TypedStore.Proofs.DeepMerge

/-!
Expressions as templates: the document that an expression pins down.

Each `attribute eq literal` and each `attribute is literal` of a tree is a pin (`Operand.pins`). The
template is to hold each literal at the path of its attribute and nothing else: it `Collects` the
pins. So it does where they are `Separable`: where no path begins another, and pins for one
attribute have no documents that would be merged. What is collected is kept by a merge of two
templates (`Collects.merge`), and so by every node of a tree (`collects_toMapping`); of two pins for
one attribute the right one stays.

Templates of separable pins hide nothing from each other (`Collects.hidesNothing`), so they may be
merged in any grouping. The template of a tree is what its pins come to when they are assigned one
after another (`toMapping_eq_assigned`), whatever the operators and the parentheses between them are
(`Expression.toMapping_eq_of_pins_eq`).
-/

namespace TypedStore

variable {σ : Type}

/-! ## Pins -/

namespace Operand

/-- The attribute and the literal that a node pins down by itself. -/
def pin? : Operand σ → Operator → Operand σ → Option (FieldPath σ × Value)
  | .field path, .eq, .value literal => some (path, literal)
  | .field path, .is, .value literal => some (path, literal)
  | _, _, _ => none

/-- What the nodes of the tree pin down, from left to right. -/
def pins : Operand σ → List (FieldPath σ × Value)
  | .node left operator right => (pin? left operator right).toList ++ left.pins ++ right.pins
  | _ => []

end Operand

/-- What the nodes of the expression pin down, from left to right. -/
def Expression.pins (e : Expression σ) : List (FieldPath σ × Value) := (Operand.expr e).pins

theorem attributePath_ne_nil (p : FieldPath σ) : p.attributePath ≠ [] := by
  simp [FieldPath.attributePath]

namespace Template

/-- The literal of the rightmost pin with a path. -/
def rightmost? : List (FieldPath σ × Value) → List String → Option Value
  | [], _ => none
  | pin :: rest, path =>
    (rightmost? rest path).or (if pin.1.attributePath = path then some pin.2 else none)

theorem rightmost?_append (l r : List (FieldPath σ × Value)) (path : List String) :
    rightmost? (l ++ r) path = (rightmost? r path).or (rightmost? l path) := by
  induction l with
  | nil => simp [rightmost?]
  | cons pin rest ih => rw [List.cons_append, rightmost?, rightmost?, ih, Option.or_assoc]

theorem exists_pin_of_rightmost? {pins : List (FieldPath σ × Value)} {path : List String}
    {v : Value} (h : rightmost? pins path = some v) :
    ∃ pin ∈ pins, pin.1.attributePath = path ∧ pin.2 = v := by
  induction pins with
  | nil => cases h
  | cons first rest ih =>
    rw [rightmost?, Option.or_eq_some_iff] at h
    rcases h with h | ⟨-, h⟩
    · obtain ⟨pin, hpin, hsame⟩ := ih h
      exact ⟨pin, List.mem_cons_of_mem _ hpin, hsame⟩
    · rw [Option.ite_none_right_eq_some] at h
      exact ⟨first, List.mem_cons_self .., h.1, Option.some.inj h.2⟩

theorem rightmost?_ne_none {pins : List (FieldPath σ × Value)} {pin : FieldPath σ × Value}
    (h : pin ∈ pins) : rightmost? pins pin.1.attributePath ≠ none := by
  induction pins with
  | nil => cases h
  | cons first rest ih =>
    rw [rightmost?, ne_eq, Option.or_eq_none_iff]
    rintro ⟨hrest, hfirst⟩
    rcases List.mem_cons.mp h with rfl | hmem
    · simp at hfirst
    · exact ih hmem hrest

theorem rightmost?_of_apart {pins : List (FieldPath σ × Value)}
    (h : pins.Pairwise fun a b => Diverge a.1.attributePath b.1.attributePath)
    {pin : FieldPath σ × Value} (hpin : pin ∈ pins) :
    rightmost? pins pin.1.attributePath = some pin.2 := by
  induction pins with
  | nil => cases hpin
  | cons first rest ih =>
    obtain ⟨hfirst, hrest⟩ := List.pairwise_cons.mp h
    rw [rightmost?]
    rcases List.mem_cons.mp hpin with rfl | hmem
    · have hnone : rightmost? rest pin.1.attributePath = none := by
        refine Option.eq_none_iff_forall_ne_some.mpr fun v hv => ?_
        obtain ⟨q, hq, hpath, -⟩ := exists_pin_of_rightmost? hv
        exact (hfirst q hq).1 (hpath ▸ List.prefix_rfl)
      rw [hnone, Option.none_or, if_pos rfl]
    · rw [ih hrest hmem, Option.some_or]

/-- Two pins that are kept apart: their paths diverge, or they are for one attribute and neither
literal is a document. -/
def Reconcilable (a b : FieldPath σ × Value) : Prop :=
  Diverge a.1.attributePath b.1.attributePath ∨
    a.1.attributePath = b.1.attributePath ∧ a.2.document? = none ∧ b.2.document? = none

instance (a b : FieldPath σ × Value) : Decidable (Reconcilable a b) :=
  inferInstanceAs (Decidable (_ ∨ _ ∧ _ ∧ _))

theorem Reconcilable.diverge_of_document {a b : FieldPath σ × Value} (h : Reconcilable a b)
    (hb : b.2.document? ≠ none) : Diverge a.1.attributePath b.1.attributePath :=
  h.resolve_right fun hsame => hb hsame.2.2

/-- Pins whose names have no dots and of which any two are kept apart. -/
structure Separable (pins : List (FieldPath σ × Value)) : Prop where
  dotFree : ∀ pin ∈ pins, ∀ name ∈ pin.1.attributePath, '.' ∉ name.toList
  apart : pins.Pairwise Reconcilable

namespace Separable

variable {pins l r : List (FieldPath σ × Value)}

theorem of_sublist {pins' : List (FieldPath σ × Value)} (h : Separable pins)
    (hsub : pins'.Sublist pins) : Separable pins' where
  dotFree pin hpin := h.dotFree pin (hsub.subset hpin)
  apart := h.apart.sublist hsub

theorem left (h : Separable (l ++ r)) : Separable l := h.of_sublist (List.sublist_append_left l r)

theorem right (h : Separable (l ++ r)) : Separable r := h.of_sublist (List.sublist_append_right l r)

theorem reconcilable (h : Separable (l ++ r)) {a b : FieldPath σ × Value} (ha : a ∈ l)
    (hb : b ∈ r) : Reconcilable a b :=
  (List.pairwise_append.mp h.apart).2.2 a ha b hb

theorem document_expand (h : Separable pins) {pin : FieldPath σ × Value} (hpin : pin ∈ pins) :
    Value.document (Document.expand pin.1.attributeKey pin.2) =
      Document.nest pin.1.attributePath pin.2 := by
  rw [Document.document_expand, FieldPath.attributeKey,
    Dotted.split_join (attributePath_ne_nil pin.1) (h.dotFree pin hpin)]

end Separable

end Template

/-! ## What is collected -/

namespace Document

/-- The literals at their paths, those further right over the earlier ones. -/
def assigned (pins : List (FieldPath σ × Value)) : Document :=
  pins.foldl (fun d pin => merge d (expand pin.1.attributeKey pin.2)) []

theorem assigned_concat (pins : List (FieldPath σ × Value)) (pin : FieldPath σ × Value) :
    assigned (pins ++ [pin]) = merge (assigned pins) (expand pin.1.attributeKey pin.2) := by
  rw [assigned, List.foldl_append]
  rfl

/-- What holds of every expanded literal and goes over to merges holds of the template. -/
theorem assigned_induction {motive : Document → Prop} {pins : List (FieldPath σ × Value)}
    (empty : motive []) (merged : ∀ a b, motive a → motive b → motive (merge a b))
    (expanded : ∀ pin ∈ pins, motive (expand pin.1.attributeKey pin.2)) :
    motive (assigned pins) := by
  exact List.foldlRecOn pins _ empty fun d hd pin hpin => merged _ _ hd (expanded pin hpin)

/-- What there is below a nested value is on the way to it or inside it. -/
theorem of_follow?_nest {q p : List String} {u v : Value} (h : (nest q u).follow? p = some v) :
    p <+: q ∨ ∃ rest, p = q ++ rest ∧ u.follow? rest = some v := by
  induction q generalizing p with
  | nil => exact .inr ⟨p, rfl, h⟩
  | cons j more ih =>
    cases p with
    | nil => exact .inl List.nil_prefix
    | cons k rest =>
      rw [nest, Value.follow?, Keyed.get?_singleton] at h
      split at h
      · next hjk =>
        obtain rfl : j = k := hjk
        rcases ih h with hprefix | ⟨inside, rfl, hinside⟩
        · exact .inl (List.cons_prefix_cons.mpr ⟨rfl, hprefix⟩)
        · exact .inr ⟨inside, rfl, hinside⟩
      · cases h

end Document

namespace Template

open Document (merge expand assigned nest mergeValue_document follow?_mergeValue HidesNothing)
open Value (ClearOf)

/-- The document holds the literals of the pins at their paths, of several for one path the
rightmost one's. What else it holds is on the way to such a path or inside a literal. -/
structure Collects (d : Document) (pins : List (FieldPath σ × Value)) : Prop where
  held : ∀ pin ∈ pins, (Value.document d).follow? pin.1.attributePath =
    rightmost? pins pin.1.attributePath
  within : ∀ p v, p ≠ [] → (Value.document d).follow? p = some v →
    ∃ pin ∈ pins, p <+: pin.1.attributePath ∨
      ∃ rest, p = pin.1.attributePath ++ rest ∧ pin.2.follow? rest = some v
  clear : ∀ p, p ≠ [] → (∀ pin ∈ pins, Diverge pin.1.attributePath p) →
    ClearOf p (.document d)

namespace Collects

variable {a b d : Document} {pins l r : List (FieldPath σ × Value)}

theorem nil : Collects [] ([] : List (FieldPath σ × Value)) where
  held pin hpin := nomatch hpin
  within p v hp h := by
    obtain ⟨k, rest, rfl⟩ := List.exists_cons_of_ne_nil hp
    cases h
  clear p hp _ := by
    obtain ⟨k, rest, rfl⟩ := List.exists_cons_of_ne_nil hp
    intro v hv
    cases hv

theorem expand {pin : FieldPath σ × Value} (h : Separable [pin]) :
    Collects (expand pin.1.attributeKey pin.2) [pin] := by
  have hnest := h.document_expand (List.mem_singleton_self pin)
  refine ⟨?held, ?within, ?clear⟩
  case held =>
    intro q hq
    obtain rfl := List.mem_singleton.mp hq
    rw [hnest, Document.follow?_nest]
    simp [rightmost?]
  case within =>
    intro p v _ hv
    rw [hnest] at hv
    exact ⟨pin, List.mem_singleton_self pin, Document.of_follow?_nest hv⟩
  case clear =>
    intro p _ hp
    rw [hnest]
    exact Document.clearOf_nest (hp pin (List.mem_singleton_self pin)) pin.2

/-- A document holds nothing at a path where separable pins to its right have a document. -/
theorem clearOf_document (h : Separable (l ++ r)) (ha : Collects a l) {pin : FieldPath σ × Value}
    (hpin : pin ∈ r) (hdoc : pin.2.document? ≠ none) :
    ClearOf pin.1.attributePath (.document a) :=
  ha.clear _ (attributePath_ne_nil pin.1) fun _ hq =>
    (h.reconcilable hq hpin).diverge_of_document hdoc

/-- Pins that are for another attribute all diverge from this one. -/
theorem clearOf_of_rightmost? (h : Separable (l ++ r)) (hb : Collects b r)
    {pin : FieldPath σ × Value} (hpin : pin ∈ l)
    (hnone : rightmost? r pin.1.attributePath = none) :
    ClearOf pin.1.attributePath (.document b) := by
  refine hb.clear _ (attributePath_ne_nil pin.1) fun q hq => ?_
  rcases h.reconcilable hpin hq with hdiverge | ⟨hpath, -⟩
  · exact hdiverge.symm
  · exact absurd (hpath ▸ hnone) (rightmost?_ne_none hq)

theorem held_merge (h : Separable (l ++ r)) (ha : Collects a l) (hb : Collects b r)
    {pin : FieldPath σ × Value} (hpin : pin ∈ l ++ r) :
    (Value.document (Document.merge a b)).follow? pin.1.attributePath =
      rightmost? (l ++ r) pin.1.attributePath := by
  rw [rightmost?_append, ← mergeValue_document]
  cases hright : rightmost? r pin.1.attributePath with
  | some v =>
    -- a document is written where nothing was, another value over whatever was there
    obtain ⟨q, hq, hpath, rfl⟩ := exists_pin_of_rightmost? hright
    have hheld := hb.held q hq
    rw [hpath, hright] at hheld
    by_cases hdoc : q.2.document? = none
    · rw [follow?_mergeValue, hheld]
      cases (Value.document a).follow? pin.1.attributePath with
      | none => rfl
      | some x =>
        simp [Document.mergeValue_of_not_document x (Value.document?_eq_none_iff.mp hdoc)]
    · have hclear := hpath ▸ ha.clearOf_document h hq hdoc
      rw [Document.follow?_mergeValue_of_clearOf_left hclear, hheld, Option.some_or]
  | none =>
    have hleft : pin ∈ l := (List.mem_append.mp hpin).resolve_right fun hmem =>
      rightmost?_ne_none hmem hright
    have hclear := hb.clearOf_of_rightmost? h hleft hright
    rw [Document.follow?_mergeValue_of_clearOf _ hclear, ha.held pin hleft, Option.none_or]

theorem within_merge (h : Separable (l ++ r)) (ha : Collects a l) (hb : Collects b r)
    {p : List String} (hp : p ≠ []) {v : Value}
    (hv : (Value.document (Document.merge a b)).follow? p = some v) :
    ∃ pin ∈ l ++ r, p <+: pin.1.attributePath ∨
      ∃ rest, p = pin.1.attributePath ++ rest ∧ pin.2.follow? rest = some v := by
  rw [← mergeValue_document, follow?_mergeValue] at hv
  cases hright : (Value.document b).follow? p with
  | none =>
    have hleft : (Value.document a).follow? p = some v := by
      rw [hright] at hv
      cases hget : (Value.document a).follow? p <;> simp [hget] at hv
      rw [hv.2]
    obtain ⟨pin, hpin, hwhere⟩ := ha.within p v hp hleft
    exact ⟨pin, List.mem_append_left _ hpin, hwhere⟩
  | some y =>
    obtain ⟨pin, hpin, hprefix | ⟨rest, rfl, hrest⟩⟩ := hb.within p y hp hright
    · exact ⟨pin, List.mem_append_right _ hpin, .inl hprefix⟩
    · cases rest with
      | nil => exact ⟨pin, List.mem_append_right _ hpin, .inl (by simp)⟩
      | cons k more =>
        -- inside a document that is pinned on the right there is nothing from the left
        have hdoc : pin.2.document? ≠ none := by
          intro hnone
          rw [Value.follow?_cons_of_not_document (Value.document?_eq_none_iff.mp hnone)] at hrest
          cases hrest
        have hleft := (ha.clearOf_document h hpin hdoc).follow?
        have hbelow : (Value.document a).follow? (pin.1.attributePath ++ k :: more) = none := by
          rw [Value.follow?_append, hleft, Option.bind_none]
        rw [hright, hbelow] at hv
        obtain rfl := Option.some.inj hv
        exact ⟨pin, List.mem_append_right _ hpin, .inr ⟨_, rfl, hrest⟩⟩

/-- What is collected on either side is kept by a merge. -/
theorem merge (h : Separable (l ++ r)) (ha : Collects a l) (hb : Collects b r) :
    Collects (merge a b) (l ++ r) where
  held pin hpin := ha.held_merge h hb hpin
  within p v hp hv := ha.within_merge h hb hp hv
  clear p hp hdiverge := by
    rw [← mergeValue_document]
    exact Document.clearOf_mergeValue
      (ha.clear p hp fun pin hpin => hdiverge pin (List.mem_append_left _ hpin))
      (hb.clear p hp fun pin hpin => hdiverge pin (List.mem_append_right _ hpin))

theorem follow?_of_apart (hd : Collects d pins)
    (h : pins.Pairwise fun a b => Diverge a.1.attributePath b.1.attributePath)
    {pin : FieldPath σ × Value} (hpin : pin ∈ pins) :
    (Value.document d).follow? pin.1.attributePath = some pin.2 :=
  (hd.held pin hpin).trans (rightmost?_of_apart h hpin)

/-- There is nothing under a key that no path begins with. -/
theorem get?_eq_none (hd : Collects d pins) {k : String}
    (hk : ∀ pin ∈ pins, pin.1.attributePath.head? ≠ some k) : Keyed.get? d k = none := by
  have hclear := hd.clear [k] (List.cons_ne_nil k []) fun pin hpin => by
    obtain ⟨j, rest, hpath⟩ := List.exists_cons_of_ne_nil (attributePath_ne_nil pin.1)
    have hjk : j ≠ k := by simpa [hpath] using hk pin hpin
    simp [Diverge, hpath, List.cons_prefix_cons, hjk, Ne.symm hjk]
  rw [← Document.getPath?_singleton, Document.getPath?_eq_follow? (List.cons_ne_nil k [])]
  exact hclear.follow?

/-- A value that is no document comes from a literal, which is at the path or above it. -/
theorem exists_pin_of_plain (hd : Collects d pins) {p : List String} (hp : p ≠ []) {v : Value}
    (hv : (Value.document d).follow? p = some v) (hplain : v.document? = none) :
    ∃ pin ∈ pins, pin.1.attributePath <+: p := by
  obtain ⟨pin, hpin, ⟨rest, hrest⟩ | ⟨rest, rfl, -⟩⟩ := hd.within p v hp hv
  · cases rest with
    | nil =>
      rw [List.append_nil] at hrest
      exact ⟨pin, hpin, hrest ▸ List.prefix_rfl⟩
    | cons k more =>
      -- the value would be on the way to a literal
      refine absurd ?_ (rightmost?_ne_none hpin)
      rw [← hd.held pin hpin, ← hrest, Value.follow?_append, hv, Option.bind_some,
        Value.follow?_cons_of_not_document (Value.document?_eq_none_iff.mp hplain)]
  · exact ⟨pin, hpin, List.prefix_append ..⟩

/-- Where a pin on the right is for the same attribute, a literal on the left is no document. -/
theorem exists_plain (h : Separable (l ++ r)) (ha : Collects a l) {q pin : FieldPath σ × Value}
    (hq : q ∈ l) (hpin : pin ∈ r) (hpath : q.1.attributePath = pin.1.attributePath) :
    ∃ v, (Value.document a).follow? q.1.attributePath = some v ∧ v.document? = none := by
  obtain ⟨v, hv⟩ := Option.ne_none_iff_exists'.mp (rightmost?_ne_none hq)
  refine ⟨v, (ha.held q hq).trans hv, ?_⟩
  obtain ⟨q', hq', hpath', rfl⟩ := exists_pin_of_rightmost? hv
  have hsame : ¬ Diverge q'.1.attributePath pin.1.attributePath := by
    rw [hpath', hpath]
    exact fun hdiverge => hdiverge.1 List.prefix_rfl
  exact ((h.reconcilable hq' hpin).resolve_left hsame).2.1

/-- Whatever comes third, the second of two templates hides nothing of the first. -/
theorem hidesNothing (h : Separable (l ++ r)) (ha : Collects a l) (hb : Collects b r) (w : Value) :
    HidesNothing (.document a) (.document b) w := by
  intro p x z y hx hz hplain _
  exfalso
  have hp : p ≠ [] := by
    rintro rfl
    rw [Value.follow?] at hz
    cases hz
    cases hplain
  obtain ⟨pin, hpin, hbelow⟩ := hb.exists_pin_of_plain hp hz hplain
  -- what the first has at the path comes from a pin for the same attribute
  obtain ⟨q, hq, hwhere⟩ := ha.within p _ hp hx
  have hmeet : ¬ Diverge q.1.attributePath pin.1.attributePath := by
    rintro ⟨hqp, hpq⟩
    rcases hwhere with hprefix | ⟨rest, rfl, -⟩
    · exact hpq (hbelow.trans hprefix)
    · exact (List.prefix_or_prefix_of_prefix (List.prefix_append ..) hbelow).elim hqp hpq
  have hpath := ((h.reconcilable hq hpin).resolve_left hmeet).1
  -- so it has no document there, and none below it
  obtain ⟨v, hheld, hliteral⟩ := ha.exists_plain h hq hpin hpath
  obtain ⟨rest, rfl⟩ := hbelow
  rw [← hpath, Value.follow?_append, hheld, Option.bind_some] at hx
  cases rest with
  | nil =>
    rw [Value.follow?] at hx
    rw [Option.some.inj hx] at hliteral
    cases hliteral
  | cons k more =>
    rw [Value.follow?_cons_of_not_document (Value.document?_eq_none_iff.mp hliteral)] at hx
    cases hx

end Collects

theorem collects_assigned {pins : List (FieldPath σ × Value)} (h : Separable pins) :
    Collects (assigned pins) pins := by
  induction pins using List.reverseRecOn with
  | nil => exact .nil
  | append_singleton rest pin ih =>
    rw [Document.assigned_concat]
    exact .merge h (ih h.left) (.expand h.right)

theorem pinned_eq_assigned (left : Operand σ) (operator : Operator) (right : Operand σ) :
    Operand.pinned left operator right = assigned (Operand.pin? left operator right).toList := by
  unfold Operand.pinned Operand.pin?
  split <;> simp [assigned, Document.nil_merge]

/-- Every tree of separable pins collects them. -/
theorem collects_toMapping {e : Operand σ} (h : Separable e.pins) :
    Collects e.toMapping e.pins := by
  induction e with
  | field path => exact .nil
  | value literal => exact .nil
  | node left operator right ihl ihr =>
    rw [Operand.toMapping, pinned_eq_assigned]
    exact .merge h (.merge h.left (collects_assigned h.left.left) (ihl h.left.right)) (ihr h.right)

/-! ## In any grouping -/

theorem wellFormed_assigned {pins : List (FieldPath σ × Value)} (h : Separable pins)
    (hliterals : ∀ pin ∈ pins, pin.2.WellFormed) : (assigned pins).WellFormed := by
  refine Document.assigned_induction (motive := Document.WellFormed) ?_ ?_ ?_
  · exact ⟨by simp [Keyed.Nodup, Keyed.keys], trivial⟩
  · intro a b ha hb
    exact Document.wellFormed_mergeValue _ _ ha hb
  · intro pin hpin
    show (Value.document (expand pin.1.attributeKey pin.2)).WellFormed
    rw [h.document_expand hpin]
    exact Document.wellFormed_nest _ (hliterals pin hpin)

theorem assigned_append {l r : List (FieldPath σ × Value)} (h : Separable (l ++ r))
    (hliterals : ∀ pin ∈ l, pin.2.WellFormed) :
    assigned (l ++ r) = merge (assigned l) (assigned r) := by
  induction r using List.reverseRecOn with
  | nil => rw [List.append_nil, assigned, assigned, List.foldl_nil, Document.merge_nil]
  | append_singleton r pin ih =>
    rw [← List.append_assoc] at h ⊢
    have hhidden := (collects_assigned h.left.left).hidesNothing h.left
      (collects_assigned h.left.right) (.document (expand pin.1.attributeKey pin.2))
    rw [Document.assigned_concat, Document.assigned_concat, ih h.left,
      (Document.merge_assoc_iff (wellFormed_assigned h.left.left hliterals)).mpr hhidden]

/-- The template of a tree is what its pins come to, from left to right. -/
theorem toMapping_eq_assigned {e : Operand σ} (h : Separable e.pins)
    (hliterals : ∀ pin ∈ e.pins, pin.2.WellFormed) : e.toMapping = assigned e.pins := by
  induction e with
  | field path => rfl
  | value literal => rfl
  | node left operator right ihl ihr =>
    have hnode := fun pin hpin => hliterals pin (List.mem_append_left _ hpin)
    rw [Operand.toMapping, pinned_eq_assigned, Operand.pins, assigned_append h hnode,
      assigned_append h.left fun pin hpin => hnode pin (List.mem_append_left _ hpin),
      ihl h.left.right fun pin hpin => hnode pin (List.mem_append_right _ hpin),
      ihr h.right fun pin hpin => hliterals pin (List.mem_append_right _ hpin)]

end Template

/-- A comparison of attributes and literals that pins nothing down: by its operator, because its
left operand is a literal, or because both are attributes. -/
inductive Idle : Expression σ → Prop where
  | operator {left right : Operand σ} {operator : Operator} (hleft : left.expression? = none)
    (hright : right.expression? = none) (hne : operator ≠ .eq) (hne' : operator ≠ .is) :
    Idle ⟨left, operator, right⟩
  | literalFirst (literal : Value) (operator : Operator) {right : Operand σ}
    (hright : right.expression? = none) : Idle ⟨.value literal, operator, right⟩
  | attributes (p q : FieldPath σ) (operator : Operator) : Idle ⟨.field p, operator, .field q⟩

namespace Expression

/-- Somewhere in the first tree the parentheses are moved between three operands in a row, which
takes no pin apart and makes none, or a comparison that pins nothing down is exchanged for another
one or left out. -/
inductive Moved : Expression σ → Expression σ → Prop where
  | regroup {x y z : Operand σ} {o o' : Operator} (h : Operand.pin? x o y = none)
    (h' : Operand.pin? y o' z = none) : Moved ⟨.node x o y, o', z⟩ ⟨x, o, .node y o' z⟩
  | exchange {idle idle' : Expression σ} (h : Idle idle) (h' : Idle idle') : Moved idle idle'
  | dropLeft {idle : Expression σ} (h : Idle idle) (o : Operator) (e : Expression σ) :
    Moved ⟨.expr idle, o, .expr e⟩ e
  | dropRight (e : Expression σ) (o : Operator) {idle : Expression σ} (h : Idle idle) :
    Moved ⟨.expr e, o, .expr idle⟩ e
  | left {e f : Expression σ} (h : Moved e f) (o : Operator) (x : Operand σ) :
    Moved ⟨.expr e, o, x⟩ ⟨.expr f, o, x⟩
  | right (x : Operand σ) (o : Operator) {e f : Expression σ} (h : Moved e f) :
    Moved ⟨x, o, .expr e⟩ ⟨x, o, .expr f⟩

/-- One tree becomes the other by moving parentheses, and by exchanging, leaving out or putting in
comparisons that pin nothing down, any number of times and at any depth. -/
def Rearranged (e f : Expression σ) : Prop := Relation.EqvGen Moved e f

end Expression

theorem Operand.pins_of_leaf {x : Operand σ} (h : x.expression? = none) : x.pins = [] := by
  cases x with
  | node left operator right => cases h
  | _ => rfl

namespace Expression

theorem pins_mk (left : Operand σ) (operator : Operator) (right : Operand σ) :
    pins ⟨left, operator, right⟩ =
      (Operand.pin? left operator right).toList ++ left.pins ++ right.pins := rfl

theorem pins_expr_left (e : Expression σ) (o : Operator) (x : Operand σ) :
    pins ⟨.expr e, o, x⟩ = e.pins ++ x.pins := by
  have hnone : Operand.pin? (.expr e) o x = none := by simp [Operand.expr, Operand.pin?]
  rw [pins_mk, hnone]
  rfl

theorem pins_expr_right (x : Operand σ) (o : Operator) (e : Expression σ) :
    pins ⟨x, o, .expr e⟩ = x.pins ++ e.pins := by
  have hnone : Operand.pin? x o (.expr e) = none := by simp [Operand.expr, Operand.pin?]
  rw [pins_mk, hnone]
  rfl

end Expression

theorem Idle.pins_eq {e : Expression σ} (h : Idle e) : e.pins = [] := by
  cases h with
  | @operator left right operator hleft hright hne hne' =>
    rw [Expression.pins_mk, Operand.pins_of_leaf hleft, Operand.pins_of_leaf hright]
    unfold Operand.pin?
    split <;> simp_all
  | literalFirst literal operator hright =>
    rw [Expression.pins_mk, Operand.pins_of_leaf hright]
    rfl
  | attributes p q operator => simp [Expression.pins_mk, Operand.pin?, Operand.pins]

namespace Expression

theorem Moved.pins_eq {e f : Expression σ} (h : Moved e f) : e.pins = f.pins := by
  induction h with
  | @regroup x y z o o' h h' =>
    show pins ⟨.expr ⟨x, o, y⟩, o', z⟩ = pins ⟨x, o, .expr ⟨y, o', z⟩⟩
    rw [pins_expr_left, pins_expr_right, pins_mk, pins_mk, h, h']
    exact List.append_assoc ..
  | exchange h h' => rw [h.pins_eq, h'.pins_eq]
  | dropLeft h o e =>
    rw [pins_expr_left, h.pins_eq, List.nil_append]
    rfl
  | dropRight e o h =>
    rw [pins_expr_right, h.pins_eq, List.append_nil]
    rfl
  | left h o x ih => rw [pins_expr_left, pins_expr_left, ih]
  | right x o h ih => rw [pins_expr_right, pins_expr_right, ih]

theorem Rearranged.pins_eq {e f : Expression σ} (h : Rearranged e f) : e.pins = f.pins := by
  induction h with
  | rel _ _ h => exact h.pins_eq
  | refl _ => rfl
  | symm _ _ _ ih => exact ih.symm
  | trans _ _ _ _ _ ih ih' => exact ih.trans ih'

open Template (Separable rightmost? toMapping_eq_assigned collects_toMapping)

/-- Trees with the same pins are the same templates. -/
theorem toMapping_eq_of_pins_eq {e f : Expression σ} (hpins : f.pins = e.pins)
    (h : Separable e.pins) (hliterals : ∀ pin ∈ e.pins, pin.2.WellFormed) :
    f.toMapping = e.toMapping := by
  have hf : Separable f.pins := hpins ▸ h
  have hliterals' : ∀ pin ∈ f.pins, pin.2.WellFormed := hpins ▸ hliterals
  calc f.toMapping
    _ = Document.assigned f.pins := toMapping_eq_assigned hf hliterals'
    _ = Document.assigned e.pins := by rw [hpins]
    _ = e.toMapping := (toMapping_eq_assigned h hliterals).symm

/-- The template of an expression holds, at the path of each pin, the literal of the rightmost pin
with that path, and nothing but what is on the way to these paths or inside these literals. It is
the same however the tree is parenthesised, and whatever comparisons that pin nothing down are in it.
That a literal lists no key twice is what any value has. -/
theorem toMapping_collects {e : Expression σ} (h : Separable e.pins)
    (hliterals : ∀ pin ∈ e.pins, pin.2.WellFormed) :
    (∀ pin ∈ e.pins, Document.getPath? e.toMapping pin.1.attributePath =
      rightmost? e.pins pin.1.attributePath) ∧
    (∀ p v, Document.getPath? e.toMapping p = some v →
      ∃ pin ∈ e.pins, p <+: pin.1.attributePath ∨
        ∃ rest, p = pin.1.attributePath ++ rest ∧ pin.2.follow? rest = some v) ∧
    ∀ f, Rearranged e f → f.toMapping = e.toMapping := by
  have hcollects := collects_toMapping h
  refine ⟨?held, ?within, ?rearranged⟩
  case held =>
    intro pin hpin
    rw [Document.getPath?_eq_follow? (attributePath_ne_nil pin.1)]
    exact hcollects.held pin hpin
  case within =>
    intro p v hv
    have hp : p ≠ [] := by
      rintro rfl
      cases hv
    rw [Document.getPath?_eq_follow? hp] at hv
    exact hcollects.within p v hp hv
  case rearranged =>
    intro f hf
    exact toMapping_eq_of_pins_eq hf.pins_eq.symm h hliterals

end Expression

/-! ## Anti-vacuity: two titles and an idle comparison -/

/-- The title of a category's parent. -/
def parentTitlePath : FieldPath CategorySchema :=
  { titlePath with ancestors := [⟨"parent", "Category"⟩] }

namespace Expression

/-- A title is pinned down. -/
def firstTitle : Expression CategorySchema := ⟨.field titlePath, .eq, .value (.string "a")⟩

/-- So is the parent's. -/
def parentTitle : Expression CategorySchema := ⟨.field parentTitlePath, .eq, .value (.string "b")⟩

/-- The title is pinned down once more, to another literal. -/
def lastTitle : Expression CategorySchema := ⟨.field titlePath, .is, .value (.string "c")⟩

/-- The title is compared, but not pinned down. -/
def longTitle : Expression CategorySchema := ⟨.field titlePath, .gt, .value (.string "d")⟩

theorem longTitle_idle : Idle longTitle := .operator rfl rfl (by decide) (by decide)

/-- The titles in two pairs. -/
def paired : Expression CategorySchema :=
  ⟨.expr ⟨.expr firstTitle, .or, .expr longTitle⟩, .and,
    .expr ⟨.expr parentTitle, .or, .expr lastTitle⟩⟩

/-- The titles from the left. -/
def listed : Expression CategorySchema :=
  ⟨.expr ⟨.expr firstTitle, .and, .expr parentTitle⟩, .or, .expr lastTitle⟩

theorem paired_rearranged : Rearranged paired listed := by
  refine .trans _ _ _ (.rel _ _ (.left (.dropRight _ _ longTitle_idle) _ _)) ?_
  exact .symm _ _ (.rel _ _ (.regroup rfl rfl))

theorem paired_pins : paired.pins =
    [(titlePath, .string "a"), (parentTitlePath, .string "b"), (titlePath, .string "c")] := rfl

theorem paired_separable : Template.Separable paired.pins := ⟨by decide, by decide⟩

/-- The last title stands, beside the parent's, in either grouping. -/
theorem paired_template :
    Document.getPath? paired.toMapping ["title"] = some (.string "c") ∧
      Document.getPath? paired.toMapping ["parent", "title"] = some (.string "b") ∧
      listed.toMapping = paired.toMapping := by
  have hliterals : ∀ pin ∈ paired.pins, pin.2.WellFormed := by
    simp [paired_pins, Value.WellFormed]
  obtain ⟨hheld, -, hsame⟩ := toMapping_collects paired_separable hliterals
  refine ⟨hheld (titlePath, .string "c") ?_, hheld (parentTitlePath, .string "b") ?_,
    hsame _ paired_rearranged⟩ <;> simp [paired_pins]

end Expression

end TypedStore
