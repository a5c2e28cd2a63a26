import Mathlib.Logic.Relation
import TypedStore.Expression
import TypedStore.Proofs.KeyOrder
import TypedStore.Proofs.Merging

/-!
Values up to the width of integers and the order of keys.

Two values are width-equivalent when one becomes the other by writing any number of 32-bit integers
as 64-bit ones, or back, and by reordering entries, at any depth (`Value.WidthEquivalent`). In the
scope of a piece of code entries are reordered and integers are left as they are. Widening every
other integer and sorting every document leads to a normal form, and well-formed values are
width-equivalent exactly when their normal forms are equal (`widthEquivalent_iff`).
-/

namespace TypedStore

namespace Value

/-- What holds of scalars, and of arrays, documents and code when it holds of what is in them, holds
of all values. -/
theorem induction {motive : Value → Prop} (scalar : ∀ v, v.isScalar = true → motive v)
    (array : ∀ items : List Value, (∀ v ∈ items, motive v) → motive (.array items))
    (document : ∀ entries : Document, (∀ e ∈ entries, motive e.2) → motive (.document entries))
    (codeWithScope : ∀ (text : String) (scope : Document), (∀ e ∈ scope, motive e.2) →
      motive (.codeWithScope text scope)) (v : Value) : motive v := by
  cases v with
  | array items => exact array items fun w _ => induction scalar array document codeWithScope w
  | document entries =>
    exact document entries fun e _ => induction scalar array document codeWithScope e.2
  | codeWithScope text scope =>
    exact codeWithScope text scope fun e _ => induction scalar array document codeWithScope e.2
  | _ => exact scalar _ rfl
termination_by sizeOf v
decreasing_by
  · next hmem =>
    have hlt := List.sizeOf_lt_of_mem hmem
    simp only [Value.array.sizeOf_spec]
    omega
  · next hmem =>
    have hlt := List.sizeOf_lt_of_mem hmem
    obtain ⟨k, w⟩ := e
    simp only [Value.document.sizeOf_spec, Prod.mk.sizeOf_spec] at hlt ⊢
    omega
  · next hmem =>
    have hlt := List.sizeOf_lt_of_mem hmem
    obtain ⟨k, w⟩ := e
    simp only [Value.codeWithScope.sizeOf_spec, Prod.mk.sizeOf_spec] at hlt ⊢
    omega

/-! ## Widening -/

mutual

/-- The value with every integer in 64 bits, but those in scopes of code. -/
def widened : Value → Value
  | .int32 n => .int64 n.toInt64
  | .array items => .array (widenedItems items)
  | .document entries => .document (widenedEntries entries)
  | v => v

/-- The items of an array, each with its integers in 64 bits. -/
def widenedItems : List Value → List Value
  | [] => []
  | v :: rest => v.widened :: widenedItems rest

/-- The entries of a document, each with its integers in 64 bits. -/
def widenedEntries : List (String × Value) → List (String × Value)
  | [] => []
  | (k, v) :: rest => (k, v.widened) :: widenedEntries rest

end

/-- The value with every integer in 64 bits, but those in scopes of code, and every document in the
order of keys. -/
def normal (v : Value) : Value := v.widened.sorted

theorem widenedItems_eq (items : List Value) : widenedItems items = items.map widened := by
  induction items with
  | nil => rfl
  | cons v rest ih => rw [widenedItems, ih, List.map_cons]

theorem widenedEntries_eq (entries : Document) :
    widenedEntries entries = Keyed.mapValues widened entries := by
  induction entries with
  | nil => rfl
  | cons e rest ih => rw [widenedEntries, ih]; rfl

theorem sortedItems_eq (items : List Value) : sortedItems items = items.map sorted := by
  induction items with
  | nil => rfl
  | cons v rest ih => rw [sortedItems, ih, List.map_cons]

@[simp] theorem normal_array (items : List Value) :
    (Value.array items).normal = .array (items.map normal) := by
  simp only [normal, widened, sorted, sortedItems_eq, widenedItems_eq, List.map_map]
  rfl

@[simp] theorem normal_document (entries : Document) :
    (Value.document entries).normal = .document (Keyed.sort (Keyed.mapValues normal entries)) := by
  simp only [normal, widened, sorted, sortedEntries_eq, widenedEntries_eq, Keyed.mapValues,
    List.map_map]
  rfl

@[simp] theorem normal_null : Value.null.normal = .null := rfl

@[simp] theorem normal_bool (b : Bool) : (Value.bool b).normal = .bool b := rfl

@[simp] theorem normal_int32 (n : Int32) : (Value.int32 n).normal = .int64 n.toInt64 := rfl

@[simp] theorem normal_int64 (n : Int64) : (Value.int64 n).normal = .int64 n := rfl

@[simp] theorem normal_double (x : Float) : (Value.double x).normal = .double x := rfl

@[simp] theorem normal_dateTime (millis : Int64) :
    (Value.dateTime millis).normal = .dateTime millis := rfl

@[simp] theorem normal_string (text : String) : (Value.string text).normal = .string text := rfl

@[simp] theorem normal_special (s : Special) : (Value.special s).normal = .special s := rfl

@[simp] theorem normal_codeWithScope (text : String) (scope : Document) :
    (Value.codeWithScope text scope).normal = .codeWithScope text (Document.sorted scope) := rfl

/-- A scalar changes only if it is a 32-bit integer. -/
theorem normal_scalar {v : Value} (h : v.isScalar = true) :
    v.normal = v ∨ ∃ n, v = .int32 n ∧ v.normal = .int64 n.toInt64 := by
  cases v <;> simp_all [isScalar]

theorem sort_mapValues_perm (entries : Document) :
    (Keyed.sort (Keyed.mapValues normal entries)).Perm (Keyed.mapValues normal entries) :=
  Keyed.sort_perm _

@[simp] theorem length_sort_normal (entries : Document) :
    (Keyed.sort (Keyed.mapValues normal entries)).length = entries.length := by
  rw [(sort_mapValues_perm entries).length_eq, Keyed.mapValues, List.length_map]

@[simp] theorem isEmpty_sort_normal (entries : Document) :
    List.isEmpty (Keyed.sort (Keyed.mapValues normal entries)) = entries.isEmpty := by
  rw [(sort_mapValues_perm entries).isEmpty_eq, Keyed.mapValues, List.isEmpty_map]

@[simp] theorem contains_sort_normal (entries : Document) (k : String) :
    Keyed.contains (Keyed.sort (Keyed.mapValues normal entries)) k = Keyed.contains entries k := by
  have hkeys := ((sort_mapValues_perm entries).map Prod.fst).mem_iff (a := k)
  rw [Bool.eq_iff_iff, Keyed.contains_iff, Keyed.contains_iff, Keyed.keys, hkeys, ← Keyed.keys,
    Keyed.keys_mapValues]

theorem forall_mem_sort_normal {entries : Document} {P : String × Value → Prop} :
    (∀ e ∈ Keyed.sort (Keyed.mapValues normal entries), P e) ↔
      ∀ e ∈ entries, P (e.1, e.2.normal) := by
  simp only [(sort_mapValues_perm entries).mem_iff]
  simp only [Keyed.mapValues, List.forall_mem_map]

theorem get?_sort_normal {entries : Document} (h : Keyed.Nodup entries) (k : String) :
    Keyed.get? (Keyed.sort (Keyed.mapValues normal entries)) k =
      (Keyed.get? entries k).map normal := by
  have hnodup : Keyed.Nodup (Keyed.sort (Keyed.mapValues normal entries)) :=
    ((sort_mapValues_perm entries).map Prod.fst).nodup_iff.mpr ((Keyed.nodup_mapValues _).mpr h)
  rw [Keyed.get?_perm hnodup (sort_mapValues_perm entries), Keyed.get?_mapValues]

/-! ## Width equivalence -/

/-- One integer is widened, or one document or scope reordered, somewhere in the value. -/
inductive Touched : Value → Value → Prop where
  | widen (n : Int32) : Touched (.int32 n) (.int64 n.toInt64)
  | reorder {d e : Document} (h : d.Perm e) : Touched (.document d) (.document e)
  /-- A scope is reordered at whatever depth, and no integer in it is widened. -/
  | scope (text : String) {d e : Document} (h : Document.Same d e) :
    Touched (.codeWithScope text d) (.codeWithScope text e)
  | item (before : List Value) {v w : Value} (after : List Value) (h : Touched v w) :
    Touched (.array (before ++ v :: after)) (.array (before ++ w :: after))
  | entry (before : Document) (k : String) {v w : Value} (after : Document) (h : Touched v w) :
    Touched (.document (before ++ (k, v) :: after)) (.document (before ++ (k, w) :: after))

/-- One value becomes the other by widening integers, or narrowing them back, and reordering
documents, any number of times and at any depth, but for the integers in scopes of code. -/
def WidthEquivalent (v w : Value) : Prop := Relation.EqvGen Touched v w

theorem itemsWellFormed_iff {items : List Value} :
    ItemsWellFormed items ↔ ∀ v ∈ items, v.WellFormed := by
  induction items with
  | nil => simp [ItemsWellFormed]
  | cons v rest ih => simp [ItemsWellFormed, ih]

theorem wellFormed_array {items : List Value} :
    (Value.array items).WellFormed ↔ ∀ v ∈ items, v.WellFormed :=
  itemsWellFormed_iff

theorem wellFormed_document {entries : Document} :
    (Value.document entries).WellFormed ↔
      Keyed.Nodup entries ∧ ∀ e ∈ entries, e.2.WellFormed := by
  rw [WellFormed, Document.entriesWellFormed_iff]

theorem wellFormed_codeWithScope {text : String} {scope : Document} :
    (Value.codeWithScope text scope).WellFormed ↔ (Value.document scope).WellFormed :=
  Iff.rfl

theorem wellFormed_sorted (v : Value) : v.sorted.WellFormed ↔ v.WellFormed := by
  have hentries {entries : Document} (ih : ∀ e ∈ entries, e.2.sorted.WellFormed ↔ e.2.WellFormed) :
      (Value.document (Document.sorted entries)).WellFormed ↔
        (Value.document entries).WellFormed := by
    rw [wellFormed_document, wellFormed_document, Document.nodup_sorted]
    simp only [(Document.sorted_perm entries).mem_iff, Keyed.mapValues, List.forall_mem_map]
    exact and_congr_right fun _ => forall₂_congr ih
  induction v using Value.induction with
  | scalar v h => cases v <;> simp_all [isScalar, sorted]
  | array items ih =>
    rw [sorted, sortedItems_eq, wellFormed_array, wellFormed_array, List.forall_mem_map]
    exact forall₂_congr ih
  | document entries ih => exact hentries ih
  | codeWithScope text scope ih => exact hentries ih

theorem wellFormed_of_isScalar {v : Value} (h : v.isScalar = true) : v.WellFormed := by
  cases v <;> simp_all [isScalar, WellFormed]

theorem WellFormed.get? {entries : Document} (h : (Value.document entries).WellFormed)
    {k : String} {v : Value} (hget : Keyed.get? entries k = some v) : v.WellFormed :=
  (wellFormed_document.mp h).2 _ (Keyed.mem_of_get? hget)

namespace Touched

variable {v w : Value}

theorem wellFormed_iff (h : Touched v w) : v.WellFormed ↔ w.WellFormed := by
  induction h with
  | widen n => exact Iff.rfl
  | reorder h =>
    simp only [wellFormed_document, h.mem_iff, Keyed.Nodup, Keyed.keys, (h.map Prod.fst).nodup_iff]
  | @scope _ d e h =>
    have hsorted : (Value.document d).sorted = (Value.document e).sorted :=
      congrArg Value.document h
    rw [wellFormed_codeWithScope, wellFormed_codeWithScope, ← wellFormed_sorted, hsorted,
      wellFormed_sorted]
  | item before after _ ih => simp [wellFormed_array, or_imp, forall_and, ih]
  | entry before k after _ ih =>
    simp [wellFormed_document, Keyed.Nodup, Keyed.keys, or_imp, forall_and, ih]

theorem normal_eq (h : Touched v w) (hv : v.WellFormed) : v.normal = w.normal := by
  induction h with
  | widen n => rfl
  | reorder h =>
    have hnodup := (wellFormed_document.mp hv).1
    have hsort : Keyed.sort (Keyed.mapValues normal _) = Keyed.sort (Keyed.mapValues normal _) :=
      (Keyed.sort_eq_iff_perm ((Keyed.nodup_mapValues _).mpr hnodup)).mpr (h.map _)
    rw [normal_document, normal_document, hsort]
  | scope _ h => exact congrArg (Value.codeWithScope _) h
  | @item before v w after _ ih =>
    have hitem : v.WellFormed := wellFormed_array.mp hv v (by simp)
    simp [ih hitem]
  | @entry before k v w after _ ih =>
    have hentry : v.WellFormed := (wellFormed_document.mp hv).2 (k, v) (by simp)
    simp [Keyed.mapValues, ih hentry]

end Touched

namespace WidthEquivalent

variable {u v w : Value}

theorem refl (v : Value) : WidthEquivalent v v := Relation.EqvGen.refl v

theorem symm (h : WidthEquivalent v w) : WidthEquivalent w v := Relation.EqvGen.symm _ _ h

theorem trans (h : WidthEquivalent u v) (h' : WidthEquivalent v w) : WidthEquivalent u w :=
  Relation.EqvGen.trans _ _ _ h h'

theorem wellFormed_iff (h : WidthEquivalent v w) : v.WellFormed ↔ w.WellFormed := by
  induction h with
  | rel _ _ h => exact h.wellFormed_iff
  | refl => exact Iff.rfl
  | symm _ _ _ ih => exact ih.symm
  | trans _ _ _ _ _ ih ih' => exact ih.trans ih'

theorem normal_eq (h : WidthEquivalent v w) (hv : v.WellFormed) : v.normal = w.normal := by
  induction h with
  | rel _ _ h => exact h.normal_eq hv
  | refl => rfl
  | symm _ _ h ih => exact (ih ((wellFormed_iff h).mpr hv)).symm
  | trans _ _ _ h _ ih ih' => exact (ih hv).trans (ih' ((wellFormed_iff h).mp hv))

theorem item (before : List Value) (after : List Value) (h : WidthEquivalent v w) :
    WidthEquivalent (.array (before ++ v :: after)) (.array (before ++ w :: after)) := by
  induction h with
  | rel _ _ h => exact .rel _ _ (h.item before after)
  | refl => exact refl _
  | symm _ _ _ ih => exact ih.symm
  | trans _ _ _ _ _ ih ih' => exact ih.trans ih'

theorem entry (before : Document) (k : String) (after : Document) (h : WidthEquivalent v w) :
    WidthEquivalent (.document (before ++ (k, v) :: after))
      (.document (before ++ (k, w) :: after)) := by
  induction h with
  | rel _ _ h => exact .rel _ _ (h.entry before k after)
  | refl => exact refl _
  | symm _ _ _ ih => exact ih.symm
  | trans _ _ _ _ _ ih ih' => exact ih.trans ih'

/-- The items are changed one by one, those before are done already. -/
theorem items {f : Value → Value} {rest : List Value} (h : ∀ v ∈ rest, WidthEquivalent v (f v))
    (before : List Value) :
    WidthEquivalent (.array (before ++ rest)) (.array (before ++ rest.map f)) := by
  induction rest generalizing before with
  | nil => exact .refl _
  | cons v rest ih =>
    have hrest := ih (fun u hu => h u (List.mem_cons_of_mem _ hu)) (before ++ [f v])
    -- the first item is changed where it stands, with the others unchanged behind it
    rw [List.append_assoc, List.append_assoc] at hrest
    exact (item before rest (h v (List.mem_cons_self ..))).trans hrest

/-- The entries are changed one by one, those before are done already. -/
theorem entries {f : Value → Value} {rest : Document}
    (h : ∀ e ∈ rest, WidthEquivalent e.2 (f e.2)) (before : Document) :
    WidthEquivalent (.document (before ++ rest))
      (.document (before ++ Keyed.mapValues f rest)) := by
  induction rest generalizing before with
  | nil => exact .refl _
  | cons e rest ih =>
    have hrest := ih (fun u hu => h u (List.mem_cons_of_mem _ hu)) (before ++ [(e.1, f e.2)])
    rw [List.append_assoc, List.append_assoc] at hrest
    exact (entry before e.1 rest (h e (List.mem_cons_self ..))).trans hrest

end WidthEquivalent

/-- Every value is width-equivalent to its normal form. -/
theorem widthEquivalent_normal (v : Value) : WidthEquivalent v v.normal := by
  induction v using Value.induction with
  | scalar v h =>
    rcases normal_scalar h with hsame | ⟨n, rfl, hwide⟩
    · rw [hsame]
      exact .refl v
    · rw [hwide]
      exact .rel _ _ (.widen n)
  | array items ih =>
    rw [normal_array]
    exact WidthEquivalent.items ih []
  | document entries ih =>
    rw [normal_document]
    exact (WidthEquivalent.entries ih []).trans
      (.rel _ _ (.reorder (sort_mapValues_perm entries).symm))
  | codeWithScope text scope =>
    exact .rel _ _ (.scope text (Document.same_sorted scope).symm)

/-- Well-formed values are width-equivalent when their normal forms are equal. -/
theorem widthEquivalent_iff {v w : Value} (hv : v.WellFormed) :
    WidthEquivalent v w ↔ v.normal = w.normal := by
  constructor
  · intro h
    exact h.normal_eq hv
  · intro h
    have hw := widthEquivalent_normal w
    rw [← h] at hw
    exact (widthEquivalent_normal v).trans hw.symm

end Value

end TypedStore
