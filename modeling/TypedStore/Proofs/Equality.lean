import Mathlib.Data.List.Forall2
import Mathlib.Data.List.Perm.Subperm
import TypedStore.Operator
import TypedStore.Proofs.Width

/-!
What `eq` takes for equal, and what `is` does.

Both go through two values at once, `is` by kind and content, `eq` with numbers as numbers. So what
is identical is equal, a NaN included, which neither takes for itself (`equal_of_identical`). Where
there are no doubles and no code with its scope, `eq` sees through the width of integers and the
order of keys and through nothing else: two values are equal exactly when their normal forms are
(`equal_iff`), which is when they are identical with their integers widened
(`identical_widened_iff`). `eq_strict` says so of the operators.
-/

namespace TypedStore

/-- Two relations that agree on what two lists hold relate the lists alike. -/
theorem forall₂_congr_of_mem {α β : Type} {R S : α → β → Prop} {a : List α} {b : List β}
    (h : ∀ x ∈ a, ∀ y ∈ b, R x y ↔ S x y) : List.Forall₂ R a b ↔ List.Forall₂ S a b := by
  rw [List.forall₂_iff_zip, List.forall₂_iff_zip]
  refine and_congr_right fun _ => forall₂_congr fun x y => imp_congr_right fun hmem => ?_
  exact h x (List.of_mem_zip hmem).1 y (List.of_mem_zip hmem).2

namespace Keyed

variable {α : Type}

/-- With distinct keys, and as many, entries that are all found elsewhere are all there are. -/
theorem perm_iff_forall_get? {d e : Keyed String α} (hd : Nodup d) (he : Nodup e) :
    d.Perm e ↔ d.length = e.length ∧ ∀ x ∈ d, get? e x.1 = some x.2 := by
  constructor
  · intro h
    exact ⟨h.length_eq, fun x hx => get?_of_mem he (h.mem_iff.mp hx)⟩
  · rintro ⟨hlen, hfound⟩
    have hsub : d ⊆ e := fun x hx => mem_of_get? (hfound x hx)
    exact (List.subperm_of_subset (hd.of_map _) hsub).perm_of_length_le (Nat.le_of_eq hlen.symm)

end Keyed

namespace Value

/-! ## The two equalities, level by level -/

theorem equalItems_iff {a b : List Value} :
    equalItems a b = true ↔ List.Forall₂ (fun v w => v.equal w = true) a b := by
  induction a generalizing b with
  | nil => cases b <;> simp [equalItems]
  | cons v rest ih => cases b <;> simp [equalItems, ih]

theorem equalEntries_iff {a b : Document} :
    equalEntries a b = true ↔
      ∀ e ∈ a, ∃ w, Keyed.get? b e.1 = some w ∧ e.2.equal w = true := by
  induction a with
  | nil => simp [equalEntries]
  | cons e rest ih => cases hget : Keyed.get? b e.1 <;> simp [equalEntries, hget, ih]

theorem equal_array_iff {a b : List Value} :
    (Value.array a).equal (.array b) = true ↔
      List.Forall₂ (fun v w => v.equal w = true) a b := by
  rw [equal, equalItems_iff]

theorem equal_document_iff {a b : Document} :
    (Value.document a).equal (.document b) = true ↔
      a.length = b.length ∧ ∀ e ∈ a, ∃ w, Keyed.get? b e.1 = some w ∧ e.2.equal w = true := by
  rw [equal, Bool.and_eq_true, beq_iff_eq, equalEntries_iff]

theorem identicalItems_iff {a b : List Value} :
    identicalItems a b = true ↔ List.Forall₂ (fun v w => v.identical w = true) a b := by
  induction a generalizing b with
  | nil => cases b <;> simp [identicalItems]
  | cons v rest ih => cases b <;> simp [identicalItems, ih]

theorem identicalEntries_iff {a b : Document} :
    identicalEntries a b = true ↔
      ∀ e ∈ a, ∃ w, Keyed.get? b e.1 = some w ∧ e.2.identical w = true := by
  induction a with
  | nil => simp [identicalEntries]
  | cons e rest ih => cases hget : Keyed.get? b e.1 <;> simp [identicalEntries, hget, ih]

theorem identical_array_iff {a b : List Value} :
    (Value.array a).identical (.array b) = true ↔
      List.Forall₂ (fun v w => v.identical w = true) a b := by
  rw [identical, identicalItems_iff]

theorem identical_document_iff {a b : Document} :
    (Value.document a).identical (.document b) = true ↔
      a.length = b.length ∧ ∀ e ∈ a, ∃ w, Keyed.get? b e.1 = some w ∧ e.2.identical w = true := by
  rw [identical, Bool.and_eq_true, beq_iff_eq, identicalEntries_iff]

/-- The scopes of code are compared as `is` compares documents, by either equality. -/
theorem identical_codeWithScope (s t : String) (a b : Document) :
    (Value.codeWithScope s a).identical (.codeWithScope t b) =
      (s == t && (Value.document a).identical (.document b)) := by
  rw [identical, identical]

theorem equal_codeWithScope (s t : String) (a b : Document) :
    (Value.codeWithScope s a).equal (.codeWithScope t b) =
      (s == t && (Value.document a).identical (.document b)) := by
  rw [equal, identical]

/-! ## What is identical is equal -/

theorem equal_of_identical {v w : Value} (h : v.identical w = true) : v.equal w = true := by
  induction v using Value.induction generalizing w with
  | scalar v hv =>
    cases v <;> cases w <;>
      simp_all [isScalar, identical, equal, equalNumbers, number?, Number.equal, Number.toFloat]
  | array items ih =>
    cases w with
    | array others =>
      rw [identical_array_iff, List.forall₂_iff_zip] at h
      rw [equal_array_iff, List.forall₂_iff_zip]
      exact ⟨h.1, fun hmem => ih _ (List.of_mem_zip hmem).1 (h.2 hmem)⟩
    | _ => simp [identical] at h
  | document entries ih =>
    cases w with
    | document others =>
      rw [identical_document_iff] at h
      rw [equal_document_iff]
      refine ⟨h.1, fun e he => ?_⟩
      obtain ⟨w, hget, hsame⟩ := h.2 e he
      exact ⟨w, hget, ih e he hsame⟩
    | _ => simp [identical] at h
  | codeWithScope text scope =>
    cases w with
    | codeWithScope other scope' =>
      rw [identical_codeWithScope] at h
      rwa [equal_codeWithScope]
    | _ => simp [identical] at h

/-! ## The width of integers and the order of keys do not matter -/

theorem identical_sorted_entries {a b : Document} (hb : (Value.document b).WellFormed)
    (h : ∀ e ∈ a, ∀ w : Value, w.WellFormed → e.2.sorted.identical w.sorted = e.2.identical w) :
    (Value.document (Document.sorted a)).identical (.document (Document.sorted b)) =
      (Value.document a).identical (.document b) := by
  have hlength (d : Document) : (Document.sorted d).length = d.length := by
    rw [(Document.sorted_perm d).length_eq, Keyed.mapValues, List.length_map]
  rw [Bool.eq_iff_iff, identical_document_iff, identical_document_iff, hlength, hlength]
  simp only [(Document.sorted_perm a).mem_iff, Keyed.mapValues, List.forall_mem_map]
  refine and_congr_right fun _ => forall₂_congr fun e he => ?_
  rw [Document.get?_sorted (wellFormed_document.mp hb).1]
  cases hget : Keyed.get? b e.1 with
  | none => simp
  | some w => simp [h e he w (hb.get? hget)]

/-- Neither `is` looks at the order of keys, in scopes of code included. -/
theorem identical_sorted {v w : Value} (hw : w.WellFormed) :
    v.sorted.identical w.sorted = v.identical w := by
  induction v using Value.induction generalizing w with
  | scalar v h => cases v <;> cases w <;> simp_all [isScalar, sorted, identical]
  | array items ih =>
    cases w with
    | array others =>
      rw [Bool.eq_iff_iff, sorted, sorted, sortedItems_eq, sortedItems_eq, identical_array_iff,
        identical_array_iff, List.forall₂_map_left_iff, List.forall₂_map_right_iff]
      refine forall₂_congr_of_mem fun x hx y hy => ?_
      rw [ih x hx (wellFormed_array.mp hw y hy)]
    | _ => simp [sorted, identical]
  | document entries ih =>
    cases w with
    | document others => exact identical_sorted_entries hw fun e he _ => ih e he
    | _ => simp [sorted, identical]
  | codeWithScope text scope ih =>
    cases w with
    | codeWithScope other scope' =>
      rw [identical_codeWithScope, ← identical_sorted_entries hw fun e he _ => ih e he,
        ← identical_codeWithScope]
      rfl
    | _ => simp [sorted, identical]

@[simp] theorem number?_normal (v : Value) : v.normal.number? = v.number? := by
  cases v <;> simp [number?]

theorem equal_normal {v w : Value} (hv : v.WellFormed) (hw : w.WellFormed) :
    v.normal.equal w.normal = v.equal w := by
  induction v using Value.induction generalizing w with
  | scalar v h =>
    -- two numbers that are not both integers meet as doubles, which have no width
    cases v <;> cases w <;>
      simp_all [isScalar, equal, equalNumbers, number?, Number.equal]
  | array items ih =>
    cases w with
    | array others =>
      rw [Bool.eq_iff_iff, normal_array, normal_array, equal_array_iff, equal_array_iff,
        List.forall₂_map_left_iff, List.forall₂_map_right_iff]
      refine forall₂_congr_of_mem fun x hx y hy => ?_
      rw [ih x hx (wellFormed_array.mp hv x hx) (wellFormed_array.mp hw y hy)]
    | _ => simp [equal, equalNumbers, number?]
  | document entries ih =>
    cases w with
    | document others =>
      have hnodup := (wellFormed_document.mp hw).1
      rw [Bool.eq_iff_iff, normal_document, normal_document, equal_document_iff,
        equal_document_iff, length_sort_normal, length_sort_normal, forall_mem_sort_normal]
      refine and_congr_right fun _ => forall₂_congr fun e he => ?_
      have hentry := (wellFormed_document.mp hv).2 e he
      rw [get?_sort_normal hnodup]
      cases hget : Keyed.get? others e.1 with
      | none => simp
      | some w => simp [ih e he hentry (hw.get? hget)]
    | _ => simp [equal, equalNumbers, number?]
  | codeWithScope text scope =>
    cases w with
    | codeWithScope other scope' =>
      have hscopes := identical_sorted (v := .document scope) (wellFormed_codeWithScope.mp hw)
      rw [normal_codeWithScope, normal_codeWithScope, equal_codeWithScope, equal_codeWithScope,
        ← hscopes]
      rfl
    | _ => simp [equal, equalNumbers, number?]

/-! ## Without doubles and scopes -/

mutual

/-- Whether neither a double nor code with its scope is in the value. -/
def discrete : Value → Bool
  | .double _ => false
  | .codeWithScope _ _ => false
  | .array items => discreteItems items
  | .document entries => discreteEntries entries
  | _ => true

/-- Whether neither of them is in the items of an array. -/
def discreteItems : List Value → Bool
  | [] => true
  | v :: rest => v.discrete && discreteItems rest

/-- Whether neither of them is in the entries of a document. -/
def discreteEntries : List (String × Value) → Bool
  | [] => true
  | (_, v) :: rest => v.discrete && discreteEntries rest

end

theorem discrete_array {items : List Value} :
    (Value.array items).discrete = true ↔ ∀ v ∈ items, v.discrete = true := by
  rw [discrete]
  induction items with
  | nil => simp [discreteItems]
  | cons v rest ih => simp [discreteItems, ih]

theorem discrete_document {entries : Document} :
    (Value.document entries).discrete = true ↔ ∀ e ∈ entries, e.2.discrete = true := by
  rw [discrete]
  induction entries with
  | nil => simp [discreteEntries]
  | cons e rest ih => simp [discreteEntries, ih]

/-- Values without doubles and scopes are equal when they are the same up to the width of integers
and the order of keys. -/
theorem equal_iff {v w : Value} (hv : v.WellFormed) (hw : w.WellFormed)
    (hfv : v.discrete = true) (hfw : w.discrete = true) :
    v.equal w = true ↔ v.normal = w.normal := by
  induction v using Value.induction generalizing w with
  | scalar v h =>
    cases v <;> cases w <;>
      simp_all [isScalar, discrete, equal, equalNumbers, number?, Number.equal]
  | array items ih =>
    cases w with
    | array others =>
      rw [equal_array_iff, normal_array, normal_array, Value.array.injEq, ← List.forall₂_eq_eq_eq,
        List.forall₂_map_left_iff, List.forall₂_map_right_iff]
      refine forall₂_congr_of_mem fun x hx y hy => ?_
      exact ih x hx (wellFormed_array.mp hv x hx) (wellFormed_array.mp hw y hy)
        (discrete_array.mp hfv x hx) (discrete_array.mp hfw y hy)
    | _ => simp [equal, equalNumbers, number?]
  | document entries ih =>
    cases w with
    | document others =>
      have hkeys := wellFormed_document.mp hv
      have hkeys' := wellFormed_document.mp hw
      -- sorted entries are equal when they are a permutation, which is looked up key by key
      rw [equal_document_iff, normal_document, normal_document, Value.document.injEq,
        Keyed.sort_eq_iff_perm ((Keyed.nodup_mapValues _).mpr hkeys.1),
        Keyed.perm_iff_forall_get? ((Keyed.nodup_mapValues _).mpr hkeys.1)
          ((Keyed.nodup_mapValues _).mpr hkeys'.1)]
      simp only [Keyed.get?_mapValues, Option.map_eq_some_iff]
      simp only [Keyed.mapValues, List.length_map, List.forall_mem_map]
      refine and_congr_right fun _ => forall₂_congr fun e he => exists_congr fun w => ?_
      refine and_congr_right fun hget => ?_
      rw [ih e he (hkeys.2 e he) (hw.get? hget) (discrete_document.mp hfv e he)
        (discrete_document.mp hfw _ (Keyed.mem_of_get? hget)), eq_comm]
    | _ => simp [equal, equalNumbers, number?]
  | codeWithScope text scope => cases hfv

/-- With every integer in 64 bits there is nothing that `eq` sees through and `is` does not. -/
theorem identical_widened_iff {v w : Value} (hv : v.discrete = true)
    (hw : w.discrete = true) :
    v.widened.identical w.widened = true ↔ v.equal w = true := by
  induction v using Value.induction generalizing w with
  | scalar v h =>
    cases v <;> cases w <;>
      simp_all [isScalar, discrete, widened, identical, equal, equalNumbers, number?,
        Number.equal]
  | array items ih =>
    cases w with
    | array others =>
      rw [widened, widened, widenedItems_eq, widenedItems_eq, identical_array_iff, equal_array_iff,
        List.forall₂_map_left_iff, List.forall₂_map_right_iff]
      exact forall₂_congr_of_mem fun x hx y hy =>
        ih x hx (discrete_array.mp hv x hx) (discrete_array.mp hw y hy)
    | _ => simp [widened, identical, equal, equalNumbers, number?]
  | document entries ih =>
    cases w with
    | document others =>
      rw [widened, widened, widenedEntries_eq, widenedEntries_eq, identical_document_iff,
        equal_document_iff]
      simp only [Keyed.get?_mapValues]
      simp only [Keyed.mapValues, List.length_map, List.forall_mem_map]
      refine and_congr_right fun _ => forall₂_congr fun e he => ?_
      cases hget : Keyed.get? others e.1 with
      | none => simp
      | some w =>
        have hfree := discrete_document.mp hw _ (Keyed.mem_of_get? hget)
        simp [ih e he (discrete_document.mp hv e he) hfree]
    | _ => simp [widened, identical, equal, equalNumbers, number?]
  | codeWithScope text scope => cases hv

/-- Two integers are equal when they are one number, whatever their widths. -/
theorem equal_of_integers {v w : Value} {m n : Int64} (hv : v.integer? = some m)
    (hw : w.integer? = some n) : v.equal w = true ↔ m = n := by
  cases v <;> cases w <;> simp_all [integer?, equal, equalNumbers, number?, Number.equal]

end Value

open Value

/-- Between values without doubles and without code with its scope, `eq` is strict equality once
every integer is widened, whatever the order of keys: an equivalence, by which two integers are equal
only if they are one number. An array contains a value when one of its items is equal to it in that
sense. And any two values that are identical are equal, whatever they hold. -/
theorem Operator.eq_strict {a b c : Value} {items : List Value} (ha : a.WellFormed)
    (hb : b.WellFormed) (hc : c.WellFormed) (hitems : (Value.array items).WellFormed)
    (hfa : a.discrete = true) (hfb : b.discrete = true) (hfc : c.discrete = true)
    (hfitems : (Value.array items).discrete = true) :
    (Operator.eq.apply a b = .bool true ↔ a.widened.sorted = b.widened.sorted) ∧
    (Operator.eq.apply a b = .bool true ↔
      Operator.is.apply a.widened b.widened = .bool true) ∧
    Operator.eq.apply a a = .bool true ∧
    Operator.eq.apply a b = Operator.eq.apply b a ∧
    (Operator.eq.apply a b = .bool true → Operator.eq.apply b c = .bool true →
      Operator.eq.apply a c = .bool true) ∧
    (∀ m n, a.integer? = some m → b.integer? = some n →
      (Operator.eq.apply a b = .bool true ↔ m = n)) ∧
    (Operator.contains.apply a (.array items) = .bool true ↔
      ∃ item ∈ items, item.widened.sorted = a.widened.sorted) ∧
    ∀ v w, Operator.is.apply v w = .bool true → Operator.eq.apply v w = .bool true := by
  have hread (v w : Value) : Operator.eq.apply v w = .bool true ↔ v.equal w = true := by
    simp [Operator.apply]
  have hab := equal_iff ha hb hfa hfb
  refine ⟨?strict, ?widened, ?reflexive, ?symmetric, ?transitive, ?integers, ?contains, ?identical⟩
  case strict => exact (hread a b).trans hab
  case widened =>
    rw [hread, ← identical_widened_iff hfa hfb]
    simp [Operator.apply]
  case reflexive => exact (hread a a).mpr ((equal_iff ha ha hfa hfa).mpr rfl)
  case symmetric =>
    have hswap : a.equal b = b.equal a := by
      rw [Bool.eq_iff_iff, hab, equal_iff hb ha hfb hfa, eq_comm]
    simp only [Operator.apply, hswap]
  case transitive =>
    rw [hread, hread, hread, hab, equal_iff hb hc hfb hfc, equal_iff ha hc hfa hfc]
    exact Eq.trans
  case integers =>
    intro m n hm hn
    rw [hread, equal_of_integers hm hn]
  case contains =>
    have hitem : ∀ item ∈ items, item.equal a = true ↔ item.normal = a.normal := by
      intro item hmem
      have hfitem := discrete_array.mp hfitems item hmem
      exact equal_iff (wellFormed_array.mp hitems item hmem) ha hfitem hfa
    simp only [Operator.apply, Operator.holds, Value.bool.injEq, List.any_eq_true]
    exact exists_congr fun item => and_congr_right fun hmem => hitem item hmem
  case identical =>
    intro v w h
    rw [hread]
    refine equal_of_identical ?_
    simpa [Operator.apply] using h

/-! ## Anti-vacuity: one order, written down twice -/

/-- An order, its number in 32 bits. -/
def narrowOrder : Document := [("number", .int32 1), ("lines", .array [.int64 2, .string "gift"])]

/-- The order with its number in 64 bits and a line in 32, the lines first. -/
def wideOrder : Document := [("lines", .array [.int32 2, .string "gift"]), ("number", .int64 1)]

theorem narrowOrder_wellFormed : (Value.document narrowOrder).WellFormed :=
  wellFormed_document.mpr
    ⟨by simp [narrowOrder, Keyed.Nodup, Keyed.keys],
      by simp [narrowOrder, WellFormed, ItemsWellFormed]⟩

theorem wideOrder_wellFormed : (Value.document wideOrder).WellFormed :=
  wellFormed_document.mpr
    ⟨by simp [wideOrder, Keyed.Nodup, Keyed.keys],
      by simp [wideOrder, WellFormed, ItemsWellFormed]⟩

/-- The two are equal, and each is found where the other is stored. They are identical once their
integers are widened, and not before. -/
theorem orders_equal :
    Operator.is.apply (.document narrowOrder) (.document wideOrder) = .bool false ∧
      (Value.document narrowOrder).widened.sorted = (Value.document wideOrder).widened.sorted ∧
      Operator.is.apply (Value.document narrowOrder).widened (Value.document wideOrder).widened =
        .bool true ∧
      Operator.contains.apply (.document narrowOrder) (.array [.null, .document wideOrder]) =
        .bool true := by
  have hequal : Operator.eq.apply (.document narrowOrder) (.document wideOrder) = .bool true := rfl
  have hitems : (Value.array [.null, .document wideOrder]).WellFormed :=
    ⟨trivial, wideOrder_wellFormed, trivial⟩
  obtain ⟨hstrict, hwidened, -, -, -, -, hcontains, -⟩ :=
    Operator.eq_strict narrowOrder_wellFormed wideOrder_wellFormed narrowOrder_wellFormed hitems
      rfl rfl rfl rfl
  have hsorted := hstrict.mp hequal
  exact ⟨rfl, hsorted, hwidened.mp hequal, hcontains.mpr ⟨_, by simp, hsorted.symm⟩⟩

end TypedStore
