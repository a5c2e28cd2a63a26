import TypedStore.Json
import TypedStore.Proofs.Width

/-!
What comes back from JSON.

Of an export and an import no more is taken for granted than what `JsonFormat.Lawful` says: a value
that survives JSON (`Value.Survives`) is read back with its integers in 64 bits, in some order of
keys, and the order of keys makes no difference to what is written. So a document comes back the
same up to that (`Lawful.read?_document`), and documents that survive have one JSON exactly when
they are the same (`Lawful.write_eq_iff`). The format in use keeps these laws
(`JsonFormat.extended_lawful`).
-/

namespace TypedStore

namespace Value

theorem widened_widened (v : Value) : v.widened.widened = v.widened := by
  induction v using Value.induction with
  | scalar v h => cases v <;> simp_all [isScalar, widened]
  | array items ih =>
    simp only [widened, widenedItems_eq, List.map_map]
    exact congrArg Value.array (List.map_congr_left ih)
  | document entries ih =>
    simp only [widened, widenedEntries_eq, Keyed.mapValues, List.map_map]
    refine congrArg Value.document (List.map_congr_left fun e he => ?_)
    exact congrArg (Prod.mk e.1) (ih e he)
  | codeWithScope text scope => rfl

/-- Whether documents are sorted before or after integers are widened is the same. -/
theorem widened_sorted (v : Value) : v.sorted.widened = v.normal := by
  induction v using Value.induction with
  | scalar v h => cases v <;> simp_all [isScalar, widened, sorted]
  | array items ih =>
    simp only [normal_array, sorted, widened, widenedItems_eq, sortedItems_eq, List.map_map]
    exact congrArg Value.array (List.map_congr_left ih)
  | document entries ih =>
    simp only [normal_document, sorted, widened, widenedEntries_eq, sortedEntries_eq]
    rw [← Keyed.sort_mapValues, Keyed.mapValues, Keyed.mapValues, List.map_map]
    refine congrArg (fun es => Value.document (Keyed.sort es)) (List.map_congr_left fun e he => ?_)
    exact congrArg (Prod.mk e.1) (ih e he)
  | codeWithScope text scope => rfl

/-- Booleans, strings, null, 64-bit integers, finite doubles, and arrays and documents of these,
with no key that begins with a dollar sign. -/
inductive Survives : Value → Prop where
  | null : Survives .null
  | bool (b : Bool) : Survives (.bool b)
  | int64 (n : Int64) : Survives (.int64 n)
  | double {x : Float} (h : x.isFinite = true) : Survives (.double x)
  | string (text : String) : Survives (.string text)
  | array {items : List Value} (h : ∀ v ∈ items, Survives v) : Survives (.array items)
  | document {entries : Document} (plain : ∀ k ∈ Keyed.keys entries, k.toList.head? ≠ some '$')
    (h : ∀ e ∈ entries, Survives e.2) : Survives (.document entries)

namespace Survives

variable {v : Value}

theorem widened_eq (h : v.Survives) : v.widened = v := by
  induction h with
  | array _ ih => rw [widened, widenedItems_eq, List.map_congr_left ih, List.map_id']
  | @document entries _ _ ih =>
    have hentries : Keyed.mapValues widened entries = entries := by
      rw [Keyed.mapValues, List.map_congr_left (g := id), List.map_id]
      exact fun e he => congrArg (Prod.mk e.1) (ih e he)
    rw [widened, widenedEntries_eq, hentries]
  | _ => rfl

theorem sorted (h : v.Survives) : v.sorted.Survives := by
  induction h with
  | null => exact .null
  | bool b => exact .bool b
  | int64 n => exact .int64 n
  | double h => exact .double h
  | string text => exact .string text
  | array _ ih =>
    rw [Value.sorted, sortedItems_eq]
    exact .array (List.forall_mem_map.mpr ih)
  | @document entries plain _ ih =>
    have hperm : (Document.sorted entries).Perm _ := Document.sorted_perm entries
    refine .document ?_ ?_
    · exact fun k hk => plain k ((Document.keys_sorted_perm entries).mem_iff.mp hk)
    · intro e he
      obtain ⟨e', he', rfl⟩ := List.mem_map.mp (hperm.mem_iff.mp he)
      exact ih e' he'

end Survives

end Value

namespace JsonFormat

/-- What is relied on of an export and an import. A value that survives JSON is read back from it,
with its integers in 64 bits; its documents may list their keys in another order. In which order
they did is not to be seen from the JSON. -/
structure Lawful (f : JsonFormat) : Prop where
  back : ∀ v : Value, v.widened.Survives → ∃ w, f.read? (f.write v) = some w ∧ w.sorted = v.normal
  blind : ∀ v w : Value, v.sorted = w.sorted → f.write v = f.write w

namespace Lawful

variable {f : JsonFormat} {d e : Document}

theorem read?_document (hf : f.Lawful) (h : (Value.document d).widened.Survives) :
    ∃ members, f.read? (f.write (.document d)) = some (.document members) ∧
      (Value.document members).sorted = (Value.document d).normal := by
  obtain ⟨w, hread, hsorted⟩ := hf.back _ h
  cases w with
  | document members => exact ⟨members, hread, hsorted⟩
  | _ => simp [Value.sorted] at hsorted

/-- A document that survives comes back the same. -/
theorem read?_same (hf : f.Lawful) (h : (Value.document d).Survives) :
    ∃ members, f.read? (f.write (.document d)) = some (.document members) ∧
      Document.Same members d := by
  have hwidened := h.widened_eq
  obtain ⟨members, hread, hsorted⟩ := hf.read?_document (hwidened.symm ▸ h)
  rw [Value.normal, hwidened] at hsorted
  exact ⟨members, hread, Value.document.inj hsorted⟩

end Lawful

end JsonFormat

/-! ## The format in use -/

namespace Json

theorem ofItems_eq (items : List Value) : ofItems items = items.map ofValue := by
  induction items with
  | nil => rfl
  | cons v rest ih => rw [ofItems, ih, List.map_cons]

theorem ofEntries_eq (entries : Document) :
    ofEntries entries = Keyed.mapValues ofValue entries := by
  induction entries with
  | nil => rfl
  | cons e rest ih => rw [ofEntries, ih]; rfl

/-- JSON has one kind of integer. -/
theorem ofValue_widened (v : Value) : ofValue v.widened = ofValue v := by
  induction v using Value.induction with
  | scalar v h => cases v <;> simp_all [Value.isScalar, Value.widened, ofValue]
  | array items ih =>
    simp only [Value.widened, ofValue, ofItems_eq, Value.widenedItems_eq, List.map_map]
    exact congrArg Json.array (List.map_congr_left ih)
  | document entries ih =>
    simp only [Value.widened, ofValue, ofEntries_eq, Value.widenedEntries_eq, Keyed.mapValues,
      List.map_map]
    refine congrArg Json.object (List.map_congr_left fun e he => ?_)
    exact congrArg (Prod.mk e.1) (ih e he)
  | codeWithScope text scope => rfl

theorem readItems?_ofItems {items : List Value}
    (h : ∀ v ∈ items, (ofValue v).read? .wide = some v.sorted) :
    readItems? .wide (ofItems items) = some (Value.sortedItems items) := by
  induction items with
  | nil => rfl
  | cons v rest ih =>
    have hrest := ih fun v hv => h v (List.mem_cons_of_mem _ hv)
    simp [ofItems, readItems?, Value.sortedItems, h v (List.mem_cons_self ..), hrest]

theorem readMembers?_ofEntries {entries : Document}
    (h : ∀ e ∈ entries, (ofValue e.2).read? .wide = some e.2.sorted) :
    readMembers? .wide (ofEntries entries) = some (Value.sortedEntries entries) := by
  induction entries with
  | nil => rfl
  | cons e rest ih =>
    have hrest := ih fun e he => h e (List.mem_cons_of_mem _ he)
    simp [ofEntries, readMembers?, Value.sortedEntries, h e (List.mem_cons_self ..), hrest]

theorem readInteger?_toInt (n : Int64) : readInteger? .wide n.toInt = some (.int64 n) := by
  have hmin : Value.minInteger ≤ n.toInt := n.le_toInt
  have hmax : n.toInt < Value.maxInteger + 1 := n.toInt_lt
  rw [readInteger?, if_neg (by simp), if_pos ⟨hmin, by omega⟩, Int64.ofInt_toInt]

/-- What survives JSON is read back as it was, sorted. -/
theorem read?_ofValue {v : Value} (h : v.Survives) : (ofValue v).read? .wide = some v.sorted := by
  induction h with
  | null => rfl
  | bool b => rfl
  | int64 n => exact readInteger?_toInt n
  | double h => simp [ofValue, ofFloat, h, read?, Value.sorted]
  | string text => rfl
  | array _ ih => simp [ofValue, read?, readItems?_ofItems ih, Value.sorted]
  | document _ _ ih => simp [ofValue, read?, readMembers?_ofEntries ih, Value.sorted]

end Json

theorem JsonFormat.extended_lawful : extended.Lawful where
  back v h := by
    -- widened and sorted, the value has the same JSON
    have hwritten : extended.write v = .ofValue v.normal := by
      rw [← Value.widened_sorted, Json.ofValue_widened]
      rfl
    refine ⟨v.normal.sorted, ?_, ?_⟩
    · rw [hwritten]
      exact Json.read?_ofValue h.sorted
    · rw [Value.sorted_sorted, Value.normal, Value.sorted_sorted]
  blind _ _ h := congrArg Json.ofValue h

end TypedStore
