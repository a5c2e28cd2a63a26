import Mathlib.Data.List.Nodup
import TypedStore.Value.Sorted

/-!
Documents up to the order of keys.

`Document.sorted` has the entries in the order of their keys at every depth, and two documents are
the same when they are equal so sorted (`Document.Same`). With distinct keys that means the same
under every key (`Document.same_iff`).
-/

namespace TypedStore

/-! ## Entries in the order of their keys -/

namespace Keyed

variable {α β : Type}

theorem sort_perm (d : Keyed String α) : (sort d).Perm d := List.mergeSort_perm ..

theorem sort_ascending (d : Keyed String α) : (sort d).Pairwise fun a b => a.1 ≤ b.1 := by
  have hsorted : (sort d).Pairwise fun a b => decide (a.1 ≤ b.1) = true := by
    apply List.pairwise_mergeSort
    · intro a b c hab hbc
      exact decide_eq_true (String.le_trans (of_decide_eq_true hab) (of_decide_eq_true hbc))
    · intro a b
      simpa using String.le_total a.1 b.1
  exact hsorted.imp of_decide_eq_true

theorem sort_sort (d : Keyed String α) : sort (sort d) = sort d :=
  List.mergeSort_of_pairwise ((sort_ascending d).imp decide_eq_true)

theorem sort_mapValues (f : α → β) (d : Keyed String α) :
    sort (mapValues f d) = mapValues f (sort d) := by
  rw [sort, mapValues, ← List.map_mergeSort (r := fun a b => decide (a.1 ≤ b.1))]
  · rfl
  · exact fun _ _ _ _ => rfl

theorem keys_mapValues (f : α → β) (d : Keyed String α) : keys (mapValues f d) = keys d := by
  simp [keys, mapValues]

theorem nodup_mapValues (f : α → β) {d : Keyed String α} : Nodup (mapValues f d) ↔ Nodup d := by
  rw [Nodup, keys_mapValues, Nodup]

/-- With distinct keys, entries that are the same in some order are equal in the order of keys. -/
theorem sort_eq_iff_perm {d e : Keyed String α} (hd : Nodup d) :
    sort d = sort e ↔ d.Perm e := by
  constructor
  · intro h
    exact (sort_perm d).symm.trans (h ▸ sort_perm e)
  · intro h
    have hperm : (sort d).Perm (sort e) := (sort_perm d).trans (h.trans (sort_perm e).symm)
    refine hperm.eq_of_pairwise ?_ (sort_ascending d) (sort_ascending e)
    intro a b ha hb hab hba
    have hkey : a.1 = b.1 := String.le_antisymm hab hba
    exact List.inj_on_of_nodup_map hd ((sort_perm d).subset ha)
      (h.symm.subset ((sort_perm e).subset hb)) hkey

theorem perm_iff_get? {d e : Keyed String α} (hd : Nodup d) (he : Nodup e) :
    d.Perm e ↔ ∀ k, get? d k = get? e k := by
  constructor
  · exact get?_perm hd
  · intro h
    refine (List.perm_ext_iff_of_nodup (hd.of_map _) (he.of_map _)).mpr ?_
    intro ⟨k, v⟩
    rw [← get?_eq_some_iff hd, ← get?_eq_some_iff he, h]

end Keyed

/-! ## Documents -/

namespace Value

theorem sortedEntries_eq (entries : Document) :
    sortedEntries entries = Keyed.mapValues sorted entries := by
  induction entries with
  | nil => rfl
  | cons e rest ih => rw [sortedEntries, ih]; rfl

/-- Entries that are sorted inside stay so when they are put in order. -/
theorem sort_sortedEntries_sort {entries : Document}
    (h : sortedEntries (sortedEntries entries) = sortedEntries entries) :
    Keyed.sort (sortedEntries (Keyed.sort (sortedEntries entries))) =
      Keyed.sort (sortedEntries entries) := by
  rw [sortedEntries_eq] at h
  rw [sortedEntries_eq (Keyed.sort _), ← Keyed.sort_mapValues, Keyed.sort_sort, h]

mutual

theorem sorted_sorted : (v : Value) → v.sorted.sorted = v.sorted
  | .array items => by simp [sorted, sortedItems_sortedItems items]
  | .document entries =>
    congrArg Value.document (sort_sortedEntries_sort (sortedEntries_sortedEntries entries))
  | .codeWithScope text scope =>
    congrArg (Value.codeWithScope text)
      (sort_sortedEntries_sort (sortedEntries_sortedEntries scope))
  | .null | .bool _ | .int32 _ | .int64 _ | .double _ | .dateTime _ | .string _ | .special _ => by
    simp [sorted]

theorem sortedItems_sortedItems :
    (items : List Value) → sortedItems (sortedItems items) = sortedItems items
  | [] => rfl
  | v :: rest => by simp [sortedItems, sorted_sorted v, sortedItems_sortedItems rest]

theorem sortedEntries_sortedEntries : (entries : List (String × Value)) →
    sortedEntries (sortedEntries entries) = sortedEntries entries
  | [] => rfl
  | (k, v) :: rest => by simp [sortedEntries, sorted_sorted v, sortedEntries_sortedEntries rest]

end

/-- Whether a value has no others inside. -/
def isScalar : Value → Bool
  | .array _ => false
  | .document _ => false
  | .codeWithScope _ _ => false
  | _ => true

theorem eq_of_sorted_eq {v w : Value} (hv : v.isScalar = true) (h : w.sorted = v.sorted) :
    w = v := by
  cases v <;> cases w <;> simp_all [sorted, isScalar]

end Value

namespace Document

/-- The document in the order of keys, and those inside. -/
def sorted (d : Document) : Document := Keyed.sort (Value.sortedEntries d)

/-- Two documents have the same entries, and so at every depth, in whatever order. -/
def Same (d e : Document) : Prop := sorted d = sorted e

variable {d e x : Document}

theorem sorted_sorted (d : Document) : sorted (sorted d) = sorted d :=
  Value.document.inj (Value.sorted_sorted (.document d))

theorem same_sorted (d : Document) : Same (sorted d) d := sorted_sorted d

theorem sorted_perm (d : Document) : (sorted d).Perm (Keyed.mapValues Value.sorted d) := by
  rw [sorted, Value.sortedEntries_eq]
  exact Keyed.sort_perm _

theorem keys_sorted_perm (d : Document) : (Keyed.keys (sorted d)).Perm (Keyed.keys d) := by
  rw [← Keyed.keys_mapValues Value.sorted d]
  exact (sorted_perm d).map Prod.fst

theorem nodup_sorted : Keyed.Nodup (sorted d) ↔ Keyed.Nodup d := (keys_sorted_perm d).nodup_iff

theorem get?_sorted (hd : Keyed.Nodup d) (k : String) :
    Keyed.get? (sorted d) k = (Keyed.get? d k).map Value.sorted := by
  rw [← Keyed.get?_mapValues]
  exact Keyed.get?_perm (nodup_sorted.mpr hd) (sorted_perm d) k

namespace Same

theorem refl (d : Document) : Same d d := rfl

theorem symm (h : Same d e) : Same e d := Eq.symm h

theorem trans (h : Same d e) (h' : Same e x) : Same d x := Eq.trans h h'

theorem mem_keys_iff (h : Same d e) {k : String} : k ∈ Keyed.keys d ↔ k ∈ Keyed.keys e := by
  rw [← (keys_sorted_perm d).mem_iff, ← (keys_sorted_perm e).mem_iff, h]

theorem nodup_iff (h : Same d e) : Keyed.Nodup d ↔ Keyed.Nodup e := by
  rw [← nodup_sorted, h, nodup_sorted]

theorem get? (h : Same d e) (he : Keyed.Nodup e) (k : String) :
    (Keyed.get? d k).map Value.sorted = (Keyed.get? e k).map Value.sorted := by
  rw [← get?_sorted he, ← get?_sorted (h.nodup_iff.mpr he), h]

/-- Where one has a scalar, so has the other. -/
theorem get?_scalar (h : Same d e) (he : Keyed.Nodup e) {k : String} {v : Value}
    (hget : Keyed.get? e k = some v) (hv : v.isScalar = true) : Keyed.get? d k = some v := by
  have hsame := h.get? he k
  rw [hget, Option.map_some, Option.map_eq_some_iff] at hsame
  obtain ⟨w, hw, hsorted⟩ := hsame
  rw [hw, Value.eq_of_sorted_eq hv hsorted]

/-- Below a key that has a document in one, the other has the same document. -/
theorem get?_document (h : Same d e) (he : Keyed.Nodup e) {k : String} {inner : Document}
    (hget : Keyed.get? d k = some (.document inner)) :
    ∃ inner', Keyed.get? e k = some (.document inner') ∧ Same inner inner' := by
  have hsame := h.get? he k
  rw [hget, Option.map_some, eq_comm, Option.map_eq_some_iff] at hsame
  obtain ⟨v, hv, hsorted⟩ := hsame
  cases v <;> simp only [Value.sorted, reduceCtorEq] at hsorted
  exact ⟨_, hv, (Value.document.inj hsorted).symm⟩

end Same

theorem same_iff_perm (hd : Keyed.Nodup d) :
    Same d e ↔ (Keyed.mapValues Value.sorted d).Perm (Keyed.mapValues Value.sorted e) := by
  rw [Same, sorted, sorted, Value.sortedEntries_eq, Value.sortedEntries_eq,
    Keyed.sort_eq_iff_perm ((Keyed.nodup_mapValues _).mpr hd)]

/-- With distinct keys, documents are the same when they have the same under every key. -/
theorem same_iff (hd : Keyed.Nodup d) (he : Keyed.Nodup e) :
    Same d e ↔
      ∀ k, (Keyed.get? d k).map Value.sorted = (Keyed.get? e k).map Value.sorted := by
  rw [same_iff_perm hd,
    Keyed.perm_iff_get? ((Keyed.nodup_mapValues _).mpr hd) ((Keyed.nodup_mapValues _).mpr he)]
  simp only [Keyed.get?_mapValues]

theorem same_of_perm (hd : Keyed.Nodup d) (h : d.Perm e) : Same d e :=
  (same_iff_perm hd).mpr (h.map _)

/-- Values that are equal once sorted make no difference either. -/
theorem Same.insert_sorted (h : Same d e) (he : Keyed.Nodup e) (k : String) {v w : Value}
    (hvw : v.sorted = w.sorted) : Same (Keyed.insert d k v) (Keyed.insert e k w) := by
  have hd := h.nodup_iff.mpr he
  refine (same_iff (Keyed.nodup_insert hd k v) (Keyed.nodup_insert he k w)).mpr fun j => ?_
  rw [Keyed.get?_insert, Keyed.get?_insert]
  split
  · exact congrArg some hvw
  · exact h.get? he j

theorem Same.insert (h : Same d e) (he : Keyed.Nodup e) (k : String) (v : Value) :
    Same (Keyed.insert d k v) (Keyed.insert e k v) := h.insert_sorted he k rfl

theorem Same.erase (h : Same d e) (he : Keyed.Nodup e) (k : String) :
    Same (Keyed.erase d k) (Keyed.erase e k) := by
  have hd := h.nodup_iff.mpr he
  refine (same_iff (Keyed.nodup_erase hd k) (Keyed.nodup_erase he k)).mpr fun j => ?_
  rw [Keyed.get?_erase hd, Keyed.get?_erase he]
  split
  · rfl
  · exact h.get? he j

/-- Entries under two keys may be made in either order. -/
theorem same_insert_insert (hd : Keyed.Nodup d) {k j : String} (hkj : k ≠ j) (v w : Value) :
    Same (Keyed.insert (Keyed.insert d k v) j w) (Keyed.insert (Keyed.insert d j w) k v) := by
  refine (same_iff (Keyed.nodup_insert (Keyed.nodup_insert hd k v) j w)
    (Keyed.nodup_insert (Keyed.nodup_insert hd j w) k v)).mpr fun i => ?_
  simp only [Keyed.get?_insert]
  by_cases hj : j = i
  · rw [if_pos hj, if_neg fun hk => hkj (hk.trans hj.symm), if_pos hj]
  · rw [if_neg hj, if_neg hj]

end Document

end TypedStore
