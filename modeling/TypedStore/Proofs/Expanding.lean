import Mathlib.Data.List.Induction
import TypedStore.Proofs.KeyOrder
import TypedStore.Proofs.Merging

/-!
What a flat document expands to: of several assignments the first one stands.

Each further entry goes under what the earlier ones came to (`expandAll_concat`). So it changes no
value there that is no document (`getPath?_expandAll_append`), and entries whose paths diverge are
all kept (`follow?_expandAll`). The keys that come out are names: they have no dots, and none is
listed twice (`named_expandAll`). A document with such keys expands to its own entries, in reverse
(`expandAll_of_named`), so nothing is left to expand a second time.
-/

namespace TypedStore.Document

open Value (ClearOf)

/-! ## One entry after another -/

/-- A further entry goes under what there is. -/
theorem expandAll_concat (flat : Document) (e : String × Value) :
    expandAll (flat ++ [e]) = merge (expand e.1 e.2) (expandAll flat) := by
  rw [expandAll, List.foldl_append]
  rfl

/-- What a value that is no document is merged over does not show. -/
theorem getPath?_merge_of_plain (a : Document) {b : Document} {p : List String} {v : Value}
    (hb : getPath? b p = some v) (hplain : v.document? = none) :
    getPath? (merge a b) p = some v := by
  have hp : p ≠ [] := by
    rintro rfl
    cases hb
  rw [getPath?_eq_follow? hp] at hb ⊢
  rw [← mergeValue_document, follow?_mergeValue, hb]
  cases (Value.document a).follow? p with
  | none => rfl
  | some x =>
    exact congrArg some (mergeValue_of_not_document x (Value.document?_eq_none_iff.mp hplain))

/-- A value that is no document stays, whatever is assigned after it. -/
theorem getPath?_expandAll_append {flat : Document} (later : Document) {p : List String} {v : Value}
    (h : getPath? (expandAll flat) p = some v) (hplain : v.document? = none) :
    getPath? (expandAll (flat ++ later)) p = some v := by
  induction later using List.reverseRecOn with
  | nil => rwa [List.append_nil]
  | append_singleton rest e ih =>
    rw [← List.append_assoc, expandAll_concat]
    exact getPath?_merge_of_plain _ ih hplain

/-- Entries whose paths diverge are all kept. -/
theorem follow?_expandAll {flat : Document}
    (h : (Keyed.keys flat).Pairwise fun k l => Diverge (Dotted.split k) (Dotted.split l))
    {e : String × Value} (he : e ∈ flat) :
    (Value.document (expandAll flat)).follow? (Dotted.split e.1) = some e.2 := by
  induction flat using List.reverseRecOn with
  | nil => cases he
  | append_singleton rest last ih =>
    rw [Keyed.keys, List.map_append, List.pairwise_append] at h
    obtain ⟨hrest, -, hlast⟩ := h
    have hapart : ∀ k ∈ Keyed.keys rest, Diverge (Dotted.split k) (Dotted.split last.1) :=
      fun k hk => hlast k hk last.1 (List.mem_singleton_self _)
    rw [expandAll_concat, ← mergeValue_document, document_expand]
    rcases List.mem_append.mp he with hmem | hmem
    · have hkey := hapart e.1 (List.mem_map_of_mem hmem)
      rw [follow?_mergeValue_of_clearOf_left (clearOf_nest hkey.symm last.2), ih hrest hmem]
    · obtain rfl := List.mem_singleton.mp hmem
      have hclear := clearOf_expandAll (Dotted.split_ne_nil e.1) hapart
      rw [follow?_mergeValue_of_clearOf _ hclear, follow?_nest]

/-! ## Expanded documents -/

/-- The keys are names: no dot is in them, and none is listed twice. -/
structure Named (d : Document) : Prop where
  dotFree : ∀ k ∈ Keyed.keys d, '.' ∉ k.toList
  nodup : Keyed.Nodup d

theorem named_expand (key : String) (v : Value) : Named (expand key v) := by
  unfold expand
  cases h : Dotted.split key with
  | nil => exact absurd h (Dotted.split_ne_nil key)
  | cons k rest =>
    refine ⟨fun j hj => ?_, List.nodup_singleton k⟩
    rw [List.mem_singleton.mp hj]
    exact Dotted.dot_notMem_of_mem_split (h ▸ List.mem_cons_self ..)

theorem named_expandAll (flat : Document) : Named (expandAll flat) := by
  refine expandAll_induction (motive := Named) ⟨nofun, List.nodup_nil⟩ ?_ ?_
  · intro a b ha hb
    exact ⟨fun k hk => (mem_keys_merge.mp hk).elim (ha.dotFree k) (hb.dotFree k),
      nodup_merge ha.nodup hb.nodup⟩
  · intro e _
    exact named_expand e.1 e.2

theorem expand_of_no_dot {key : String} (h : '.' ∉ key.toList) (v : Value) :
    expand key v = [(key, v)] := by
  simp [expand, Dotted.split_of_no_dot h, nest]

/-- An entry under a new key comes first. -/
theorem merge_singleton {e : String × Value} {b : Document} (h : e.1 ∉ Keyed.keys b) :
    merge [e] b = e :: b := by
  have hentry : overlaid b e = e := by
    rw [overlaid, Keyed.get?_eq_none_iff.mpr h]
  have hrest : unmatched [e] b = b := by
    refine List.filter_eq_self.mpr fun x hx => ?_
    have hne : e.1 ≠ x.1 := fun heq => h (heq ▸ List.mem_map_of_mem hx)
    simp [Keyed.contains, Keyed.get?_singleton, hne]
  rw [merge, mergeEntries_eq_map, hrest, List.map_singleton, hentry]
  rfl

/-- Names expand to themselves, the last one first. -/
theorem expandAll_of_named {d : Document} (h : Named d) : expandAll d = d.reverse := by
  induction d using List.reverseRecOn with
  | nil => rfl
  | append_singleton rest e ih =>
    have hkeys : Keyed.keys (rest ++ [e]) = Keyed.keys rest ++ [e.1] := List.map_append
    have hnodup := h.nodup
    rw [Keyed.Nodup, hkeys, List.nodup_append] at hnodup
    have hrest : Named rest :=
      ⟨fun k hk => h.dotFree k (hkeys ▸ List.mem_append_left _ hk), hnodup.1⟩
    have hdot : '.' ∉ e.1.toList :=
      h.dotFree e.1 (hkeys ▸ List.mem_append_right _ (List.mem_singleton_self _))
    have hnew : e.1 ∉ Keyed.keys rest.reverse := by
      rw [Keyed.keys, List.map_reverse, List.mem_reverse]
      exact fun hmem => hnodup.2.2 _ hmem _ (List.mem_singleton_self _) rfl
    rw [expandAll_concat, expand_of_no_dot hdot, ih hrest, merge_singleton hnew,
      List.reverse_concat]

/-- What entries have come to stays at every path where it is no document, whatever entries follow.
Entries of which no path begins another are all at their paths. What has been expanded is not
changed by expanding it again, the order of its keys aside. -/
theorem expandAll_first_wins :
    (∀ flat later p v, getPath? (expandAll flat) p = some v → v.document? = none →
      getPath? (expandAll (flat ++ later)) p = some v) ∧
    (∀ flat, (Keyed.keys flat).Pairwise
        (fun k l => Diverge (Dotted.split k) (Dotted.split l)) →
      ∀ e ∈ flat, getPath? (expandAll flat) (Dotted.split e.1) = some e.2) ∧
    ∀ flat, Same (expandAll (expandAll flat)) (expandAll flat) := by
  refine ⟨?first, ?kept, ?again⟩
  case first =>
    intro flat later p v h hplain
    exact getPath?_expandAll_append later h hplain
  case kept =>
    intro flat h e he
    rw [getPath?_eq_follow? (Dotted.split_ne_nil e.1)]
    exact follow?_expandAll h he
  case again =>
    intro flat
    have hnamed := named_expandAll flat
    rw [expandAll_of_named hnamed]
    exact (same_of_perm hnamed.nodup (List.reverse_perm _).symm).symm

/-! ## Anti-vacuity: two assignments, and two more that meet the first -/

/-- An amount, and a text below the empty key. -/
def assignments : Document := [("info.money", .int64 1), (".note", .string "a")]

/-- The amount once more, above and below. -/
def reassignments : Document :=
  [("info", .document [("money", .int64 2), ("debt", .int64 0)]), ("info.money.cents", .int64 5)]

theorem assignments_diverge : (Keyed.keys assignments).Pairwise
    fun k l => Diverge (Dotted.split k) (Dotted.split l) := by decide

/-- The amount stays as it was first assigned, and the text is at its path. -/
theorem assignments_stand :
    getPath? (expandAll (assignments ++ reassignments)) ["info", "money"] = some (.int64 1) ∧
      getPath? (expandAll assignments) ["", "note"] = some (.string "a") ∧
      Same (expandAll (expandAll (assignments ++ reassignments)))
        (expandAll (assignments ++ reassignments)) := by
  obtain ⟨hfirst, hkept, hagain⟩ := expandAll_first_wins
  have hheld := hkept assignments assignments_diverge
  have hmoney := hheld ("info.money", .int64 1) (List.mem_cons_self ..)
  have hnote := hheld (".note", .string "a") (List.mem_cons_of_mem _ (List.mem_cons_self ..))
  have hinfo : Dotted.split "info.money" = ["info", "money"] := by decide
  have hempty : Dotted.split ".note" = ["", "note"] := by decide
  rw [hinfo] at hmoney
  rw [hempty] at hnote
  exact ⟨hfirst _ reassignments _ _ hmoney rfl, hnote, hagain _⟩

end TypedStore.Document
