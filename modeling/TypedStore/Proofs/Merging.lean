import Mathlib.Data.List.Nodup
import TypedStore.Document.Merge

/-!
What a merge of two documents holds at a path, and when a second merge changes nothing.

At a path a merge holds both values merged, or the one that there is (`follow?_mergeValue`). What
the first document has there is lost only where the second one has a value that is no document on
the way: where it `obstructs` the path.

A document is `ClearOf` a path when it has nothing there, and nothing but documents on the way. Then
it leaves what another document has at the path alone, whichever of the two is merged over the
other (`follow?_mergeValue_of_clearOf`, `follow?_mergeValue_of_clearOf_left`). An assignment is
clear of every path that diverges from its own (`clearOf_nest`), and so is what a list of
assignments comes to (`clearOf_expandAll`).

A document that was merged over another once is there already: merged a second time it changes
neither a value nor the order (`merge_merge`).
-/

namespace TypedStore

/-- Neither path is the beginning of the other. -/
def Diverge (p q : List String) : Prop := ¬ p <+: q ∧ ¬ q <+: p

instance (p q : List String) : Decidable (Diverge p q) :=
  inferInstanceAs (Decidable (¬ p <+: q ∧ ¬ q <+: p))

theorem Diverge.tail {k : String} {p q : List String} (h : Diverge (k :: p) (k :: q)) :
    Diverge p q := by
  simpa [Diverge, List.cons_prefix_cons] using h

/-! ## Values in the way of a path -/

namespace Value

theorem follow?_cons_of_not_document {v : Value} (h : ∀ d, v ≠ .document d) (k : String)
    (rest : List String) : v.follow? (k :: rest) = none := by
  cases v with
  | document d => exact absurd rfl (h d)
  | _ => rfl

/-- Whether a value that is no document stands on the way down the path. -/
def obstructs : Value → List String → Bool
  | _, [] => false
  | .document d, k :: rest =>
    match Keyed.get? d k with
    | some v => v.obstructs rest
    | none => false
  | _, _ :: _ => true

theorem obstructs_cons_of_not_document {v : Value} (h : ∀ d, v ≠ .document d) (k : String)
    (rest : List String) : v.obstructs (k :: rest) = true := by
  cases v with
  | document d => exact absurd rfl (h d)
  | _ => rfl

theorem document?_eq_none_iff {v : Value} : v.document? = none ↔ ∀ d, v ≠ .document d := by
  cases v <;> simp [document?]

/-- A path is obstructed when a proper beginning of it leads to a value that is no document. -/
theorem obstructs_iff {v : Value} {p : List String} :
    v.obstructs p = true ↔
      ∃ q w, q <+: p ∧ q ≠ p ∧ v.follow? q = some w ∧ w.document? = none := by
  induction p generalizing v with
  | nil =>
    refine iff_of_false (by simp [obstructs]) ?_
    rintro ⟨q, w, hq, hne, -⟩
    exact hne (List.prefix_nil.mp hq)
  | cons k rest ih =>
    by_cases hv : ∃ d, v = .document d
    · obtain ⟨d, rfl⟩ := hv
      constructor
      · intro h
        rw [obstructs] at h
        cases hget : Keyed.get? d k with
        | none =>
          rw [hget] at h
          cases h
        | some u =>
          rw [hget] at h
          obtain ⟨q, w, hq, hne, hw, hplain⟩ := ih.mp h
          refine ⟨k :: q, w, List.cons_prefix_cons.mpr ⟨rfl, hq⟩, by simpa using hne, ?_, hplain⟩
          rw [follow?, hget]
          exact hw
      · rintro ⟨q, w, hq, hne, hw, hplain⟩
        cases q with
        | nil =>
          cases hw
          cases hplain
        | cons j more =>
          obtain ⟨rfl, hmore⟩ := List.cons_prefix_cons.mp hq
          rw [follow?] at hw
          obtain ⟨u, hget, hu⟩ := Option.bind_eq_some_iff.mp hw
          rw [obstructs, hget]
          exact ih.mpr ⟨more, w, hmore, fun h => hne (by rw [h]), hu, hplain⟩
    · have hv' : ∀ d, v ≠ .document d := fun d h => hv ⟨d, h⟩
      rw [obstructs_cons_of_not_document hv']
      refine iff_of_true rfl ⟨[], v, List.nil_prefix, (List.cons_ne_nil k rest).symm, ?_, ?_⟩
      · rw [follow?]
      · exact document?_eq_none_iff.mpr hv'

end Value

namespace Document

theorem mergeValue_of_not_document (v : Value) {w : Value} (h : ∀ d, w ≠ .document d) :
    mergeValue v w = w := by
  cases w with
  | document d => exact absurd rfl (h d)
  | _ => cases v <;> rfl

theorem mergeValue_of_not_document_left {v : Value} (h : ∀ d, v ≠ .document d) (w : Value) :
    mergeValue v w = w := by
  cases v with
  | document d => exact absurd rfl (h d)
  | _ => rfl

/-- What a merge holds at a path: both values merged, or the one there is. What the first has at the
end can only be cut off by what the second has on the way. -/
theorem follow?_mergeValue (p : List String) (v w : Value) :
    (mergeValue v w).follow? p =
      match v.follow? p, w.follow? p with
      | some x, some y => some (mergeValue x y)
      | none, some y => some y
      | x, none => if w.obstructs p then none else x := by
  induction p generalizing v w with
  | nil => simp only [Value.follow?]
  | cons k rest ih =>
    by_cases hw : ∃ b, w = .document b
    · obtain ⟨b, rfl⟩ := hw
      by_cases hv : ∃ a, v = .document a
      · obtain ⟨a, rfl⟩ := hv
        rw [mergeValue_document]
        cases ha : Keyed.get? a k <;> cases hb : Keyed.get? b k
        · simp [Value.follow?, Value.obstructs, get?_merge, ha, hb]
        · next y =>
          cases hy : y.follow? rest <;> simp [Value.follow?, get?_merge, ha, hb, hy]
        · simp [Value.follow?, Value.obstructs, get?_merge, ha, hb]
        · simp [Value.follow?, Value.obstructs, get?_merge, ha, hb, ih]
      · have hv' : ∀ a, v ≠ .document a := fun a h => hv ⟨a, h⟩
        rw [mergeValue_of_not_document_left hv', Value.follow?_cons_of_not_document hv']
        cases (Value.document b).follow? (k :: rest) <;> simp
    · have hw' : ∀ b, w ≠ .document b := fun b h => hw ⟨b, h⟩
      rw [mergeValue_of_not_document _ hw', Value.follow?_cons_of_not_document hw',
        Value.obstructs_cons_of_not_document hw']
      simp

end Document

/-! ## Values that are clear of a path -/

namespace Value

/-- Nothing is at the path, and what is on the way to it are documents. -/
def ClearOf : List String → Value → Prop
  | k :: rest, .document d => ∀ v, Keyed.get? d k = some v → ClearOf rest v
  | _, _ => False

theorem clearOf_document {k : String} {rest : List String} {d : Document} :
    ClearOf (k :: rest) (.document d) ↔ ∀ v, Keyed.get? d k = some v → ClearOf rest v := Iff.rfl

theorem ClearOf.exists_document {p : List String} {v : Value} (h : ClearOf p v) :
    ∃ k rest d, p = k :: rest ∧ v = .document d := by
  cases p with
  | nil => exact h.elim
  | cons k rest =>
    cases v with
    | document d => exact ⟨k, rest, d, rfl, rfl⟩
    | _ => exact h.elim

theorem clearOf_iff {p : List String} {v : Value} :
    ClearOf p v ↔ v.follow? p = none ∧ v.obstructs p = false := by
  induction p generalizing v with
  | nil => simp [ClearOf, follow?]
  | cons k rest ih =>
    cases v with
    | document d =>
      rw [clearOf_document, follow?, obstructs]
      cases hget : Keyed.get? d k with
      | none => simp
      | some w => simp [ih]
    | _ => simp [ClearOf, obstructs]

theorem ClearOf.follow? {p : List String} {v : Value} (h : ClearOf p v) : v.follow? p = none :=
  (clearOf_iff.mp h).1

end Value

namespace Document

open Value (ClearOf)

/-- An assignment is clear of the paths that diverge from its own. -/
theorem clearOf_nest {p q : List String} (h : Diverge q p) (v : Value) : ClearOf p (nest q v) := by
  induction q generalizing p with
  | nil => exact absurd List.nil_prefix h.1
  | cons j more ih =>
    cases p with
    | nil => exact absurd List.nil_prefix h.2
    | cons k rest =>
      intro w hw
      simp only [Keyed.get?, Option.ite_none_right_eq_some, Option.some.injEq] at hw
      obtain ⟨rfl, rfl⟩ := hw
      exact ih h.tail

theorem clearOf_mergeValue {p : List String} {v w : Value} (hv : ClearOf p v) (hw : ClearOf p w) :
    ClearOf p (mergeValue v w) := by
  induction p generalizing v w with
  | nil => exact hv.elim
  | cons k rest ih =>
    obtain ⟨_, _, a, hp, rfl⟩ := hv.exists_document
    cases hp
    obtain ⟨_, _, b, hp, rfl⟩ := hw.exists_document
    cases hp
    rw [mergeValue_document, Value.clearOf_document]
    intro u hu
    rw [get?_merge] at hu
    cases ha : Keyed.get? a k <;> cases hb : Keyed.get? b k <;> simp only [ha, hb] at hu <;>
      cases hu
    · exact hw _ hb
    · exact hv _ ha
    · exact ih (hv _ ha) (hw _ hb)

/-- What is clear of a path leaves alone what it is merged over there. -/
theorem follow?_mergeValue_of_clearOf {p : List String} (v : Value) {w : Value}
    (hw : ClearOf p w) : (mergeValue v w).follow? p = v.follow? p := by
  obtain ⟨habsent, hfree⟩ := Value.clearOf_iff.mp hw
  rw [follow?_mergeValue, habsent, hfree]
  cases v.follow? p <;> rfl

/-- What is merged over something clear of a path is what it was there. -/
theorem follow?_mergeValue_of_clearOf_left {p : List String} {v : Value} (hv : ClearOf p v)
    (w : Value) : (mergeValue v w).follow? p = w.follow? p := by
  rw [follow?_mergeValue, hv.follow?]
  cases w.follow? p with
  | none => simp
  | some y => rfl

theorem getPath?_merge_of_clearOf (a : Document) {b : Document} {p : List String}
    (hb : ClearOf p (.document b)) : getPath? (merge a b) p = getPath? a p := by
  obtain ⟨k, rest, _, rfl, -⟩ := hb.exists_document
  rw [getPath?_eq_follow? (List.cons_ne_nil k rest), getPath?_eq_follow? (List.cons_ne_nil k rest),
    ← mergeValue_document, follow?_mergeValue_of_clearOf _ hb]

/-! ## Assignments under dotted keys -/

theorem document_expand (key : String) (v : Value) :
    Value.document (expand key v) = nest (Dotted.split key) v := by
  unfold expand
  cases h : Dotted.split key with
  | nil => exact absurd h (Dotted.split_ne_nil key)
  | cons k rest => rfl

theorem get?_expand_eq_none {key k : String} (h : (Dotted.split key).head? ≠ some k) (v : Value) :
    Keyed.get? (expand key v) k = none := by
  unfold expand
  cases hs : Dotted.split key with
  | nil => rfl
  | cons j rest =>
    rw [hs] at h
    simpa [Keyed.get?] using h

/-- What holds of every expanded entry and goes over to merges holds of all entries together. -/
theorem expandAll_induction {motive : Document → Prop} {flat : Document} (empty : motive [])
    (merged : ∀ a b, motive a → motive b → motive (merge a b))
    (expanded : ∀ e ∈ flat, motive (expand e.1 e.2)) : motive (expandAll flat) := by
  exact List.foldlRecOn flat _ empty fun d hd e he => merged _ _ (expanded e he) hd

theorem get?_expandAll_eq_none {flat : Document} {k : String}
    (h : ∀ key ∈ Keyed.keys flat, (Dotted.split key).head? ≠ some k) :
    Keyed.get? (expandAll flat) k = none := by
  refine expandAll_induction (motive := fun d => Keyed.get? d k = none) rfl ?_ ?_
  · intro a b ha hb
    rw [get?_merge, ha, hb]
  · intro e he
    exact get?_expand_eq_none (h e.1 (List.mem_map_of_mem he)) e.2

/-- Assignments to other attributes leave one alone. -/
theorem get?_merge_expandAll (d : Document) {flat : Document} {k : String}
    (h : ∀ key ∈ Keyed.keys flat, (Dotted.split key).head? ≠ some k) :
    Keyed.get? (merge d (expandAll flat)) k = Keyed.get? d k := by
  rw [get?_merge, get?_expandAll_eq_none h]
  cases Keyed.get? d k <;> rfl

/-- Assignments that all diverge from a path come to a document that is clear of it. -/
theorem clearOf_expandAll {flat : Document} {p : List String} (hne : p ≠ [])
    (h : ∀ key ∈ Keyed.keys flat, Diverge (Dotted.split key) p) :
    ClearOf p (.document (expandAll flat)) := by
  refine expandAll_induction (motive := fun d => ClearOf p (.document d)) ?_ ?_ ?_
  · obtain ⟨k, rest, rfl⟩ := List.exists_cons_of_ne_nil hne
    intro v hv
    cases hv
  · intro a b ha hb
    exact clearOf_mergeValue ha hb
  · intro e he
    rw [document_expand]
    exact clearOf_nest (h e.1 (List.mem_map_of_mem he)) e.2

/-! ## Keys stay distinct -/

/-- An entry of a document with what another one has under its key merged over it. -/
def overlaid (b : Document) (e : String × Value) : String × Value :=
  (e.1, match Keyed.get? b e.1 with
    | some w => mergeValue e.2 w
    | none => e.2)

theorem mergeEntries_eq_map (a b : Document) : mergeEntries a b = a.map (overlaid b) := by
  induction a with
  | nil => rfl
  | cons e rest ih => rw [mergeEntries, ih]; rfl

theorem mergeEntries_eq_self_iff {a b : Document} :
    mergeEntries a b = a ↔ ∀ e ∈ a, overlaid b e = e := by
  rw [mergeEntries_eq_map]
  conv_lhs => rhs; rw [← List.map_id a]
  exact List.map_inj_left

theorem keys_mergeEntries (a b : Document) : Keyed.keys (mergeEntries a b) = Keyed.keys a := by
  rw [mergeEntries_eq_map]
  simp [Keyed.keys, overlaid]

theorem mem_keys_merge {a b : Document} {k : String} :
    k ∈ Keyed.keys (merge a b) ↔ k ∈ Keyed.keys a ∨ k ∈ Keyed.keys b := by
  rw [← Keyed.contains_iff, ← Keyed.contains_iff, ← Keyed.contains_iff, Keyed.contains, get?_merge,
    Keyed.contains, Keyed.contains]
  cases Keyed.get? a k <;> cases Keyed.get? b k <;> simp

theorem nodup_merge {a b : Document} (ha : Keyed.Nodup a) (hb : Keyed.Nodup b) :
    Keyed.Nodup (merge a b) := by
  have hsub : (Keyed.keys (unmatched a b)).Sublist (Keyed.keys b) :=
    (List.filter_sublist ..).map _
  show ((mergeEntries a b ++ unmatched a b).map Prod.fst).Nodup
  rw [List.map_append]
  refine List.Nodup.append ?_ (List.Nodup.sublist hsub hb) ?_
  · show (Keyed.keys (mergeEntries a b)).Nodup
    rw [keys_mergeEntries]
    exact ha
  · intro k hk hk'
    rw [← Keyed.keys, keys_mergeEntries, ← Keyed.contains_iff] at hk
    obtain ⟨e, he, rfl⟩ := List.mem_map.mp hk'
    simp [unmatched, hk] at he

theorem entriesWellFormed_iff {d : Document} :
    Value.EntriesWellFormed d ↔ ∀ e ∈ d, e.2.WellFormed := by
  induction d with
  | nil => simp [Value.EntriesWellFormed]
  | cons e rest ih => simp [Value.EntriesWellFormed, ih]

mutual

theorem wellFormed_mergeValue : (v w : Value) → v.WellFormed → w.WellFormed →
    (mergeValue v w).WellFormed
  | .document a, .document b, hv, hw => by
    have hentries := wellFormed_mergeEntries a b hv.2 (entriesWellFormed_iff.mp hw.2)
    refine ⟨nodup_merge hv.1 hw.1, entriesWellFormed_iff.mpr ?_⟩
    intro e he
    rcases List.mem_append.mp he with he | he
    · exact entriesWellFormed_iff.mp hentries e he
    · exact entriesWellFormed_iff.mp hw.2 e (List.mem_filter.mp he).1
  | .document _, .null, _, hw | .document _, .bool _, _, hw | .document _, .int32 _, _, hw
  | .document _, .int64 _, _, hw | .document _, .double _, _, hw
  | .document _, .dateTime _, _, hw | .document _, .string _, _, hw
  | .document _, .array _, _, hw | .document _, .special _, _, hw
  | .document _, .codeWithScope _ _, _, hw => hw
  | .null, _, _, hw | .bool _, _, _, hw | .int32 _, _, _, hw | .int64 _, _, _, hw
  | .double _, _, _, hw | .dateTime _, _, _, hw | .string _, _, _, hw | .array _, _, _, hw
  | .special _, _, _, hw | .codeWithScope _ _, _, _, hw => hw

theorem wellFormed_mergeEntries : (a : List (String × Value)) → (b : Document) →
    Value.EntriesWellFormed a → (∀ e ∈ b, e.2.WellFormed) →
    Value.EntriesWellFormed (mergeEntries a b)
  | [], _, _, _ => trivial
  | (k, v) :: rest, b, ha, hb => by
    refine ⟨?_, wellFormed_mergeEntries rest b ha.2 hb⟩
    cases hget : Keyed.get? b k with
    | none => exact ha.1
    | some w => exact wellFormed_mergeValue v w ha.1 (hb _ (Keyed.mem_of_get? hget))

end

theorem wellFormed_nest (p : List String) {v : Value} (hv : v.WellFormed) :
    (nest p v).WellFormed := by
  induction p with
  | nil => exact hv
  | cons k rest ih => exact ⟨by simp [Keyed.Nodup, Keyed.keys], ih, trivial⟩

theorem wellFormed_expandAll {flat : Document} (h : flat.WellFormed) :
    (expandAll flat).WellFormed := by
  refine expandAll_induction (motive := Document.WellFormed) ?_ ?_ ?_
  · exact ⟨by simp [Keyed.Nodup, Keyed.keys], trivial⟩
  · intro a b ha hb
    exact wellFormed_mergeValue _ _ ha hb
  · intro e he
    show (Value.document (expand e.1 e.2)).WellFormed
    rw [document_expand]
    exact wellFormed_nest _ (entriesWellFormed_iff.mp h.2 e he)

/-! ## Merging twice -/

/-- A merge gives the first document back when no entry changes and no key is new. -/
theorem merge_eq_self_iff {a b : Document} :
    merge a b = a ↔ (∀ e ∈ a, overlaid b e = e) ∧ ∀ k ∈ Keyed.keys b, k ∈ Keyed.keys a := by
  constructor
  · intro h
    have hlen := congrArg List.length h
    have hnil : unmatched a b = [] := by
      rw [merge, List.length_append, mergeEntries_eq_map, List.length_map] at hlen
      exact List.length_eq_zero_iff.mp (by omega)
    rw [merge, hnil, List.append_nil] at h
    refine ⟨mergeEntries_eq_self_iff.mp h, ?_⟩
    intro k hk
    obtain ⟨e, he, rfl⟩ := List.mem_map.mp hk
    have := List.filter_eq_nil_iff.mp hnil e he
    exact Keyed.contains_iff.mp (by simpa using this)
  · rintro ⟨hsame, hkeys⟩
    have hnil : unmatched a b = [] := by
      refine List.filter_eq_nil_iff.mpr ?_
      intro e he
      simpa using Keyed.contains_iff.mpr (hkeys e.1 (List.mem_map_of_mem he))
    rw [merge, hnil, List.append_nil, mergeEntries_eq_self_iff.mpr hsame]

mutual

theorem mergeValue_self : (v : Value) → v.WellFormed → mergeValue v v = v
  | .document d, h => by
    have hentries := mergeEntries_self d d (fun e he => Keyed.get?_of_mem h.1 he) h.2
    have hsame := mergeEntries_eq_self_iff.mp hentries
    rw [mergeValue_document, merge_eq_self_iff.mpr ⟨hsame, fun _ hk => hk⟩]
  | .null, _ | .bool _, _ | .int32 _, _ | .int64 _, _ | .double _, _ | .dateTime _, _
  | .string _, _ | .array _, _ | .special _, _ | .codeWithScope _ _, _ => rfl

theorem mergeEntries_self : (a : List (String × Value)) → (b : Document) →
    (∀ e ∈ a, Keyed.get? b e.1 = some e.2) → Value.EntriesWellFormed a → mergeEntries a b = a
  | [], _, _, _ => rfl
  | (k, v) :: rest, b, hb, h => by
    have hv : Keyed.get? b k = some v := hb (k, v) (List.mem_cons_self ..)
    rw [mergeEntries, mergeEntries_self rest b (fun e he => hb e (List.mem_cons_of_mem _ he)) h.2,
      hv]
    show (k, mergeValue v v) :: rest = _
    rw [mergeValue_self v h.1]

end

mutual

theorem mergeValue_mergeValue : (v w : Value) → w.WellFormed →
    mergeValue (mergeValue v w) w = mergeValue v w
  | .document a, .document b, hw => by
    rw [mergeValue_document, mergeValue_document, merge_eq_self_iff.mpr]
    refine ⟨?_, fun k hk => mem_keys_merge.mpr (.inr hk)⟩
    intro e he
    rcases List.mem_append.mp he with he | he
    · have hfirst := mergeEntries_mergeEntries a b (entriesWellFormed_iff.mp hw.2)
      exact mergeEntries_eq_self_iff.mp hfirst e he
    · -- an entry that only the second document has is its own
      have hmem := (List.mem_filter.mp he).1
      have hself := mergeValue_self e.2 (entriesWellFormed_iff.mp hw.2 e hmem)
      simp only [overlaid, Keyed.get?_of_mem hw.1 hmem, hself]
  | .document _, .null, _ | .document _, .bool _, _ | .document _, .int32 _, _
  | .document _, .int64 _, _ | .document _, .double _, _ | .document _, .dateTime _, _
  | .document _, .string _, _ | .document _, .array _, _ | .document _, .special _, _
  | .document _, .codeWithScope _ _, _ => rfl
  | .null, w, hw | .bool _, w, hw | .int32 _, w, hw | .int64 _, w, hw | .double _, w, hw
  | .dateTime _, w, hw | .string _, w, hw | .array _, w, hw | .special _, w, hw
  | .codeWithScope _ _, w, hw => mergeValue_self w hw

theorem mergeEntries_mergeEntries : (a : List (String × Value)) → (b : Document) →
    (∀ e ∈ b, e.2.WellFormed) → mergeEntries (mergeEntries a b) b = mergeEntries a b
  | [], _, _ => rfl
  | (k, v) :: rest, b, hb => by
    simp only [mergeEntries, mergeEntries_mergeEntries rest b hb]
    cases hget : Keyed.get? b k with
    | none => rfl
    | some w =>
      show (k, mergeValue (mergeValue v w) w) :: _ = _
      rw [mergeValue_mergeValue v w (hb _ (Keyed.mem_of_get? hget))]

end

theorem merge_nil (a : Document) : merge a [] = a :=
  merge_eq_self_iff.mpr ⟨fun _ _ => rfl, fun k hk => absurd hk (List.not_mem_nil (a := k))⟩

theorem nil_merge (b : Document) : merge [] b = b :=
  List.filter_eq_self.mpr fun _ _ => rfl

/-- A second merge with one document changes nothing. -/
theorem merge_merge (a : Document) {b : Document} (hb : b.WellFormed) :
    merge (merge a b) b = merge a b :=
  Value.document.inj (mergeValue_mergeValue (.document a) (.document b) hb)

/-- Where a merge changes nothing, it changes nothing in another order of the entries. -/
theorem merge_eq_self_of_perm {a a' b : Document} (h : merge a b = a) (hperm : a'.Perm a) :
    merge a' b = a' := by
  obtain ⟨hsame, hkeys⟩ := merge_eq_self_iff.mp h
  refine merge_eq_self_iff.mpr ⟨fun e he => hsame e (hperm.mem_iff.mp he), ?_⟩
  intro k hk
  exact (hperm.map Prod.fst).mem_iff.mpr (hkeys k hk)

/-- A merge that changes nothing leaves an entry under a further key alone, too. -/
theorem merge_concat_eq_self {a b : Document} (h : merge a b = a) {e : String × Value}
    (hkey : Keyed.get? b e.1 = none) : merge (a ++ [e]) b = a ++ [e] := by
  obtain ⟨hsame, hkeys⟩ := merge_eq_self_iff.mp h
  refine merge_eq_self_iff.mpr ⟨?_, ?_⟩
  · intro e' he'
    rcases List.mem_append.mp he' with he' | he'
    · exact hsame e' he'
    · rw [List.mem_singleton.mp he', overlaid, hkey]
  · intro k hk
    rw [Keyed.keys, List.map_append]
    exact List.mem_append_left _ (hkeys k hk)

end Document

end TypedStore
