import TypedStore.Proofs.Width

/-!
What a merge of two documents holds at every path, and merges of three documents.

At a path where both documents hold documents, a merge holds the merge of those two. Elsewhere the
second one's value wins, and the first one's is kept where the second has none, unless the second
has a value in the way that is no document (`getPath?_merge`).

To merge three documents, either two that are next to each other may be merged first, unless the
middle one hides something: where it has a value that is no document between two documents, one
grouping merges those two and the other one does not. So the groupings come out the same, in every
value and in the order of keys, exactly when nothing is lost there (`merge_assoc_iff`). It follows
that no document needs to be merged twice (`merge_associative_repeatable`).
-/

namespace TypedStore.Document

/-! ## Path by path -/

/-- A proper beginning of the path leads to a value that is no document. -/
def Obstructs (d : Document) (p : List String) : Prop :=
  ∃ q v, q <+: p ∧ q ≠ p ∧ getPath? d q = some v ∧ v.document? = none

theorem obstructs_iff {d : Document} {p : List String} :
    (Value.document d).obstructs p = true ↔ Obstructs d p := by
  rw [Value.obstructs_iff]
  refine exists_congr fun q => exists_congr fun v => ?_
  refine and_congr_right fun _ => and_congr_right fun _ => and_congr_left fun hplain => ?_
  cases q with
  | nil =>
    -- the empty path leads to the document itself
    refine iff_of_false (fun h => ?_) nofun
    cases h
    cases hplain
  | cons k rest => rfl

instance (d : Document) (p : List String) : Decidable (Obstructs d p) :=
  decidable_of_iff _ obstructs_iff

/-- What a merge holds at a path: two documents are merged, of two other values it is the second
one's, and a value that only the first has is kept, unless the second has a value in its way. -/
theorem getPath?_merge (a b : Document) (p : List String) :
    getPath? (merge a b) p =
      match getPath? a p, getPath? b p with
      | some (.document x), some (.document y) => some (.document (merge x y))
      | _, some v => some v
      | v, none => if Obstructs b p then none else v := by
  by_cases hp : p = []
  · subst hp
    show none = if Obstructs b [] then none else none
    rw [ite_self]
  · rw [getPath?_eq_follow? hp, getPath?_eq_follow? hp, getPath?_eq_follow? hp,
      ← mergeValue_document, follow?_mergeValue]
    simp only [obstructs_iff]
    cases (Value.document a).follow? p with
    | none => cases (Value.document b).follow? p <;> rfl
    | some v =>
      cases (Value.document b).follow? p with
      | none => cases v <;> rfl
      | some w => cases v <;> cases w <;> rfl

/-! ## In either grouping -/

theorem contains_merge (a b : Document) (k : String) :
    Keyed.contains (merge a b) k = (Keyed.contains a k || Keyed.contains b k) := by
  rw [Keyed.contains, get?_merge, Keyed.contains, Keyed.contains]
  cases Keyed.get? a k <;> cases Keyed.get? b k <;> rfl

theorem mergeEntries_append (a a' b : Document) :
    mergeEntries (a ++ a') b = mergeEntries a b ++ mergeEntries a' b := by
  simp only [mergeEntries_eq_map, List.map_append]

theorem unmatched_mergeEntries (a b c : Document) :
    unmatched a (mergeEntries b c) = mergeEntries (unmatched a b) c := by
  simp only [mergeEntries_eq_map, unmatched, List.filter_map]
  rfl

theorem unmatched_unmatched (a b c : Document) :
    unmatched a (unmatched b c) = unmatched (merge a b) c := by
  simp only [unmatched, List.filter_filter, contains_merge, Bool.not_or]

/-- Only the first document's entries can make a difference: what the other two have under further
keys comes after them, and the same in either grouping. -/
theorem merge_assoc_of_entries {a b c : Document}
    (h : mergeEntries (mergeEntries a b) c = mergeEntries a (merge b c)) :
    merge (merge a b) c = merge a (merge b c) := by
  have hrest : unmatched a (merge b c) =
      mergeEntries (unmatched a b) c ++ unmatched (merge a b) c := by
    rw [← unmatched_mergeEntries, ← unmatched_unmatched]
    exact List.filter_append ..
  calc merge (merge a b) c
    _ = mergeEntries (mergeEntries a b ++ unmatched a b) c ++ unmatched (merge a b) c := rfl
    _ = mergeEntries (mergeEntries a b) c ++
          (mergeEntries (unmatched a b) c ++ unmatched (merge a b) c) := by
      rw [mergeEntries_append, List.append_assoc]
    _ = mergeEntries a (merge b c) ++ unmatched a (merge b c) := by rw [h, hrest]
    _ = merge a (merge b c) := rfl

/-- Wherever the outer two of three values have documents and the middle one has another value, the
first one's document has nothing to add to the third one's. -/
def HidesNothing (u v w : Value) : Prop :=
  ∀ p x z y, u.follow? p = some (.document x) → v.follow? p = some z → z.document? = none →
    w.follow? p = some (.document y) → merge x y = y

theorem HidesNothing.below {a b c : Document}
    (h : HidesNothing (.document a) (.document b) (.document c)) {k : String} {u v w : Value}
    (hu : Keyed.get? a k = some u) (hv : Keyed.get? b k = some v)
    (hw : Keyed.get? c k = some w) : HidesNothing u v w := by
  intro p x z y hx hz hplain hy
  refine h (k :: p) x z y ?_ ?_ hplain ?_
  · rwa [Value.follow?, hu]
  · rwa [Value.follow?, hv]
  · rwa [Value.follow?, hw]

theorem mergeValue_assoc {u v w : Value} (hu : u.WellFormed) (h : HidesNothing u v w) :
    mergeValue (mergeValue u v) w = mergeValue u (mergeValue v w) := by
  induction u using Value.induction generalizing v w with
  | scalar u hscalar =>
    have hplain : ∀ d, u ≠ .document d := by
      rintro d rfl
      cases hscalar
    rw [mergeValue_of_not_document_left hplain, mergeValue_of_not_document_left hplain]
  | array items => rfl
  | codeWithScope text scope => rfl
  | document a ih =>
    by_cases hw : ∃ c, w = .document c
    · obtain ⟨c, rfl⟩ := hw
      by_cases hv : ∃ b, v = .document b
      · obtain ⟨b, rfl⟩ := hv
        simp only [mergeValue_document]
        refine congrArg Value.document (merge_assoc_of_entries ?_)
        simp only [mergeEntries_eq_map, List.map_map]
        refine List.map_congr_left fun e he => ?_
        -- an entry meets what the other two have under its key, which matters where both have it
        have hget := Keyed.get?_of_mem hu.1 he
        cases hb : Keyed.get? b e.1 <;> cases hc : Keyed.get? c e.1
        · simp [overlaid, get?_merge, hb, hc]
        · simp [overlaid, get?_merge, hb, hc]
        · simp [overlaid, get?_merge, hb, hc]
        · have hentry := ih e he (Value.WellFormed.get? hu hget) (h.below hget hb hc)
          simp [overlaid, get?_merge, hb, hc, hentry]
      · have hv' : ∀ b, v ≠ .document b := fun b hb => hv ⟨b, hb⟩
        have hhidden : merge a c = c :=
          h [] a v c (by rw [Value.follow?]) (by rw [Value.follow?])
            (Value.document?_eq_none_iff.mpr hv') (by rw [Value.follow?])
        rw [mergeValue_of_not_document _ hv', mergeValue_of_not_document_left hv',
          mergeValue_document, hhidden]
    · have hw' : ∀ c, w ≠ .document c := fun c hc => hw ⟨c, hc⟩
      simp only [mergeValue_of_not_document _ hw']

theorem hidesNothing_of_assoc {a b c : Document} (h : merge (merge a b) c = merge a (merge b c)) :
    HidesNothing (.document a) (.document b) (.document c) := by
  intro p x z y hx hz hplain hy
  have hz' := Value.document?_eq_none_iff.mp hplain
  have hleft : (Value.document (merge (merge a b) c)).follow? p = some (.document y) := by
    rw [← mergeValue_document, follow?_mergeValue, ← mergeValue_document, follow?_mergeValue, hx,
      hz, hy]
    simp only [mergeValue_of_not_document _ hz', mergeValue_of_not_document_left hz']
  have hright : (Value.document (merge a (merge b c))).follow? p =
      some (.document (merge x y)) := by
    rw [← mergeValue_document, follow?_mergeValue, ← mergeValue_document, follow?_mergeValue, hx,
      hz, hy]
    simp only [mergeValue_of_not_document_left hz', mergeValue_document]
  rw [h, hright] at hleft
  exact Value.document.inj (Option.some.inj hleft)

/-- Three documents merge to the same in either grouping exactly when the middle one hides
nothing. -/
theorem merge_assoc_iff {a b c : Document} (ha : a.WellFormed) :
    merge (merge a b) c = merge a (merge b c) ↔
      HidesNothing (.document a) (.document b) (.document c) :=
  ⟨hidesNothing_of_assoc, fun h => Value.document.inj (mergeValue_assoc ha h)⟩

/-- Where the first and the third document hold documents, the second one holds no other value. -/
def KindsAgree (a b c : Document) : Prop :=
  ∀ p x y v, getPath? a p = some (.document x) → getPath? c p = some (.document y) →
    getPath? b p = some v → ∃ z, v = .document z

theorem KindsAgree.hidesNothing {a b c : Document} (h : KindsAgree a b c) :
    HidesNothing (.document a) (.document b) (.document c) := by
  intro p x z y hx hz hplain hy
  refine absurd hplain ?_
  suffices hdoc : ∃ d, z = .document d by
    obtain ⟨d, rfl⟩ := hdoc
    exact nofun
  by_cases hp : p = []
  · subst hp
    rw [Value.follow?] at hz
    exact ⟨b, (Option.some.inj hz).symm⟩
  · rw [← getPath?_eq_follow? hp] at hx hz hy
    exact h p x y z hx hy hz

/-- Where the kinds agree, three documents merge to the same in either grouping. A document merged
with itself is itself, and one that was merged in already, on either side, changes nothing when it
is merged in again. That each key is listed once is what any document has. -/
theorem merge_associative_repeatable :
    (∀ a b c : Document, a.WellFormed → KindsAgree a b c →
      merge (merge a b) c = merge a (merge b c)) ∧
    ∀ a b : Document, a.WellFormed → b.WellFormed →
      merge a a = a ∧ merge (merge a b) b = merge a b ∧ merge a (merge a b) = merge a b := by
  constructor
  · intro a b c ha h
    exact (merge_assoc_iff ha).mpr h.hidesNothing
  · intro a b ha hb
    have hself : merge a a = a := Value.document.inj (mergeValue_self (.document a) ha)
    -- what the first of three hides, it cannot have itself
    have hhidden : HidesNothing (.document a) (.document a) (.document b) := by
      intro p x z y hx hz hplain _
      rw [hx] at hz
      cases hz
      cases hplain
    refine ⟨hself, merge_merge a hb, ?_⟩
    rw [← (merge_assoc_iff ha).mpr hhidden, hself]

/-! ## Anti-vacuity: an account and two changes to it -/

/-- An account when it is opened. -/
def opening : Document :=
  [("name", .string "a"), ("info", .document [("money", .int64 1), ("debt", .int64 0)])]

/-- A deposit. -/
def deposit : Document := [("info", .document [("money", .int64 2)]), ("checked", .bool true)]

/-- A correction, after which the debt is kept in detail and there is no name. -/
def correction : Document :=
  [("name", .null), ("info", .document [("debt", .document [("bank", .int64 5)])])]

theorem opening_wellFormed : opening.WellFormed :=
  ⟨by unfold Keyed.Nodup; decide, trivial,
    ⟨by unfold Keyed.Nodup; decide, trivial, trivial, trivial⟩, trivial⟩

theorem deposit_wellFormed : deposit.WellFormed :=
  ⟨by unfold Keyed.Nodup; decide, ⟨by unfold Keyed.Nodup; decide, trivial, trivial⟩, trivial,
    trivial⟩

/-- There is one document inside. -/
theorem opening_document {p : List String} {x : Document}
    (h : getPath? opening p = some (.document x)) : p = ["info"] := by
  cases p with
  | nil => cases h
  | cons k rest =>
    rw [getPath?, Value.follow?, opening, Keyed.get?_cons, Keyed.get?_singleton] at h
    split at h
    · cases rest <;> cases h
    · split at h
      · next hk =>
        cases rest with
        | nil => rw [← hk]
        | cons j more =>
          rw [Option.bind_some, Value.follow?, Keyed.get?_cons, Keyed.get?_singleton] at h
          split at h
          · cases more <;> cases h
          · split at h
            · cases more <;> cases h
            · cases h
      · cases h

theorem changes_kindsAgree : KindsAgree opening deposit correction := by
  intro p x y v hx _ hv
  obtain rfl := opening_document hx
  exact ⟨_, (Option.some.inj hv).symm⟩

/-- The account comes out the same whether the changes are made one by one or together, and making
one of them again changes nothing. -/
theorem changes_regroup :
    merge (merge opening deposit) correction = merge opening (merge deposit correction) ∧
      merge opening (merge deposit correction) =
        [("name", .null),
          ("info", .document [("money", .int64 2), ("debt", .document [("bank", .int64 5)])]),
          ("checked", .bool true)] ∧
      merge (merge opening deposit) deposit = merge opening deposit := by
  obtain ⟨hassoc, hrepeat⟩ := merge_associative_repeatable
  refine ⟨hassoc _ _ _ opening_wellFormed changes_kindsAgree, rfl, ?_⟩
  exact (hrepeat _ _ opening_wellFormed deposit_wellFormed).2.1

/-- With a document on either side, a value between them that is no document is not passed over. -/
example :
    merge (merge opening [("info", .null)]) correction ≠
      merge opening (merge [("info", .null)] correction) := by
  intro h
  have hmoney := congrArg (fun d => (getPath? d ["info", "money"]).isSome) h
  exact absurd hmoney (by decide)

end TypedStore.Document
