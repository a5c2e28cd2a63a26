import TypedStore.Proofs.DeepMerge

/-!
What a write at a path changes, and when it fails.

`Value.put` is what a write comes to: the value with another one at the path, and with documents on
the way wherever there was none. What is read at any other path follows by the path alone: the same
where the two paths diverge (`follow?_put_of_diverge`), a document above the path
(`exists_follow?_put`), what is inside the new value below it (`follow?_put_append`).

`setPath` does this where nothing is in the way of the path (`setPath_of_clear`). Where a value that
is no document is in the way, it fails and leaves the document as it was (`setPath_of_obstructs`):
the levels that it makes on its way down are empty, so once it has made one nothing below can be in
the way any more.

Reading and writing thus fit each other like the two halves of a lens (`setPath_lens`), and
`setPath_fails_iff` says when a write fails, and with which error.
-/

namespace TypedStore

theorem Diverge.ne_nil_left {p q : List String} (h : Diverge p q) : p ≠ [] := by
  rintro rfl
  exact h.1 List.nil_prefix

theorem Diverge.symm {p q : List String} (h : Diverge p q) : Diverge q p := ⟨h.2, h.1⟩

theorem Diverge.ne_nil_right {p q : List String} (h : Diverge p q) : q ≠ [] := h.symm.ne_nil_left

/-! ## A value put at a path -/

namespace Value

/-- The entries of a document. Any other value has none. -/
def entries (v : Value) : Document := v.document?.getD []

theorem entries_document (d : Document) : (document d).entries = d := rfl

/-- The value with another one at the path. On the way there it has documents, if need be new ones
in the place of other values. -/
def put : Value → List String → Value → Value
  | _, [], v => v
  | u, k :: rest, v =>
    .document (Keyed.insert u.entries k
      (((Keyed.get? u.entries k).getD (.document [])).put rest v))

theorem follow?_cons (v : Value) (k : String) (rest : List String) :
    v.follow? (k :: rest) = (Keyed.get? v.entries k).bind fun w => w.follow? rest := by
  cases v <;> rfl

/-- Nothing is to be found in an empty document. -/
theorem follow?_empty {p : List String} (h : p ≠ []) : (document []).follow? p = none := by
  cases p with
  | nil => exact absurd rfl h
  | cons k rest => rfl

theorem obstructs_empty (p : List String) : (document []).obstructs p = false := by
  cases p <;> rfl

variable (u v : Value)

theorem follow?_put_append (p q : List String) : (u.put p v).follow? (p ++ q) = v.follow? q := by
  induction p generalizing u with
  | nil => rfl
  | cons k rest ih =>
    rw [put, List.cons_append, follow?, Keyed.get?_insert_self, Option.bind_some, ih]

theorem follow?_put_self (p : List String) : (u.put p v).follow? p = some v := by
  have h := follow?_put_append u v p []
  rwa [List.append_nil, follow?] at h

/-- Above the path there are documents. -/
theorem exists_follow?_put {p q : List String} (hq : q <+: p) (hne : q ≠ p) :
    ∃ d, (u.put p v).follow? q = some (.document d) := by
  induction p generalizing u q with
  | nil => exact absurd (List.prefix_nil.mp hq) hne
  | cons k rest ih =>
    cases q with
    | nil => exact ⟨_, rfl⟩
    | cons j more =>
      obtain ⟨rfl, hmore⟩ := List.cons_prefix_cons.mp hq
      rw [put, follow?, Keyed.get?_insert_self]
      exact ih _ hmore fun h => hne (by rw [h])

/-- At a path that diverges from it there is what there was. -/
theorem follow?_put_of_diverge {p q : List String} (h : Diverge p q) :
    (u.put p v).follow? q = u.follow? q := by
  induction p generalizing u q with
  | nil => exact absurd rfl h.ne_nil_left
  | cons k rest ih =>
    cases q with
    | nil => exact absurd rfl h.ne_nil_right
    | cons j more =>
      rw [put, follow?, follow?_cons, Keyed.get?_insert]
      split
      · next hkj =>
        subst hkj
        rw [Option.bind_some, ih _ h.tail]
        cases Keyed.get? u.entries k with
        | none => exact follow?_empty h.tail.ne_nil_right
        | some w => rfl
      · rfl

/-- Of two values put at one path the second stays, and no trace of the first. -/
theorem put_put_self (w : Value) (p : List String) : (u.put p v).put p w = u.put p w := by
  induction p generalizing u with
  | nil => rfl
  | cons k rest ih =>
    rw [put, put, put, entries_document, Keyed.get?_insert_self, Keyed.insert_insert_self,
      Option.getD_some, ih]

/-- Nothing is in the way of what was put at a path. -/
theorem obstructs_put_self (p : List String) : (u.put p v).obstructs p = false := by
  induction p generalizing u with
  | nil => rfl
  | cons k rest ih =>
    rw [put, obstructs, Keyed.get?_insert_self]
    exact ih _

/-- Where nothing was in the way of the first path, there is as much in the way of another one that
diverges from it as before. -/
theorem obstructs_put_of_diverge {p q : List String} (h : Diverge p q)
    (hp : u.obstructs p = false) : (u.put p v).obstructs q = u.obstructs q := by
  induction p generalizing u q with
  | nil => exact absurd rfl h.ne_nil_left
  | cons k rest ih =>
    cases q with
    | nil => exact absurd rfl h.ne_nil_right
    | cons j more =>
      cases u with
      | document d =>
        rw [obstructs] at hp
        rw [put, obstructs, obstructs, entries_document, Keyed.get?_insert]
        by_cases hkj : k = j
        · subst hkj
          rw [if_pos rfl]
          cases hget : Keyed.get? d k with
          | none =>
            show ((document []).put rest v).obstructs more = false
            rw [ih _ h.tail (obstructs_empty rest), obstructs_empty]
          | some w =>
            rw [hget] at hp
            exact ih w h.tail hp
        · rw [if_neg hkj]
      | _ => cases hp

end Value

/-! ## What a write in place does -/

namespace Document

open Value (entries)

/-- The document with a value at the path. -/
def put (d : Document) (p : List String) (v : Value) : Document :=
  ((Value.document d).put p v).entries

theorem document_put (d : Document) {p : List String} (hp : p ≠ []) (v : Value) :
    Value.document (put d p v) = (Value.document d).put p v := by
  cases p with
  | nil => exact absurd rfl hp
  | cons k rest => rfl

theorem put_cons (d : Document) (k : String) (rest : List String) (v : Value) :
    put d (k :: rest) v =
      Keyed.insert d k (((Keyed.get? d k).getD (.document [])).put rest v) := rfl

/-- A write goes on in the document under the first key, or in a new one. -/
theorem setPath_cons (d : Document) (k : String) {rest : List String} (hrest : rest ≠ [])
    (v : Value) :
    setPath d (k :: rest) v =
      match (Keyed.get? d k).getD (.document []) with
      | .document inner => ((setPath inner rest v).1,
          Keyed.insert d k (.document (setPath inner rest v).2))
      | _ => (.error (.invalidDocument (.notBelow k)), d) := by
  have hempty : rest.isEmpty = false := by simpa using hrest
  cases hget : Keyed.get? d k with
  | none => simp [setPath, hempty, Keyed.contains, hget, Keyed.insert_insert_self]
  | some u => cases u <;> simp [setPath, hempty, Keyed.contains, hget]

/-- Where nothing is in the way, a write succeeds and puts the value at the path. -/
theorem setPath_of_clear {d : Document} {p : List String} (hp : p ≠ [])
    (h : (Value.document d).obstructs p = false) (v : Value) :
    setPath d p v = (.ok (), put d p v) := by
  induction p generalizing d with
  | nil => exact absurd rfl hp
  | cons k rest ih =>
    by_cases hrest : rest = []
    · subst hrest
      rfl
    · rw [setPath_cons d k hrest, put_cons]
      rw [Value.obstructs] at h
      cases hget : Keyed.get? d k with
      | none =>
        show ((setPath [] rest v).1, Keyed.insert d k (.document (setPath [] rest v).2)) = _
        rw [ih hrest (Value.obstructs_empty rest), Option.getD_none, document_put [] hrest]
      | some u =>
        rw [hget] at h
        cases u with
        | document inner =>
          show ((setPath inner rest v).1, Keyed.insert d k (.document (setPath inner rest v).2)) = _
          rw [ih hrest h, Option.getD_some, document_put inner hrest]
        | _ =>
          obtain ⟨j, more, rfl⟩ := List.exists_cons_of_ne_nil hrest
          cases h

/-- The beginning of the path leads to a value that is no document, and the path goes on. -/
def Blocks (d : Document) (p q : List String) : Prop :=
  q <+: p ∧ q ≠ p ∧ ∃ v, getPath? d q = some v ∧ v.document? = none

theorem obstructs_iff_exists_blocks {d : Document} {p : List String} :
    Obstructs d p ↔ ∃ q, Blocks d p q := by
  simp only [Obstructs, Blocks, exists_and_left]

theorem Blocks.cons {d inner : Document} {k : String} {p q : List String}
    (hget : Keyed.get? d k = some (.document inner)) (h : Blocks inner p q) :
    Blocks d (k :: p) (k :: q) := by
  obtain ⟨hq, hne, w, hw, hplain⟩ := h
  have hqne : q ≠ [] := by
    rintro rfl
    cases hw
  refine ⟨List.cons_prefix_cons.mpr ⟨rfl, hq⟩, fun heq => hne (List.cons.inj heq).2, w, ?_, hplain⟩
  rw [getPath?_cons d k hqne, hget]
  exact hw

/-- Below a value that is no document there is nothing, so there is one such value on the way at
most. -/
theorem Blocks.unique {d : Document} {p q r : List String} (hq : Blocks d p q)
    (hr : Blocks d p r) : q = r := by
  wlog hqr : q <+: r generalizing q r
  · exact (this hr hq ((List.prefix_or_prefix_of_prefix hq.1 hr.1).resolve_left hqr)).symm
  obtain ⟨more, rfl⟩ := hqr
  obtain ⟨-, -, v, hv, hplain⟩ := hq
  obtain ⟨-, -, w, hw, -⟩ := hr
  cases more with
  | nil => rw [List.append_nil]
  | cons k rest =>
    have hqne : q ≠ [] := by
      rintro rfl
      cases hv
    rw [getPath?_eq_follow? hqne] at hv
    rw [getPath?_eq_follow? (by simp [hqne]), Value.follow?_append, hv, Option.bind_some,
      Value.follow?_cons_of_not_document (Value.document?_eq_none_iff.mp hplain)] at hw
    cases hw

/-- Where something is in the way, a write fails with the key that it stands under, and it leaves
the document as it was. -/
theorem setPath_of_obstructs {d : Document} {p : List String}
    (h : (Value.document d).obstructs p = true) (v : Value) :
    ∃ q k, Blocks d p q ∧ q.getLast? = some k ∧
      setPath d p v = (.error (.invalidDocument (.notBelow k)), d) := by
  induction p generalizing d with
  | nil => cases h
  | cons k rest ih =>
    rw [Value.obstructs] at h
    cases hget : Keyed.get? d k with
    | none =>
      rw [hget] at h
      cases h
    | some u =>
      rw [hget] at h
      have hrest : rest ≠ [] := by
        rintro rfl
        cases h
      rw [setPath_cons d k hrest, hget, Option.getD_some]
      by_cases hu : ∃ inner, u = .document inner
      · obtain ⟨inner, rfl⟩ := hu
        obtain ⟨q, j, hq, hlast, hset⟩ := ih h
        refine ⟨k :: q, j, hq.cons hget, ?_, ?_⟩
        · rw [List.getLast?_cons, hlast]
          rfl
        · -- what was opened on the way is put back as it was found
          simp only [hset, Keyed.insert_get? hget]
      · have hu' : ∀ inner, u ≠ .document inner := fun inner hinner => hu ⟨inner, hinner⟩
        refine ⟨[k], k, ⟨?_, ?_, u, ?_, ?_⟩, rfl, ?_⟩
        · exact List.cons_prefix_cons.mpr ⟨rfl, List.nil_prefix⟩
        · exact fun heq => hrest (List.cons.inj heq).2.symm
        · rw [getPath?_singleton, hget]
        · exact Value.document?_eq_none_iff.mpr hu'
        · cases u with
          | document inner => exact absurd rfl (hu' inner)
          | _ => rfl

/-- A write that succeeds is on a path with nothing in its way. -/
theorem setPath_eq_ok {d d' : Document} {p : List String} {v : Value}
    (h : setPath d p v = (.ok (), d')) :
    p ≠ [] ∧ (Value.document d).obstructs p = false ∧ d' = put d p v := by
  have hp : p ≠ [] := by
    rintro rfl
    cases h
  cases hclear : (Value.document d).obstructs p with
  | true =>
    obtain ⟨q, k, -, -, hset⟩ := setPath_of_obstructs hclear v
    rw [hset] at h
    cases h
  | false =>
    rw [setPath_of_clear hp hclear] at h
    cases h
    exact ⟨hp, rfl, rfl⟩

/-! ## Reading what was written -/

/-- After a write the value is at its path. At paths that diverge from this one there is what there
was, above it there are documents, and below it what is inside the value. A second write at the path
makes the document that it would have made without the first. -/
theorem setPath_lens {d d' : Document} {p : List String} {v : Value}
    (h : setPath d p v = (.ok (), d')) :
    getPath? d' p = some v ∧
    (∀ q, Diverge p q → getPath? d' q = getPath? d q) ∧
    (∀ q, q ≠ [] → q <+: p → q ≠ p → ∃ inner, getPath? d' q = some (.document inner)) ∧
    (∀ s, s ≠ [] → getPath? d' (p ++ s) = v.document?.bind fun inner => getPath? inner s) ∧
    ∀ w, ∃ d'', setPath d p w = (.ok (), d'') ∧ setPath d' p w = (.ok (), d'') := by
  obtain ⟨hp, hclear, rfl⟩ := setPath_eq_ok h
  have hput := document_put d hp v
  refine ⟨?_, fun q hq => ?_, fun q hq hqp hne => ?_, fun s hs => ?_, fun w => ?_⟩
  · rw [getPath?_eq_follow? hp, hput, Value.follow?_put_self]
  · rw [getPath?_eq_follow? hq.ne_nil_right, getPath?_eq_follow? hq.ne_nil_right, hput,
      Value.follow?_put_of_diverge _ _ hq]
  · rw [getPath?_eq_follow? hq, hput]
    exact Value.exists_follow?_put _ _ hqp hne
  · rw [getPath?_eq_follow? (by simp [hp]), hput, Value.follow?_put_append]
    cases v with
    | document inner => exact (getPath?_eq_follow? hs inner).symm
    | _ =>
      obtain ⟨k, rest, rfl⟩ := List.exists_cons_of_ne_nil hs
      rfl
  · refine ⟨put d p w, setPath_of_clear hp hclear w, ?_⟩
    have hclear' : (Value.document (put d p v)).obstructs p = false := by
      rw [hput]
      exact Value.obstructs_put_self _ _ p
    rw [setPath_of_clear hp hclear', put, hput, Value.put_put_self, put]

/-- A debt to a bank is entered where there was no bank: what else the account holds is as it was,
and a second entry replaces the first. -/
theorem debt_entered :
    ∃ d', setPath opening ["info", "bank", "debt"] (.int64 5) = (.ok (), d') ∧
      getPath? d' ["info", "bank", "debt"] = some (.int64 5) ∧
      getPath? d' ["info", "money"] = some (.int64 1) ∧
      (∃ inner, getPath? d' ["info", "bank"] = some (.document inner)) ∧
      getPath? d' ["info", "bank", "debt", "since"] = none ∧
      ∃ d'', setPath opening ["info", "bank", "debt"] .null = (.ok (), d'') ∧
        setPath d' ["info", "bank", "debt"] .null = (.ok (), d'') := by
  obtain ⟨d', hset⟩ : ∃ d', setPath opening ["info", "bank", "debt"] (.int64 5) = (.ok (), d') :=
    ⟨_, rfl⟩
  obtain ⟨hself, hother, habove, hbelow, hagain⟩ := setPath_lens hset
  exact ⟨d', hset, hself, hother ["info", "money"] (by decide),
    habove ["info", "bank"] (by decide) (by decide) (by decide), hbelow ["since"] (by decide),
    hagain .null⟩

/-- A write fails exactly when its path is empty or a value that is no document is in the way. It
then leaves the document as it was, and the error names the last key of the shortest beginning of
the path that leads to such a value. -/
theorem setPath_fails_iff (d : Document) (p : List String) (v : Value) :
    ((∃ e d', setPath d p v = (.error e, d')) ↔ p = [] ∨ ∃ q, Blocks d p q) ∧
    ∀ e d', setPath d p v = (.error e, d') → d' = d ∧
      (p = [] ∧ e = .invalidDocument .emptyPath ∨
        ∃ q k, Blocks d p q ∧ (∀ r, Blocks d p r → q.length ≤ r.length) ∧
          q.getLast? = some k ∧ e = .invalidDocument (.notBelow k)) := by
  rw [← obstructs_iff_exists_blocks, ← obstructs_iff]
  by_cases hp : p = []
  · subst hp
    refine ⟨iff_of_true ⟨_, _, rfl⟩ (.inl rfl), ?_⟩
    intro e d' h
    cases h
    exact ⟨rfl, .inl ⟨rfl, rfl⟩⟩
  · cases hclear : (Value.document d).obstructs p with
    | false =>
      rw [setPath_of_clear hp hclear]
      refine ⟨iff_of_false ?_ ?_, ?_⟩
      · rintro ⟨e, d', h⟩
        cases h
      · rintro (h | h)
        · exact hp h
        · cases h
      · intro e d' h
        cases h
    | true =>
      obtain ⟨q, k, hq, hlast, hset⟩ := setPath_of_obstructs hclear v
      rw [hset]
      refine ⟨iff_of_true ⟨_, _, rfl⟩ (.inr rfl), ?_⟩
      intro e d' h
      cases h
      refine ⟨rfl, .inr ⟨q, k, hq, fun r hr => ?_, hlast, rfl⟩⟩
      exact Nat.le_of_eq (congrArg List.length (hq.unique hr))

/-- Nothing can be written below the name of an account, however far below, and the account stays as
it was. -/
theorem debt_refused :
    ∃ e d', setPath opening ["name", "bank", "debt"] (.int64 5) = (.error e, d') ∧
      e = .invalidDocument (.notBelow "name") ∧ d' = opening := by
  obtain ⟨hiff, hfails⟩ := setPath_fails_iff opening ["name", "bank", "debt"] (.int64 5)
  have hblocks : Blocks opening ["name", "bank", "debt"] ["name"] :=
    ⟨by decide, by decide, .string "a", rfl, rfl⟩
  obtain ⟨e, d', hset⟩ := hiff.mpr (.inr ⟨_, hblocks⟩)
  obtain ⟨hd', hempty | ⟨q, k, hq, -, hlast, he⟩⟩ := hfails e d' hset
  · cases hempty.1
  · rw [hq.unique hblocks] at hlast
    cases hlast
    exact ⟨e, d', hset, he, hd'⟩

end Document

end TypedStore
