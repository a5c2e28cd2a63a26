import TypedStore.Proofs.Agreement
import TypedStore.Proofs.Mirroring
import TypedStore.Proofs.Respelling
import TypedStore.Proofs.Settling
import TypedStore.Proofs.Updating
import TypedStore.Proofs.Writing

/-!
The order in which an update makes its assignments.

Two values put at paths that diverge give the same document in either order, up to the order of its
keys (`sorted_put_put`), although each may make documents on the way that the other goes through.
Whether an assignment has anything in its way does not hang on the others, so a list of them goes
through exactly when none has anything in its way in the document that there was at first
(`assignAll_eq_ok_iff`). So in any order all go through or none do, and they come to documents that
are alike (`Document.Alike.putAll_perm`, `assignAll_perm`).

What an update makes of documents that are alike is for the type to say: it is taken not to look at
the order of keys when it reads instances from them (`OrderBlind`). Where that means that it reads
equal instances, an update has one outcome in any order (`update_eq_of_perm`). An instance that keeps
the order of its keys is written in that order; then the record is in another order, too, and where
two keys have one alias another of their values wins, which is left out. Under this condition the
order of the assignments makes no difference to an update either (`update_perm`).
-/

namespace TypedStore

/-! ## Alike up to the order of keys -/

/-- Well-formed values that are the same up to the order in which documents list their keys. -/
structure Value.Alike (u w : Value) : Prop where
  left : u.WellFormed
  right : w.WellFormed
  sorted : u.sorted = w.sorted

/-- Well-formed documents that are the same. -/
def Document.Alike (d e : Document) : Prop := Value.Alike (.document d) (.document e)

namespace Value

theorem entries_sorted (v : Value) : v.sorted.entries = Document.sorted v.entries := by
  cases v with
  | document d => rfl
  | _ => simp [sorted, entries, document?, Document.sorted, sortedEntries, Keyed.sort]

theorem wellFormed_empty : (document []).WellFormed :=
  wellFormed_document.mpr ⟨List.nodup_nil, nofun⟩

theorem WellFormed.entries {v : Value} (h : v.WellFormed) : Document.WellFormed v.entries := by
  cases v with
  | document d => exact h
  | _ => exact wellFormed_empty

end Value

namespace Document

open Value (wellFormed_document)

variable {d e : Document} {v w : Value}

theorem WellFormed.nodup (h : d.WellFormed) : Keyed.Nodup d := (wellFormed_document.mp h).1

theorem WellFormed.insert (h : d.WellFormed) (k : String) (hv : v.WellFormed) :
    WellFormed (Keyed.insert d k v) := by
  have hnodup := Keyed.nodup_insert h.nodup k v
  refine wellFormed_document.mpr ⟨hnodup, fun e he => ?_⟩
  have hget := Keyed.get?_of_mem hnodup he
  rw [Keyed.get?_insert] at hget
  split at hget
  · exact Option.some.inj hget ▸ hv
  · exact Value.WellFormed.get? h hget

/-- What a write goes on with below a key is well formed. -/
theorem WellFormed.below (h : d.WellFormed) (k : String) :
    ((Keyed.get? d k).getD (.document [])).WellFormed := by
  cases hget : Keyed.get? d k with
  | none => exact Value.wellFormed_empty
  | some u => exact Value.WellFormed.get? h hget

theorem WellFormed.alike (h : d.WellFormed) : Alike d d := ⟨h, h, rfl⟩

namespace Alike

theorem same (h : Alike d e) : Same d e := Value.document.inj h.sorted

theorem of_same (hd : d.WellFormed) (he : e.WellFormed) (h : Same d e) : Alike d e :=
  ⟨hd, he, congrArg Value.document h⟩

theorem trans {x : Document} (h : Alike d e) (h' : Alike e x) : Alike d x :=
  ⟨h.left, h'.right, h.sorted.trans h'.sorted⟩

theorem insert (h : Alike d e) (k : String) (hvw : v.Alike w) :
    Alike (Keyed.insert d k v) (Keyed.insert e k w) := by
  have he : Keyed.Nodup e := WellFormed.nodup h.right
  exact .of_same (WellFormed.insert h.left k hvw.left) (WellFormed.insert h.right k hvw.right)
    (h.same.insert_sorted he k hvw.sorted)

theorem get? (h : Alike d e) (k : String) :
    Option.Rel Value.Alike (Keyed.get? d k) (Keyed.get? e k) := by
  have hsorted := h.same.get? (WellFormed.nodup h.right) k
  cases hd : Keyed.get? d k with
  | none =>
    rw [hd, Option.map_none, eq_comm, Option.map_eq_none_iff] at hsorted
    rw [hsorted]
    exact .none
  | some v =>
    rw [hd, Option.map_some, eq_comm, Option.map_eq_some_iff] at hsorted
    obtain ⟨w, hw, hwv⟩ := hsorted
    rw [hw]
    exact .some ⟨Value.WellFormed.get? h.left hd, Value.WellFormed.get? h.right hw, hwv.symm⟩

theorem below (h : Alike d e) (k : String) :
    ((Keyed.get? d k).getD (.document [])).Alike ((Keyed.get? e k).getD (.document [])) := by
  have hget := h.get? k
  generalize Keyed.get? d k = x, Keyed.get? e k = y at hget
  cases hget with
  | none => exact WellFormed.alike Value.wellFormed_empty
  | some hvw => exact hvw

end Alike

end Document

/-! ## Values put at paths -/

namespace Value

variable {u w v : Value}

theorem Alike.entries (h : u.Alike w) : Document.Alike u.entries w.entries := by
  refine .of_same h.left.entries h.right.entries ?_
  rw [Document.Same, ← entries_sorted, h.sorted, entries_sorted]

theorem WellFormed.put (hu : u.WellFormed) (p : List String) (hv : v.WellFormed) :
    (u.put p v).WellFormed := by
  induction p generalizing u with
  | nil => exact hv
  | cons k rest ih => exact hu.entries.insert k (ih (hu.entries.below k))

theorem Alike.put (h : u.Alike w) (p : List String) (hv : v.WellFormed) :
    (u.put p v).Alike (w.put p v) := by
  induction p generalizing u w with
  | nil => exact ⟨hv, hv, rfl⟩
  | cons k rest ih => exact h.entries.insert k (ih (h.entries.below k))

/-- Values put at paths that diverge give the same in either order. -/
theorem sorted_put_put (hu : u.WellFormed) (v w : Value) {p q : List String} (h : Diverge p q) :
    ((u.put p v).put q w).sorted = ((u.put q w).put p v).sorted := by
  induction p generalizing u q with
  | nil => exact absurd rfl h.ne_nil_left
  | cons k rest ih =>
    cases q with
    | nil => exact absurd rfl h.ne_nil_right
    | cons j more =>
      have hnodup := hu.entries.nodup
      simp only [put, entries_document, Keyed.get?_insert]
      by_cases hkj : k = j
      · -- both go on below the one key, where the paths still diverge
        subst hkj
        simp only [if_pos, Option.getD_some, Keyed.insert_insert_self]
        exact congrArg document
          ((Document.Same.refl _).insert_sorted hnodup k (ih (hu.entries.below k) h.tail))
      · rw [if_neg hkj, if_neg (Ne.symm hkj)]
        exact congrArg document (Document.same_insert_insert hnodup hkj _ _)

end Value

/-! ## Assignments in any order -/

section Assignments

variable {σ : Type} {assignments assignments' : List (FieldPath σ × Value)}

namespace Document

variable {d e : Document}

/-- The document with each value put at its path, in order. -/
def putAll (d : Document) (assignments : List (FieldPath σ × Value)) : Document :=
  assignments.foldl (fun d a => put d a.1.attributePath a.2) d

theorem Alike.put (h : Alike d e) (path : FieldPath σ) {v : Value} (hv : v.WellFormed) :
    Alike (put d path.attributePath v) (put e path.attributePath v) := by
  rw [Alike, document_put d (attributePath_ne_nil path), document_put e (attributePath_ne_nil path)]
  exact Value.Alike.put h _ hv

theorem WellFormed.alike_put_put (hd : d.WellFormed) {a b : FieldPath σ × Value}
    (ha : a.2.WellFormed) (hb : b.2.WellFormed)
    (h : Diverge a.1.attributePath b.1.attributePath) :
    Alike (Document.put (Document.put d a.1.attributePath a.2) b.1.attributePath b.2)
      (Document.put (Document.put d b.1.attributePath b.2) a.1.attributePath a.2) := by
  simp only [Alike, document_put _ (attributePath_ne_nil _)]
  exact ⟨(Value.WellFormed.put hd _ ha).put _ hb, (Value.WellFormed.put hd _ hb).put _ ha,
    Value.sorted_put_put hd _ _ h⟩

theorem Alike.putAll (h : Alike d e) (hvalues : ∀ a ∈ assignments, a.2.WellFormed) :
    Alike (putAll d assignments) (putAll e assignments) := by
  induction assignments generalizing d e with
  | nil => exact h
  | cons a rest ih =>
    exact ih (h.put a.1 (hvalues a (List.mem_cons_self ..)))
      fun b hb => hvalues b (List.mem_cons_of_mem _ hb)

/-- The order of the assignments makes a difference to the order of keys at most. -/
theorem Alike.putAll_perm (hperm : assignments.Perm assignments')
    (hapart : assignments.Pairwise fun a b => Diverge a.1.attributePath b.1.attributePath)
    (hvalues : ∀ a ∈ assignments, a.2.WellFormed) (h : Alike d e) :
    Alike (Document.putAll d assignments) (Document.putAll e assignments') := by
  -- `List.Perm.foldl_eq'` is for steps that commute as they are, not up to the order of keys
  induction hperm generalizing d e with
  | nil => exact h
  | cons a _ ih =>
    exact ih hapart.of_cons (fun b hb => hvalues b (List.mem_cons_of_mem _ hb))
      (h.put a.1 (hvalues a (List.mem_cons_self ..)))
  | swap a b l =>
    have hb := hvalues b (List.mem_cons_self ..)
    have ha := hvalues a (List.mem_cons_of_mem _ (List.mem_cons_self ..))
    have hba := (List.pairwise_cons.mp hapart).1 a (List.mem_cons_self ..)
    have hswap := (WellFormed.alike_put_put h.left hb ha hba).trans ((h.put a.1 ha).put b.1 hb)
    exact hswap.putAll fun x hx =>
      hvalues x (List.mem_cons_of_mem _ (List.mem_cons_of_mem _ hx))
  | trans hperm₁ _ ih₁ ih₂ =>
    refine (ih₁ hapart hvalues (WellFormed.alike h.left)).trans (ih₂ ?_ ?_ h)
    · exact hapart.perm hperm₁ fun hab => hab.symm
    · exact fun a ha => hvalues a (hperm₁.mem_iff.mpr ha)

end Document

namespace Model

/-- Assignments at paths that diverge go through exactly when nothing is in the way of any of them
in the document that there is at first. -/
theorem assignAll_eq_ok_iff
    (hapart : assignments.Pairwise fun a b => Diverge a.1.attributePath b.1.attributePath)
    {d e : Document} :
    assignAll d assignments = .ok e ↔
      (∀ a ∈ assignments, (Value.document d).obstructs a.1.attributePath = false) ∧
        e = Document.putAll d assignments := by
  induction assignments generalizing d with
  | nil =>
    rw [assignAll, Except.ok.injEq, eq_comm]
    simp [Document.putAll]
  | cons a rest ih =>
    obtain ⟨path, v⟩ := a
    obtain ⟨hpath, hrest⟩ := List.pairwise_cons.mp hapart
    cases hclear : (Value.document d).obstructs path.attributePath with
    | true =>
      obtain ⟨q, k, -, -, hset⟩ := Document.setPath_of_obstructs hclear v
      simp [assignAll, hset, hclear]
    | false =>
      -- the other paths are as clear after this assignment as before it
      have hkept : ∀ b ∈ rest,
          (Value.document (Document.put d path.attributePath v)).obstructs b.1.attributePath =
            (Value.document d).obstructs b.1.attributePath := by
        intro b hb
        rw [Document.document_put d (attributePath_ne_nil path)]
        exact Value.obstructs_put_of_diverge _ _ (hpath b hb) hclear
      rw [assignAll, Document.setPath_of_clear (attributePath_ne_nil path) hclear]
      simp only [ih hrest, List.forall_mem_cons, hclear, true_and]
      exact and_congr (forall₂_congr fun b hb => by rw [hkept b hb]) Iff.rfl

/-- In any order all assignments go through, to documents that are alike, or none do. -/
theorem assignAll_perm (hperm : assignments.Perm assignments')
    (hapart : assignments.Pairwise fun a b => Diverge a.1.attributePath b.1.attributePath)
    (hvalues : ∀ a ∈ assignments, a.2.WellFormed) {d : Document} (hd : d.WellFormed) :
    Concur Document.Alike (assignAll d assignments) (assignAll d assignments') := by
  have hapart' := hapart.perm hperm fun hab => hab.symm
  cases h : assignAll d assignments with
  | ok e =>
    obtain ⟨hclear, rfl⟩ := (assignAll_eq_ok_iff hapart).mp h
    rw [(assignAll_eq_ok_iff hapart').mpr ⟨fun a ha => hclear a (hperm.mem_iff.mpr ha), rfl⟩]
    exact .ok (.putAll_perm hperm hapart hvalues (Document.WellFormed.alike hd))
  | error e =>
    cases h' : assignAll d assignments' with
    | ok e' =>
      obtain ⟨hclear, -⟩ := (assignAll_eq_ok_iff hapart').mp h'
      have hok := (assignAll_eq_ok_iff hapart).mpr
        ⟨fun a ha => hclear a (hperm.mem_iff.mp ha), rfl⟩
      rw [h] at hok
      cases hok
    | error e' => exact .error e e'

end Model

end Assignments

/-! ## Updates in any order -/

section Updates

variable {σ D : Type} [SchemaGraph σ]

open Contents (stamped)

theorem Document.Alike.moveKey {d e : Document} (h : d.Alike e) (source target : String) :
    Document.Same (Model.moveKey source target d) (Model.moveKey source target e) := by
  have he : Keyed.Nodup e := Document.WellFormed.nodup h.right
  have hget := h.get? source
  unfold Model.moveKey
  generalize Keyed.get? d source = x, Keyed.get? e source = y at hget
  cases hget with
  | none => exact h.same
  | some hvw =>
    exact (h.same.erase he source).insert_sorted (Keyed.nodup_erase he source) target hvw.sorted

namespace Model

variable (m : Model σ D)

/-- Documents of which the model stores the same: they are equal, or alike. Where the model stores
by alias, documents that are merely alike must not have keys that come out as one, of which the
later would win. -/
def StoredAlike (mapping mapping' : Document) : Prop :=
  mapping = mapping' ∨ mapping.Alike mapping' ∧ (m.byAlias = true →
    SchemaGraph.Respellable .aliases m.type.schema (moveKey m.primaryKey reservedIdKey mapping'))

/-- The type does not look at the order of keys: from documents that are alike it reads the same
instance, whatever that means for its instances. The same instances have one identifier and are
written as documents of which the model stores the same. -/
structure OrderBlind (R : D → D → Prop) : Prop where
  read : ∀ mapping mapping', mapping.Alike mapping' →
    Answers R (m.type.fromMapping mapping) (m.type.fromMapping mapping')
  id : ∀ d d', R d d' → m.type.id d = m.type.id d'
  write : ∀ d d', R d d' → Answers m.StoredAlike (m.type.toMapping d) (m.type.toMapping d')

/-- Where equal instances are the same, it is enough that documents that are alike are read
alike. -/
theorem OrderBlind.of_eq {m : Model σ D}
    (h : ∀ mapping mapping', mapping.Alike mapping' →
      m.type.fromMapping mapping = m.type.fromMapping mapping') : m.OrderBlind Eq where
  read mapping mapping' halike := .of_eq (h mapping mapping' halike)
  id d d' hd := congrArg m.type.id hd
  write d d' hd := by
    subst hd
    cases m.type.toMapping d with
    | ok mapping => exact .ok (.inl rfl)
    | error e => exact .error e

/-- What two runs come to from one instance and one target: both fail and change nothing, or both
leave the same instance and its record, which is the same up to the order of its keys, and tell
alike whether there was one before. -/
inductive SameOutcome (R : D → D → Prop) (d : D) (t : Target) :
    Except Error Bool × D × Target → Except Error Bool × D × Target → Prop where
  | failed (e e' : Error) : SameOutcome R d t (.error e, d, t) (.error e', d, t)
  | stored {name : String} {c after after' : Contents} {found : Bool} {d₁ d₂ : D}
    {record record' : Document} (target : t = .holding name c) (instances : R d₁ d₂)
    (records : (stamped (m.type.id d₁) record).Same (stamped (m.type.id d₁) record'))
    (left : c.update (m.type.id d₁) record = (found, after))
    (right : c.update (m.type.id d₁) record' = (found, after')) :
    SameOutcome R d t (.ok found, d₁, .holding name after) (.ok found, d₂, .holding name after')

variable {m}

theorem StoredAlike.toStored {mapping mapping' : Document} (h : m.StoredAlike mapping mapping')
    (id : RecordId) :
    (stamped id (m.toStored (moveKey m.primaryKey reservedIdKey mapping))).Same
      (stamped id (m.toStored (moveKey m.primaryKey reservedIdKey mapping'))) := by
  rcases h with rfl | ⟨halike, hrespellable⟩
  · exact .refl _
  · have hmoved := halike.moveKey m.primaryKey reservedIdKey
    have hnodup := nodup_moveKey m.primaryKey reservedIdKey (Document.WellFormed.nodup halike.right)
    exact (toStored_same hrespellable hmoved).insert (nodup_toStored hrespellable hnodup) _ _

theorem OrderBlind.toRecord {R : D → D → Prop} (h : m.OrderBlind R) {d d' : D} (hd : R d d') :
    Answers (fun record record' => ∀ id, (stamped id record).Same (stamped id record'))
      (m.toRecord d) (m.toRecord d') :=
  (h.write d d' hd).bind fun _ _ halike => .ok halike.toStored

/-- Overrides treat documents that are alike alike. -/
theorem overrideAll_alike {overrides d e : Document} (hvalues : ∀ o ∈ overrides, o.2.WellFormed)
    (h : d.Alike e) :
    Answers Document.Alike (m.overrideAll d overrides) (m.overrideAll e overrides) := by
  induction overrides generalizing d e with
  | nil => exact .ok h
  | cons o rest ih =>
    obtain ⟨key, v⟩ := o
    have hv : v.WellFormed := hvalues (key, v) (List.mem_cons_self ..)
    rw [overrideAll, overrideAll]
    split
    · exact ih (fun o ho => hvalues o (List.mem_cons_of_mem _ ho)) (h.insert key ⟨hv, hv, rfl⟩)
    · exact .error _

/-- An instance is edited to documents that are alike, or not at all, in any order. -/
theorem edited_perm {assignments assignments' : List (FieldPath σ × Value)}
    (hperm : assignments.Perm assignments')
    (hapart : assignments.Pairwise fun a b => Diverge a.1.attributePath b.1.attributePath)
    (hvalues : ∀ a ∈ assignments, a.2.WellFormed) {overrides : Document}
    (hoverrides : overrides.WellFormed) {d : D}
    (hd : ∀ mapping, m.type.toMapping d = .ok mapping → mapping.WellFormed) :
    Concur Document.Alike (m.edited assignments overrides d)
      (m.edited assignments' overrides d) := by
  unfold edited
  cases hmapping : m.type.toMapping d with
  | error e => exact .error e e
  | ok mapping =>
    refine (assignAll_perm hperm hapart hvalues (hd mapping hmapping)).bind fun _ _ halike => ?_
    exact .of_answers (overrideAll_alike (Value.wellFormed_document.mp hoverrides).2 halike)

omit [SchemaGraph σ] in
/-- To store one of two records that are the same has the outcome of storing the other. -/
theorem SameOutcome.update {R : D → D → Prop} {d d₁ d₂ : D} {record record' : Document}
    (name : String) (c : Contents) (hinstances : R d₁ d₂)
    (hrecords : (stamped (m.type.id d₁) record).Same (stamped (m.type.id d₁) record')) :
    m.SameOutcome R d (.holding name c)
      (.ok (c.update (m.type.id d₁) record).1, d₁,
        .holding name (c.update (m.type.id d₁) record).2)
      (.ok (c.update (m.type.id d₁) record').1, d₂,
        .holding name (c.update (m.type.id d₁) record').2) := by
  have hfound := c.found_update (m.type.id d₁) record
  rw [← c.found_update (m.type.id d₁) record'] at hfound
  rcases hleft : c.update (m.type.id d₁) record with ⟨found, after⟩
  rcases hright : c.update (m.type.id d₁) record' with ⟨found', after'⟩
  rw [hleft, hright] at hfound
  cases hfound
  exact .stored rfl hinstances hrecords hleft hright

/-- Documents that are alike are persisted alike. -/
theorem persist_alike {R : D → D → Prop} (hblind : m.OrderBlind R) {mapping mapping' : Document}
    (h : mapping.Alike mapping') (d : D) (t : Target) :
    m.SameOutcome R d t (m.persist mapping (d, t)) (m.persist mapping' (d, t)) := by
  by_cases ht : ∃ name c, t = .holding name c
  · obtain ⟨name, c, rfl⟩ := ht
    rw [persist_run, persist_run]
    have hread := hblind.read mapping mapping' h
    generalize m.type.fromMapping mapping = x, m.type.fromMapping mapping' = y at hread
    cases hread with
    | error e => exact .failed e e
    | @ok d₁ d₂ hinstances =>
      have hwritten := hblind.toRecord hinstances
      simp only
      generalize m.toRecord d₁ = x, m.toRecord d₂ = y at hwritten
      cases hwritten with
      | error e => exact .failed e e
      | @ok record record' hrecords =>
        rw [← hblind.id d₁ d₂ hinstances]
        exact .update name c hinstances (hrecords _)
  · have habsent : ∀ name c, t ≠ .holding name c := fun name c hc => ht ⟨name, c, hc⟩
    obtain ⟨e, hrun⟩ := m.persist_absent habsent d mapping
    obtain ⟨e', hrun'⟩ := m.persist_absent habsent d mapping'
    rw [hrun, hrun']
    exact .failed e e'

/-- Where documents that are alike are read as equal instances, an update whose paths diverge fails in
any order and changes nothing, or leaves one and the same behind in any order. -/
theorem update_eq_of_perm
    (hread : ∀ mapping mapping', mapping.Alike mapping' →
      m.type.fromMapping mapping = m.type.fromMapping mapping')
    {assignments assignments' : List (FieldPath σ × Value)} (hperm : assignments.Perm assignments')
    (hapart : assignments.Pairwise fun a b => Diverge a.1.attributePath b.1.attributePath)
    (hvalues : ∀ a ∈ assignments, a.2.WellFormed) {overrides : Document}
    (hoverrides : overrides.WellFormed) {d : D}
    (hd : ∀ mapping, m.type.toMapping d = .ok mapping → mapping.WellFormed) (t : Target) :
    (∃ e e', m.update assignments overrides (d, t) = (.error e, d, t) ∧
      m.update assignments' overrides (d, t) = (.error e', d, t)) ∨
    m.update assignments overrides (d, t) = m.update assignments' overrides (d, t) := by
  rw [update_eq, update_eq]
  have hedited := edited_perm hperm hapart hvalues hoverrides hd
  generalize m.edited assignments overrides d = x, m.edited assignments' overrides d = y at hedited
  cases hedited with
  | error e e' => exact .inl ⟨e, e', rfl, rfl⟩
  | ok halike =>
    refine .inr ?_
    simp only [persist, hread _ _ halike]

/-- The order of the assignments makes no difference to an update, when their paths diverge: in
any order it fails and changes nothing, or in any order it tells the same, and leaves the same
instance and the same record up to the order of its keys. The type must not look at the order of
keys; when equal instances are the same, that is a matter of reading them (`OrderBlind.of_eq`). -/
theorem update_perm {R : D → D → Prop} (hblind : m.OrderBlind R)
    {assignments assignments' : List (FieldPath σ × Value)} (hperm : assignments.Perm assignments')
    (hapart : assignments.Pairwise fun a b => Diverge a.1.attributePath b.1.attributePath)
    (hvalues : ∀ a ∈ assignments, a.2.WellFormed) {overrides : Document}
    (hoverrides : overrides.WellFormed) {d : D}
    (hd : ∀ mapping, m.type.toMapping d = .ok mapping → mapping.WellFormed) (t : Target) :
    m.SameOutcome R d t (m.update assignments overrides (d, t))
      (m.update assignments' overrides (d, t)) := by
  rw [update_eq, update_eq]
  have hedited := edited_perm hperm hapart hvalues hoverrides hd
  generalize m.edited assignments overrides d = x, m.edited assignments' overrides d = y at hedited
  cases hedited with
  | error e e' => exact .failed e e'
  | ok halike => exact persist_alike hblind halike d t

end Model

end Updates

/-! ## Anti-vacuity: a member that moves, and a card that is written on either side -/

/-- Under each key, what does not look at the order of keys sees the same. -/
theorem Document.Same.bind_get? {β : Type} {d e : Document} (h : Document.Same d e)
    (he : Keyed.Nodup e) {f : Value → Option β} (hf : ∀ v, f v.sorted = f v) (k : String) :
    (Keyed.get? d k).bind f = (Keyed.get? e k).bind f := by
  have hget := congrArg (fun v => v.bind f) (h.get? he k)
  simpa only [Option.bind_map, Function.comp_def, hf] using hget

theorem Value.integer?_sorted (v : Value) : v.sorted.integer? = v.integer? := by
  cases v <;> simp only [sorted, integer?]

/-- The text of a string. -/
def Value.text? : Value → Option String
  | .string text => some text
  | _ => none

theorem textAt?_eq (d : Document) (k : String) :
    textAt? d k = (Keyed.get? d k).bind Value.text? := by
  unfold textAt?
  cases Keyed.get? d k with
  | none => rfl
  | some v => cases v <;> rfl

theorem textAt?_congr {d e : Document} (h : d.Alike e) (k : String) :
    textAt? d k = textAt? e k := by
  rw [textAt?_eq, textAt?_eq]
  exact h.same.bind_get? (Document.WellFormed.nodup h.right)
    (fun v => by cases v <;> simp only [Value.sorted, Value.text?]) k

theorem Value.Alike.document? {v w : Value} (h : v.Alike w) :
    Option.Rel Document.Alike v.document? w.document? := by
  cases v with
  | document d =>
    cases w with
    | document e => exact .some h
    | _ => exact absurd h.sorted (by simp [Value.sorted])
  | _ =>
    cases w with
    | document e => exact absurd h.sorted (by simp [Value.sorted])
    | _ => exact .none

theorem Document.Alike.document? {d e : Document} (h : d.Alike e) (k : String) :
    Option.Rel Document.Alike ((Keyed.get? d k).bind Value.document?)
      ((Keyed.get? e k).bind Value.document?) := by
  have hget := h.get? k
  generalize Keyed.get? d k = x, Keyed.get? e k = y at hget
  cases hget with
  | none => exact .none
  | some hvw => exact hvw.document?

theorem members_orderBlind : members.OrderBlind Eq := by
  refine .of_eq fun mapping mapping' h => ?_
  have hid := h.same.bind_get? (Document.WellFormed.nodup h.right) Value.integer?_sorted "id"
  have hread : memberType.deserialize mapping = memberType.deserialize mapping' := by
    have haddress := h.document? "address"
    simp only [memberType, hid, textAt?_congr h]
    generalize (Keyed.get? mapping "address").bind Value.document? = x,
      (Keyed.get? mapping' "address").bind Value.document? = y at haddress
    cases haddress with
    | none => rfl
    | some hinner => simp only [Option.bind_eq_bind, Option.bind_some, textAt?_congr hinner]
  show memberType.fromMapping mapping = memberType.fromMapping mapping'
  rw [DocumentType.fromMapping, hread, DocumentType.fromMapping]

/-- The post code of a member. -/
def zipPath : FieldPath MemberSchema :=
  { cityPath with field := ⟨"zip", .string, some "city", false⟩ }

/-- Another address. -/
def move : List (FieldPath MemberSchema × Value) :=
  [(cityPath, .string "d"), (zipPath, .string "e")]

/-- A member before that. -/
def resident : Member := { id := 0, name := "a", city := "b", zip := "c" }

/-- A collection with that member in it. -/
def residents : Collection :=
  (Collection.Call.store [("name", .string "a"),
    ("address", .document [("city", .string "b"), ("zip", .string "c")])]).apply
      { name := "members", contents := some {} }

theorem resident_wellFormed (mapping : Document)
    (h : members.type.toMapping resident = .ok mapping) : mapping.WellFormed := by
  cases h
  refine ⟨?_, trivial, trivial, ⟨?_, trivial, trivial, trivial⟩, trivial⟩
  · show ["id", "name", "address"].Nodup
    decide
  · show ["city", "zip"].Nodup
    decide

/-- Cards have a front and a back, which are stored under each other's name. -/
inductive CardSchema where
  | card
  deriving DecidableEq

instance : SchemaGraph CardSchema where
  schema
    | .card =>
      { name := "Card", primaryKey := some "id",
        declared := [⟨"front", .any, some "back", false⟩, ⟨"back", .any, some "front", false⟩] }
  all := [.card]
  mem_all := by rintro ⟨⟩; simp

/-- The keys of a card. -/
def cardKeys : List String := ["id", "front", "back"]

/-- Cards are documents with no other keys, in any order, which they keep. -/
def cardType : DocumentType CardSchema Document where
  schema := .card
  id d := ((Keyed.get? d "id").bind Value.integer?).getD 0
  setId d id := Keyed.insert d "id" (.int64 id)
  serialize d := some (.document d)
  deserialize mapping := if ∀ k ∈ Keyed.keys mapping, k ∈ cardKeys then some mapping else none
  toJson? _ := none
  ofJson? _ := none

/-- Cards that are stored by alias. -/
def cards : Model CardSchema Document := { type := cardType, name := "cards", byAlias := true }

/-- The two are one card, up to the order of its keys. -/
def SameCard (d d' : Document) : Prop := d.Alike d' ∧ ∀ k ∈ Keyed.keys d', k ∈ cardKeys

/-- The keys of a card are renamed without falling together, in whatever order they are. -/
theorem card_respellable {d : Document} (hd : d.WellFormed)
    (hkeys : ∀ k ∈ Keyed.keys d, k ∈ cardKeys) :
    SchemaGraph.Respellable .aliases CardSchema.card (Model.moveKey "id" reservedIdKey d) := by
  have hplain : ∀ f ∈ SchemaGraph.fields CardSchema.card, ∀ t, f.kind ≠ .embedded t := by
    rintro f hf ⟨⟩
    revert f
    decide
  have hsame : ∀ k ∈ reservedIdKey :: cardKeys,
      SchemaGraph.renamed? .attributes CardSchema.card
          (SchemaGraph.respelled .aliases CardSchema.card k) =
        SchemaGraph.renamed? .aliases CardSchema.card k := by
    decide
  refine .intro (Model.nodup_moveKey _ _ hd.nodup) ?_ ?_
  · intro k hk
    refine hsame k (List.mem_cons.mpr ?_)
    exact (Model.mem_keys_moveKey hd.nodup hk).imp_right (hkeys k)
  · intro k inner f t _ hren hkind
    exact absurd hkind (hplain f (SchemaGraph.renamed?_eq_some hren).1 t)

theorem cards_orderBlind : cards.OrderBlind SameCard where
  read mapping mapping' h := by
    show Answers SameCard (cardType.fromMapping mapping) (cardType.fromMapping mapping')
    have hkeys : (∀ k ∈ Keyed.keys mapping, k ∈ cardKeys) ↔
        ∀ k ∈ Keyed.keys mapping', k ∈ cardKeys := by
      simp only [h.same.mem_keys_iff]
    rw [DocumentType.fromMapping, DocumentType.fromMapping]
    by_cases hcard : ∀ k ∈ Keyed.keys mapping', k ∈ cardKeys
    · have hread : cardType.deserialize mapping = some mapping := if_pos (hkeys.mpr hcard)
      have hread' : cardType.deserialize mapping' = some mapping' := if_pos hcard
      rw [hread, hread']
      exact .ok ⟨h, hcard⟩
    · have hread : cardType.deserialize mapping = none := if_neg fun hall => hcard (hkeys.mp hall)
      have hread' : cardType.deserialize mapping' = none := if_neg hcard
      rw [hread, hread']
      exact .error _
  id d d' h := by
    have hid := h.1.same.bind_get? (Document.WellFormed.nodup h.1.right) Value.integer?_sorted "id"
    exact congrArg (fun n => n.getD 0) hid
  write d d' h := .ok (.inr ⟨h.1, fun _ => card_respellable h.1.right h.2⟩)

/-- What is on the two sides of a card. -/
def sides : List (FieldPath CardSchema × Value) :=
  [({ field := ⟨"front", .any, some "back", false⟩, owner := "Card" }, .string "q"),
    ({ field := ⟨"back", .any, some "front", false⟩, owner := "Card" }, .string "a")]

/-- A collection with one card, which is blank. -/
def blankCard : Collection :=
  (Collection.Call.store []).apply { name := "cards", contents := some {} }

/-- A member moves, whichever part of the address is assigned first. A card is written on either
side first, and keeps that order, in which it is stored by alias. -/
theorem member_moves :
    (members.SameOutcome Eq resident (some residents)
        (members.update move [] (resident, some residents))
        (members.update move.reverse [] (resident, some residents)) ∧
      ∃ t, members.update move [] (resident, some residents) =
        (.ok true, { resident with city := "d", zip := "e" }, t)) ∧
    cards.SameOutcome SameCard [("id", .int64 0)] (some blankCard)
      (cards.update sides [] ([("id", .int64 0)], some blankCard))
      (cards.update sides.reverse [] ([("id", .int64 0)], some blankCard)) ∧
    ∃ d d' t t',
      cards.update sides [] ([("id", .int64 0)], some blankCard) = (.ok true, d, t) ∧
      cards.update sides.reverse [] ([("id", .int64 0)], some blankCard) = (.ok true, d', t') ∧
      Keyed.keys d = ["id", "front", "back"] ∧ Keyed.keys d' = ["id", "back", "front"] := by
  have hempty : Document.WellFormed [] := Value.wellFormed_empty
  constructor
  · have hvalues : ∀ a ∈ move, a.2.WellFormed := by simp [move, Value.WellFormed]
    exact ⟨Model.update_perm members_orderBlind move.reverse_perm.symm (by decide) hvalues hempty
      resident_wellFormed _, _, rfl⟩
  · have hvalues : ∀ a ∈ sides, a.2.WellFormed := by simp [sides, Value.WellFormed]
    have hd : ∀ mapping, cards.type.toMapping [("id", .int64 0)] = .ok mapping →
        mapping.WellFormed := by
      intro mapping h
      cases h
      exact ⟨by simp [Keyed.Nodup, Keyed.keys], trivial, trivial⟩
    have hsame := Model.update_perm cards_orderBlind sides.reverse_perm.symm (by decide) hvalues
      hempty hd (some blankCard)
    exact ⟨hsame, _, _, _, _, rfl, rfl, rfl, rfl⟩

end TypedStore
