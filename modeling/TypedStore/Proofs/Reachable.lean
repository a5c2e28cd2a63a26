import TypedStore.Collection

/-!
The collections that runs of calls lead to, and what they all have in common.

A run starts from a new collection and may make it, remove it, add, replace and delete records and
describe them, in any order. `Reachable` are the collections such a run can lead to as long as it
adds fewer than 2^63 records, so that the counter of identifiers does not run out.

Every collection that is reached is `Sound` (`Reachable.sound`): its records stand in ascending
order of their identifiers, each carries its own, and all of them are below the next one.
-/

namespace TypedStore

/-- How many identifiers there are, zero the first of them. -/
def idLimit : Nat := 9223372036854775808

/-- Counting on from an identifier does not wrap around below the limit. -/
theorem toInt_add_ofNat {id : RecordId} {n : Nat} (h0 : 0 ≤ id.toInt)
    (hroom : id.toInt + n < idLimit) : (id + Int64.ofNat n).toInt = id.toInt + n := by
  unfold idLimit at hroom
  rw [Int64.toInt_add, Int64.toInt_ofNat_of_lt (by omega)]
  exact Int.bmod_eq_of_le (by omega) (by omega)

/-- Counting on from an identifier leads to none of those below, even where the count wraps
around. -/
theorem succ_ne_of_le {id k : RecordId} (h0 : 0 ≤ k) (h : k ≤ id) : id + 1 ≠ k := by
  rintro rfl
  have hle := Int64.le_iff_toInt_le.mp h
  have h0' := Int64.le_iff_toInt_le.mp h0
  have hmin := id.le_toInt
  have hmax := id.toInt_lt
  rw [Int64.toInt_add, Int64.toInt_one, Int.bmod_def] at hle h0'
  rw [Int64.toInt_zero] at h0'
  split at hle <;> omega

namespace Contents

theorem keys_update (id : RecordId) (record : Document) (c : Contents) :
    Keyed.keys (c.update id record).2.records = Keyed.keys c.records := by
  unfold Contents.update
  split
  · next h => exact Keyed.keys_insert_of_mem (Keyed.contains_iff.mp h) _
  · rfl

theorem length_update (id : RecordId) (record : Document) (c : Contents) :
    (c.update id record).2.records.length = c.records.length := by
  simpa [Keyed.keys] using congrArg List.length (keys_update id record c)

theorem nextId_update (id : RecordId) (record : Document) (c : Contents) :
    (c.update id record).2.nextId = c.nextId := by
  unfold Contents.update
  split <;> rfl

/-- An update tells whether there is a record, whatever the new one is. -/
theorem found_update (id : RecordId) (record : Document) (c : Contents) :
    (c.update id record).1 = Keyed.contains c.records id := by
  unfold Contents.update
  split
  · next h => exact h.symm
  · next h => simpa using h

/-- A record goes to the end, under the next identifier. -/
theorem records_store {c : Contents} (h : c.nextId ∉ Keyed.keys c.records)
    (record : Document) :
    (c.store record).2.records = c.records ++ [(c.nextId, stamped c.nextId record)] :=
  Keyed.insert_of_notMem h _

end Contents

/-- What the contents of a collection keep to. -/
structure Contents.Sound (c : Contents) : Prop where
  ascending : (Keyed.keys c.records).Pairwise (· < ·)
  /-- The identifiers given out count from zero up to the next one. -/
  given : ∀ id ∈ Keyed.keys c.records, 0 ≤ id ∧ id < c.nextId
  counter : 0 ≤ c.nextId
  /-- A record holds the identifier that it is kept under. -/
  stamped : ∀ id record, Keyed.get? c.records id = some record →
    Keyed.get? record reservedIdKey = some (.int64 id)

namespace Collection

/-- A call that may change a collection. -/
inductive Call where
  | create
  | remove
  | store (record : Document)
  | update (id : RecordId) (record : Document)
  | delete (id : RecordId)
  | setSchema (schema : Document)

/-- What a call leaves of a collection. -/
def Call.apply : Call → Collection → Collection
  | .create, c => c.create
  | .remove, c => c.remove
  | .store record, c => (Collection.store record c).2
  | .update id record, c => (Collection.update id record c).2
  | .delete id, c => (Collection.delete id c).2
  | .setSchema schema, c => (Collection.setSchema schema c).2

/-- How many records a call may add. -/
def Call.additions : Call → Nat
  | .store _ => 1
  | _ => 0

/-- A run of calls from a new collection leads here, and adds so many records on its way. -/
inductive Reached : Nat → Collection → Prop where
  | new (name : String) : Reached 0 { name, contents := some {} }
  | call {n : Nat} {c : Collection} (call : Call) (h : Reached n c) :
    Reached (n + call.additions) (call.apply c)

/-- A run of calls that does not run out of identifiers leads here. -/
def Reachable (c : Collection) : Prop := ∃ n, n < idLimit ∧ Reached n c

end Collection

namespace Contents.Sound

theorem empty : ({} : Contents).Sound where
  ascending := by simp [Keyed.keys]
  given := by simp [Keyed.keys]
  counter := by decide
  stamped := by simp

variable {c : Contents}

theorem nodup (h : c.Sound) : Keyed.Nodup c.records :=
  h.ascending.imp fun {a b} (hlt : a < b) (heq : a = b) => Int64.lt_irrefl (heq ▸ hlt)

theorem nextId_notMem (h : c.Sound) : c.nextId ∉ Keyed.keys c.records :=
  fun hm => Int64.lt_irrefl (h.given _ hm).2

/-- The last record has the greatest identifier. -/
theorem le_of_getLast? (h : c.Sound) {last id : RecordId}
    (hlast : (Keyed.keys c.records).getLast? = some last) (hid : id ∈ Keyed.keys c.records) :
    id ≤ last := by
  obtain ⟨init, hkeys⟩ := List.getLast?_eq_some_iff.mp hlast
  have hasc := h.ascending
  rw [hkeys, List.pairwise_append] at hasc
  rw [hkeys, List.mem_append, List.mem_singleton] at hid
  rcases hid with hid | hid
  · exact Int64.le_of_lt (hasc.2.2 id hid last (List.mem_singleton_self last))
  · exact hid ▸ Int64.le_refl last

theorem nextId_succ (h : c.Sound) (hroom : c.nextId.toInt + 1 < idLimit) :
    (c.nextId + 1).toInt = c.nextId.toInt + 1 :=
  toInt_add_ofNat (Int64.le_iff_toInt_le.mp h.counter) hroom

theorem keys_store (h : c.Sound) (record : Document) :
    Keyed.keys (c.store record).2.records = Keyed.keys c.records ++ [c.nextId] := by
  simp [records_store h.nextId_notMem, Keyed.keys]

theorem length_store (h : c.Sound) (record : Document) :
    (c.store record).2.records.length = c.records.length + 1 := by
  rw [records_store h.nextId_notMem, List.length_append, List.length_singleton]

theorem store (h : c.Sound) (hroom : c.nextId.toInt + 1 < idLimit) (record : Document) :
    (c.store record).2.Sound := by
  have hsucc := h.nextId_succ hroom
  have h0 : 0 ≤ c.nextId.toInt := Int64.le_iff_toInt_le.mp h.counter
  have hlt : c.nextId < c.nextId + 1 := Int64.lt_iff_toInt_lt.mpr (by omega)
  have hkeys := h.keys_store record
  refine ⟨?_, ?_, ?_, ?_⟩
  · rw [hkeys, List.pairwise_append]
    refine ⟨h.ascending, by simp, ?_⟩
    intro a ha b hb
    rw [List.mem_singleton.mp hb]
    exact (h.given a ha).2
  · intro id hid
    rw [hkeys, List.mem_append, List.mem_singleton] at hid
    rcases hid with hid | rfl
    · exact ⟨(h.given id hid).1, Int64.lt_trans (h.given id hid).2 hlt⟩
    · exact ⟨h.counter, hlt⟩
  · exact Int64.le_of_lt (Int64.lt_of_le_of_lt h.counter hlt)
  · intro id r hr
    rw [get?_store] at hr
    split at hr
    · next heq => cases hr; simp [Contents.stamped, heq]
    · exact h.stamped id r hr

theorem update (h : c.Sound) (k : RecordId) (record : Document) : (c.update k record).2.Sound := by
  have hkeys := keys_update k record c
  have hnext := nextId_update k record c
  refine ⟨by rw [hkeys]; exact h.ascending, ?_, by rw [hnext]; exact h.counter, ?_⟩
  · rw [hkeys, hnext]; exact h.given
  · intro id r hr
    rw [get?_update] at hr
    split at hr
    · next heq => cases hr; simp [Contents.stamped, heq.1]
    · exact h.stamped id r hr

theorem delete (h : c.Sound) (k : RecordId) : (c.delete k).2.Sound := by
  have hsub := Keyed.keys_erase_sublist c.records k
  refine ⟨h.ascending.sublist hsub, fun id hid => h.given id (hsub.subset hid), h.counter, ?_⟩
  intro id r hr
  rw [get?_delete h.nodup] at hr
  split at hr
  · cases hr
  · exact h.stamped id r hr

end Contents.Sound

namespace Collection

/-- What a collection holds after a change is what the change makes of what it held. -/
theorem contents_change {α : Type} {f : Contents → α × Contents} {c : Collection}
    {contents : Contents} (h : (change f c).2.contents = some contents) :
    ∃ old, c.contents = some old ∧ contents = (f old).2 := by
  cases hold : c.contents with
  | none => simp [change_absent f hold, hold] at h
  | some old =>
    rw [change_present f hold] at h
    exact ⟨old, rfl, (Option.some.inj h).symm⟩

/-- One call keeps the contents sound, and moves the counter by at most what it adds. -/
theorem Call.apply_sound (call : Call) {c : Collection} {n : Nat}
    (h : ∀ contents, c.contents = some contents → contents.Sound ∧ contents.nextId.toInt ≤ n)
    (hroom : n + call.additions < idLimit) :
    ∀ contents, (call.apply c).contents = some contents →
      contents.Sound ∧ contents.nextId.toInt ≤ (n + call.additions : Nat) := by
  intro contents hc
  cases call with
  | create =>
    cases hold : c.contents with
    | none =>
      simp [Call.apply, Collection.create, hold] at hc
      subst hc
      exact ⟨.empty, Int.natCast_nonneg n⟩
    | some old =>
      simp [Call.apply, Collection.create, hold] at hc
      subst hc
      exact h old hold
  | remove => simp [Call.apply, Collection.remove] at hc
  | store record =>
    obtain ⟨old, hold, rfl⟩ := contents_change hc
    obtain ⟨hs, hn⟩ := h old hold
    simp only [Call.additions] at hroom ⊢
    have hlt : old.nextId.toInt + 1 < idLimit := by omega
    have hnext : (old.store record).2.nextId = old.nextId + 1 := rfl
    refine ⟨hs.store hlt record, ?_⟩
    rw [hnext, hs.nextId_succ hlt]
    omega
  | update id record =>
    obtain ⟨old, hold, rfl⟩ := contents_change hc
    obtain ⟨hs, hn⟩ := h old hold
    refine ⟨hs.update id record, ?_⟩
    unfold Contents.update
    split <;> exact hn
  | delete id =>
    obtain ⟨old, hold, rfl⟩ := contents_change hc
    obtain ⟨hs, hn⟩ := h old hold
    exact ⟨hs.delete id, hn⟩
  | setSchema schema =>
    obtain ⟨old, hold, rfl⟩ := contents_change hc
    obtain ⟨hs, hn⟩ := h old hold
    exact ⟨⟨hs.ascending, hs.given, hs.counter, hs.stamped⟩, hn⟩

theorem Reached.sound {n : Nat} {c : Collection} (h : Reached n c) (hn : n < idLimit) :
    ∀ contents, c.contents = some contents → contents.Sound ∧ contents.nextId.toInt ≤ n := by
  induction h with
  | new name =>
    intro contents hc
    cases hc
    exact ⟨.empty, by decide⟩
  | call call _ ih => exact call.apply_sound (ih (by omega)) hn

/-- What a run leads to is sound. -/
theorem Reachable.sound {c : Collection} (h : c.Reachable) {contents : Contents}
    (hc : c.contents = some contents) : contents.Sound := by
  obtain ⟨n, hn, hr⟩ := h
  exact (hr.sound hn contents hc).1

end Collection

end TypedStore
