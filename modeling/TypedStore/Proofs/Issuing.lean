import Mathlib.Algebra.Ring.Nat
import TypedStore.Proofs.Import

/-!
The identifiers that a collection gives out.

Requests against a collection are answered one after another, those that only read among them
(`serveAll`). Whatever is asked for, the next identifier stays above all that were given out since
the collection was last removed, also above those of records that are gone (`given_lt_nextId`), and
what can be read is in the order of the identifiers (`Orderly`).

The identifier that a model generates is another one: it follows the greatest identifier that is
stored, so a deletion may bring it back. But no record is ever under it, so an instance that is
prepared with it and saved is a new record (`Model.save_prepared`). `serveAll_orderly` puts all of
this together.
-/

namespace TypedStore

namespace Collection

/-- What may be asked of a collection: a call that may change it, or a look at its records. -/
inductive Request where
  | write (call : Call)
  | fetch (id : RecordId)
  | filter (condition : Document → Bool)

/-- The answer to a request. -/
inductive Reply where
  | done
  /-- The identifier that was given to a new record. -/
  | given (id : RecordId)
  | found (flag : Bool)
  | record (record : Option Document)
  | records (records : List Document)

/-- Answers a call. -/
def Call.serve : Call → Step Collection Reply
  | .create => fun c => (.ok .done, c.create)
  | .remove => fun c => (.ok .done, c.remove)
  | .store record => do return .given (← Collection.store record)
  | .update id record => do return .found (← Collection.update id record)
  | .delete id => do return .found (← Collection.delete id)
  | .setSchema schema => do
    Collection.setSchema schema
    return .done

/-- Answers a request. -/
def Request.serve : Request → Step Collection Reply
  | .write call => call.serve
  | .fetch id => do return .record (← Step.read fun c => c.fetch id)
  | .filter condition => do return .records (← Step.read fun c => c.filter condition)

/-- How many records a request may add. -/
def Request.additions : Request → Nat
  | .write call => call.additions
  | _ => 0

/-- How many records some requests may add. -/
def additions (requests : List Request) : Nat := (requests.map Request.additions).sum

/-- The answers to requests made one after another, whether they fail or not, and what becomes of
the collection. -/
def serveAll : List Request → Collection → List (Except Error Reply) × Collection
  | [], c => ([], c)
  | request :: rest, c =>
    let (reply, c) := request.serve c
    let (replies, c) := serveAll rest c
    (reply :: replies, c)

/-! ## A request leaves what its call leaves -/

theorem change_bind_pure {α β : Type} (f : Contents → α × Contents) (g : α → β)
    (c : Collection) :
    (change f >>= fun a => pure (g a)) c = ((change f c).1.map g, (change f c).2) := by
  cases hc : c.contents with
  | some contents => rw [Step.bind_run_ok (change_present f hc), change_present f hc]; rfl
  | none => rw [Step.bind_run_error (change_absent f hc), change_absent f hc]; rfl

/-- A call on records is answered where there is a collection. -/
theorem answer_of_change {α β : Type} {f : Contents → α × Contents} {g : α → β} {c : Collection}
    {b : β} (h : ((change f >>= fun a => pure (g a)) c).1 = .ok b) :
    ∃ before, c.contents = some before ∧ b = g (f before).1 := by
  rw [change_bind_pure] at h
  cases hc : c.contents with
  | some before =>
    rw [change_present f hc] at h
    exact ⟨before, rfl, (Except.ok.inj h).symm⟩
  | none =>
    rw [change_absent f hc] at h
    cases h

theorem Call.serve_snd (call : Call) (c : Collection) : (call.serve c).2 = call.apply c := by
  cases call with
  | create => rfl
  | remove => rfl
  | store record => exact congrArg Prod.snd (change_bind_pure _ _ c)
  | update id record => exact congrArg Prod.snd (change_bind_pure _ _ c)
  | delete id => exact congrArg Prod.snd (change_bind_pure _ _ c)
  | setSchema schema => exact congrArg Prod.snd (change_bind_pure _ _ c)

theorem serve_fetch (id : RecordId) (c : Collection) :
    (Request.fetch id).serve c = ((c.fetch id).map .record, c) :=
  Step.read_bind_pure _ _ c

theorem serve_filter (condition : Document → Bool) (c : Collection) :
    (Request.filter condition).serve c = ((c.filter condition).map .records, c) :=
  Step.read_bind_pure _ _ c

/-- Requests are calls as far as they change anything. -/
theorem Reached.serve {n : Nat} {c : Collection} (h : Reached n c) (request : Request) :
    Reached (n + request.additions) (request.serve c).2 := by
  cases request with
  | write call =>
    have hcall := Reached.call call h
    rw [← call.serve_snd] at hcall
    exact hcall
  | fetch id =>
    rw [serve_fetch]
    exact h
  | filter condition =>
    rw [serve_filter]
    exact h

theorem additions_cons (request : Request) (rest : List Request) :
    additions (request :: rest) = request.additions + additions rest := by
  simp [additions]

theorem Reached.serveAll {n : Nat} {c : Collection} (h : Reached n c) (requests : List Request) :
    Reached (n + additions requests) (Collection.serveAll requests c).2 := by
  induction requests generalizing n c with
  | nil => exact h
  | cons request rest ih =>
    rw [additions_cons, ← Nat.add_assoc]
    exact ih (h.serve request)

/-! ## Identifiers are not given out again -/

/-- Only adding a record gives out an identifier, the next one. -/
theorem serve_eq_given {request : Request} {c : Collection} {id : RecordId}
    (h : (request.serve c).1 = .ok (.given id)) :
    ∃ record before, request = .write (.store record) ∧ c.contents = some before ∧
      id = before.nextId := by
  cases request with
  | fetch id' =>
    rw [serve_fetch] at h
    cases hc : c.fetch id' <;> rw [hc] at h <;> cases h
  | filter condition =>
    rw [serve_filter] at h
    cases hc : c.filter condition <;> rw [hc] at h <;> cases h
  | write call =>
    cases call with
    | create => cases h
    | remove => cases h
    | store record =>
      obtain ⟨before, hc, hreply⟩ := answer_of_change h
      exact ⟨record, before, rfl, hc, Reply.given.inj hreply⟩
    | update id' record =>
      obtain ⟨before, -, hreply⟩ :=
        answer_of_change (f := Contents.update id' record) (g := Reply.found) h
      cases hreply
    | delete id' =>
      obtain ⟨before, -, hreply⟩ := answer_of_change (f := Contents.delete id') (g := Reply.found) h
      cases hreply
    | setSchema schema =>
      obtain ⟨before, -, hreply⟩ := answer_of_change
        (f := fun contents => ((), { contents with schema })) (g := fun _ => Reply.done) h
      cases hreply

/-- Where the collection is not removed, its counter does not go back. -/
theorem Call.apply_advances {call : Call} {c : Collection} {before : Contents}
    (hc : c.contents = some before) (hs : before.Sound)
    (hroom : before.nextId.toInt + call.additions < idLimit) (hkeep : call ≠ .remove) :
    ∃ after, (call.apply c).contents = some after ∧
      before.nextId.toInt + call.additions ≤ after.nextId.toInt := by
  have hchange {α : Type} (f : Contents → α × Contents) :
      (change f c).2.contents = some (f before).2 := by rw [change_present f hc]
  cases call with
  | create => exact ⟨before, by simp [apply, Collection.create, hc], by simp [additions]⟩
  | remove => exact absurd rfl hkeep
  | store record =>
    refine ⟨_, hchange _, ?_⟩
    exact Int.le_of_eq (hs.nextId_succ hroom).symm
  | update id record =>
    refine ⟨_, hchange _, ?_⟩
    rw [Contents.nextId_update]
    simp [additions]
  | delete id => exact ⟨_, hchange _, by simp [additions, Contents.delete]⟩
  | setSchema schema => exact ⟨_, hchange _, by simp [additions]⟩

theorem Request.serve_advances {request : Request} {c : Collection} {before : Contents}
    (hc : c.contents = some before) (hs : before.Sound)
    (hroom : before.nextId.toInt + request.additions < idLimit)
    (hkeep : request ≠ .write .remove) :
    ∃ after, (request.serve c).2.contents = some after ∧
      before.nextId.toInt + request.additions ≤ after.nextId.toInt := by
  cases request with
  | write call =>
    rw [show (Request.write call).serve c = call.serve c from rfl, call.serve_snd]
    exact call.apply_advances hc hs hroom fun h => hkeep (congrArg Request.write h)
  | fetch id => exact ⟨before, by rw [serve_fetch, hc], by simp [additions]⟩
  | filter condition => exact ⟨before, by rw [serve_filter, hc], by simp [additions]⟩

/-- From one removal to the next the counter does not go back, and it stays above all identifiers
that are given out. -/
theorem given_lt_nextId {requests : List Request} {c : Collection} {n : Nat} (hc : Reached n c)
    (hroom : n + additions requests < idLimit) (hkeep : .write .remove ∉ requests) :
    (∀ before, c.contents = some before → ∃ after,
      (serveAll requests c).2.contents = some after ∧
        before.nextId.toInt ≤ after.nextId.toInt) ∧
    ∀ id, .ok (.given id) ∈ (serveAll requests c).1 → ∃ after,
      (serveAll requests c).2.contents = some after ∧ id.toInt < after.nextId.toInt := by
  induction requests generalizing n c with
  | nil => exact ⟨fun before hbefore => ⟨before, hbefore, Int.le_refl _⟩, nofun⟩
  | cons request rest ih =>
    rw [additions_cons] at hroom
    rw [List.mem_cons, not_or] at hkeep
    obtain ⟨hcounter, hgiven⟩ := ih (hc.serve request) (by omega) hkeep.2
    -- what the first request leaves, and what the others leave of that
    have hstep : ∀ before, c.contents = some before → ∃ after,
        (serveAll rest (request.serve c).2).2.contents = some after ∧
          before.nextId.toInt + request.additions ≤ after.nextId.toInt := by
      intro before hbefore
      obtain ⟨hs, hn⟩ := hc.sound (by omega) before hbefore
      obtain ⟨mid, hmid, hle⟩ :=
        request.serve_advances hbefore hs (by omega) (Ne.symm hkeep.1)
      obtain ⟨after, hafter, hle'⟩ := hcounter mid hmid
      exact ⟨after, hafter, by omega⟩
    constructor
    · intro before hbefore
      obtain ⟨after, hafter, hle⟩ := hstep before hbefore
      exact ⟨after, hafter, by omega⟩
    · intro id hid
      rcases List.mem_cons.mp hid with hreply | hid
      · obtain ⟨record, before, rfl, hbefore, rfl⟩ := serve_eq_given hreply.symm
        obtain ⟨after, hafter, hle⟩ := hstep before hbefore
        simp only [Request.additions, Call.additions] at hle
        exact ⟨after, hafter, by omega⟩
      · exact hgiven id hid

/-! ## What can be read -/

/-- The records carry identifiers, in strictly ascending order. -/
def Ascending (records : List Document) : Prop :=
  ∃ ids : List RecordId, ids.Pairwise (· < ·) ∧
    records.map (Keyed.get? · reservedIdKey) = ids.map fun id => some (.int64 id)

/-- Every record carries the identifier it is kept under, which is below the next one. Records are
listed in the order of their identifiers, and the greatest one is the last. -/
structure Orderly (c : Collection) (contents : Contents) : Prop where
  kept : ∀ id record, c.fetch id = .ok (some record) →
    0 ≤ id ∧ id < contents.nextId ∧ Keyed.get? record reservedIdKey = some (.int64 id)
  all : ∃ records, c.all = .ok records ∧ Ascending records ∧
    ∀ record, record ∈ records ↔ ∃ id, c.fetch id = .ok (some record)
  filter : ∀ condition, ∃ records, c.filter condition = .ok records ∧ Ascending records ∧
    ∀ record, record ∈ records ↔ condition record = true ∧ ∃ id, c.fetch id = .ok (some record)
  last : match c.lastRecordId with
    | .ok last => (∃ record, c.fetch last = .ok (some record)) ∧
        ∀ id record, c.fetch id = .ok (some record) → id ≤ last
    | .error e => e = .emptyCollection c.name ∧ ∀ id, c.fetch id = .ok none

end Collection

namespace Contents.Sound

variable {c : Contents}

/-- Some of the entries, in their order, have records in the order of identifiers. -/
theorem ascending_of_sublist (h : c.Sound) {entries : Keyed RecordId Document}
    (hsub : entries.Sublist c.records) : Collection.Ascending (entries.map Prod.snd) := by
  refine ⟨Keyed.keys entries, h.ascending.sublist (hsub.map Prod.fst), ?_⟩
  rw [Keyed.keys, List.map_map, List.map_map]
  apply List.map_congr_left
  intro entry hentry
  exact h.stamped entry.1 entry.2 (Keyed.get?_of_mem h.nodup (hsub.subset hentry))

theorem mem_records_iff (h : c.Sound) {record : Document} :
    record ∈ c.records.map Prod.snd ↔ ∃ id, Keyed.get? c.records id = some record := by
  rw [List.mem_map]
  constructor
  · rintro ⟨entry, hentry, rfl⟩
    exact ⟨entry.1, Keyed.get?_of_mem h.nodup hentry⟩
  · rintro ⟨id, hget⟩
    exact ⟨(id, record), Keyed.mem_of_get? hget, rfl⟩

theorem orderly (h : c.Sound) (name : String) : Collection.Orderly ⟨name, some c⟩ c := by
  have hfetch (id : RecordId) :
      Collection.fetch ⟨name, some c⟩ id = .ok (Keyed.get? c.records id) :=
    Collection.fetch_eq_ok rfl id
  have hall : Collection.all ⟨name, some c⟩ = .ok (c.records.map Prod.snd) :=
    Collection.all_eq_ok rfl
  refine { kept := ?kept, all := ?all, filter := ?filter, last := ?last }
  case kept =>
    intro id record hrecord
    rw [hfetch] at hrecord
    have hget := Except.ok.inj hrecord
    have hgiven := h.given id (Keyed.mem_keys_of_get? hget)
    exact ⟨hgiven.1, hgiven.2, h.stamped id record hget⟩
  case all =>
    refine ⟨_, hall, h.ascending_of_sublist (List.Sublist.refl _), ?_⟩
    intro record
    simp only [h.mem_records_iff, hfetch, Except.ok.injEq]
  case filter =>
    intro condition
    refine ⟨(c.records.map Prod.snd).filter condition, ?_, ?_, ?_⟩
    · simp [Collection.filter, hall, bind, Except.bind, pure, Except.pure]
    · rw [List.filter_map]
      exact h.ascending_of_sublist List.filter_sublist
    · intro record
      simp only [List.mem_filter, h.mem_records_iff, hfetch, Except.ok.injEq]
      exact And.comm
  case last =>
    rw [Collection.lastRecordId_eq rfl]
    cases hlast : (Keyed.keys c.records).getLast? with
    | none =>
      refine ⟨rfl, ?_⟩
      intro id
      rw [hfetch, Keyed.get?_eq_none_iff.mpr]
      simp [List.getLast?_eq_none_iff.mp hlast]
    | some last =>
      have hmem := List.mem_of_getLast? hlast
      constructor
      · obtain ⟨record, hget⟩ := Option.isSome_iff_exists.mp (Keyed.contains_iff.mpr hmem)
        exact ⟨record, by rw [hfetch, hget]⟩
      · intro id record hrecord
        rw [hfetch] at hrecord
        exact h.le_of_getLast? hlast (Keyed.mem_keys_of_get? (Except.ok.inj hrecord))

end Contents.Sound

/-! ## What is added -/

namespace Collection

/-- One record more, under this identifier. -/
structure Gains (c after : Collection) (id : RecordId) (record : Document) : Prop where
  size : after.size = (· + 1) <$> c.size
  fetch : ∀ other, after.fetch other =
    if other = id then .ok (some (Contents.stamped id record)) else c.fetch other

end Collection

theorem Contents.Sound.gains {c : Contents} (h : c.Sound) (name : String) (record : Document) :
    Collection.Gains ⟨name, some c⟩ ⟨name, some (c.store record).2⟩ c.nextId record where
  size := congrArg Except.ok (h.length_store record)
  fetch other := by
    rw [Collection.fetch_eq_ok rfl, Collection.fetch_eq_ok rfl, Contents.get?_store]
    by_cases hother : other = c.nextId
    · rw [if_pos hother, if_pos hother.symm]
    · rw [if_neg hother, if_neg (Ne.symm hother)]

/-- An instance that was prepared is added, whatever was deleted before. -/
theorem Model.save_prepared {σ D : Type} [SchemaGraph σ] (m : Model σ D) (name : String)
    {c : Contents} (hc : c.Sound) {d : D} (hid : ∀ id, m.type.id (m.type.setId d id) = id) :
    m.save (m.prepare (.holding name c) d, .holding name c) =
      match m.toRecord (m.prepare (.holding name c) d) with
      | .ok record =>
        (.ok true, m.type.setId (m.prepare (.holding name c) d) c.nextId,
          .holding name (c.store record).2)
      | .error e => (.error e, m.prepare (.holding name c) d, .holding name c) := by
  apply m.save_run_absent
  rw [prepare, hid]
  exact m.generateId_notMem hc

namespace Collection

theorem serveAll_append (earlier later : List Request) (c : Collection) :
    (serveAll (earlier ++ later) c).2 = (serveAll later (serveAll earlier c).2).2 := by
  induction earlier generalizing c with
  | nil => rfl
  | cons request rest ih => exact ih (request.serve c).2

theorem additions_append (earlier later : List Request) :
    additions (earlier ++ later) = additions earlier + additions later := by
  simp [additions]

/-- Whatever was asked of a new collection, what can be read of it is in order, and the next
identifier is above all given out since the last removal. A record that is stored, or an instance
that is prepared and then saved, is added under that one, and no other record changes. -/
theorem serveAll_orderly (name : String) {requests : List Request} {c : Collection}
    (hc : (serveAll requests { name, contents := some {} }).2 = c)
    (hroom : additions requests < idLimit) {contents : Contents}
    (hcontents : c.contents = some contents) :
    c.Orderly contents ∧
    (∀ earlier later, requests = earlier ++ later → .write .remove ∉ later →
      ∀ id, .ok (.given id) ∈
          (serveAll later (serveAll earlier { name, contents := some {} }).2).1 →
        id < contents.nextId) ∧
    (∀ record, ∃ after, store record c = (.ok contents.nextId, after) ∧
      c.Gains after contents.nextId record) ∧
    ∀ {σ D : Type} [SchemaGraph σ] (m : Model σ D),
      c.fetch (m.generateId (some c)) = .ok none ∧
      ∀ d, (∀ id, m.type.id (m.type.setId d id) = id) →
        match m.toRecord (m.prepare (some c) d) with
        | .ok record => ∃ after,
          m.save (m.prepare (some c) d, some c) =
            (.ok true, m.type.setId (m.prepare (some c) d) contents.nextId, some after) ∧
          c.Gains after contents.nextId record
        | .error e =>
          m.save (m.prepare (some c) d, some c) = (.error e, m.prepare (some c) d, some c) := by
  have hreached (asked : List Request) :
      Reached (additions asked) (serveAll asked { name, contents := some {} }).2 := by
    have h := (Reached.new name).serveAll asked
    rwa [Nat.zero_add] at h
  have hsound : contents.Sound :=
    ((hreached requests).sound hroom contents (by rw [hc, hcontents])).1
  obtain ⟨name', contents'⟩ := c
  cases hcontents
  refine ⟨hsound.orderly name', ?given, fun record => ⟨_, rfl, hsound.gains name' record⟩, ?_⟩
  case given =>
    -- what the rest of the run gives out is below the counter that it leaves
    rintro earlier later rfl hkeep id hid
    rw [additions_append] at hroom
    obtain ⟨after, hafter, hlt⟩ := (given_lt_nextId (hreached earlier) hroom hkeep).2 id hid
    rw [← serveAll_append, hc] at hafter
    cases hafter
    exact Int64.lt_iff_toInt_lt.mpr hlt
  intro σ D _ m
  constructor
  · have hfree : m.generateId (some ⟨name', some contents⟩) ∉ Keyed.keys contents.records :=
      m.generateId_notMem hsound
    rw [fetch_eq_ok rfl, Keyed.get?_eq_none_iff.mpr hfree]
  · intro d hid
    have hsave := m.save_prepared name' hsound hid
    simp only [Target.holding] at hsave
    cases hrecord : m.toRecord (m.prepare (some ⟨name', some contents⟩) d) with
    | ok record =>
      rw [hrecord] at hsave
      exact ⟨_, hsave, hsound.gains name' record⟩
    | error e =>
      rw [hrecord] at hsave
      exact hsave

/-! ## Anti-vacuity: the last record is deleted, and its identifier is not given out again -/

/-- Two records are stored, one with an identifier of its own; then the last one is deleted. -/
def lastDeleted : List Request :=
  [.write (.store [("__id", .string "mine"), ("name", .string "a")]),
    .write (.store [("name", .string "b")]), .filter fun _ => true, .write (.delete 1), .fetch 1]

/-- What is left of that. -/
def oneLeft : Collection :=
  { name := "users"
    contents := some
      { records := [(0, [("__id", .int64 0), ("name", .string "a")])], nextId := 2 } }

/-- The model generates one, which is free again, but the user is stored under two. -/
theorem serveAll_lastDeleted :
    (serveAll lastDeleted noUsers).2 = oneLeft ∧
      users.prepare (some oneLeft) (user 0 "c") = user 1 "c" ∧
      ∃ record after, users.toRecord (user 1 "c") = .ok record ∧
        users.save (user 1 "c", some oneLeft) = (.ok true, user 2 "c", some after) ∧
        oneLeft.Gains after 2 record := by
  have hrun : (serveAll lastDeleted noUsers).2 = oneLeft := rfl
  obtain ⟨-, -, -, hmodel⟩ := serveAll_orderly "users" hrun (by decide) rfl
  have hid (id : RecordId) : users.type.id (users.type.setId (user 0 "c") id) = id := by
    cases id
    rfl
  obtain ⟨after, hsave, hgains⟩ := (hmodel users).2 (user 0 "c") hid
  exact ⟨hrun, rfl, _, after, rfl, hsave, hgains⟩

end Collection

end TypedStore
