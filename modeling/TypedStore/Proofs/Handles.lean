import TypedStore.Shelf
import TypedStore.Proofs.Issuing
import TypedStore.Proofs.KeyOrder

/-!
Handles on the collections of a store.

A session opens names, drops them, lists them, and asks questions through the handles it was given
when it opened them, in any order. `Access` is what it takes from a store for that. On a shelf a
handle is a cell, and it is kept while the name is dropped and opened again. On a `Store` it is no
more than the name.

A session cannot tell the two apart: whatever it does, it gets the same replies
(`Agrees.play`). What carries this from step to step is that each handle is the cell that its name
leads to now, whenever it was given out, and that names do not share cells (`Session.Agrees`). So
all handles on a name are one (`Agrees.ask_eq`).
-/

namespace TypedStore

namespace Collection

/-- What may be asked through a handle. -/
inductive Question where
  | request (request : Request)
  | name
  | isPresent
  | all
  | size
  | isEmpty
  | schema
  | lastRecordId

/-- The answer to a question. -/
inductive Answer where
  | reply (reply : Reply)
  | name (name : String)
  | flag (flag : Bool)
  | records (records : List Document)
  | count (size : Nat)
  | schema (schema : Document)
  | id (id : RecordId)

namespace Question

/-- Answers a question. -/
def serve : Question → Step Collection Answer
  | .request asked => do return .reply (← asked.serve)
  | .name => Step.read fun c => .ok (.name c.name)
  | .isPresent => Step.read fun c => .ok (.flag c.isPresent)
  | .all => Step.read fun c => c.all.map .records
  | .size => Step.read fun c => c.size.map .count
  | .isEmpty => Step.read fun c => c.size.map fun n => .flag (n == 0)
  | .schema => Step.read fun c => c.schema.map .schema
  | .lastRecordId => Step.read fun c => c.lastRecordId.map .id

/-- Whether a question is about the records of the collection, and not about its name or whether it
is there. -/
def onRecords : Question → Bool
  | .request (.write .create) | .request (.write .remove) | .name | .isPresent => false
  | _ => true

theorem serve_request (request : Request) (c : Collection) :
    (Question.request request).serve c =
      ((request.serve c).1.map .reply, (request.serve c).2) := by
  show (request.serve >>= fun reply => pure (Answer.reply reply)) c = _
  rcases h : request.serve c with ⟨_ | _, after⟩
  · rw [Step.bind_run_error h]
    rfl
  · rw [Step.bind_run_ok h]
    rfl

/-- A question changes a collection by its call, if it has one. -/
theorem serve_snd (question : Question) (c : Collection) :
    (question.serve c).2 = c ∨
      ∃ call, question = .request (.write call) ∧ (question.serve c).2 = call.apply c := by
  cases question with
  | request request =>
    rw [serve_request]
    cases request with
    | write call => exact .inr ⟨call, rfl, call.serve_snd c⟩
    | fetch id => exact .inl (by rw [serve_fetch])
    | filter condition => exact .inl (by rw [serve_filter])
  | _ => exact .inl rfl

end Question

theorem name_change {α : Type} (f : Contents → α × Contents) (c : Collection) :
    (change f c).2.name = c.name := by
  cases hc : c.contents with
  | some contents => rw [change_present f hc]
  | none => rw [change_absent f hc]

theorem Call.name_apply (call : Call) (c : Collection) : (call.apply c).name = c.name := by
  cases call with
  | create | remove => rfl
  | _ => exact name_change _ c

theorem Call.apply_of_absent {call : Call} {c : Collection} (h : c.contents = none)
    (hcreate : call ≠ .create) : call.apply c = c := by
  cases call with
  | create => exact absurd rfl hcreate
  | remove => exact congrArg (Collection.mk c.name) h.symm
  | _ => exact congrArg Prod.snd (change_absent _ h)

theorem Call.serve_of_absent {call : Call} {c : Collection} (h : c.contents = none)
    (hcreate : call ≠ .create) (hremove : call ≠ .remove) :
    call.serve c = (.error (.collectionNotFound c.name), c) := by
  cases call with
  | create => exact absurd rfl hcreate
  | remove => exact absurd rfl hremove
  | _ =>
    refine (change_bind_pure _ _ c).trans ?_
    rw [change_absent _ h]
    rfl

namespace Question

theorem name_serve (question : Question) (c : Collection) :
    (question.serve c).2.name = c.name := by
  rcases question.serve_snd c with h | ⟨call, -, h⟩
  · rw [h]
  · rw [h, call.name_apply]

/-- An absent collection stays as it is until it is created. -/
theorem serve_snd_of_absent {question : Question} {c : Collection} (h : c.contents = none)
    (hcreate : question ≠ .request (.write .create)) : (question.serve c).2 = c := by
  rcases question.serve_snd c with hsame | ⟨call, rfl, hcall⟩
  · exact hsame
  · rw [hcall, Call.apply_of_absent h fun hcall => hcreate (by rw [hcall])]

/-- No question about records is answered where there is no collection. -/
theorem serve_of_absent {question : Question} {c : Collection} (h : c.contents = none)
    (hrecords : question.onRecords = true) :
    question.serve c = (.error (.collectionNotFound c.name), c) := by
  have hopened : c.opened = .error (.collectionNotFound c.name) := by simp [opened, h]
  cases question with
  | name | isPresent => simp [onRecords] at hrecords
  | request request =>
    rw [serve_request]
    cases request with
    | fetch id => simp [serve_fetch, fetch, hopened, bind, Except.bind, Except.map]
    | filter condition =>
      simp [serve_filter, filter, Collection.all, hopened, bind, Except.bind, Except.map]
    | write call =>
      have hcreate : call ≠ .create := by
        rintro rfl
        simp [onRecords] at hrecords
      have hremove : call ≠ .remove := by
        rintro rfl
        simp [onRecords] at hrecords
      show ((call.serve c).1.map _, (call.serve c).2) = _
      rw [call.serve_of_absent h hcreate hremove]
      rfl
  | _ =>
    simp [serve, Step.read, Collection.all, Collection.size, Collection.schema,
      Collection.lastRecordId, hopened, bind, Except.bind, Except.map]

end Question

end Collection

open Collection (Question)

/-! ## Sessions -/

/-- What a session does about a name. A question goes through one of the handles that were given out
on the name, which are counted from zero. -/
inductive Deed where
  | reach
  | drop
  | ask (handle : Nat) (question : Question)

/-- What a session does next: it lists the names, or it does something about one of them. -/
inductive Command where
  | names
  | on (name : String) (deed : Deed)

/-- What a session gets for a command. -/
inductive Response where
  | done
  | names (names : List String)
  | answer (answer : Collection.Answer)
  /-- There is no such handle. -/
  | noHandle

/-- A store as it is reached: `S` is what it is, and `H` what it gives out when a name is opened. -/
structure Access (S H : Type) where
  empty : S
  reach : S → String → H × S
  names : S → List String
  drop : String → Step S Unit
  within : H → Step Collection Collection.Answer → Step S Collection.Answer

/-- A shelf gives out the cell of a name. -/
def Shelf.access : Access Shelf Nat where
  empty := {}
  reach := reach
  names := names
  drop := drop
  within := within

/-- A store gives out the name. -/
def Store.access : Access Store String where
  empty := []
  reach s name := (name, s.ensure name)
  names := names
  drop := drop
  within := within

/-- A store, and the handles on each name that were given out so far. -/
structure Session (S H : Type) where
  state : S
  handles : String → List H := fun _ => []

namespace Access

variable {S H : Type} (a : Access S H)

/-- Obeys a command. -/
def serve : Command → Step (Session S H) Response
  | .names => fun s => (.ok (.names (a.names s.state)), s)
  | .on name .reach => fun s =>
    let (handle, state) := a.reach s.state name
    (.ok .done, { state, handles := Function.update s.handles name (s.handles name ++ [handle]) })
  | .on name .drop => fun s =>
    let (answer, state) := a.drop name s.state
    (answer.map fun _ => .done, { s with state })
  | .on name (.ask handle question) => fun s =>
    match (s.handles name)[handle]? with
    | some handle =>
      let (answer, state) := a.within handle question.serve s.state
      (answer.map .answer, { s with state })
    | none => (.ok .noHandle, s)

/-- Obeys commands one after another, whether they fail or not: each of them with the reply to it,
and the session that is left. -/
def play : List Command → Session S H → List (Command × Except Error Response) × Session S H
  | [], s => ([], s)
  | command :: rest, s =>
    let (reply, s) := a.serve command s
    let (replies, s) := play rest s
    ((command, reply) :: replies, s)

theorem play_cons (command : Command) (rest : List Command) (s : Session S H) :
    a.play (command :: rest) s =
      ((command, (a.serve command s).1) :: (a.play rest (a.serve command s).2).1,
        (a.play rest (a.serve command s).2).2) := rfl

/-- A new store with the named collections, on which there are no handles yet. -/
def start (names : List String) : Session S H :=
  { state := names.foldl (fun s name => (a.reach s name).2) a.empty }

/-- What a session with a new store gets for its commands. -/
def replies (names : List String) (run : List Command) : List (Command × Except Error Response) :=
  (a.play run (a.start names)).1

/-- The session that is left of one with a new store. -/
def after (names : List String) (run : List Command) : Session S H :=
  (a.play run (a.start names)).2

end Access

/-! ## A shelf shows a store -/

/-- Names in ascending order are settled by which they are. -/
theorem eq_of_ascending {a b : List String} (ha : a.Pairwise (· < ·)) (hb : b.Pairwise (· < ·))
    (h : ∀ name, name ∈ a ↔ name ∈ b) : a = b := by
  have hperm : a.Perm b :=
    (List.perm_ext_iff_of_nodup (ha.imp String.ne_of_lt) (hb.imp String.ne_of_lt)).mpr h
  exact hperm.eq_of_pairwise (fun _ _ _ _ hab hba => absurd hba (String.lt_asymm hab)) ha hb

/-- The keys in order, when each is there once. -/
theorem Keyed.mergeSort_keys_ascending {α : Type} {d : Keyed String α} (hd : Keyed.Nodup d) :
    ((Keyed.keys d).mergeSort fun a b => decide (a ≤ b)).Pairwise (· < ·) := by
  have hsort : (Keyed.keys d).mergeSort (fun a b => decide (a ≤ b)) =
      Keyed.keys (Keyed.sort d) := by
    rw [Keyed.sort, Keyed.keys, Keyed.keys,
      List.map_mergeSort (f := Prod.fst) (s := fun a b => decide (a ≤ b)) fun _ _ _ _ => rfl]
  have hle : (Keyed.keys (Keyed.sort d)).Pairwise (· ≤ ·) :=
    List.pairwise_map.mpr (Keyed.sort_ascending d)
  have hnodup : (Keyed.keys (Keyed.sort d)).Nodup :=
    ((Keyed.sort_perm d).map Prod.fst).nodup_iff.mpr hd
  rw [hsort]
  refine (hle.and hnodup).imp fun {a b} hab => ?_
  exact Decidable.byContradiction fun hlt =>
    hab.2 (String.le_antisymm hab.1 (String.not_lt.mp hlt))

theorem Shelf.names_ascending {s : Shelf} (hs : s.Sound) : s.names.Pairwise (· < ·) :=
  Keyed.mergeSort_keys_ascending (hs.nodup.sublist (List.filter_sublist.map _))

theorem Store.names_ascending {s : Store} (hs : Keyed.Nodup s) : s.names.Pairwise (· < ·) :=
  Keyed.mergeSort_keys_ascending hs

theorem Store.mem_names {s : Store} {name : String} :
    name ∈ s.names ↔ (s.collection name).isPresent = true := by
  rw [names, List.mem_mergeSort, ← Keyed.contains_iff]
  rfl

theorem Store.drop_of_present {s : Store} {name : String}
    (h : (s.collection name).isPresent = true) :
    Store.drop name s = (.ok (), s.put name none) := if_pos h

theorem Store.drop_of_absent {s : Store} {name : String}
    (h : (s.collection name).isPresent = false) :
    Store.drop name s = (.error (.collectionNotFound name), s) := if_neg (Bool.eq_false_iff.mp h)

/-- The store has the collections that are on the shelf. -/
structure Shelf.Shows (s : Shelf) (t : Store) : Prop where
  sound : s.Sound
  nodup : Keyed.Nodup t
  collection : ∀ name, s.collection name = t.collection name

namespace Shelf.Shows

variable {s : Shelf} {t : Store}

theorem names_eq (h : Shows s t) : s.names = t.names := by
  refine eq_of_ascending (names_ascending h.sound) (Store.names_ascending h.nodup) ?_
  intro name
  rw [mem_names h.sound, Store.mem_names, h.collection]

/-- Filling the cell of a name is putting the collection under the name. -/
theorem put (h : Shows s t) {name : String} {cell : Nat}
    (hcell : Keyed.get? s.entries name = some cell) {c : Collection} (hc : c.name = name) :
    Shows (s.put cell c) (t.put name c.contents) where
  sound := h.sound.put hcell hc
  nodup := Store.nodup_put h.nodup name c.contents
  collection other := by
    rw [collection_put h.sound hcell, Store.collection_put h.nodup, h.collection, ← hc]

theorem reach (h : Shows s t) (name : String) : Shows (s.reach name).2 (t.ensure name) where
  sound := h.sound.reach name
  nodup := Store.nodup_put h.nodup name (t.collection name).create.contents
  collection other := by
    rw [collection_reach h.sound, Store.ensure, Store.collection_put h.nodup, h.collection,
      h.collection]
    rfl

theorem foldl_reach (h : Shows s t) (names : List String) :
    Shows (names.foldl (fun s name => (s.reach name).2) s) (names.foldl Store.ensure t) := by
  induction names generalizing s t with
  | nil => exact h
  | cons name rest ih => exact ih (h.reach name)

end Shelf.Shows

/-- A session with a shelf and one with the store that it shows. Every handle on a name is the cell
of the name, and there are as many handles on either side. -/
structure Session.Agrees (x : Session Shelf Nat) (y : Session Store String) : Prop extends
    Shelf.Shows x.state y.state where
  held : ∀ name, ∀ cell ∈ x.handles name, Keyed.get? x.state.entries name = some cell
  named : ∀ name, y.handles name = List.replicate (x.handles name).length name

namespace Session.Agrees

variable {x : Session Shelf Nat} {y : Session Store String}

theorem start (names : List String) :
    Agrees (Shelf.access.start names) (Store.access.start names) where
  toShows :=
    have hempty : Shelf.Shows {} [] := ⟨.empty, List.nodup_nil, fun _ => rfl⟩
    hempty.foldl_reach names
  held := nofun
  named _ := rfl

theorem reach (h : Agrees x y) (name : String) :
    Agrees (Shelf.access.serve (.on name .reach) x).2
      (Store.access.serve (.on name .reach) y).2 where
  toShows := h.toShows.reach name
  held other cell hcell := by
    simp only [Access.serve] at hcell
    by_cases hother : other = name
    · subst hother
      -- a handle from before is the cell that is given out again
      rw [Function.update_self, List.mem_append, List.mem_singleton] at hcell
      rcases hcell with hcell | rfl
      · exact Shelf.get?_reach_of_some (h.held _ _ hcell) other
      · exact (Shelf.get?_reach ..).trans (if_pos rfl)
    · rw [Function.update_of_ne hother] at hcell
      exact Shelf.get?_reach_of_some (h.held _ _ hcell) name
  named other := by
    simp only [Access.serve]
    by_cases hother : other = name
    · subst hother
      simp [h.named, Store.access, List.replicate_succ']
    · simp [Function.update_of_ne hother, h.named]

/-- Whatever is asked through a handle is asked of the collection of its name. -/
theorem within_eq (h : Agrees x y) {name : String} {cell : Nat} (hcell : cell ∈ x.handles name)
    (question : Question) :
    Shelf.within cell question.serve x.state =
      ((question.serve (x.state.collection name)).1,
        x.state.put cell (question.serve (x.state.collection name)).2) := by
  rw [Shelf.collection_of_entry (h.held _ _ hcell)]
  rfl

/-- A command gets the same reply on either side, and leaves sessions that agree. -/
theorem serve (h : Agrees x y) (command : Command) :
    (Shelf.access.serve command x).1 = (Store.access.serve command y).1 ∧
      Agrees (Shelf.access.serve command x).2 (Store.access.serve command y).2 := by
  rcases command with _ | ⟨name, _ | _ | ⟨handle, question⟩⟩
  case names => exact ⟨congrArg (fun names => Except.ok (Response.names names)) h.names_eq, h⟩
  case on.reach => exact ⟨rfl, h.reach name⟩
  case on.drop =>
    cases hx : (x.state.collection name).isPresent with
    | true =>
      obtain ⟨cell, hcell, hdrop⟩ := Shelf.drop_of_present hx
      rw [h.collection] at hx
      simp only [Access.serve, Shelf.access, Store.access, hdrop, Store.drop_of_present hx]
      -- the emptied cell stays with the shelf, the store forgets the name
      exact ⟨trivial, h.toShows.put hcell (h.sound.collection_name name), h.held, h.named⟩
    | false =>
      have hy := hx
      rw [h.collection] at hy
      simp only [Access.serve, Shelf.access, Store.access, Shelf.drop_of_absent hx,
        Store.drop_of_absent hy]
      exact ⟨trivial, h⟩
  case on.ask =>
    simp only [Access.serve, h.named, List.getElem?_replicate]
    cases hcell : (x.handles name)[handle]? with
    | none =>
      rw [if_neg (Nat.not_lt.mpr (List.getElem?_eq_none_iff.mp hcell))]
      exact ⟨rfl, h⟩
    | some cell =>
      have hmem := List.mem_of_getElem? hcell
      rw [if_pos (List.getElem?_eq_some_iff.mp hcell).1]
      simp only [Shelf.access, Store.access, h.within_eq hmem, Store.within, h.collection]
      refine ⟨trivial, h.toShows.put (h.held _ _ hmem) ?_, h.held, h.named⟩
      rw [question.name_serve]
      rfl

/-- Any run gets the same replies on either side. -/
theorem play (h : Agrees x y) (run : List Command) :
    (Shelf.access.play run x).1 = (Store.access.play run y).1 ∧
      Agrees (Shelf.access.play run x).2 (Store.access.play run y).2 := by
  induction run generalizing x y with
  | nil => exact ⟨rfl, h⟩
  | cons command rest ih =>
    obtain ⟨hreply, hsession⟩ := h.serve command
    obtain ⟨hreplies, hafter⟩ := ih hsession
    rw [Access.play_cons, Access.play_cons, hreply, hreplies]
    exact ⟨rfl, hafter⟩

theorem after (names : List String) (run : List Command) :
    Agrees (Shelf.access.after names run) (Store.access.after names run) :=
  ((start names).play run).2

/-- It makes no difference through which handle on a name a question goes. All of them lead to the
one collection of the name. -/
theorem ask_eq (h : Agrees x y) {name : String} {handle : Nat}
    (hhandle : handle < (x.handles name).length) (question : Question) :
    ∃ cell, Keyed.get? x.state.entries name = some cell ∧
      Shelf.access.serve (.on name (.ask handle question)) x =
        ((question.serve (x.state.collection name)).1.map .answer,
          { x with state := x.state.put cell (question.serve (x.state.collection name)).2 }) := by
  have hcell := List.getElem?_eq_getElem hhandle
  refine ⟨_, h.held name _ (List.getElem_mem hhandle), ?_⟩
  simp only [Access.serve, hcell, Shelf.access, h.within_eq (List.getElem_mem hhandle)]

end Session.Agrees

end TypedStore
