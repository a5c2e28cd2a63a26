import TypedStore.Proofs.Handles

/-!
The names of a store do not interfere.

To a session every name is a little machine of its own: the collection it stands for, and how many
handles on it were given out (`View`). What is done about a name is answered by its machine and
moves no other one (`Agrees.serve_on`), though on the shelf all of them lie side by side and cells
outlive what is in them. So what is done about a name in a run could as well be done without the
rest of it (`Agrees.play_about`), and a collection that was dropped stays away until its own
machine is told to make it again (`Agrees.view_play_of_absent`).
-/

namespace TypedStore

open Collection (Question)

/-- A name by itself: the collection it stands for, and how many handles on it were given out. -/
structure View where
  collection : Collection
  handles : Nat

/-- What is done about a name that is by itself. -/
def View.serve : Deed → Step View Response
  | .reach => fun v => (.ok .done, { collection := v.collection.create, handles := v.handles + 1 })
  | .drop => fun v =>
    if v.collection.isPresent then (.ok .done, { v with collection := v.collection.remove })
    else (.error (.collectionNotFound v.collection.name), v)
  | .ask handle question => fun v =>
    if handle < v.handles then
      let (answer, collection) := question.serve v.collection
      (answer.map .answer, { v with collection })
    else (.ok .noHandle, v)

/-- Whether it makes the collection of a name, which it cannot do through a handle that there is
not. -/
def Deed.revives (handles : Nat) : Deed → Bool
  | .reach => true
  | .ask handle (.request (.write .create)) => handle < handles
  | _ => false

/-- Whether it leaves a name without a collection. -/
def Deed.removes (handles : Nat) : Deed → Bool
  | .drop => true
  | .ask handle (.request (.write .remove)) => handle < handles
  | _ => false

/-- Whether the command is about a name. -/
def Command.about (name : String) : Command → Bool
  | .names => false
  | .on other _ => other == name

theorem Command.about_iff {name : String} {command : Command} :
    command.about name = true ↔ ∃ deed, command = .on name deed := by
  cases command with
  | names => simp [about]
  | on other deed => simp [about]

/-- What a session has of a name. -/
def Session.view (x : Session Shelf Nat) (name : String) : View :=
  { collection := x.state.collection name, handles := (x.handles name).length }

namespace View

variable {v : View} {deed : Deed}

theorem serve_drop_of_present (h : v.collection.isPresent = true) :
    View.serve .drop v = (.ok .done, { v with collection := v.collection.remove }) := if_pos h

theorem serve_drop_of_absent (h : v.collection.isPresent = false) :
    View.serve .drop v = (.error (.collectionNotFound v.collection.name), v) :=
  if_neg (Bool.eq_false_iff.mp h)

theorem serve_ask {handle : Nat} (h : handle < v.handles) (question : Question) :
    View.serve (.ask handle question) v =
      ((question.serve v.collection).1.map .answer,
        { v with collection := (question.serve v.collection).2 }) := if_pos h

theorem serve_ask_of_not_lt {handle : Nat} (h : ¬handle < v.handles) (question : Question) :
    View.serve (.ask handle question) v = (.ok .noHandle, v) := if_neg h

theorem serve_of_removes (h : deed.removes v.handles = true) :
    (View.serve deed v).2.collection.contents = none := by
  cases deed with
  | reach => simp [Deed.removes] at h
  | drop =>
    cases hpresent : v.collection.isPresent with
    | true => rw [serve_drop_of_present hpresent, Collection.remove]
    | false =>
      rw [serve_drop_of_absent hpresent]
      simpa [Collection.isPresent] using hpresent
  | ask handle question =>
    unfold Deed.removes at h
    split at h
    · next heq => cases heq
    · next heq =>
      cases heq
      rw [serve_ask (of_decide_eq_true h)]
      rfl
    · cases h

/-- What does not make an absent collection leaves everything as it is. -/
theorem serve_of_absent (h : v.collection.contents = none)
    (hkeep : deed.revives v.handles = false) : (View.serve deed v).2 = v := by
  cases deed with
  | reach => simp [Deed.revives] at hkeep
  | drop => rw [serve_drop_of_absent (by simp [Collection.isPresent, h])]
  | ask handle question =>
    by_cases hhandle : handle < v.handles
    · have hcreate : question ≠ .request (.write .create) := by
        rintro rfl
        simp [Deed.revives, hhandle] at hkeep
      rw [serve_ask hhandle, question.serve_snd_of_absent h hcreate]
    · rw [serve_ask_of_not_lt hhandle]

/-- What makes an absent collection makes it empty, and takes no handle away. -/
theorem serve_of_revives (h : v.collection.contents = none)
    (hrevives : deed.revives v.handles = true) :
    (View.serve deed v).2.collection = { name := v.collection.name, contents := some {} } ∧
      v.handles ≤ (View.serve deed v).2.handles := by
  have hcreate : v.collection.create = { name := v.collection.name, contents := some {} } := by
    rw [Collection.create, h]
    rfl
  cases deed with
  | reach => exact ⟨hcreate, Nat.le_succ _⟩
  | drop => simp [Deed.revives] at hrevives
  | ask handle question =>
    unfold Deed.revives at hrevives
    split at hrevives
    · next heq => cases heq
    · next heq =>
      cases heq
      rw [serve_ask (of_decide_eq_true hrevives)]
      exact ⟨hcreate, Nat.le_refl _⟩
    · cases hrevives

end View

namespace Session.Agrees

variable {x : Session Shelf Nat} {y : Session Store String}

/-- Another collection in the cell of a name shows in the view of that name alone. -/
theorem view_put (h : Agrees x y) {name : String} {cell : Nat}
    (hcell : Keyed.get? x.state.entries name = some cell) (c : Collection) (other : String) :
    view { x with state := x.state.put cell c } other =
      if name = other then { x.view name with collection := c } else x.view other := by
  simp only [view, Shelf.collection_put h.sound hcell]
  split
  · next heq => rw [heq]
  · rfl

/-- What is done about a name is answered by the name by itself, and is of no consequence to the
others. -/
theorem serve_on (h : Agrees x y) (name : String) (deed : Deed) :
    (Shelf.access.serve (.on name deed) x).1 = (View.serve deed (x.view name)).1 ∧
      ∀ other, (Shelf.access.serve (.on name deed) x).2.view other =
        if name = other then (View.serve deed (x.view name)).2 else x.view other := by
  have hsame (other : String) :
      x.view other = if name = other then x.view name else x.view other := by
    split
    · next heq => rw [heq]
    · rfl
  cases deed with
  | reach =>
    -- the cell may be a new one, and a handle is added
    refine ⟨rfl, fun other => ?_⟩
    simp only [Access.serve, Shelf.access, view, View.serve, Shelf.collection_reach h.sound]
    split
    · next heq =>
      subst heq
      simp
    · next hne => rw [Function.update_of_ne (Ne.symm hne)]
  | drop =>
    cases hpresent : (x.state.collection name).isPresent with
    | true =>
      obtain ⟨cell, hcell, hdrop⟩ := Shelf.drop_of_present hpresent
      rw [View.serve_drop_of_present (v := x.view name) hpresent]
      simp only [Access.serve, Shelf.access, hdrop]
      exact ⟨rfl, h.view_put hcell _⟩
    | false =>
      have hname : (x.view name).collection.name = name := h.sound.collection_name name
      rw [View.serve_drop_of_absent (v := x.view name) hpresent, hname]
      simp only [Access.serve, Shelf.access, Shelf.drop_of_absent hpresent]
      exact ⟨rfl, hsame⟩
  | ask handle question =>
    by_cases hhandle : handle < (x.view name).handles
    · obtain ⟨cell, hcell, hask⟩ := h.ask_eq hhandle question
      rw [hask, View.serve_ask hhandle]
      exact ⟨rfl, h.view_put hcell _⟩
    · have hnone := List.getElem?_eq_none_iff.mpr (Nat.not_lt.mp hhandle)
      rw [View.serve_ask_of_not_lt hhandle]
      simp only [Access.serve, hnone]
      exact ⟨trivial, hsame⟩

/-- What is not about a name leaves it as it is. -/
theorem view_serve_of_not_about (h : Agrees x y) {command : Command} {name : String}
    (hother : command.about name = false) :
    (Shelf.access.serve command x).2.view name = x.view name := by
  cases command with
  | names => rfl
  | on other deed =>
    have hne : other ≠ name := by simpa [Command.about] using hother
    rw [(h.serve_on other deed).2 name, if_neg hne]

/-- What a run does about a name it could do without the rest. -/
theorem play_about {x' : Session Shelf Nat} {y' : Session Store String} (h : Agrees x y)
    (h' : Agrees x' y') {name : String} (hview : x.view name = x'.view name)
    (run : List Command) :
    ((Shelf.access.play run x).1.filter fun e => e.1.about name) =
        (Shelf.access.play (run.filter fun c => c.about name) x').1 ∧
      (Shelf.access.play run x).2.view name =
        (Shelf.access.play (run.filter fun c => c.about name) x').2.view name := by
  induction run generalizing x y x' y' with
  | nil => exact ⟨rfl, hview⟩
  | cons command rest ih =>
    cases habout : command.about name with
    | false =>
      -- only the whole run takes this step
      have hkept := h.view_serve_of_not_about habout
      obtain ⟨hreplies, hlast⟩ := ih (h.serve command).2 h' (hkept.trans hview)
      rw [List.filter_cons_of_neg (by simp [habout]), Access.play_cons]
      refine ⟨?_, hlast⟩
      rw [← hreplies]
      exact List.filter_cons_of_neg (by simp [habout])
    | true =>
      obtain ⟨deed, rfl⟩ := Command.about_iff.mp habout
      obtain ⟨hreply, hmoved⟩ := h.serve_on name deed
      obtain ⟨hreply', hmoved'⟩ := h'.serve_on name deed
      -- the machine of the name is in one state in both sessions, before the deed and after it
      have hnext : (Shelf.access.serve (.on name deed) x).2.view name =
          (Shelf.access.serve (.on name deed) x').2.view name := by
        rw [hmoved, hmoved', hview]
      obtain ⟨hreplies, hlast⟩ := ih (h.serve _).2 (h'.serve _).2 hnext
      rw [List.filter_cons_of_pos habout, Access.play_cons, Access.play_cons]
      refine ⟨?_, hlast⟩
      rw [← hreplies, hreply, hreply', hview]
      exact List.filter_cons_of_pos habout

/-- A name without a collection stays as it is until the collection is made again. -/
theorem view_play_of_absent (h : Agrees x y) {name : String}
    (habsent : (x.view name).collection.contents = none) {run : List Command}
    (hkeep : ∀ deed, .on name deed ∈ run → deed.revives (x.view name).handles = false) :
    (Shelf.access.play run x).2.view name = x.view name := by
  induction run generalizing x y with
  | nil => rfl
  | cons command rest ih =>
    have hstep : (Shelf.access.serve command x).2.view name = x.view name := by
      cases habout : command.about name with
      | false => exact h.view_serve_of_not_about habout
      | true =>
        obtain ⟨deed, rfl⟩ := Command.about_iff.mp habout
        rw [(h.serve_on name deed).2, if_pos rfl]
        exact View.serve_of_absent habsent (hkeep deed (List.mem_cons_self ..))
    rw [Access.play_cons, ← hstep]
    rw [← hstep] at habsent hkeep
    exact ih (h.serve command).2 habsent fun deed hdeed => hkeep deed (List.mem_cons_of_mem _ hdeed)

end Session.Agrees

/-! ## What every run can rely on -/

/-- Opening names makes the collections of these names. -/
theorem Shelf.collection_foldl_reach {s : Shelf} (hs : s.Sound) (names : List String)
    (name : String) :
    (names.foldl (fun s name => (s.reach name).2) s).collection name =
      if name ∈ names then (s.collection name).create else s.collection name := by
  induction names generalizing s with
  | nil => rfl
  | cons first rest ih =>
    rw [List.foldl_cons, ih (hs.reach first), collection_reach hs]
    by_cases heq : first = name
    · subst heq
      simp [Collection.create]
    · simp [heq, Ne.symm heq]

/-- What a new store has of a name does not depend on the other names. -/
theorem Session.view_start (names : List String) (name : String) :
    (Shelf.access.start names).view name =
      (Shelf.access.start (names.filter (· == name))).view name := by
  have hstart (names : List String) : (Shelf.access.start names).view name =
      { collection := if name ∈ names then { name, contents := some {} } else { name }
        handles := 0 } :=
    congrArg (fun collection => { collection, handles := 0 : View })
      (Shelf.collection_foldl_reach .empty names name)
  rw [hstart, hstart]
  simp

namespace Session

/-- Through all handles on a name one collection is read and changed, and it makes no difference
through which. -/
structure Coherent (x : Session Shelf Nat) : Prop where
  same : ∀ name handle other question,
    handle < (x.view name).handles → other < (x.view name).handles →
      Shelf.access.serve (.on name (.ask handle question)) x =
        Shelf.access.serve (.on name (.ask other question)) x
  shared : ∀ name handle question, handle < (x.view name).handles →
    (Shelf.access.serve (.on name (.ask handle question)) x).1 =
        (question.serve (x.view name).collection).1.map .answer ∧
      ((Shelf.access.serve (.on name (.ask handle question)) x).2.view name).collection =
        (question.serve (x.view name).collection).2

/-- The names that are listed are those whose collections are there. Their collections can be
dropped, and nothing happens when another one is to be dropped. -/
structure Listed (x : Session Shelf Nat) (listed : List String) : Prop where
  reply : Shelf.access.serve .names x = (.ok (.names listed), x)
  ascending : listed.Pairwise (· < ·)
  present : ∀ name, name ∈ listed ↔ (x.view name).collection.isPresent = true
  dropped : ∀ name ∈ listed,
    (Shelf.access.serve (.on name .drop) x).1 = .ok .done ∧
      ((Shelf.access.serve (.on name .drop) x).2.view name).collection.isPresent = false
  missing : ∀ name ∉ listed,
    Shelf.access.serve (.on name .drop) x = (.error (.collectionNotFound name), x)

/-- The collection of a name is gone: whatever is done until it is made again, no question about its
records is answered through any handle. When it is made again, by opening the name or through a
handle, the handles from before lead to a new, empty collection. -/
structure Gone (x : Session Shelf Nat) (name : String) : Prop where
  refused : ∀ later, (∀ deed, .on name deed ∈ later → deed.revives (x.view name).handles = false) →
    ∀ handle question, handle < (x.view name).handles → question.onRecords = true →
      (Shelf.access.serve (.on name (.ask handle question)) (Shelf.access.play later x).2).1 =
        .error (.collectionNotFound name)
  renewed : ∀ later, (∀ deed, .on name deed ∈ later → deed.revives (x.view name).handles = false) →
    ∀ deed, deed.revives (x.view name).handles = true →
      ∀ handle question, handle < (x.view name).handles →
        (Shelf.access.serve (.on name (.ask handle question))
          (Shelf.access.serve (.on name deed) (Shelf.access.play later x).2).2).1 =
            (question.serve { name, contents := some {} }).1.map .answer

namespace Agrees

variable {x : Session Shelf Nat} {y : Session Store String}

/-- What a question gets through a handle, by its name alone. -/
theorem serve_ask (h : Agrees x y) {name : String} {handle : Nat}
    (hhandle : handle < (x.view name).handles) (question : Question) :
    (Shelf.access.serve (.on name (.ask handle question)) x).1 =
        (question.serve (x.view name).collection).1.map .answer ∧
      (Shelf.access.serve (.on name (.ask handle question)) x).2.view name =
        { x.view name with collection := (question.serve (x.view name).collection).2 } := by
  obtain ⟨hreply, hmoved⟩ := h.serve_on name (.ask handle question)
  rw [hreply, hmoved, if_pos rfl, View.serve_ask hhandle]
  exact ⟨rfl, rfl⟩

theorem coherent (h : Agrees x y) : x.Coherent where
  same name handle other question hhandle hother := by
    obtain ⟨cell, hcell, hask⟩ := h.ask_eq hhandle question
    obtain ⟨cell', hcell', hask'⟩ := h.ask_eq hother question
    rw [hcell] at hcell'
    cases hcell'
    rw [hask, hask']
  shared name handle question hhandle := by
    obtain ⟨hreply, hmoved⟩ := h.serve_ask hhandle question
    exact ⟨hreply, congrArg View.collection hmoved⟩

theorem listed (h : Agrees x y) : x.Listed x.state.names where
  reply := rfl
  ascending := Shelf.names_ascending h.sound
  present _ := Shelf.mem_names h.sound
  dropped name hname := by
    have hpresent : (x.view name).collection.isPresent = true := (Shelf.mem_names h.sound).mp hname
    obtain ⟨hreply, hmoved⟩ := h.serve_on name .drop
    rw [hreply, hmoved, if_pos rfl, View.serve_drop_of_present hpresent]
    exact ⟨rfl, rfl⟩
  missing name hname := by
    have habsent : (x.state.collection name).isPresent = false := by
      rw [Shelf.mem_names h.sound] at hname
      simpa using hname
    simp only [Access.serve, Shelf.access, Shelf.drop_of_absent habsent]
    rfl

theorem gone (h : Agrees x y) {name : String}
    (habsent : (x.view name).collection.contents = none) : x.Gone name := by
  have hname : (x.view name).collection.name = name := h.sound.collection_name name
  constructor
  · intro later hkeep handle question hhandle hrecords
    have hview := h.view_play_of_absent habsent hkeep
    rw [← hview] at hhandle
    rw [((h.play later).2.serve_ask hhandle question).1, hview,
      question.serve_of_absent habsent hrecords, hname]
    rfl
  · intro later hkeep deed hrevives handle question hhandle
    have hview := h.view_play_of_absent habsent hkeep
    obtain ⟨hempty, hcount⟩ := View.serve_of_revives habsent hrevives
    have hmade := ((h.play later).2.serve_on name deed).2 name
    rw [if_pos rfl, hview] at hmade
    rw [← hmade] at hempty hcount
    have hagrees := ((h.play later).2.serve (.on name deed)).2
    rw [(hagrees.serve_ask (Nat.lt_of_lt_of_le hhandle hcount) question).1, hempty, hname]

end Agrees

/-- However a store is opened, asked, listed and dropped, it replies as one does that knows its
collections by their names alone. All handles on a name lead to one collection, whenever they were
given out. The names that are listed are in strictly ascending order and are those whose collections
are there, which are those that can be dropped. What is done about a name gets the replies, and
leaves the collection, that it would if nothing else was ever done, and nothing else changes what a
name stands for. A collection that is dropped, or removed through a handle, stays away until it is
made again, and is then new for the handles from before. -/
theorem isolated_and_coherent (names : List String) (run : List Command) :
    Shelf.access.replies names run = Store.access.replies names run ∧
    (Shelf.access.after names run).Coherent ∧
    (∃ listed, (Shelf.access.after names run).Listed listed) ∧
    ∀ name,
      ((Shelf.access.replies names run).filter fun e => e.1.about name) =
        Shelf.access.replies (names.filter (· == name)) (run.filter fun c => c.about name) ∧
      (Shelf.access.after names run).view name =
        (Shelf.access.after (names.filter (· == name)) (run.filter fun c => c.about name)).view
          name ∧
      (∀ command : Command, command.about name = false →
        (Shelf.access.serve command (Shelf.access.after names run)).2.view name =
          (Shelf.access.after names run).view name) ∧
      ∀ deed, deed.removes ((Shelf.access.after names run).view name).handles = true →
        (Shelf.access.serve (.on name deed) (Shelf.access.after names run)).2.Gone name := by
  have hagrees := Agrees.after names run
  refine ⟨((Agrees.start names).play run).1, hagrees.coherent, ⟨_, hagrees.listed⟩, fun name => ?_⟩
  obtain ⟨hreplies, hview⟩ := (Agrees.start names).play_about
    (Agrees.start (names.filter (· == name))) (view_start names name) run
  refine ⟨hreplies, hview, fun command => hagrees.view_serve_of_not_about, fun deed hdeed => ?_⟩
  have hmoved := (hagrees.serve_on name deed).2 name
  rw [if_pos rfl] at hmoved
  refine (hagrees.serve (.on name deed)).2.gone ?_
  rw [hmoved]
  exact View.serve_of_removes hdeed

end Session

/-! ## Anti-vacuity: two handles from before a drop -/

/-- The users are opened twice, and one is stored through the first handle. -/
def usersTwice : List Command :=
  [.on "users" .reach, .on "users" .reach,
    .on "users" (.ask 0 (.request (.write (.store [("name", .string "Ax")]))))]

/-- Both handles count the one user, and the orders count for nothing in that. Once the users are
dropped neither handle finds any, and once they are opened again both find a new collection. -/
theorem users_dropped_and_reopened :
    Shelf.access.serve (.on "users" (.ask 1 .size)) (Shelf.access.after ["orders"] usersTwice) =
        Shelf.access.serve (.on "users" (.ask 0 .size))
          (Shelf.access.after ["orders"] usersTwice) ∧
      (Shelf.access.serve (.on "users" (.ask 0 .size))
        (Shelf.access.after ["orders"] usersTwice)).1 = .ok (.answer (.count 1)) ∧
      Shelf.access.serve (.on "people" .drop) (Shelf.access.after ["orders"] usersTwice) =
        (.error (.collectionNotFound "people"), Shelf.access.after ["orders"] usersTwice) ∧
      (Shelf.access.after ["orders"] usersTwice).view "orders" =
        (Shelf.access.after ["orders"] []).view "orders" ∧
      ∃ dropped : Session Shelf Nat,
        Shelf.access.serve (.on "users" .drop) (Shelf.access.after ["orders"] usersTwice) =
          (.ok .done, dropped) ∧
        (Shelf.access.serve (.on "users" (.ask 1 .all)) dropped).1 =
          .error (.collectionNotFound "users") ∧
        (Shelf.access.serve (.on "users" (.ask 0 .size))
          (Shelf.access.serve (.on "users" .reach) dropped).2).1 = .ok (.answer (.count 0)) := by
  obtain ⟨-, hcoherent, ⟨listed, hlisted⟩, hnames⟩ :=
    Session.isolated_and_coherent ["orders"] usersTwice
  obtain ⟨-, horders, -, -⟩ := hnames "orders"
  obtain ⟨-, -, -, hgone⟩ := hnames "users"
  have husers : "users" ∈ listed := (hlisted.present "users").mpr rfl
  have hpeople : "people" ∉ listed := fun h => nomatch (hlisted.present "people").mp h
  have hdropped := hgone .drop rfl
  refine ⟨hcoherent.same "users" 1 0 .size (by decide) (by decide), rfl,
    hlisted.missing "people" hpeople, horders, _, Prod.ext (hlisted.dropped "users" husers).1 rfl,
    hdropped.refused [] nofun 1 .all (by decide) rfl, ?_⟩
  exact hdropped.renewed [] nofun .reach rfl 0 .size (by decide)

end TypedStore
