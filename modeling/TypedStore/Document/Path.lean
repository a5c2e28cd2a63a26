import TypedStore.Error

/-!
Reading and writing inside a document by a path of keys.

`getPath?` follows the keys through nested documents. `setPath` writes in place: it makes the
levels that are missing on its way down, and fails only where a value that is not a document is in
the way. Its answer goes with the document as the call leaves it, which is as it was outside the
path's first key (`get?_setPath`).
-/

namespace TypedStore

/-- The value reached from a value through the keys; nothing is below a value that is not a
document. -/
def Value.follow? : Value → List String → Option Value
  | v, [] => some v
  | .document d, k :: rest => (Keyed.get? d k).bind fun v => v.follow? rest
  | _, _ :: _ => none

theorem Value.follow?_append (v : Value) (p q : List String) :
    v.follow? (p ++ q) = (v.follow? p).bind fun w => w.follow? q := by
  induction p generalizing v with
  | nil => simp [follow?]
  | cons k rest ih =>
    cases v <;> simp [follow?, ih, Option.bind_assoc]

namespace Document

/-- The value at the end of a path; the empty path leads to none. -/
def getPath? (d : Document) : List String → Option Value
  | [] => none
  | k :: rest => (Value.document d).follow? (k :: rest)

/-- Writes a value at the end of a path. -/
def setPath : Document → List String → Value → Except Error Unit × Document
  | d, [], _ => (.error (.invalidDocument .emptyPath), d)
  | d, k :: rest, v =>
    if rest.isEmpty then (.ok (), Keyed.insert d k v)
    else
      let opened := if Keyed.contains d k then d else Keyed.insert d k (.document [])
      match Keyed.get? opened k with
      | some (.document inner) =>
        let (answer, inner) := setPath inner rest v
        (answer, Keyed.insert opened k (.document inner))
      | _ => (.error (.invalidDocument (.notBelow k)), opened)

theorem getPath?_eq_follow? {path : List String} (h : path ≠ []) (d : Document) :
    getPath? d path = (Value.document d).follow? path := by
  cases path with
  | nil => exact absurd rfl h
  | cons k rest => rfl

theorem getPath?_singleton (d : Document) (k : String) : getPath? d [k] = Keyed.get? d k := by
  simp [getPath?, Value.follow?]

theorem getPath?_cons (d : Document) (k : String) {rest : List String} (h : rest ≠ []) :
    getPath? d (k :: rest) =
      ((Keyed.get? d k).bind Value.document?).bind fun inner => getPath? inner rest := by
  cases rest with
  | nil => exact absurd rfl h
  | cons l more =>
    cases hk : Keyed.get? d k with
    | none => simp [getPath?, Value.follow?, hk]
    | some v => cases v <;> simp [getPath?, Value.follow?, hk, Value.document?]

theorem getPath?_congr {d e : Document} {k : String} {rest : List String}
    (h : Keyed.get? d k = Keyed.get? e k) : getPath? d (k :: rest) = getPath? e (k :: rest) := by
  simp [getPath?, Value.follow?, h]

/-- A further entry under a key that a path does not begin with is not seen through the path. -/
theorem getPath?_append_singleton (d : Document) {k : String} (v : Value) {path : List String}
    (h : path.head? ≠ some k) : getPath? (d ++ [(k, v)]) path = getPath? d path := by
  cases path with
  | nil => rfl
  | cons j rest =>
    refine getPath?_congr ?_
    rw [Keyed.get?_append, Keyed.get?_singleton, if_neg fun hkj => h (congrArg some hkj.symm),
      Option.or_none]

/-- So is what is written under such a key. -/
theorem getPath?_insert (d : Document) {k : String} (v : Value) {path : List String}
    (h : path.head? ≠ some k) : getPath? (Keyed.insert d k v) path = getPath? d path := by
  cases path with
  | nil => rfl
  | cons j rest =>
    refine getPath?_congr ?_
    rw [Keyed.get?_insert, if_neg fun hkj => h (congrArg some hkj.symm)]

/-- Writing at a path leaves alone what is under the keys that the path does not begin with. -/
theorem get?_setPath {k : String} (d : Document) {path : List String}
    (h : path.head? ≠ some k) (v : Value) :
    Keyed.get? (setPath d path v).2 k = Keyed.get? d k := by
  cases path with
  | nil => rfl
  | cons j rest =>
    have hjk : j ≠ k := by simpa using h
    have hopened : Keyed.get? (if Keyed.contains d j then d else
        Keyed.insert d j (.document [])) k = Keyed.get? d k := by
      split
      · rfl
      · rw [Keyed.get?_insert, if_neg hjk]
    simp only [setPath]
    split
    · rw [Keyed.get?_insert, if_neg hjk]
    · split
      · rw [Keyed.get?_insert, if_neg hjk, hopened]
      · exact hopened

end Document

end TypedStore
