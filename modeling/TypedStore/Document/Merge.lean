import TypedStore.Document.Path
import TypedStore.Text.Dotted

/-!
Merging documents and spelling out dotted keys.

`merge` goes through two documents level by level and prefers the second wherever the two do not
both hold a document: `get?_merge` says what is under each key. `expandAll` reads every dotted key
of a flat document as a path; of two assignments to one place the first wins.
-/

namespace TypedStore.Document

mutual

/-- The value that stands where two documents both have one: documents are merged, otherwise it is
the second. -/
def mergeValue : Value → Value → Value
  | .document a, w => match w with
    | .document b => .document (mergeEntries a b ++ unmatched a b)
    | w => w
  | _, w => w

/-- The first document's entries, each merged with what the second has under its key. -/
def mergeEntries : List (String × Value) → Document → List (String × Value)
  | [], _ => []
  | (k, v) :: a, b =>
    (k, match Keyed.get? b k with
      | some w => mergeValue v w
      | none => v) :: mergeEntries a b

/-- The second document's entries that the first has no key for. -/
def unmatched (a b : List (String × Value)) : List (String × Value) :=
  b.filter fun e => !Keyed.contains a e.1

end

/-- The two documents as one: the first one's keys come first, and the second one's values win. -/
def merge (a b : Document) : Document := mergeEntries a b ++ unmatched a b

theorem mergeValue_document (a b : Document) :
    mergeValue (.document a) (.document b) = .document (merge a b) := rfl

theorem get?_mergeEntries (a b : Document) (k : String) :
    Keyed.get? (mergeEntries a b) k = (Keyed.get? a k).map fun v =>
      match Keyed.get? b k with
      | some w => mergeValue v w
      | none => v := by
  induction a with
  | nil => simp [mergeEntries]
  | cons e rest ih =>
    obtain ⟨l, v⟩ := e
    by_cases h : l = k
    · subst h; simp [mergeEntries, Keyed.get?]
    · simp [mergeEntries, Keyed.get?, h, ih]

theorem get?_unmatched (a b : Document) (k : String) :
    Keyed.get? (unmatched a b) k = if Keyed.contains a k then none else Keyed.get? b k := by
  have h := Keyed.get?_filter_key (fun l => !Keyed.contains a l) b k
  cases hk : Keyed.contains a k <;> simpa [unmatched, hk] using h

/-- What a merge holds under a key: both values merged, or the one there is. -/
theorem get?_merge (a b : Document) (k : String) :
    Keyed.get? (merge a b) k =
      match Keyed.get? a k, Keyed.get? b k with
      | some v, some w => some (mergeValue v w)
      | some v, none => some v
      | none, w => w := by
  rw [merge, Keyed.get?_append, get?_mergeEntries, get?_unmatched, Keyed.contains]
  cases Keyed.get? a k <;> cases Keyed.get? b k <;> simp

/-- The value nested below the segments. -/
def nest : List String → Value → Value
  | [], v => v
  | k :: rest, v => .document [(k, nest rest v)]

theorem follow?_nest (path : List String) (v : Value) : (nest path v).follow? path = some v := by
  induction path with
  | nil => simp [nest, Value.follow?]
  | cons k rest ih => simp [nest, Value.follow?, Keyed.get?, ih]

/-- The document with the value at the path that a dotted key spells. -/
def expand (key : String) (v : Value) : Document :=
  match Dotted.split key with
  | [] => []
  | k :: rest => [(k, nest rest v)]

/-- Every entry expanded, and all of them merged, the earlier over the later. -/
def expandAll (flat : Document) : Document :=
  flat.foldl (fun result kv => merge (expand kv.1 kv.2) result) []

end TypedStore.Document
