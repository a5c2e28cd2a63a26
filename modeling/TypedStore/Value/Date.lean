import TypedStore.Value

/-!
The span of dates and times that reading keeps.

What is read holds no date and time after the year 9999: `capDates` brings each later one back to
the last millisecond of that year, at every depth, and leaves all else as it is. An earlier one has
no such bound. `get?_capEntries` says what is under each key, and `capDates_capDates` that a second
reading changes nothing.
-/

namespace TypedStore.Value

/-- The last millisecond of the year 9999. -/
def latestDate : Int64 := 253402300799999

/-- The date and time itself, or the latest one if it comes after that. -/
def capMillis (millis : Int64) : Int64 := if latestDate < millis then latestDate else millis

theorem capMillis_capMillis (millis : Int64) : capMillis (capMillis millis) = capMillis millis := by
  unfold capMillis
  split <;> simp_all

mutual

/-- The value with no date and time after the latest one. -/
def capDates : Value → Value
  | .dateTime millis => .dateTime (capMillis millis)
  | .array items => .array (capItems items)
  | .document entries => .document (capEntries entries)
  | .codeWithScope text scope => .codeWithScope text (capEntries scope)
  | v => v

/-- The items of an array, each with no date and time after the latest one. -/
def capItems : List Value → List Value
  | [] => []
  | v :: rest => capDates v :: capItems rest

/-- The entries of a document, each with no date and time after the latest one. -/
def capEntries : List (String × Value) → List (String × Value)
  | [] => []
  | (k, v) :: rest => (k, capDates v) :: capEntries rest

end

theorem get?_capEntries (entries : Document) (k : String) :
    Keyed.get? (capEntries entries) k = (Keyed.get? entries k).map capDates := by
  induction entries with
  | nil => simp [capEntries]
  | cons e rest ih =>
    obtain ⟨l, v⟩ := e
    by_cases h : l = k <;> simp [capEntries, Keyed.get?, h, ih]

mutual

theorem capDates_capDates : (v : Value) → capDates (capDates v) = capDates v
  | .dateTime millis => by simp [capDates, capMillis_capMillis]
  | .array items => by simp [capDates, capItems_capItems items]
  | .document entries => by simp [capDates, capEntries_capEntries entries]
  | .codeWithScope _ scope => by simp [capDates, capEntries_capEntries scope]
  | .null | .bool _ | .int32 _ | .int64 _ | .double _ | .string _ | .special _ => by
    simp [capDates]

theorem capItems_capItems : (items : List Value) → capItems (capItems items) = capItems items
  | [] => rfl
  | v :: rest => by simp [capItems, capDates_capDates v, capItems_capItems rest]

theorem capEntries_capEntries :
    (entries : List (String × Value)) → capEntries (capEntries entries) = capEntries entries
  | [] => rfl
  | (k, v) :: rest => by simp [capEntries, capDates_capDates v, capEntries_capEntries rest]

end

end TypedStore.Value
