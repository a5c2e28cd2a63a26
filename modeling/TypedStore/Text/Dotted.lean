/-!
Dotted keys: segments joined by dots. Every text splits into at least one segment, and a segment
may be empty. Main statements: joining undoes splitting for every text (`join_split`), splitting
undoes joining as long as no segment holds a dot (`split_join`). None of those that a text
splits into holds one (`dot_notMem_of_mem_split`). Further segments make another text
(`eq_nil_of_join_append`).
-/

namespace TypedStore.Dotted

/-- The characters between the dots. -/
def splitChars : List Char → List (List Char)
  | [] => [[]]
  | c :: rest =>
    if c = '.' then [] :: splitChars rest
    else match splitChars rest with
      | [] => [[c]]
      | segment :: more => (c :: segment) :: more

/-- The segments with a dot between any two. -/
def joinChars : List (List Char) → List Char
  | [] => []
  | [segment] => segment
  | segment :: more => segment ++ '.' :: joinChars more

/-- The segments of a dotted key. -/
def split (key : String) : List String := (splitChars key.toList).map String.ofList

/-- The dotted key of some segments. -/
def join (segments : List String) : String :=
  String.ofList (joinChars (segments.map String.toList))

theorem splitChars_ne_nil (cs : List Char) : splitChars cs ≠ [] := by
  cases cs with
  | nil => simp [splitChars]
  | cons c rest =>
    simp only [splitChars]
    split
    · simp
    · split <;> simp

theorem split_ne_nil (key : String) : split key ≠ [] := by
  simp [split, splitChars_ne_nil]

theorem joinChars_cons_cons (c : Char) (segment : List Char) (more : List (List Char)) :
    joinChars ((c :: segment) :: more) = c :: joinChars (segment :: more) := by
  cases more <;> simp [joinChars]

theorem joinChars_splitChars (cs : List Char) : joinChars (splitChars cs) = cs := by
  induction cs with
  | nil => rfl
  | cons c rest ih =>
    simp only [splitChars]
    split
    next h =>
      cases hs : splitChars rest with
      | nil => exact absurd hs (splitChars_ne_nil rest)
      | cons segment more => rw [hs] at ih; simp [joinChars, ih, h]
    next =>
      split
      next hs => exact absurd hs (splitChars_ne_nil rest)
      next segment more hs => rw [joinChars_cons_cons, ← hs, ih]

theorem splitChars_of_no_dot {cs : List Char} (h : '.' ∉ cs) : splitChars cs = [cs] := by
  induction cs with
  | nil => rfl
  | cons c rest ih =>
    simp only [List.mem_cons, not_or] at h
    simp [splitChars, Ne.symm h.1, ih h.2]

theorem splitChars_append_dot {cs : List Char} (h : '.' ∉ cs) (rest : List Char) :
    splitChars (cs ++ '.' :: rest) = cs :: splitChars rest := by
  induction cs with
  | nil => simp [splitChars]
  | cons c more ih =>
    simp only [List.mem_cons, not_or] at h
    simp [splitChars, Ne.symm h.1, ih h.2]

theorem splitChars_joinChars {segments : List (List Char)} (hne : segments ≠ [])
    (h : ∀ s ∈ segments, '.' ∉ s) : splitChars (joinChars segments) = segments := by
  induction segments with
  | nil => exact absurd rfl hne
  | cons s rest ih =>
    cases rest with
    | nil => simpa [joinChars] using splitChars_of_no_dot (h s (by simp))
    | cons t more =>
      have ht := ih (by simp) fun u hu => h u (List.mem_cons_of_mem _ hu)
      rw [joinChars, splitChars_append_dot (h s (by simp)), ht]
      simp

theorem dot_notMem_of_mem_splitChars {cs s : List Char} (h : s ∈ splitChars cs) : '.' ∉ s := by
  induction cs generalizing s with
  | nil =>
    rw [List.mem_singleton.mp h]
    exact List.not_mem_nil
  | cons c rest ih =>
    rw [splitChars] at h
    split at h
    next =>
      rcases List.mem_cons.mp h with rfl | hrest
      · exact List.not_mem_nil
      · exact ih hrest
    next hc =>
      split at h
      next hs => exact absurd hs (splitChars_ne_nil rest)
      next segment more hs =>
        rcases List.mem_cons.mp h with rfl | hmore
        · have hsegment := ih (hs ▸ List.mem_cons_self ..)
          simp [Ne.symm hc, hsegment]
        · exact ih (hs ▸ List.mem_cons_of_mem _ hmore)

theorem joinChars_append {a b : List (List Char)} (ha : a ≠ []) (hb : b ≠ []) :
    joinChars (a ++ b) = joinChars a ++ '.' :: joinChars b := by
  induction a with
  | nil => exact absurd rfl ha
  | cons segment more ih =>
    cases more with
    | nil =>
      obtain ⟨next, rest, rfl⟩ := List.exists_cons_of_ne_nil hb
      rfl
    | cons next rest =>
      show segment ++ '.' :: joinChars (next :: rest ++ b) =
        segment ++ '.' :: joinChars (next :: rest) ++ '.' :: joinChars b
      rw [ih (by simp), List.append_assoc, List.cons_append]

theorem eq_nil_of_join_append {a b : List String} (ha : a ≠ []) (h : join (a ++ b) = join a) :
    b = [] := by
  refine Decidable.byContradiction fun hb => ?_
  have hchars := congrArg String.toList h
  rw [join, join, String.toList_ofList, String.toList_ofList, List.map_append,
    joinChars_append (by simpa using ha) (by simpa using hb)] at hchars
  simpa using congrArg List.length hchars

/-- Joining undoes splitting. -/
theorem join_split (key : String) : join (split key) = key := by
  have : (split key).map String.toList = splitChars key.toList := by
    simp [split, Function.comp_def]
  rw [join, this, joinChars_splitChars, String.ofList_toList]

/-- Splitting undoes joining where no segment holds a dot. -/
theorem split_join {segments : List String} (hne : segments ≠ [])
    (h : ∀ s ∈ segments, '.' ∉ s.toList) : split (join segments) = segments := by
  have hs : splitChars (joinChars (segments.map String.toList)) = segments.map String.toList :=
    splitChars_joinChars (by simpa using hne) (by simpa using h)
  rw [split, join, String.toList_ofList, hs]
  simp [Function.comp_def]

theorem dot_notMem_of_mem_split {key segment : String} (h : segment ∈ split key) :
    '.' ∉ segment.toList := by
  obtain ⟨s, hs, rfl⟩ := List.mem_map.mp h
  rw [String.toList_ofList]
  exact dot_notMem_of_mem_splitChars hs

theorem split_of_no_dot {key : String} (h : '.' ∉ key.toList) : split key = [key] := by
  rw [split, splitChars_of_no_dot h]
  simp

end TypedStore.Dotted
