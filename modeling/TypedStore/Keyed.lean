/-!
Association lists in insertion order: the shape of documents, of JSON objects, of the records of a
collection, of the collections of a store and of the bindings of a registry. A key written again
keeps its place, a new one goes to the end.

Main statements: `get?_insert` and `get?_erase` say what a write does to the value under every
key, `nodup_insert` and `nodup_erase` that no key comes to be listed twice.
-/

namespace TypedStore

/-- Entries in insertion order. The operations never list a key twice (`nodup_ofPairs`). -/
abbrev Keyed (κ α : Type) : Type := List (κ × α)

namespace Keyed

variable {κ α : Type} [DecidableEq κ]

/-- The value under a key. -/
def get? : Keyed κ α → κ → Option α
  | [], _ => none
  | (l, v) :: rest, k => if l = k then some v else get? rest k

/-- Whether the key is listed. -/
def contains (d : Keyed κ α) (k : κ) : Bool := (get? d k).isSome

/-- The keys, in order. -/
def keys (d : Keyed κ α) : List κ := d.map Prod.fst

/-- Writes the value under the key: in place if the key is listed, else at the end. -/
def insert : Keyed κ α → κ → α → Keyed κ α
  | [], k, v => [(k, v)]
  | (l, w) :: rest, k, v => if l = k then (k, v) :: rest else (l, w) :: insert rest k v

/-- Takes the key out; the others keep their order. -/
def erase : Keyed κ α → κ → Keyed κ α
  | [], _ => []
  | (l, w) :: rest, k => if l = k then rest else (l, w) :: erase rest k

/-- The entries written one after another, so that a repeated key has its first place and its last
value. -/
def ofPairs (pairs : List (κ × α)) : Keyed κ α :=
  pairs.foldl (fun d kv => insert d kv.1 kv.2) []

/-- Each key is listed once. -/
def Nodup (d : Keyed κ α) : Prop := (keys d).Nodup

/-! ## What a write does to every key -/

@[simp] theorem get?_nil (k : κ) : get? ([] : Keyed κ α) k = none := rfl

theorem get?_cons (l : κ) (w : α) (d : Keyed κ α) (k : κ) :
    get? ((l, w) :: d) k = if l = k then some w else get? d k := rfl

theorem get?_singleton (e : κ × α) (k : κ) :
    get? [e] k = if e.1 = k then some e.2 else none := rfl

theorem get?_insert (d : Keyed κ α) (k : κ) (v : α) (j : κ) :
    get? (insert d k v) j = if k = j then some v else get? d j := by
  induction d with
  | nil => simp [insert, get?]
  | cons e rest ih =>
    obtain ⟨l, w⟩ := e
    by_cases h : l = k
    · by_cases hj : k = j <;> simp [insert, get?, h, hj]
    · by_cases hj : k = j
      · subst hj; simp [insert, get?, h, ih]
      · simp [insert, get?, h, ih, hj]

@[simp] theorem get?_insert_self (d : Keyed κ α) (k : κ) (v : α) :
    get? (insert d k v) k = some v := by
  simp [get?_insert]

theorem get?_append (d e : Keyed κ α) (k : κ) : get? (d ++ e) k = (get? d k).or (get? e k) := by
  induction d with
  | nil => simp
  | cons x rest ih =>
    obtain ⟨l, w⟩ := x
    by_cases h : l = k <;> simp [get?, h, ih]

theorem get?_filter_key (p : κ → Bool) (d : Keyed κ α) (k : κ) :
    get? (d.filter fun e => p e.1) k = if p k then get? d k else none := by
  induction d with
  | nil => simp
  | cons x rest ih =>
    obtain ⟨l, w⟩ := x
    by_cases h : l = k
    · subst h; by_cases hp : p l <;> simp [get?, hp, ih]
    · by_cases hp : p l <;> simp [get?, h, hp, ih]

/-- Writing what is there already changes nothing, not even the order. -/
theorem insert_get? {d : Keyed κ α} {k : κ} {v : α} (h : get? d k = some v) :
    insert d k v = d := by
  induction d with
  | nil => simp at h
  | cons x rest ih =>
    obtain ⟨l, w⟩ := x
    by_cases hl : l = k
    · simp [get?, hl] at h; simp [insert, hl, h]
    · simp [get?, hl] at h; simp [insert, hl, ih h]

/-- Of two writes under one key the second stays, in the place of the first. -/
theorem insert_insert_self (d : Keyed κ α) (k : κ) (v w : α) :
    insert (insert d k v) k w = insert d k w := by
  induction d with
  | nil => simp [insert]
  | cons x rest ih =>
    obtain ⟨l, u⟩ := x
    by_cases hl : l = k
    · simp [insert, hl]
    · simp [insert, hl, ih]

theorem get?_eq_none_iff {d : Keyed κ α} {k : κ} : get? d k = none ↔ k ∉ keys d := by
  induction d with
  | nil => simp [keys]
  | cons e rest ih =>
    obtain ⟨l, w⟩ := e
    by_cases h : l = k
    · simp [get?, keys, h]
    · simpa [get?, keys, h, Ne.symm h] using ih

theorem contains_iff {d : Keyed κ α} {k : κ} : contains d k = true ↔ k ∈ keys d := by
  rw [contains, ← Decidable.not_iff_not, ← get?_eq_none_iff]
  cases get? d k <;> simp

/-- A new key goes to the end. -/
theorem insert_of_notMem {d : Keyed κ α} {k : κ} (h : k ∉ keys d) (v : α) :
    insert d k v = d ++ [(k, v)] := by
  induction d with
  | nil => rfl
  | cons e rest ih =>
    obtain ⟨l, w⟩ := e
    simp only [keys, List.map_cons, List.mem_cons, not_or] at h
    simp [insert, Ne.symm h.1, ih h.2]

/-- A key written again keeps its place. -/
theorem keys_insert_of_mem {d : Keyed κ α} {k : κ} (h : k ∈ keys d) (v : α) :
    keys (insert d k v) = keys d := by
  induction d with
  | nil => simp [keys] at h
  | cons e rest ih =>
    obtain ⟨l, w⟩ := e
    by_cases hl : l = k
    · simp [insert, keys, hl]
    · simp only [keys, List.map_cons, List.mem_cons, Ne.symm hl, false_or] at h
      simpa [insert, keys, hl] using ih h

theorem mem_of_get? {d : Keyed κ α} {k : κ} {v : α} (h : get? d k = some v) : (k, v) ∈ d := by
  induction d with
  | nil => simp at h
  | cons e rest ih =>
    obtain ⟨l, w⟩ := e
    by_cases hl : l = k
    · simp [get?, hl] at h; simp [hl, h]
    · simp [get?, hl] at h; exact List.mem_cons_of_mem _ (ih h)

theorem mem_keys_of_get? {d : Keyed κ α} {k : κ} {v : α} (h : get? d k = some v) : k ∈ keys d :=
  List.mem_map_of_mem (mem_of_get? h)

theorem get?_of_mem {d : Keyed κ α} {k : κ} {v : α} (hd : Nodup d) (h : (k, v) ∈ d) :
    get? d k = some v := by
  induction d with
  | nil => simp at h
  | cons e rest ih =>
    obtain ⟨l, w⟩ := e
    simp only [Nodup, keys, List.map_cons, List.nodup_cons] at hd
    rcases List.mem_cons.1 h with h | h
    · cases h; simp [get?]
    · have : l ≠ k := fun hl => hd.1 (hl ▸ List.mem_map_of_mem (f := Prod.fst) h)
      simpa [get?, this] using ih hd.2 h

theorem get?_eq_some_iff {d : Keyed κ α} (hd : Nodup d) {k : κ} {v : α} :
    get? d k = some v ↔ (k, v) ∈ d := ⟨mem_of_get?, get?_of_mem hd⟩

/-- With distinct keys the order of the entries does not matter. -/
theorem get?_perm {d e : Keyed κ α} (hd : Nodup d) (h : d.Perm e) (k : κ) :
    get? d k = get? e k := by
  have he : Nodup e := (h.map Prod.fst).nodup_iff.mp hd
  refine Option.ext fun v => ?_
  rw [get?_eq_some_iff hd, get?_eq_some_iff he, h.mem_iff]

/-- A change of entries that neither moves a key to this one nor changes what is under it. -/
theorem get?_map_of_kept {f : κ × α → κ × α} {k : κ} (hkey : ∀ e, (f e).1 = k ↔ e.1 = k)
    (hsame : ∀ e, e.1 = k → f e = e) (d : Keyed κ α) : get? (d.map f) k = get? d k := by
  induction d with
  | nil => rfl
  | cons e rest ih =>
    show (if (f e).1 = k then some (f e).2 else get? (rest.map f) k) =
      if e.1 = k then some e.2 else get? rest k
    by_cases h : e.1 = k
    · rw [hsame e h, if_pos h, if_pos h]
    · rw [if_neg fun h' => h ((hkey e).mp h'), if_neg h, ih]

/-- Of several entries written under a key, the last one stays. -/
theorem get?_foldl_insert (pairs : List (κ × α)) (d : Keyed κ α) (k : κ) :
    get? (pairs.foldl (fun d kv => insert d kv.1 kv.2) d) k =
      (get? pairs.reverse k).or (get? d k) := by
  induction pairs generalizing d with
  | nil => rfl
  | cons e rest ih =>
    rw [List.foldl_cons, ih, List.reverse_cons, get?_append, Option.or_assoc, get?_insert,
      get?_singleton]
    split <;> rfl

theorem get?_ofPairs (pairs : List (κ × α)) (k : κ) :
    get? (ofPairs pairs) k = get? pairs.reverse k := by
  rw [ofPairs, get?_foldl_insert, get?_nil, Option.or_none]

/-- The first item with a key has the value under the key. -/
theorem get?_map {ι : Type} (key : ι → κ) (value : ι → α) (items : List ι) (k : κ) :
    get? (items.map fun i => (key i, value i)) k = (items.find? fun i => key i == k).map value := by
  induction items with
  | nil => rfl
  | cons i rest ih =>
    rw [List.map_cons, get?_cons, ih]
    by_cases h : key i = k <;> simp [h]

theorem insert_concat {d : Keyed κ α} {k : κ} (h : k ∉ keys d) (v w : α) :
    insert (d ++ [(k, v)]) k w = d ++ [(k, w)] := by
  induction d with
  | nil => simp [insert]
  | cons e rest ih =>
    simp only [keys, List.map_cons, List.mem_cons, not_or] at h
    rw [List.cons_append, insert, if_neg (Ne.symm h.1), ih h.2, List.cons_append]

/-- The first entry that passes a test is still the first when its value is replaced by another one
that passes. -/
theorem find?_insert {d : Keyed κ α} {p : κ × α → Bool} {k : κ} {v w : α}
    (hfirst : d.find? p = some (k, v)) (hw : p (k, w) = true) :
    (insert d k w).find? p = some (k, w) := by
  induction d with
  | nil => cases hfirst
  | cons e rest ih =>
    obtain ⟨l, u⟩ := e
    rw [insert]
    by_cases hl : l = k
    · rw [if_pos hl, List.find?_cons_of_pos hw]
    · rw [if_neg hl]
      have hne : ¬p (l, u) = true := by
        intro hu
        rw [List.find?_cons_of_pos hu] at hfirst
        cases hfirst
        exact hl rfl
      rw [List.find?_cons_of_neg hne] at hfirst ⊢
      exact ih hfirst

/-! ## Changing all values -/

/-- The same keys, with a function applied to every value. -/
def mapValues {β : Type} (f : α → β) (d : Keyed κ α) : Keyed κ β := d.map fun e => (e.1, f e.2)

variable {β : Type} (f : α → β)

theorem get?_mapValues (d : Keyed κ α) (k : κ) : get? (mapValues f d) k = (get? d k).map f := by
  induction d with
  | nil => rfl
  | cons e rest ih =>
    show (if e.1 = k then some (f e.2) else get? (mapValues f rest) k) =
      (if e.1 = k then some e.2 else get? rest k).map f
    split
    · rfl
    · exact ih

theorem contains_mapValues (d : Keyed κ α) (k : κ) :
    contains (mapValues f d) k = contains d k := by
  rw [contains, get?_mapValues, Option.isSome_map, contains]

theorem insert_mapValues (d : Keyed κ α) (k : κ) (v : α) :
    mapValues f (insert d k v) = insert (mapValues f d) k (f v) := by
  induction d with
  | nil => rfl
  | cons e rest ih =>
    show mapValues f (if e.1 = k then (k, v) :: rest else e :: insert rest k v) =
      if e.1 = k then (k, f v) :: mapValues f rest else
        (e.1, f e.2) :: insert (mapValues f rest) k (f v)
    split
    · rfl
    · rw [← ih]
      rfl

theorem erase_mapValues (d : Keyed κ α) (k : κ) :
    mapValues f (erase d k) = erase (mapValues f d) k := by
  induction d with
  | nil => rfl
  | cons e rest ih =>
    show mapValues f (if e.1 = k then rest else e :: erase rest k) =
      if e.1 = k then mapValues f rest else (e.1, f e.2) :: erase (mapValues f rest) k
    split
    · rfl
    · rw [← ih]
      rfl

/-! ## Keys stay distinct -/

theorem mem_keys_insert {d : Keyed κ α} {k j : κ} {v : α} :
    j ∈ keys (insert d k v) ↔ j = k ∨ j ∈ keys d := by
  rw [← contains_iff, ← contains_iff, contains, contains, get?_insert]
  by_cases h : k = j
  · simp [h]
  · simp [h, Ne.symm h]

theorem nodup_insert {d : Keyed κ α} (hd : Nodup d) (k : κ) (v : α) : Nodup (insert d k v) := by
  induction d with
  | nil => simp [Nodup, insert, keys]
  | cons e rest ih =>
    obtain ⟨l, w⟩ := e
    simp only [Nodup, keys, List.map_cons, List.nodup_cons] at hd
    by_cases h : l = k
    · subst h; simpa [Nodup, insert, keys] using hd
    · have hl : l ∉ keys (insert rest k v) := by
        rw [mem_keys_insert]; exact fun hc => hc.elim h hd.1
      simp only [Nodup, insert, if_neg h, keys, List.map_cons, List.nodup_cons]
      exact ⟨hl, ih hd.2⟩

theorem nodup_foldl_insert (pairs : List (κ × α)) {d : Keyed κ α} (hd : Nodup d) :
    Nodup (pairs.foldl (fun d kv => insert d kv.1 kv.2) d) := by
  induction pairs generalizing d with
  | nil => exact hd
  | cons e rest ih => exact ih (nodup_insert hd e.1 e.2)

theorem nodup_concat {d : Keyed κ α} (hd : Nodup d) {k : κ} (h : k ∉ keys d) (v : α) :
    Nodup (d ++ [(k, v)]) := by
  rw [← insert_of_notMem h]
  exact nodup_insert hd k v

theorem nodup_ofPairs (pairs : List (κ × α)) : Nodup (ofPairs pairs) :=
  nodup_foldl_insert pairs (by simp [Nodup, keys])

theorem foldl_insert_of_disjoint (pairs : List (κ × α)) {d : Keyed κ α} (hp : Nodup pairs)
    (hd : ∀ k ∈ keys pairs, k ∉ keys d) :
    pairs.foldl (fun d kv => insert d kv.1 kv.2) d = d ++ pairs := by
  induction pairs generalizing d with
  | nil => simp
  | cons e rest ih =>
    obtain ⟨k, v⟩ := e
    simp only [Nodup, keys, List.map_cons, List.nodup_cons] at hp
    rw [List.foldl_cons, insert_of_notMem (hd k (by simp [keys])), ih hp.2]
    · simp
    · intro j hj hmem
      simp only [keys, List.map_append, List.map_cons, List.map_nil, List.mem_append,
        List.mem_singleton] at hmem
      rcases hmem with hmem | rfl
      · exact hd j (List.mem_cons_of_mem _ hj) hmem
      · exact hp.1 hj

/-- Where no key is repeated, the entries are what they make when they are written one by one. -/
theorem ofPairs_of_nodup {pairs : List (κ × α)} (h : Nodup pairs) : ofPairs pairs = pairs :=
  foldl_insert_of_disjoint pairs h (by simp [keys])

theorem keys_erase_sublist (d : Keyed κ α) (k : κ) : (keys (erase d k)).Sublist (keys d) := by
  induction d with
  | nil => simp [erase, keys]
  | cons e rest ih =>
    obtain ⟨l, w⟩ := e
    by_cases h : l = k
    · simp [erase, keys, h]
    · simpa [erase, keys, h] using ih

theorem nodup_erase {d : Keyed κ α} (hd : Nodup d) (k : κ) : Nodup (erase d k) :=
  List.Nodup.sublist (keys_erase_sublist d k) hd

theorem get?_erase {d : Keyed κ α} (hd : Nodup d) (k j : κ) :
    get? (erase d k) j = if k = j then none else get? d j := by
  induction d with
  | nil => simp [erase]
  | cons e rest ih =>
    obtain ⟨l, w⟩ := e
    simp only [Nodup, keys, List.map_cons, List.nodup_cons] at hd
    by_cases h : l = k
    · subst h
      by_cases hj : l = j
      · subst hj; simpa [erase] using get?_eq_none_iff.2 hd.1
      · simp [erase, get?, hj]
    · by_cases hj : k = j
      · subst hj; simpa [erase, get?, h] using ih hd.2
      · simp [erase, get?, h, ih hd.2, hj]

theorem notMem_keys_erase {d : Keyed κ α} (hd : Nodup d) (k : κ) : k ∉ keys (erase d k) := by
  rw [← get?_eq_none_iff, get?_erase hd, if_pos rfl]

theorem erase_of_notMem {d : Keyed κ α} {k : κ} (h : k ∉ keys d) : erase d k = d := by
  induction d with
  | nil => rfl
  | cons e rest ih =>
    simp only [keys, List.map_cons, List.mem_cons, not_or] at h
    rw [erase, if_neg (Ne.symm h.1), ih h.2]

theorem erase_concat {d : Keyed κ α} {k : κ} (h : k ∉ keys d) (v : α) :
    erase (d ++ [(k, v)]) k = d := by
  induction d with
  | nil => simp [erase]
  | cons e rest ih =>
    simp only [keys, List.map_cons, List.mem_cons, not_or] at h
    rw [List.cons_append, erase, if_neg (Ne.symm h.1), ih h.2]

/-- A write before the entries are changed one by one, or after it. -/
theorem map_insert {f : κ × α → κ × α} {d : Keyed κ α} {k : κ} {v : α} (hkept : f (k, v) = (k, v))
    (hkey : ∀ e ∈ d, (f e).1 = k ↔ e.1 = k) : (insert d k v).map f = insert (d.map f) k v := by
  induction d with
  | nil => exact congrArg (fun e => [e]) hkept
  | cons e rest ih =>
    have he := hkey e (List.mem_cons_self ..)
    have hrest := ih fun e' he' => hkey e' (List.mem_cons_of_mem _ he')
    show (if e.1 = k then (k, v) :: rest else e :: insert rest k v).map f =
      if (f e).1 = k then (k, v) :: rest.map f else f e :: insert (rest.map f) k v
    by_cases h : e.1 = k
    · rw [if_pos h, if_pos (he.mpr h), List.map_cons, hkept]
    · rw [if_neg h, if_neg fun h' => h (he.mp h'), List.map_cons, hrest]

/-- A write hides what was done to the value under its key. -/
theorem insert_map_of_agree {f : κ × α → κ × α} {d : Keyed κ α} (hd : Nodup d) {k : κ}
    (hkey : ∀ e ∈ d, (f e).1 = e.1) (hsame : ∀ e ∈ d, e.1 ≠ k → f e = e) (v : α) :
    insert (d.map f) k v = insert d k v := by
  induction d with
  | nil => rfl
  | cons e rest ih =>
    simp only [Nodup, keys, List.map_cons, List.nodup_cons] at hd
    have hrest := ih hd.2 (fun e' he' => hkey e' (List.mem_cons_of_mem _ he'))
      fun e' he' => hsame e' (List.mem_cons_of_mem _ he')
    show (if (f e).1 = k then (k, v) :: rest.map f else f e :: insert (rest.map f) k v) =
      if e.1 = k then (k, v) :: rest else e :: insert rest k v
    rw [hkey e (List.mem_cons_self ..), hrest]
    by_cases h : e.1 = k
    · have hothers : ∀ e' ∈ rest, f e' = e' := by
        intro e' he'
        refine hsame e' (List.mem_cons_of_mem _ he') fun h' => hd.1 ?_
        rw [h, ← h']
        exact List.mem_map_of_mem he'
      rw [if_pos h, if_pos h, List.map_congr_left hothers, List.map_id']
    · rw [if_neg h, if_neg h, hsame e (List.mem_cons_self ..) h]

/-- The entries with one of them moved to the end. -/
theorem erase_concat_perm {d : Keyed κ α} {k : κ} {v : α} (h : get? d k = some v) :
    (erase d k ++ [(k, v)]).Perm d := by
  induction d with
  | nil => cases h
  | cons e rest ih =>
    obtain ⟨l, w⟩ := e
    rw [get?_cons] at h
    rw [erase]
    split at h
    · next hl =>
      cases h
      rw [if_pos hl, hl]
      exact List.perm_append_singleton ..
    · next hl =>
      rw [if_neg hl]
      exact (ih h).cons (l, w)

end Keyed

end TypedStore
