/-!
Finite maps that remember the order in which their keys arrived.

A map is a list of key and value pairs in which no key occurs twice. All
updates go through one operation, `alter`, which may replace the value of
a key, take the key out, or add it behind all others. This is the whole
order of the type: a key keeps its place while it stays, and one that is
taken out and added again goes to the end.

The view of a map is `get?`, and `get?_alter` describes `alter` through
it.
-/

namespace ProtocolInference

/-- A list of pairs without repeated keys, read as a map whose keys keep
the order of their arrival. -/
structure OrderedMap (κ ν : Type) where
  entries : List (κ × ν)
  nodup_keys : (entries.map Prod.fst).Nodup
  deriving DecidableEq

namespace OrderedMap

variable {κ ν : Type}

instance : EmptyCollection (OrderedMap κ ν) := ⟨⟨[], List.nodup_nil⟩⟩

instance : Inhabited (OrderedMap κ ν) := ⟨∅⟩

@[simp] theorem entries_empty : (∅ : OrderedMap κ ν).entries = [] := rfl

def keys (m : OrderedMap κ ν) : List κ := m.entries.map Prod.fst

def values (m : OrderedMap κ ν) : List ν := m.entries.map Prod.snd

def size (m : OrderedMap κ ν) : Nat := m.entries.length

def isEmpty (m : OrderedMap κ ν) : Bool := m.entries.isEmpty

variable [DecidableEq κ]

/-- The value of the first pair with the given key. -/
def lookup (k : κ) : List (κ × ν) → Option ν
  | [] => none
  | (k', v) :: rest => if k' = k then some v else lookup k rest

def get? (m : OrderedMap κ ν) (k : κ) : Option ν := lookup k m.entries

def contains (m : OrderedMap κ ν) (k : κ) : Bool := (m.get? k).isSome

/-- Change the pair of one key in a list of pairs: `f` sees the present
value, if any, and says what the key shall have afterwards. -/
def alterList (k : κ) (f : Option ν → Option ν) : List (κ × ν) → List (κ × ν)
  | [] => ((f none).map (k, ·)).toList
  | (k', v) :: rest =>
    if k' = k then ((f (some v)).map (k, ·)).toList ++ rest
    else (k', v) :: alterList k f rest

theorem fst_mem_of_mem_alterList {k x : κ} {f : Option ν → Option ν} {l : List (κ × ν)}
    (h : x ∈ (alterList k f l).map Prod.fst) : x = k ∨ x ∈ l.map Prod.fst := by
  induction l with
  | nil =>
    cases hf : f none with
    | none => simp [alterList, hf] at h
    | some v => simp [alterList, hf] at h; exact .inl h
  | cons e l ih =>
    obtain ⟨k', v⟩ := e
    by_cases hk : k' = k
    · cases hf : f (some v) with
      | none => simp [alterList, hk, hf] at h; simp [h]
      | some w =>
        simp [alterList, hk, hf] at h
        exact h.imp id fun h => by simp [h]
    · simp only [alterList, hk, if_false, List.map_cons, List.mem_cons] at h
      rcases h with h | h
      · simp [h]
      · exact (ih h).imp id fun h => by simp only [List.map_cons, List.mem_cons, h, or_true]

theorem nodup_keys_alterList {k : κ} {f : Option ν → Option ν} {l : List (κ × ν)}
    (h : (l.map Prod.fst).Nodup) : ((alterList k f l).map Prod.fst).Nodup := by
  induction l with
  | nil => cases hf : f none <;> simp [alterList, hf]
  | cons e l ih =>
    obtain ⟨k', v⟩ := e
    rw [List.map_cons, List.nodup_cons] at h
    by_cases hk : k' = k
    · cases hf : f (some v) with
      | none => simpa [alterList, hk, hf] using h.2
      | some w =>
        have h1 : k ∉ l.map Prod.fst := hk ▸ h.1
        simpa [alterList, hk, hf] using ⟨by simpa using h1, h.2⟩
    · simp only [alterList, hk, if_false, List.map_cons, List.nodup_cons]
      exact ⟨fun hm => (fst_mem_of_mem_alterList hm).elim hk h.1, ih h.2⟩

/-- Change the value of one key: `f` sees the present value, if any, and
says what the key shall have afterwards. A key that stays keeps its
place, a new key goes to the end. -/
def alter (m : OrderedMap κ ν) (k : κ) (f : Option ν → Option ν) : OrderedMap κ ν :=
  ⟨alterList k f m.entries, nodup_keys_alterList m.nodup_keys⟩

/-- Give the key a value, in place if it is there already. -/
def insert (m : OrderedMap κ ν) (k : κ) (v : ν) : OrderedMap κ ν := m.alter k fun _ => some v

/-- Take the key out; the others close the gap. -/
def erase (m : OrderedMap κ ν) (k : κ) : OrderedMap κ ν := m.alter k fun _ => none

/-! ### Looking up after a change -/

theorem lookup_eq_none {k : κ} {l : List (κ × ν)} (h : k ∉ l.map Prod.fst) :
    lookup k l = none := by
  induction l with
  | nil => rfl
  | cons e l ih =>
    rw [List.map_cons, List.mem_cons, not_or] at h
    obtain ⟨k', v⟩ := e
    simp only [lookup, ih h.2, ite_eq_right_iff]
    exact fun hk => absurd hk.symm h.1

theorem lookup_alterList_self {k : κ} {f : Option ν → Option ν} {l : List (κ × ν)}
    (h : (l.map Prod.fst).Nodup) : lookup k (alterList k f l) = f (lookup k l) := by
  induction l with
  | nil => cases hf : f none <;> simp [alterList, lookup, hf]
  | cons e l ih =>
    obtain ⟨k', v⟩ := e
    rw [List.map_cons, List.nodup_cons] at h
    by_cases hk : k' = k
    · subst hk
      cases hf : f (some v) with
      | none => simpa [alterList, lookup, hf] using lookup_eq_none h.1
      | some w => simp [alterList, lookup, hf]
    · simp [alterList, lookup, hk, ih h.2]

theorem lookup_alterList_of_ne {k x : κ} {f : Option ν → Option ν} {l : List (κ × ν)}
    (h : x ≠ k) : lookup x (alterList k f l) = lookup x l := by
  induction l with
  | nil => cases hf : f none <;> simp [alterList, lookup, hf, h.symm]
  | cons e l ih =>
    obtain ⟨k', v⟩ := e
    by_cases hk : k' = k
    · subst hk
      cases hf : f (some v) <;> simp [alterList, lookup, hf, h.symm]
    · simp [alterList, lookup, hk, ih]

theorem get?_alter (m : OrderedMap κ ν) (k : κ) (f : Option ν → Option ν) (x : κ) :
    (m.alter k f).get? x = if x = k then f (m.get? k) else m.get? x := by
  split
  · next h => rw [h]; exact lookup_alterList_self m.nodup_keys
  · next h => exact lookup_alterList_of_ne h

@[simp] theorem get?_empty (k : κ) : (∅ : OrderedMap κ ν).get? k = none := rfl

@[simp] theorem get?_insert (m : OrderedMap κ ν) (k : κ) (v : ν) (x : κ) :
    (m.insert k v).get? x = if x = k then some v else m.get? x := get?_alter ..

@[simp] theorem get?_erase (m : OrderedMap κ ν) (k x : κ) :
    (m.erase k).get? x = if x = k then none else m.get? x := get?_alter ..

/-! ### A new key -/

theorem alterList_of_lookup_eq_none {k : κ} {f : Option ν → Option ν} {l : List (κ × ν)}
    (h : lookup k l = none) : alterList k f l = l ++ ((f none).map (k, ·)).toList := by
  induction l with
  | nil => rfl
  | cons e l ih =>
    obtain ⟨k', v⟩ := e
    rw [lookup] at h
    split at h
    · cases h
    · next hk => rw [alterList, if_neg hk, ih h, List.cons_append]

theorem values_insert {m : OrderedMap κ ν} {k : κ} (h : m.get? k = none) (v : ν) :
    (m.insert k v).values = m.values ++ [v] := by
  show (alterList k (fun _ => some v) m.entries).map Prod.snd = m.entries.map Prod.snd ++ [v]
  rw [alterList_of_lookup_eq_none h, List.map_append]
  rfl

theorem size_insert {m : OrderedMap κ ν} {k : κ} (h : m.get? k = none) (v : ν) :
    (m.insert k v).size = m.size + 1 := by
  show (alterList k (fun _ => some v) m.entries).length = m.entries.length + 1
  rw [alterList_of_lookup_eq_none h, List.length_append]
  rfl

/-! ### The view and the pairs -/

theorem lookup_eq_some_iff {k : κ} {v : ν} {l : List (κ × ν)} (h : (l.map Prod.fst).Nodup) :
    lookup k l = some v ↔ (k, v) ∈ l := by
  induction l with
  | nil => simp [lookup]
  | cons e l ih =>
    obtain ⟨k', w⟩ := e
    rw [List.map_cons, List.nodup_cons] at h
    by_cases hk : k' = k
    · subst hk
      have hout : (k', v) ∉ l := fun hm => h.1 (List.mem_map.2 ⟨_, hm, rfl⟩)
      simp [lookup, hout, eq_comm]
    · simp [lookup, hk, ih h.2, Ne.symm hk]

theorem get?_eq_some_iff {m : OrderedMap κ ν} {k : κ} {v : ν} :
    m.get? k = some v ↔ (k, v) ∈ m.entries := lookup_eq_some_iff m.nodup_keys

theorem mem_keys_iff {m : OrderedMap κ ν} {k : κ} : k ∈ m.keys ↔ m.contains k = true := by
  rw [keys, List.mem_map, contains, Option.isSome_iff_exists]
  constructor
  · rintro ⟨⟨k', v⟩, hm, rfl⟩
    exact ⟨v, get?_eq_some_iff.2 hm⟩
  · rintro ⟨v, hv⟩
    exact ⟨(k, v), get?_eq_some_iff.1 hv, rfl⟩

theorem isEmpty_iff {m : OrderedMap κ ν} : m.isEmpty = true ↔ ∀ k, m.get? k = none := by
  rw [isEmpty, List.isEmpty_iff]
  constructor
  · intro h k
    rw [get?, h]
    rfl
  · intro h
    cases hm : m.entries with
    | nil => rfl
    | cons e l =>
      have he : m.get? e.1 = some e.2 := get?_eq_some_iff.2 (hm ▸ List.mem_cons_self)
      rw [h] at he
      cases he

end OrderedMap

end ProtocolInference
