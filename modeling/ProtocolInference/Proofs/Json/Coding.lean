import Mathlib.Data.List.Forall2
import ProtocolInference.Document.Numbers
import ProtocolInference.Json.Kept
import ProtocolInference.Json.Record

/-!
Codings: values written as JSON and read back.

A coding is a pair of a function that writes values and one that reads
them, with two facts about them: what is written is read back as it was,
provided that its numbers are words, and what is read has words for
numbers. The second fact is what lets the two be put one after the other,
for a value that has been read can then be written and read again.

The same is said of fields, where the written form may be missing. Values
become fields in four ways: required, with a default, left out where there
is none, or null where there is none. A record is written as the list of
its fields under their names, and as long as the names differ it does not
matter which of the fields are there.
-/

namespace ProtocolInference.Json

variable {α : Type}

/-- The two functions are a coding of values with such numbers. -/
structure IsCoding (encode : α → Json) (decode : Json → Option α) (numbers : α → List Nat) :
    Prop where
  decode_encode : ∀ x, AreWords (numbers x) → decode (encode x) = some x
  areWords : ∀ v x, decode v = some x → AreWords (numbers x)

/-- The two functions are a coding of fields with such numbers. -/
structure IsField (encode : α → Option Json) (decode : Option Json → Option α)
    (numbers : α → List Nat) : Prop where
  decode_encode : ∀ x, AreWords (numbers x) → decode (encode x) = some x
  areWords : ∀ v x, decode v = some x → AreWords (numbers x)

variable {encode : α → Json} {decode : Json → Option α} {numbers : α → List Nat}

/-- A value that has been read is read again from what is written. -/
theorem IsCoding.decode_encode_of_eq_some (h : IsCoding encode decode numbers) {v : Json} {x : α}
    (hx : decode v = some x) : decode (encode x) = some x :=
  h.decode_encode x (h.areWords v x hx)

/-! ### Simple values -/

theorem isCoding_natural : IsCoding natural nat? fun n => [n] where
  decode_encode n h := by
    have small : n < wordSize := by simpa using h
    simp [nat?, small]
  areWords v n h := by
    unfold nat? at h
    split at h
    · obtain ⟨small, h⟩ := Option.ite_none_right_eq_some.1 h
      rw [← Option.some.inj h]
      simpa using small
    · cases h

theorem isCoding_string : IsCoding string string? fun _ => [] where
  decode_encode _ _ := rfl
  areWords _ _ _ := areWords_nil

theorem isCoding_bool : IsCoding bool bool? fun _ => [] where
  decode_encode _ _ := rfl
  areWords _ _ _ := areWords_nil

/-- A value that can be kept where it stands may be kept first. -/
theorem IsCoding.kept {around : Nat} (h : IsCoding encode decode numbers)
    (hkeep : ∀ x, AreWords (numbers x) → (encode x).canKeep (maxNesting - around) = true) :
    IsCoding encode (kept around decode) numbers where
  decode_encode x hx := by
    rw [Json.kept, if_pos (hkeep x hx)]
    exact h.decode_encode x hx
  areWords v x hx := h.areWords v x (Option.ite_none_right_eq_some.1 hx).2

theorem bare_eq_some {value x : α} {content : Option Json} (h : bare value content = some x) :
    value = x := by
  unfold bare at h
  split at h
  · exact Option.some.inj h
  · exact Option.some.inj h
  · cases h

/-! ### Lists -/

theorem mapM_eq_some {β : Type} {f : α → Option β} {l : List α} {l' : List β} :
    l.mapM f = some l' ↔ List.Forall₂ (fun a b => f a = some b) l l' := by
  induction l generalizing l' with
  | nil => cases l' <;> simp
  | cons a l ih =>
      cases l' with
      | nil => simp [List.mapM_cons, Option.bind_eq_some_iff]
      | cons b l' => simp [List.mapM_cons, Option.bind_eq_some_iff, ih, and_comm]

theorem IsCoding.list (h : IsCoding encode decode numbers) :
    IsCoding (fun l => array (l.map encode)) (list? decode) (·.flatMap numbers) where
  decode_encode l hl := by
    rw [areWords_flatMap] at hl
    apply mapM_eq_some.2
    rw [List.forall₂_map_left_iff, List.forall₂_same]
    exact fun x hx => h.decode_encode x (hl x hx)
  areWords v l hl := by
    rw [areWords_flatMap]
    intro x hx
    cases v with
    | array items =>
        have items_l := mapM_eq_some.1 hl
        obtain ⟨i, hi, rfl⟩ := List.mem_iff_getElem.1 hx
        exact h.areWords _ _ (items_l.get (items_l.length_eq ▸ hi) hi)
    | _ => cases hl

/-! ### Fields -/

theorem IsCoding.required (h : IsCoding encode decode numbers) :
    IsField (fun x => some (encode x)) (required decode) numbers where
  decode_encode x hx := h.decode_encode x hx
  areWords v x hx := by
    cases v with
    | none => cases hx
    | some v => exact h.areWords v x hx

theorem IsCoding.withDefault (h : IsCoding encode decode numbers) (value : α)
    (hvalue : AreWords (numbers value)) :
    IsField (fun x => some (encode x)) (withDefault value decode) numbers where
  decode_encode x hx := h.decode_encode x hx
  areWords v x hx := by
    cases v with
    | none => rwa [← Option.some.inj hx]
    | some v => exact h.areWords v x hx

/-- Nothing that is written as null can be told from nothing at all. -/
theorem nullable?_of_ne_null {v : Json} (h : v ≠ null) :
    nullable? decode v = (decode v).map some := by
  cases v with
  | null => exact absurd rfl h
  | _ => rfl

theorem IsCoding.areWords_of_optional (h : IsCoding encode decode numbers) {v : Option Json}
    {x : Option α} (hx : optional decode v = some x) : AreWords (x.toList.flatMap numbers) := by
  cases x with
  | none => exact areWords_nil
  | some x =>
      have : ∃ v, decode v = some x := by
        match v with
        | none => cases hx
        | some v =>
            by_cases hv : v = null
            · subst hv
              cases hx
            · rw [optional, nullable?_of_ne_null hv] at hx
              exact ⟨v, by simpa using hx⟩
      obtain ⟨v, hv⟩ := this
      simpa using h.areWords v x hv

theorem IsCoding.omitted (h : IsCoding encode decode numbers) (hnull : ∀ x, encode x ≠ null) :
    IsField (fun x => x.map encode) (optional decode) (fun x => x.toList.flatMap numbers) where
  decode_encode x hx := by
    cases x with
    | none => rfl
    | some x =>
        have hx : AreWords (numbers x) := by simpa using hx
        simp [optional, nullable?_of_ne_null (hnull x), h.decode_encode x hx]
  areWords _ _ := h.areWords_of_optional

theorem IsCoding.nulled (h : IsCoding encode decode numbers) (hnull : ∀ x, encode x ≠ null) :
    IsField (fun x => some ((x.map encode).getD null)) (optional decode)
      (fun x => x.toList.flatMap numbers) where
  decode_encode x hx := by
    cases x with
    | none => rfl
    | some x =>
        have hx : AreWords (numbers x) := by simpa using hx
        simp [optional, nullable?_of_ne_null (hnull x), h.decode_encode x hx]
  areWords _ _ := h.areWords_of_optional

/-! ### Records -/

/-- The fields of a record under their names, without those that are
missing. -/
def written : List String → List (Option Json) → List (String × Json)
  | name :: names, some v :: given => (name, v) :: written names given
  | _ :: names, none :: given => written names given
  | _, _ => []

theorem mem_of_mem_written {names : List String} {given : List (Option Json)}
    {field : String × Json} (h : field ∈ written names given) : field.1 ∈ names := by
  fun_induction written names given with
  | case1 name names v given ih =>
      rcases List.mem_cons.1 h with rfl | h
      · exact List.mem_cons_self
      · exact List.mem_cons_of_mem _ (ih h)
  | case2 name names given ih => exact List.mem_cons_of_mem _ (ih h)
  | case3 => cases h

theorem uniqueField?_cons_of_ne {name name' : String} {v : Json} {fields : List (String × Json)}
    (h : name' ≠ name) : uniqueField? ((name', v) :: fields) name = uniqueField? fields name := by
  simp [uniqueField?, h]

theorem uniqueField?_of_not_mem {name : String} {fields : List (String × Json)}
    (h : ∀ field ∈ fields, field.1 ≠ name) : uniqueField? fields name = some none := by
  have : fields.filter (·.1 = name) = [] := by simpa using h
  rw [uniqueField?, this]

theorem uniqueField?_cons_self {name : String} {v : Json} {fields : List (String × Json)}
    (h : ∀ field ∈ fields, field.1 ≠ name) :
    uniqueField? ((name, v) :: fields) name = some (some v) := by
  have : fields.filter (·.1 = name) = [] := by simpa using h
  simp only [uniqueField?, List.filter_cons, decide_true, if_true, this]

theorem uniqueField?_written {names : List String} {given : List (Option Json)} {name : String}
    {v : Option Json} (hnames : names.Nodup) (h : (name, v) ∈ names.zip given) :
    uniqueField? (written names given) name = some v := by
  fun_induction written names given with
  | case1 name' names v' given ih =>
      obtain ⟨hname, hnames⟩ := List.nodup_cons.1 hnames
      rcases List.mem_cons.1 h with h | h
      · obtain ⟨rfl, rfl⟩ := Prod.mk.inj h
        exact uniqueField?_cons_self fun field hfield heq => hname (heq ▸ mem_of_mem_written hfield)
      · have hne : name' ≠ name := fun heq => hname (heq ▸ (List.of_mem_zip h).1)
        rw [uniqueField?_cons_of_ne hne]
        exact ih hnames h
  | case2 name' names given ih =>
      obtain ⟨hname, hnames⟩ := List.nodup_cons.1 hnames
      rcases List.mem_cons.1 h with h | h
      · obtain ⟨rfl, rfl⟩ := Prod.mk.inj h
        exact uniqueField?_of_not_mem fun field hfield heq =>
          hname (heq ▸ mem_of_mem_written hfield)
      · exact ih hnames h
  | case3 names given hsome hnone =>
      match names, given, h with
      | name' :: names, some v' :: given, _ => exact (hsome name' names v' given rfl rfl).elim
      | name' :: names, none :: given, _ => exact (hnone name' names given rfl rfl).elim

theorem record?_written {names : List String} (given : List (Option Json))
    (hnames : names.Nodup) (hlen : names.length = given.length) :
    record? names (object (written names given)) = some given := by
  apply mapM_eq_some.2
  rw [List.forall₂_iff_zip]
  exact ⟨hlen, fun h => uniqueField?_written hnames h⟩

/-- A record is a coding if its list of fields is built into what it was
made from. -/
theorem IsCoding.ofRecord (names : List String) (fields : α → List (Option Json))
    {build : List (Option Json) → Option α} (hnames : names.Nodup)
    (hlen : ∀ x, names.length = (fields x).length)
    (hencode : ∀ x, encode x = object (written names (fields x)))
    (hdecode : ∀ v, decode v = (record? names v).bind build)
    (hbuild : ∀ x, AreWords (numbers x) → build (fields x) = some x)
    (hwords : ∀ given x, build given = some x → AreWords (numbers x)) :
    IsCoding encode decode numbers where
  decode_encode x hx := by
    rw [hdecode, hencode, record?_written _ hnames (hlen x)]
    exact hbuild x hx
  areWords v x hx := by
    rw [hdecode, Option.bind_eq_some_iff] at hx
    obtain ⟨given, -, hx⟩ := hx
    exact hwords given x hx

theorem tagged?_cons {tag : String} {fields : List (String × Json)}
    (h : ∀ field ∈ fields, field.1 ≠ "type") :
    tagged? (object (("type", string tag) :: fields)) = some (tag, object fields) := by
  have others : fields.filter (·.1 ≠ "type") = fields := by
    rw [List.filter_eq_self]
    exact fun field hfield => decide_eq_true (h field hfield)
  simp only [tagged?, uniqueField?_cons_self h, List.filter_cons, others]
  rfl

end ProtocolInference.Json
