import Mathlib.Data.List.Basic
import ProtocolInference.Event.Label

/-!
Labels are identifiers, and identifiers stay as they are.

A label may be brought into the form of an identifier more than once: the
payload of a tracer send is a label already when the description brings it
into that form again. This does no harm, since an identifier is left alone
(`IsIdentifier.identifier_eq`), and every label is one, whatever the name of
the event was.
-/

namespace ProtocolInference

/-! ### Characters -/

theorem isWordChar_of_isDigit {c : Char} (h : c.isDigit = true) : IsWordChar c :=
  .inl (by rw [Char.isAlphanum, h, Bool.or_true])

/-- The character that stands in for one of the name. -/
theorem isWordChar_replace (c : Char) : IsWordChar (if c.isAlphanum then c else '_') := by
  split
  · next h => exact .inl h
  · exact .inr rfl

/-- A character of an identifier stands for itself. -/
theorem IsWordChar.replace_eq {c : Char} (h : IsWordChar c) :
    (if c.isAlphanum then c else '_') = c := by
  rcases h with h | rfl
  · exact if_pos h
  · rfl

theorem isDigit_of_mem_toString {n : Nat} {c : Char} (h : c ∈ (toString n).toList) :
    c.isDigit = true := by
  rw [Nat.toString_eq_repr, Nat.toList_repr] at h
  exact Nat.isDigit_of_mem_toDigits (by decide) (by decide) h

theorem isWordChar_of_mem_toString {n : Nat} {c : Char} (h : c ∈ (toString n).toList) :
    IsWordChar c :=
  isWordChar_of_isDigit (isDigit_of_mem_toString h)

theorem toString_nat_injective : Function.Injective (toString : Nat → String) := by
  intro m n h
  have hdigits : Nat.toDigits 10 m = Nat.toDigits 10 n := by
    have htext := congrArg String.toList h
    rwa [Nat.toString_eq_repr, Nat.toString_eq_repr, Nat.toList_repr, Nat.toList_repr] at htext
  calc
    m = Nat.ofDigitChars 10 (Nat.toDigits 10 m) 0 := Nat.ofDigitChars_ten_toDigits.symm
    _ = Nat.ofDigitChars 10 (Nat.toDigits 10 n) 0 := by rw [hdigits]
    _ = n := Nat.ofDigitChars_ten_toDigits

/-! ### Identifiers -/

theorem isIdentifier_identifier (name : String) : IsIdentifier (identifier name) := by
  rw [IsIdentifier, identifier, String.toList_ofList, identifierChars]
  have hmap : ∀ c ∈ name.toList.map fun c => if c.isAlphanum then c else '_', IsWordChar c := by
    intro c hc
    obtain ⟨d, -, rfl⟩ := List.mem_map.1 hc
    exact isWordChar_replace d
  split
  · exact ⟨by simp [IsWordChar], 'm', [], rfl, rfl⟩
  · next c rest heq =>
    rw [heq] at hmap
    split
    · refine ⟨fun d hd => ?_, 'm', c :: rest, rfl, rfl⟩
      rcases List.mem_cons.1 hd with rfl | hd
      · exact .inl (by decide)
      · exact hmap d hd
    · next hdigit => exact ⟨hmap, c, rest, rfl, Bool.eq_false_iff.2 hdigit⟩

namespace IsIdentifier

variable {label mark : String}

theorem append (h : IsIdentifier label) (hmark : ∀ c ∈ mark.toList, IsWordChar c) :
    IsIdentifier (label ++ mark) := by
  obtain ⟨hchars, first, rest, heq, hfirst⟩ := h
  rw [IsIdentifier, String.toList_append]
  refine ⟨List.forall_mem_append.2 ⟨hchars, hmark⟩, first, rest ++ mark.toList, ?_, hfirst⟩
  rw [heq, List.cons_append]

theorem identifier_eq (h : IsIdentifier label) : identifier label = label := by
  obtain ⟨hchars, first, rest, heq, hfirst⟩ := h
  have hsame : label.toList.map (fun c => if c.isAlphanum then c else '_') = label.toList := by
    rw [List.map_congr_left fun c hc => (hchars c hc).replace_eq]
    exact List.map_id' _
  rw [identifier, identifierChars, hsame, heq]
  show String.ofList (if first.isDigit = true then 'm' :: first :: rest else first :: rest) = label
  rw [if_neg (Bool.eq_false_iff.1 hfirst), ← heq, String.ofList_toList]

end IsIdentifier

/-! ### Labels of events -/

namespace Event

theorem isIdentifier_number (name : String) {mark : String} (n : Nat)
    (hmark : ∀ c ∈ mark.toList, IsWordChar c) :
    IsIdentifier (identifier name ++ mark ++ toString n) :=
  ((isIdentifier_identifier name).append hmark).append fun _ => isWordChar_of_mem_toString

theorem isIdentifier_tracerLabel (e : Event) : IsIdentifier e.tracerLabel := by
  cases e with
  | internal pid name => exact isIdentifier_number name pid (by simp [IsWordChar])
  | send c payload =>
      exact (isIdentifier_number payload c.index (by simp [IsWordChar])).append
        (by simp [IsWordChar])
  | receive c payload =>
      exact (isIdentifier_number payload c.index (by simp [IsWordChar])).append
        (by simp [IsWordChar])

theorem isIdentifier_messageLabel (e : Event) : IsIdentifier e.messageLabel := by
  cases e with
  | internal pid name => exact isIdentifier_number name pid (by simp [IsWordChar])
  | send c payload => exact isIdentifier_identifier payload
  | receive c payload => exact isIdentifier_identifier payload

end Event

end ProtocolInference
