import ProtocolInference.Proofs.Event.Label

/-!
What a tracer label says of its event.

A tracer label is a name with a mark behind it, and the name may be any
text, so it may well look as if it had a mark of its own: the internal event
`x_c0s` of process 1 is recorded as `x_c0s_p1`. A label is therefore read from
the right. Digits at its end are the number of a process; they stand behind a
`p`. If there are none, the last character is `s` or `r`, and the digits before
it are the index of a channel. What is left is the name, in the form of an
identifier, and nothing more can be told: names that become the same
identifier have the same label (`tracerLabel_eq_iff_sharesMark`).
-/

namespace ProtocolInference

/-! ### Reading from the right -/

/-- Digits at the end of a text are told from what stands before them. -/
theorem append_cons_inj_of_isDigit {l l' ds ds' : List Char} {c c' : Char}
    (hc : c.isDigit = false) (hc' : c'.isDigit = false)
    (hds : ∀ d ∈ ds, d.isDigit = true) (hds' : ∀ d ∈ ds', d.isDigit = true)
    (h : l ++ c :: ds = l' ++ c' :: ds') : l = l' ∧ c = c' ∧ ds = ds' := by
  -- If one text were longer, the last character of the other that is no digit
  -- would stand among its digits.
  rcases List.append_eq_append_iff.1 h with ⟨m, rfl, hm⟩ | ⟨m, rfl, hm⟩
  · cases m with
    | nil => exact ⟨(List.append_nil _).symm, List.cons.inj hm⟩
    | cons d m =>
        have hmem : c' ∈ ds := by
          rw [(List.cons.inj hm).2]
          exact List.mem_append_right _ List.mem_cons_self
        rw [hds c' hmem] at hc'
        cases hc'
  · cases m with
    | nil =>
        obtain ⟨hchar, hdigits⟩ := List.cons.inj hm
        exact ⟨List.append_nil _, hchar.symm, hdigits.symm⟩
    | cons d m =>
        have hmem : c ∈ ds' := by
          rw [(List.cons.inj hm).2]
          exact List.mem_append_right _ List.mem_cons_self
        rw [hds' c hmem] at hc
        cases hc

theorem append_index_inj {name name' : String} {m n : Nat}
    (h : (name ++ "_c" ++ toString m).toList = (name' ++ "_c" ++ toString n).toList) :
    name = name' ∧ m = n := by
  have hsplit : (name ++ "_").toList ++ 'c' :: (toString m).toList =
      (name' ++ "_").toList ++ 'c' :: (toString n).toList := by simpa using h
  obtain ⟨hname, -, hnumber⟩ := append_cons_inj_of_isDigit (by decide) (by decide)
    (fun _ => isDigit_of_mem_toString) (fun _ => isDigit_of_mem_toString) hsplit
  exact ⟨by simpa [String.toList_inj] using hname,
    toString_nat_injective (String.toList_inj.1 hnumber)⟩

/-! ### The parts of a label -/

namespace Event

/-- The events are of one kind, and happen at one process or on one channel
index. -/
def SharesMark : Event → Event → Prop
  | internal pid _, internal pid' _ => pid = pid'
  | send c _, send c' _ => c.index = c'.index
  | receive c _, receive c' _ => c.index = c'.index
  | _, _ => False

/-- The last character of the tracer label that is no digit. -/
def kindChar : Event → Char
  | internal .. => 'p'
  | send .. => 's'
  | receive .. => 'r'

def beforeKind : Event → List Char
  | internal _ name => (identifier name ++ "_").toList
  | send c payload => (identifier payload ++ "_c" ++ toString c.index).toList
  | receive c payload => (identifier payload ++ "_c" ++ toString c.index).toList

def behindKind : Event → List Char
  | internal pid _ => (toString pid).toList
  | send .. => []
  | receive .. => []

theorem toList_tracerLabel (e : Event) :
    e.tracerLabel.toList = e.beforeKind ++ e.kindChar :: e.behindKind := by
  cases e with
  | internal pid name => simp [tracerLabel, beforeKind, kindChar, behindKind]
  | send c payload => simp [tracerLabel, beforeKind, kindChar, behindKind]
  | receive c payload => simp [tracerLabel, beforeKind, kindChar, behindKind]

theorem isDigit_kindChar (e : Event) : e.kindChar.isDigit = false := by
  cases e <;> rfl

theorem isDigit_of_mem_behindKind (e : Event) : ∀ d ∈ e.behindKind, d.isDigit = true := by
  cases e with
  | internal pid name => exact fun _ => isDigit_of_mem_toString
  | send c payload => exact List.forall_mem_nil _
  | receive c payload => exact List.forall_mem_nil _

variable {e f : Event}

theorem parts_of_tracerLabel_eq (h : e.tracerLabel = f.tracerLabel) :
    e.beforeKind = f.beforeKind ∧ e.kindChar = f.kindChar ∧ e.behindKind = f.behindKind := by
  have htext := congrArg String.toList h
  rw [toList_tracerLabel, toList_tracerLabel] at htext
  exact append_cons_inj_of_isDigit e.isDigit_kindChar f.isDigit_kindChar
    e.isDigit_of_mem_behindKind f.isDigit_of_mem_behindKind htext

/-- A label gives away all that it was made from. -/
theorem sharesMark_of_tracerLabel_eq (h : e.tracerLabel = f.tracerLabel) :
    e.SharesMark f ∧ identifier e.name = identifier f.name := by
  obtain ⟨hbefore, hkind, hbehind⟩ := parts_of_tracerLabel_eq h
  cases e with
  | internal pid x =>
      cases f with
      | internal pid' x' =>
          have hname : identifier x = identifier x' := by
            simpa [beforeKind, String.toList_inj] using hbefore
          exact ⟨toString_nat_injective (String.toList_inj.1 hbehind), hname⟩
      | send | receive => exact absurd hkind (by simp [kindChar])
  | send c payload =>
      cases f with
      | send c' payload' => exact (append_index_inj hbefore).symm
      | internal | receive => exact absurd hkind (by simp [kindChar])
  | receive c payload =>
      cases f with
      | receive c' payload' => exact (append_index_inj hbefore).symm
      | internal | send => exact absurd hkind (by simp [kindChar])

theorem tracerLabel_congr (hmark : e.SharesMark f)
    (hname : identifier e.name = identifier f.name) : e.tracerLabel = f.tracerLabel := by
  cases e <;> cases f <;> simp_all [SharesMark, tracerLabel, Event.name]

/-- **Events have the same tracer label if and only if** they share their mark and
their names become the same identifier. A label is an identifier itself. -/
theorem tracerLabel_eq_iff_sharesMark (e f : Event) :
    (e.tracerLabel = f.tracerLabel ↔
      e.SharesMark f ∧ identifier e.name = identifier f.name) ∧
    identifier e.tracerLabel = e.tracerLabel :=
  ⟨⟨sharesMark_of_tracerLabel_eq, fun h => tracerLabel_congr h.1 h.2⟩,
    e.isIdentifier_tracerLabel.identifier_eq⟩

end Event

end ProtocolInference
