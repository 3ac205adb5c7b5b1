/-!
Finite sets that remember the order in which their elements arrived.

Everything this library prints or numbers follows an order of arrival:
the members of a partition, the targets of a transition, the alphabet of
an automaton. An `OrderedSet` is therefore nothing more than a list
without repetitions, and the absence of repetitions is a field of the
type, so that no operation can lose it and no theorem has to assume it.

The view of a set is its list `toList`. Each operation comes with the
lemma that says who is a member afterwards; membership is what all later
proofs speak about, and the list itself matters only where an order is
visible.
-/

namespace ProtocolInference

/-- A list without repetitions, read as a set whose elements keep the
order of their arrival. -/
structure OrderedSet (α : Type) where
  toList : List α
  nodup : toList.Nodup
  deriving DecidableEq

namespace OrderedSet

variable {α : Type}

instance : EmptyCollection (OrderedSet α) := ⟨⟨[], List.nodup_nil⟩⟩

instance : Inhabited (OrderedSet α) := ⟨∅⟩

instance : Membership α (OrderedSet α) := ⟨fun s a => a ∈ s.toList⟩

theorem mem_def {a : α} {s : OrderedSet α} : a ∈ s ↔ a ∈ s.toList := Iff.rfl

@[simp] theorem toList_empty : (∅ : OrderedSet α).toList = [] := rfl

@[simp] theorem not_mem_empty (a : α) : a ∉ (∅ : OrderedSet α) := List.not_mem_nil

instance [DecidableEq α] (a : α) (s : OrderedSet α) : Decidable (a ∈ s) :=
  inferInstanceAs (Decidable (a ∈ s.toList))

def size (s : OrderedSet α) : Nat := s.toList.length

def isEmpty (s : OrderedSet α) : Bool := s.toList.isEmpty

/-- The elements that satisfy `p`, in their old order. -/
def filter (p : α → Bool) (s : OrderedSet α) : OrderedSet α :=
  ⟨s.toList.filter p, s.nodup.filter p⟩

@[simp] theorem mem_filter {p : α → Bool} {s : OrderedSet α} {a : α} :
    a ∈ s.filter p ↔ a ∈ s ∧ p a = true := List.mem_filter

variable [DecidableEq α]

/-- Add an element behind all others; an element that is already there
keeps its place. -/
def insert (s : OrderedSet α) (a : α) : OrderedSet α :=
  if h : a ∈ s.toList then s
  else ⟨s.toList ++ [a], by
    rw [List.nodup_append]
    exact ⟨s.nodup, List.pairwise_singleton .., by
      intro x hx y hy
      rw [List.mem_singleton] at hy
      exact fun hxy => h (hy ▸ hxy ▸ hx)⟩⟩

/-- Take an element out; the others close the gap. -/
def erase (s : OrderedSet α) (a : α) : OrderedSet α :=
  ⟨s.toList.erase a, s.nodup.erase a⟩

/-- Add the elements of a list one after the other. -/
def insertAll (s : OrderedSet α) (as : List α) : OrderedSet α := as.foldl insert s

/-- The elements of a list in the order of their first occurrences. -/
def ofList (as : List α) : OrderedSet α := insertAll ∅ as

theorem insert_of_mem {s : OrderedSet α} {a : α} (h : a ∈ s) : s.insert a = s :=
  dif_pos h

theorem toList_insert_of_not_mem {s : OrderedSet α} {a : α} (h : a ∉ s) :
    (s.insert a).toList = s.toList ++ [a] := by
  have h' : a ∉ s.toList := h
  simp [insert, h']

@[simp] theorem mem_insert {s : OrderedSet α} {a b : α} :
    b ∈ s.insert a ↔ b ∈ s ∨ b = a := by
  by_cases h : a ∈ s
  · rw [insert_of_mem h]
    exact ⟨Or.inl, fun hb => hb.elim id fun e => e ▸ h⟩
  · rw [mem_def, toList_insert_of_not_mem h]
    simp [mem_def]

@[simp] theorem mem_erase {s : OrderedSet α} {a b : α} :
    b ∈ s.erase a ↔ b ≠ a ∧ b ∈ s := s.nodup.mem_erase_iff

@[simp] theorem mem_insertAll {s : OrderedSet α} {as : List α} {b : α} :
    b ∈ s.insertAll as ↔ b ∈ s ∨ b ∈ as := by
  induction as generalizing s with
  | nil => simp [insertAll]
  | cons a as ih =>
    have h : s.insertAll (a :: as) = (s.insert a).insertAll as := rfl
    rw [h, ih, mem_insert, List.mem_cons, or_assoc]

@[simp] theorem mem_ofList {as : List α} {b : α} : b ∈ ofList as ↔ b ∈ as := by
  simp [ofList]

theorem toList_insertAll_of_disjoint {s : OrderedSet α} {as : List α} (has : as.Nodup)
    (h : ∀ a ∈ as, a ∉ s) : (s.insertAll as).toList = s.toList ++ as := by
  induction as generalizing s with
  | nil => simp [insertAll]
  | cons a as ih =>
    rw [List.nodup_cons] at has
    have hs : s.insertAll (a :: as) = (s.insert a).insertAll as := rfl
    have hrest : ∀ b ∈ as, b ∉ s.insert a := by
      intro b hb hm
      rcases mem_insert.1 hm with hm | rfl
      · exact h b (List.mem_cons_of_mem _ hb) hm
      · exact has.1 hb
    rw [hs, ih has.2 hrest, toList_insert_of_not_mem (h a List.mem_cons_self),
      List.append_assoc, List.singleton_append]

end OrderedSet

end ProtocolInference
