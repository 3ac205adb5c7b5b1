import Mathlib.Data.List.Count
import Mathlib.Data.List.Nodup
import ProtocolInference.Partition.EdgeTable

/-!
The arithmetic of the edge table.

An increment adds one to the count of one edge and a decrement takes one
away; all other counts stay. That is the whole interface of the table:
`count_increment` and `count_decrement` say it for one step and
`count_foldl_increment` and `count_foldl_decrement` for a list of
transitions, and nothing below looks at a row again.

The one thing that counts do not show is how the table holds them. A
table is *tight* if it holds no count of zero and no row without targets.
In a tight table to be there is to be counted, so the edges can be listed
and numbered.
-/

namespace ProtocolInference.EdgeTable

/-! ### Tight tables -/

/-- No row is without targets, and no target has a count of zero. -/
structure Tight (table : EdgeTable) : Prop where
  row_nonempty : ∀ k row, table.rows.get? k = some row → row.isEmpty = false
  count_pos : ∀ k row q n, table.rows.get? k = some row → row.get? q = some n → 0 < n

theorem tight_empty : Tight ∅ where
  row_nonempty k row h := by cases h
  count_pos k row q n h := by cases h

theorem Tight.contains_iff {table : EdgeTable} (h : table.Tight) (e : Edge) :
    table.contains e = true ↔ 0 < table.count e := by
  cases hrow : table.rows.get? (e.source, e.event) with
  | none => simp [contains, count, hrow]
  | some row =>
    cases hn : row.get? e.target with
    | none => simp [contains, count, hrow, OrderedMap.contains, hn]
    | some n => simp [contains, count, hrow, OrderedMap.contains, hn, h.count_pos _ _ _ _ hrow hn]

theorem Tight.increment {table : EdgeTable} (h : table.Tight) (e : Edge) :
    (table.increment e).Tight where
  row_nonempty k row hrow := by
    rw [EdgeTable.increment, OrderedMap.get?_alter] at hrow
    split at hrow
    · rw [← Option.some.inj hrow]
      apply Bool.eq_false_iff.2
      intro hempty
      have hgone := OrderedMap.isEmpty_iff.1 hempty e.target
      rw [OrderedMap.get?_alter, if_pos rfl] at hgone
      cases hgone
    · exact h.row_nonempty k row hrow
  count_pos k row q n hrow hn := by
    rw [EdgeTable.increment, OrderedMap.get?_alter] at hrow
    split at hrow
    · rw [← Option.some.inj hrow, OrderedMap.get?_alter] at hn
      split at hn
      · rw [← Option.some.inj hn]
        exact Nat.succ_pos _
      · cases hold : table.rows.get? (e.source, e.event) with
        | none => simp [hold] at hn
        | some old =>
          rw [hold, Option.getD_some] at hn
          exact h.count_pos _ old q n hold hn
    · exact h.count_pos k row q n hrow hn

theorem Tight.decrement {table : EdgeTable} (h : table.Tight) (e : Edge) :
    (table.decrement e).Tight where
  row_nonempty k row hrow := by
    rw [EdgeTable.decrement, OrderedMap.get?_alter] at hrow
    split at hrow
    · simpa using (Option.filter_eq_some_iff.1 hrow).2
    · exact h.row_nonempty k row hrow
  count_pos k row q n hrow hn := by
    rw [EdgeTable.decrement, OrderedMap.get?_alter] at hrow
    split at hrow
    · obtain ⟨old, hold, rfl⟩ := Option.map_eq_some_iff.1 (Option.filter_eq_some_iff.1 hrow).1
      rw [OrderedMap.get?_alter] at hn
      split at hn
      · simpa using (Option.filter_eq_some_iff.1 hn).2
      · exact h.count_pos _ old q n hold hn
    · exact h.count_pos k row q n hrow hn

/-! ### One step -/

theorem count_empty (e : Edge) : (∅ : EdgeTable).count e = 0 := rfl

theorem count_increment (table : EdgeTable) (e f : Edge) :
    (table.increment e).count f = table.count f + if e = f then 1 else 0 := by
  obtain ⟨p, x, q⟩ := e
  obtain ⟨p', x', q'⟩ := f
  rw [increment, count, OrderedMap.get?_alter]
  by_cases hk : (p', x') = (p, x)
  · obtain ⟨rfl, rfl⟩ := Prod.mk.inj hk
    rw [if_pos rfl, Option.bind_some, OrderedMap.get?_alter, count]
    by_cases hq : q' = q
    · subst hq
      cases table.rows.get? (p', x') <;> simp
    · have hne : (⟨p', x', q⟩ : Edge) ≠ ⟨p', x', q'⟩ := by
        rintro ⟨⟩
        exact hq rfl
      rw [if_neg hq, if_neg hne, Nat.add_zero]
      cases table.rows.get? (p', x') <;> rfl
  · have hne : (⟨p, x, q⟩ : Edge) ≠ ⟨p', x', q'⟩ := by
      rintro ⟨⟩
      exact hk rfl
    rw [if_neg hk, if_neg hne, Nat.add_zero, count]

theorem count_decrement (table : EdgeTable) (e f : Edge) :
    (table.decrement e).count f = table.count f - if e = f then 1 else 0 := by
  obtain ⟨p, x, q⟩ := e
  obtain ⟨p', x', q'⟩ := f
  rw [decrement, count, OrderedMap.get?_alter]
  by_cases hk : (p', x') = (p, x)
  · obtain ⟨rfl, rfl⟩ := Prod.mk.inj hk
    rw [if_pos rfl, count]
    cases table.rows.get? (p', x') with
    | none => simp
    | some row =>
      -- A row that is taken out has no target left, so nothing is lost with it.
      have hrow (r : OrderedMap PartitionId Nat) :
          ((some r).filter (!·.isEmpty)).bind (·.get? q') = r.get? q' := by
        cases hempty : r.isEmpty with
        | false => simp [Option.filter_some, hempty]
        | true => simp [Option.filter_some, hempty, OrderedMap.isEmpty_iff.1 hempty q']
      rw [Option.map_some, hrow, OrderedMap.get?_alter, Option.bind_some]
      by_cases hq : q' = q
      · subst hq
        cases row.get? q' with
        | none => simp
        | some n =>
          rw [if_pos rfl, if_pos rfl, Option.map_some, Option.getD_some, Option.filter_some]
          split
          · rfl
          · next hn =>
            simp only [decide_eq_true_eq] at hn
            simpa using (Nat.eq_zero_of_not_pos hn).symm
      · have hne : (⟨p', x', q⟩ : Edge) ≠ ⟨p', x', q'⟩ := by
          rintro ⟨⟩
          exact hq rfl
        rw [if_neg hq, if_neg hne, Nat.sub_zero]
  · have hne : (⟨p, x, q⟩ : Edge) ≠ ⟨p', x', q'⟩ := by
      rintro ⟨⟩
      exact hk rfl
    rw [if_neg hk, if_neg hne, Nat.sub_zero, count]

/-! ### Many steps -/

section Many

variable {α : Type} (edge : α → Edge)

theorem tight_foldl_increment {table : EdgeTable} (h : table.Tight) (ts : List α) :
    (ts.foldl (fun table t => table.increment (edge t)) table).Tight := by
  induction ts generalizing table with
  | nil => exact h
  | cons t ts ih => exact ih (h.increment (edge t))

theorem tight_foldl_decrement {table : EdgeTable} (h : table.Tight) (ts : List α) :
    (ts.foldl (fun table t => table.decrement (edge t)) table).Tight := by
  induction ts generalizing table with
  | nil => exact h
  | cons t ts ih => exact ih (h.decrement (edge t))

theorem count_foldl_increment (table : EdgeTable) (ts : List α) (f : Edge) :
    (ts.foldl (fun table t => table.increment (edge t)) table).count f =
      table.count f + ts.countP (edge · = f) := by
  induction ts generalizing table with
  | nil => rfl
  | cons t ts ih =>
    rw [List.foldl_cons, ih, count_increment, List.countP_cons]
    simp only [decide_eq_true_eq]
    omega

theorem count_foldl_decrement (table : EdgeTable) (ts : List α) (f : Edge) :
    (ts.foldl (fun table t => table.decrement (edge t)) table).count f =
      table.count f - ts.countP (edge · = f) := by
  induction ts generalizing table with
  | nil => rfl
  | cons t ts ih =>
    rw [List.foldl_cons, ih, count_decrement, List.countP_cons]
    simp only [decide_eq_true_eq]
    omega

end Many

/-! ### The list of edges -/

theorem mem_edges_iff {table : EdgeTable} {e : Edge} :
    e ∈ table.edges ↔ table.contains e = true := by
  rw [edges, List.mem_flatMap, contains, Option.any_eq_true]
  constructor
  · rintro ⟨⟨⟨p, x⟩, row⟩, hrow, he⟩
    obtain ⟨q, hq, rfl⟩ := List.mem_map.1 he
    exact ⟨row, OrderedMap.get?_eq_some_iff.2 hrow, OrderedMap.mem_keys_iff.1 hq⟩
  · rintro ⟨row, hrow, he⟩
    exact ⟨((e.source, e.event), row), OrderedMap.get?_eq_some_iff.1 hrow,
      List.mem_map.2 ⟨e.target, OrderedMap.mem_keys_iff.2 he, rfl⟩⟩

theorem nodup_edges (table : EdgeTable) : table.edges.Nodup := by
  rw [edges, List.nodup_flatMap]
  refine ⟨?_, ?_⟩
  · rintro ⟨⟨p, x⟩, row⟩ -
    exact row.nodup_keys.map fun q q' hq => (Edge.mk.inj hq).2.2
  · refine (List.pairwise_map.1 table.rows.nodup_keys).imp ?_
    rintro ⟨⟨p, x⟩, row⟩ ⟨⟨p', x'⟩, row'⟩ hne e he he'
    obtain ⟨q, -, rfl⟩ := List.mem_map.1 he
    obtain ⟨q', -, heq⟩ := List.mem_map.1 he'
    obtain ⟨rfl, rfl, -⟩ := Edge.mk.inj heq
    exact hne rfl

end ProtocolInference.EdgeTable
