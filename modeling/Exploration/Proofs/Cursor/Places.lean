import Mathlib.Data.List.Basic
import Mathlib.Order.Bounds.Defs
import Exploration.Cursor

/-!
# The places of a cursor

The items of all rows lie in one list, row by row. A cursor over rows with rising positions goes
along that list: `Open` tells at which places it may go on, and `Walks` that it does go on at the
first of them. A cursor that knows no positions is such a cursor with the positions left out.
-/

namespace Exploration

namespace Cursor

variable {ο ο' α : Type}

def map (f : ο → ο') (c : Cursor ο α) : Cursor ο' α :=
  ⟨c.rows.map f, c.current.map fun p => (f p.1, p.2)⟩

theorem nextRow_map (f : ο → ο') (expand : ο' → List α) (rows : List ο) :
    nextRow expand (rows.map f) =
      ((nextRow (expand ∘ f) rows).1.map fun p => (f p.1, p.2),
        (nextRow (expand ∘ f) rows).2.map f) := by
  induction rows with
  | nil => rfl
  | cons o rows ih =>
    rw [List.map_cons, nextRow, nextRow]
    cases he : expand (f o) with
    | nil => simpa [he] using ih
    | cons a rest => simp [he, map]

/-- Renaming the rows renames what comes of them. -/
theorem next_map (f : ο → ο') (expand : ο' → List α) (c : Cursor ο α) :
    (c.map f).next expand =
      ((c.next (expand ∘ f)).1.map fun p => (f p.1, p.2), (c.next (expand ∘ f)).2.map f) := by
  obtain ⟨rows, _ | ⟨o, _ | ⟨a, rest⟩⟩⟩ := c
  · exact nextRow_map f expand rows
  · exact nextRow_map f expand rows
  · rfl

theorem toList_of_current {c : Cursor ο α} {p : ο} {row : List α} (expand : ο → List α)
    (h : c.current = some (p, row)) :
    c.toList expand = row.map (p, ·) ++ c.skipRow.toList expand := by
  rw [toList, h]
  rfl

/-- What is left after a skip is of the rows to come. -/
theorem fst_mem_rows {c : Cursor ο α} {expand : ο → List α} {e : ο × α}
    (h : e ∈ c.skipRow.toList expand) : e.1 ∈ c.rows := by
  rw [toList_skipRow] at h
  obtain ⟨p, hp, he⟩ := List.mem_flatMap.1 h
  obtain ⟨a, -, rfl⟩ := List.mem_map.1 he
  exact hp

/-- The positions of the rows to come rise, from that of the current row on. -/
structure Ascending (c : Cursor (ο × Nat) α) : Prop where
  rows : c.rows.Pairwise fun p q => p.2 < q.2
  current : ∀ p rest, c.current = some (p, rest) → ∀ q ∈ c.rows, p.2 < q.2

namespace Ascending

variable {c d : Cursor (ο × Nat) α} {expand : ο × Nat → List α} {p : ο × Nat} {a : α}

theorem begin (A : List ο) : (⟨A.zipIdx, none⟩ : Cursor (ο × Nat) α).Ascending where
  rows := by
    rw [List.pairwise_iff_getElem]
    intro i j _ _ less
    simpa using less
  current := by simp

theorem skipRow (k : c.Ascending) : c.skipRow.Ascending where
  rows := k.rows
  current := by simp [Cursor.skipRow]

theorem nextRow {rows : List (ο × Nat)} (k : rows.Pairwise fun p q => p.2 < q.2)
    (h : nextRow expand rows = (some (p, a), d)) :
    d.Ascending ∧ ∃ rest, d.current = some (p, rest) := by
  induction rows with
  | nil => cases h
  | cons q rows ih =>
    rw [Cursor.nextRow] at h
    cases he : expand q with
    | nil =>
      rw [he] at h
      exact ih k.of_cons h
    | cons b rest =>
      rw [he] at h
      obtain ⟨hp, rfl⟩ := Prod.mk.inj h
      obtain ⟨rfl, rfl⟩ := Prod.mk.inj (Option.some.inj hp)
      refine ⟨⟨k.of_cons, ?_⟩, rest, rfl⟩
      intro p' rest' same
      obtain ⟨rfl, -⟩ := Prod.mk.inj (Option.some.inj same)
      exact fun q hq => List.rel_of_pairwise_cons k hq

theorem next (k : c.Ascending) (h : c.next expand = (some (p, a), d)) :
    d.Ascending ∧ ∃ rest, d.current = some (p, rest) := by
  obtain ⟨rows, _ | ⟨o, _ | ⟨b, rest⟩⟩⟩ := c
  · exact nextRow k.rows h
  · exact nextRow k.rows h
  · obtain ⟨hp, rfl⟩ := Prod.mk.inj h
    obtain ⟨rfl, rfl⟩ := Prod.mk.inj (Option.some.inj hp)
    refine ⟨⟨k.rows, ?_⟩, rest, rfl⟩
    intro p' rest' same
    obtain ⟨rfl, -⟩ := Prod.mk.inj (Option.some.inj same)
    exact k.current o (b :: rest) rfl

end Ascending

/-- A walk through `L` may go on at the place `j` when it has come to the place `last`, if it has
begun: behind it, and in a later row if the rest of its row was skipped. -/
def Open (L : List ((ο × Nat) × α)) (last : Option Nat) (skipped : Prop) (j : Nat) : Prop :=
  ∃ q, L[j]? = some q ∧
    ∀ i p, last = some i → L[i]? = some p → i < j ∧ (skipped → p.1.2 < q.1.2)

theorem open_none_iff {L : List ((ο × Nat) × α)} {skipped : Prop} {j : Nat} :
    Open L none skipped j ↔ j < L.length := by
  constructor
  · rintro ⟨q, hq, -⟩
    exact (List.getElem?_eq_some_iff.1 hq).1
  · intro there
    exact ⟨L[j], List.getElem?_eq_getElem there, nofun⟩

theorem open_some_iff {L : List ((ο × Nat) × α)} {m : Nat} {p : (ο × Nat) × α}
    (here : L[m]? = some p) {skipped : Prop} {j : Nat} :
    Open L (some m) skipped j ↔
      ∃ q, L[j]? = some q ∧ m < j ∧ (skipped → p.1.2 < q.1.2) := by
  refine exists_congr fun q => and_congr_right fun _ => ?_
  constructor
  · intro behind
    exact behind m p rfl here
  · rintro behind i p' ⟨⟩ same
    rwa [Option.some.inj (same.symm.trans here)]

/-- The cursor stands behind the place `last` of `L`. -/
structure Walks (expand : ο × Nat → List α) (L : List ((ο × Nat) × α)) (c : Cursor (ο × Nat) α)
    (last : Option Nat) (skipped : Prop) : Prop where
  ascending : c.Ascending
  rest : ∃ m, c.toList expand = L.drop m ∧
    ∀ j, Open L last skipped j ↔ m ≤ j ∧ j < L.length
  later : ∃ m, c.skipRow.toList expand = L.drop m ∧
    ∀ j, Open L last True j ↔ m ≤ j ∧ j < L.length

namespace Walks

variable {expand : ο × Nat → List α} {L : List ((ο × Nat) × α)} {c d : Cursor (ο × Nat) α}
  {last : Option Nat} {skipped : Prop} {p : ο × Nat} {a : α}

theorem begin (expand : ο × Nat → List α) (A : List ο) (skipped : Prop) :
    Walks expand (A.zipIdx.flatMap fun p => (expand p).map (p, ·)) ⟨A.zipIdx, none⟩ none
      skipped := by
  have whole (b : Prop) (L : List ((ο × Nat) × α)) (j : Nat) :
      Open L none b j ↔ 0 ≤ j ∧ j < L.length := by
    rw [open_none_iff, and_iff_right (Nat.zero_le j)]
  exact ⟨.begin A, ⟨0, rfl, whole _ _⟩, ⟨0, rfl, whole _ _⟩⟩

theorem skipRow (k : Walks expand L c last skipped) : Walks expand L c.skipRow last True :=
  ⟨k.ascending.skipRow, k.later, k.later⟩

theorem congr {skipped' : Prop} (k : Walks expand L c last skipped) (same : skipped ↔ skipped') :
    Walks expand L c last skipped' :=
  propext same ▸ k

theorem ended (k : Walks expand L c last skipped) (h : (c.next expand).1 = none) (j : Nat) :
    ¬ Open L last skipped j := by
  obtain ⟨m, left, places⟩ := k.rest
  rw [toList_of_next_eq_none h] at left
  have behind : L.length ≤ m := List.drop_eq_nil_iff.1 left.symm
  rw [places]
  omega

theorem next (k : Walks expand L c last skipped) (h : c.next expand = (some (p, a), d)) :
    ∃ m, L[m]? = some (p, a) ∧ IsLeast {j | Open L last skipped j} m ∧
      Walks expand L d (some m) False := by
  obtain ⟨m, left, places⟩ := k.rest
  rw [toList_of_next_eq_some h] at left
  have here : L[m]? = some (p, a) := by
    rw [← List.head?_drop, ← left]
    rfl
  have after : d.toList expand = L.drop (m + 1) := by
    rw [← List.tail_drop, ← left]
    rfl
  have there : m < L.length := (List.getElem?_eq_some_iff.1 here).1
  obtain ⟨ascending, row, current⟩ := k.ascending.next h
  have least : IsLeast {j | Open L last skipped j} m :=
    ⟨(places m).2 ⟨Nat.le_refl m, there⟩, fun j hj => ((places j).1 hj).1⟩
  have split := after.symm.trans (toList_of_current expand current)
  have beyond : d.skipRow.toList expand = L.drop (m + 1 + row.length) := by
    rw [← List.drop_drop, split, List.drop_left' (List.length_map _)]
  refine ⟨m, here, least, ascending, ⟨m + 1, after, fun j => ?_⟩, m + 1 + row.length, beyond,
    fun j => ?_⟩
  · rw [open_some_iff here]
    constructor
    · rintro ⟨q, hq, behind, -⟩
      exact ⟨behind, (List.getElem?_eq_some_iff.1 hq).1⟩
    · rintro ⟨behind, inside⟩
      exact ⟨L[j], List.getElem?_eq_getElem inside, behind, False.elim⟩
  · rw [open_some_iff here]
    constructor
    · rintro ⟨q, hq, behind, above⟩
      refine ⟨?_, (List.getElem?_eq_some_iff.1 hq).1⟩
      by_contra near
      -- Up to there all lie in the row that was skipped.
      obtain ⟨i, rfl⟩ := Nat.exists_eq_add_of_le behind
      have inside : i < (row.map (p, ·)).length := by
        rw [List.length_map]
        omega
      rw [← List.getElem?_drop, split, List.getElem?_append_left inside, List.getElem?_map] at hq
      obtain ⟨b, -, rfl⟩ := Option.map_eq_some_iff.1 hq
      exact Nat.lt_irrefl _ (above trivial)
    · rintro ⟨far, inside⟩
      obtain ⟨q, hq⟩ : ∃ q, L[j]? = some q := ⟨_, List.getElem?_eq_getElem inside⟩
      refine ⟨q, hq, by omega, fun _ => ascending.current p row current _ ?_⟩
      obtain ⟨i, rfl⟩ := Nat.exists_eq_add_of_le far
      rw [← List.getElem?_drop, ← beyond] at hq
      exact fst_mem_rows (List.mem_of_getElem? hq)

end Walks

end Cursor

end Exploration
