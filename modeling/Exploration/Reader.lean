import Exploration.Cursor

/-!
# Readers

A reader is a cursor that keeps its expansion, read as one sequence of items with their rows.
-/

namespace Exploration

structure Reader (ο α : Type) where
  expand : ο → List α
  cursor : Cursor ο α

namespace Reader

variable {ο α : Type}

def ofRows (rows : List ο) (expand : ο → List α) : Reader ο α := ⟨expand, ⟨rows, none⟩⟩

/-- The items still to be read. -/
def toList (r : Reader ο α) : List (ο × α) := r.cursor.toList r.expand

def next (r : Reader ο α) : Option (ο × α) × Reader ο α :=
  let (p, c) := r.cursor.next r.expand
  (p, ⟨r.expand, c⟩)

/-- Drops `n` items and reads one, giving up at the end of the sequence. -/
def nth (r : Reader ο α) : Nat → Option (ο × α) × Reader ο α
  | 0 => r.next
  | n + 1 =>
    match r.next with
    | (none, r) => (none, r)
    | (some _, r) => r.nth n

def skipRow (r : Reader ο α) : Reader ο α := ⟨r.expand, r.cursor.skipRow⟩

def drain (r : Reader ο α) : List (ο × α) × Reader ο α :=
  let (ps, c) := r.cursor.drain r.expand
  (ps, ⟨r.expand, c⟩)

/-- Reads to the end and says how many items there were. -/
def count (r : Reader ο α) : Nat × Reader ο α :=
  let (ps, r) := r.drain
  (ps.length, r)

theorem toList_next (r : Reader ο α) : r.toList = r.next.1.toList ++ r.next.2.toList :=
  r.cursor.toList_next r.expand

theorem next_fst (r : Reader ο α) : r.next.1 = r.toList.head? := by
  rw [toList_next]
  cases h : r.next.1 with
  | some p => rfl
  | none =>
    have : r.next.2.toList = [] := by
      have hc : r.cursor.next r.expand = (none, ⟨[], none⟩) := Cursor.next_eq_none h
      simp only [next, hc]
      rfl
    simp [this]

theorem next_snd (r : Reader ο α) : r.next.2.toList = r.toList.tail := by
  have h := r.next_fst
  have ht := r.toList_next
  cases hp : r.next.1 with
  | some p => rw [ht, hp]; rfl
  | none =>
    rw [hp] at h ht
    rw [List.head?_eq_none_iff.1 h.symm] at ht ⊢
    simpa using ht.symm

/-- Reading the item in place `n` leaves what comes after it. -/
theorem nth_eq (r : Reader ο α) (n : Nat) :
    (r.nth n).1 = r.toList[n]? ∧ (r.nth n).2.toList = r.toList.drop (n + 1) := by
  induction n generalizing r with
  | zero => simp [nth, next_fst, next_snd, List.head?_eq_getElem?]
  | succ n ih =>
    have hf := r.next_fst
    have hs := r.next_snd
    rw [nth]
    split
    · next r' h =>
      rw [h] at hf hs
      have he : r.toList = [] := List.head?_eq_none_iff.1 hf.symm
      simp [he] at hs
      simp [he, hs]
    · next p r' h =>
      rw [h] at hs
      obtain ⟨h₁, h₂⟩ := ih r'
      rw [h₁, h₂, hs]
      simp

theorem drain_fst (r : Reader ο α) : r.drain.1 = r.toList := by
  simp [drain, Cursor.drain_eq, toList]

theorem count_fst (r : Reader ο α) : r.count.1 = r.toList.length := by
  simp [count, drain_fst]

end Reader

end Exploration
