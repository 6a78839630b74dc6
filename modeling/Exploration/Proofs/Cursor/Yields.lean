import Exploration.Enabled
import Exploration.Proofs.AccessWords.Draw

/-!
# What calls for the next item give

Something that is read call by call yields a list if the calls give its members in order and after
them nothing for ever. A list still to come, of which every call takes the head, is what is yielded.
-/

namespace Exploration

variable {ς α β : Type}

/-- The calls of `next` give the members of `l` in order, and after them nothing. -/
def Yields (next : ς → Option α × ς) (s : ς) (l : List α) : Prop :=
  ∀ n, (draw next s n).1 = (List.range n).map (l[·]?)

/-- A view of which every call takes the head, if it has one, is what the calls yield. -/
theorem yields_of_view {next : ς → Option α × ς} (view : ς → List α)
    (head : ∀ s, view s = (next s).1.toList ++ view (next s).2)
    (ended : ∀ s, (next s).1 = none → view s = []) (s : ς) : Yields next s (view s) := by
  have first (s : ς) : (next s).1 = (view s)[0]? ∧ view (next s).2 = (view s).drop 1 := by
    cases given : (next s).1 with
    | none =>
      have empty := ended s given
      have step := head s
      rw [given, empty] at step
      rw [empty]
      exact ⟨rfl, step.symm⟩
    | some a =>
      rw [head s, given]
      exact ⟨rfl, rfl⟩
  have left (n : Nat) : view (draw next s n).2 = (view s).drop n := by
    induction n with
    | zero => rfl
    | succ n ih => rw [draw, (first _).2, ih, List.drop_drop]
  intro n
  induction n with
  | zero => rfl
  | succ n ih =>
    rw [draw, ih, (first _).1, left n, List.getElem?_drop, List.range_succ, List.map_append]
    rfl

theorem Yields.map {next : ς → Option α × ς} {s : ς} {l : List α} (k : Yields next s l)
    (f : α → β) : Yields (fun s => ((next s).1.map f, (next s).2)) s (l.map f) := by
  have alike (n : Nat) : draw (fun s => ((next s).1.map f, (next s).2)) s n =
      ((draw next s n).1.map (Option.map f), (draw next s n).2) := by
    induction n with
    | zero => rfl
    | succ n ih => rw [draw, ih, draw, List.map_append]; rfl
  intro n
  rw [alike, k n, List.map_map]
  refine List.map_congr_left fun j _ => ?_
  rw [Function.comp, List.getElem?_map]

/-- A reader yields the items still to be read. -/
theorem Reader.yields {ο : Type} (r : Reader ο α) : Yields Reader.next r r.toList :=
  yields_of_view Reader.toList Reader.toList_next
    (fun _ ended => Cursor.toList_of_next_eq_none ended) r

namespace DeterministicSystem.Scan

variable {σ ι τ : Type} {D : DeterministicSystem σ ι τ}

/-- A scan yields the answers still to come. -/
theorem yields (c : Scan D) : Yields Scan.next c c.toList :=
  yields_of_view Scan.toList Scan.toList_next (fun _ ended => toList_of_next_eq_none ended) c

end DeterministicSystem.Scan

end Exploration
