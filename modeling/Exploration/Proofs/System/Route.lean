import Mathlib.Data.List.Lex
import Mathlib.Data.Prod.Lex
import Exploration.System.Path

/-!
# Routes

A route is a path told by choices: which of the initial states is taken, and then, at every state
on the way, which of the transitions that leave it, counted letter by letter. Routes are compared
in the shortlex order: the shorter one comes first, and of two equally long ones the one with the
smaller choice where they part. A route determines the path, so the order is one of paths.
-/

namespace Exploration

/-- The place of a list of choices in the shortlex order. -/
def shortlex (cs : List Nat) : ℕ ×ₗ List ℕ := toLex (cs.length, cs)

section Shortlex

variable {cs ds : List Nat} {c d : Nat}

theorem shortlex_lt_iff :
    shortlex cs < shortlex ds ↔ cs.length < ds.length ∨ cs.length = ds.length ∧ cs < ds :=
  Prod.Lex.toLex_lt_toLex

theorem shortlex_le_iff :
    shortlex cs ≤ shortlex ds ↔ cs.length < ds.length ∨ cs.length = ds.length ∧ cs ≤ ds :=
  Prod.Lex.toLex_le_toLex

theorem shortlex_lt_of_length (h : cs.length < ds.length) : shortlex cs < shortlex ds :=
  shortlex_lt_iff.2 (.inl h)

theorem length_le_of_shortlex (h : shortlex cs ≤ shortlex ds) : cs.length ≤ ds.length := by
  rcases shortlex_le_iff.1 h with lt | ⟨eq, -⟩
  · omega
  · omega

/-- Lists that differ before their ends differ the same way with any ends. -/
theorem snoc_lt_snoc_of_lt {α : Type} [LT α] {as bs : List α} (length : as.length = bs.length)
    (h : as < bs) (a b : α) : as ++ [a] < bs ++ [b] := by
  have lex : List.Lex (· < ·) as bs := h
  change List.Lex (· < ·) (as ++ [a]) (bs ++ [b])
  clear h
  induction lex with
  | nil => simp at length
  | rel first => exact .rel first
  | cons _ ih => exact .cons (ih (by simpa using length))

/-- Lists of one length differ before their ends or at them. -/
theorem lt_or_eq_of_snoc_lt_snoc {as bs : List Nat} (length : as.length = bs.length) {a b : Nat}
    (h : as ++ [a] < bs ++ [b]) : as < bs ∨ as = bs ∧ a < b := by
  induction as generalizing bs with
  | nil =>
    obtain rfl := List.length_eq_zero_iff.1 length.symm
    rcases List.cons_lt_cons_iff.1 h with lt | ⟨-, lt⟩
    · exact .inr ⟨rfl, lt⟩
    · exact absurd lt (List.not_lt_nil _)
  | cons x as ih =>
    cases bs with
    | nil => cases length
    | cons y bs =>
      rcases List.cons_lt_cons_iff.1 h with first | ⟨rfl, rest⟩
      · left
        exact List.cons_lt_cons_iff.2 (.inl first)
      · rcases ih (Nat.succ.inj length) rest with before | ⟨rfl, last⟩
        · left
          exact List.cons_lt_cons_iff.2 (.inr ⟨rfl, before⟩)
        · right
          exact ⟨rfl, last⟩

/-- Of two routes that part, the choices made afterwards do not matter. -/
theorem shortlex_snoc_lt_of_lt (h : shortlex cs < shortlex ds) (c d : Nat) :
    shortlex (cs ++ [c]) < shortlex (ds ++ [d]) := by
  rw [shortlex_lt_iff, List.length_append, List.length_append]
  rcases shortlex_lt_iff.1 h with shorter | ⟨length, lt⟩
  · left
    simpa using shorter
  · right
    exact ⟨by simpa using length, snoc_lt_snoc_of_lt length lt c d⟩

theorem shortlex_snoc_lt (cs : List Nat) (h : c < d) :
    shortlex (cs ++ [c]) < shortlex (cs ++ [d]) := by
  rw [shortlex_lt_iff]
  right
  constructor
  · simp
  · exact List.append_left_lt (.rel h)

theorem shortlex_snoc_le (h : shortlex cs ≤ shortlex ds) (hc : c ≤ d) :
    shortlex (cs ++ [c]) ≤ shortlex (ds ++ [d]) := by
  rcases h.lt_or_eq with lt | eq
  · exact (shortlex_snoc_lt_of_lt lt c d).le
  · obtain rfl : cs = ds := (Prod.mk.inj (toLex_inj.1 eq)).2
    rcases hc.lt_or_eq with lt | rfl
    · exact (shortlex_snoc_lt cs lt).le
    · exact le_rfl

/-- A route goes on behind all routes up to where it stands. -/
theorem shortlex_lt_snoc (cs : List Nat) (c : Nat) : shortlex cs < shortlex (cs ++ [c]) := by
  apply shortlex_lt_of_length
  simp

end Shortlex

namespace TransitionSystem

variable {σ ι τ : Type}

/-- `M.Route A cs w t`: the choices `cs` make a path to `t` that is labelled by `w`. -/
inductive Route (M : TransitionSystem σ ι τ) (A : List ι) : List Nat → List ι → σ → Prop
  | root {c : Nat} {s : σ} : M.initial[c]? = some s → Route M A [c] [] s
  | step {cs : List Nat} {w : List ι} {t : σ} {c : Nat} {i : ι} {x : τ} : Route M A cs w t →
      (M.outgoing A t)[c]? = some (i, x) → Route M A (cs ++ [c]) (w ++ [i]) (M.successor x)

variable {M : TransitionSystem σ ι τ} {A : List ι} {cs : List Nat} {w : List ι} {t : σ}

theorem Route.length (h : M.Route A cs w t) : cs.length = w.length + 1 := by
  induction h with
  | root => rfl
  | step _ _ ih => simpa using ih

/-- A route is a path from an initial state. -/
theorem Route.path (h : M.Route A cs w t) : ∃ s ∈ M.initial, M.Path A s w t := by
  induction h with
  | root hs => exact ⟨_, List.mem_of_getElem? hs, .nil⟩
  | step _ hx ih =>
    obtain ⟨s, hs, path⟩ := ih
    obtain ⟨hi, hx⟩ := mem_outgoing.1 (List.mem_of_getElem? hx)
    exact ⟨s, hs, path.snoc hi hx⟩

/-- Every path from an initial state is a route. -/
theorem Path.route {s : σ} (hs : s ∈ M.initial) (h : M.Path A s w t) :
    ∃ cs, M.Route A cs w t := by
  induction h with
  | nil =>
    obtain ⟨c, hc⟩ := List.mem_iff_getElem?.1 hs
    exact ⟨[c], .root hc⟩
  | snoc _ hi hx ih =>
    obtain ⟨cs, route⟩ := ih
    obtain ⟨c, hc⟩ := List.mem_iff_getElem?.1 (mem_outgoing.2 ⟨hi, hx⟩)
    exact ⟨cs ++ [c], route.step hc⟩

/-- The choices determine the word and the state. -/
theorem Route.unique {v : List ι} {u : σ} (h : M.Route A cs w t) (g : M.Route A cs v u) :
    w = v ∧ t = u := by
  induction h generalizing v u with
  | @root c s hs =>
    generalize hcs : [c] = ds at g
    cases g with
    | root hu =>
      obtain rfl := List.singleton_inj.1 hcs
      exact ⟨rfl, Option.some.inj (hs.symm.trans hu)⟩
    | step before _ =>
      have nonempty := before.length
      have length := congrArg List.length hcs
      simp only [List.length_singleton, List.length_append] at length
      omega
  | @step es w t c i x before hx ih =>
    generalize hcs : es ++ [c] = ds at g
    cases g with
    | root _ =>
      have nonempty := before.length
      have length := congrArg List.length hcs
      simp only [List.length_singleton, List.length_append] at length
      omega
    | step before' hy =>
      obtain ⟨rfl, last⟩ := List.append_inj' hcs rfl
      obtain rfl := List.singleton_inj.1 last
      obtain ⟨rfl, rfl⟩ := ih before'
      obtain ⟨rfl, rfl⟩ := Prod.mk.inj (Option.some.inj (hx.symm.trans hy))
      exact ⟨rfl, rfl⟩

end TransitionSystem

end Exploration
