import Exploration.System

/-!
# Paths and reachable states

A word over an alphabet labels a path if its letters can be taken one after the other. A state
is reachable if a path leads to it from an initial state; every transition on a letter of the
alphabet keeps inside the reachable states.
-/

namespace Exploration.TransitionSystem

variable {σ ι τ : Type}

/-- `M.Path A s w t`: the word `w` over the letters of `A` labels a path from `s` to `t`. -/
inductive Path (M : TransitionSystem σ ι τ) (A : List ι) (s : σ) : List ι → σ → Prop
  | nil : Path M A s [] s
  | snoc {w : List ι} {t : σ} {i : ι} {x : τ} :
      Path M A s w t → i ∈ A → x ∈ M.transitions t i → Path M A s (w ++ [i]) (M.successor x)

def Reachable (M : TransitionSystem σ ι τ) (A : List ι) (t : σ) : Prop :=
  ∃ s ∈ M.initial, ∃ w, M.Path A s w t

variable {M : TransitionSystem σ ι τ} {A : List ι}

theorem Path.append {s t u : σ} {v w : List ι} (h : M.Path A s v t) (g : M.Path A t w u) :
    M.Path A s (v ++ w) u := by
  induction g with
  | nil => simpa using h
  | snoc _ hi hx ih => simpa [← List.append_assoc] using ih.snoc hi hx

theorem Path.cons {s t : σ} {i : ι} {x : τ} {w : List ι} (hi : i ∈ A)
    (hx : x ∈ M.transitions s i) (h : M.Path A (M.successor x) w t) :
    M.Path A s (i :: w) t := by
  have first : M.Path A s ([] ++ [i]) (M.successor x) := .snoc .nil hi hx
  exact first.append h

theorem reachable_of_mem_initial {s : σ} (h : s ∈ M.initial) : M.Reachable A s :=
  ⟨s, h, [], .nil⟩

theorem Reachable.successor {s : σ} {i : ι} {x : τ} (h : M.Reachable A s) (hi : i ∈ A)
    (hx : x ∈ M.transitions s i) : M.Reachable A (M.successor x) := by
  obtain ⟨s₀, h₀, w, hw⟩ := h
  exact ⟨s₀, h₀, w ++ [i], hw.snoc hi hx⟩

end Exploration.TransitionSystem
