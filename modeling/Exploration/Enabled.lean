import Exploration.Reader
import Exploration.System

/-!
# Enabled letters

The transitions that leave a given state over an alphabet, and the letters on which a
deterministic system has a transition (they are enabled) or has none (they are disabled).
-/

namespace Exploration

/-- The transitions of a state with their letters, letter by letter. -/
def TransitionSystem.leaving {σ ι τ : Type} (M : TransitionSystem σ ι τ) (s : σ)
    (A : List ι) : Reader ι τ :=
  .ofRows A (M.transitions s)

theorem TransitionSystem.toList_leaving {σ ι τ : Type} (M : TransitionSystem σ ι τ) (s : σ)
    (A : List ι) : (M.leaving s A).toList = M.outgoing A s := rfl

/-- What a deterministic system answers for a state and a letter. -/
structure Answer (σ ι τ : Type) where
  state : σ
  letter : ι
  transition : Option τ
  deriving DecidableEq

namespace DeterministicSystem

variable {σ ι τ : Type}

def answer (D : DeterministicSystem σ ι τ) (s : σ) (i : ι) : Answer σ ι τ :=
  ⟨s, i, D.transition s i⟩

/-- The letters of one state that are still to be looked at, for those that are enabled or for
those that are not. -/
structure Scan (D : DeterministicSystem σ ι τ) where
  state : σ
  wanted : Bool
  letters : List ι

namespace Scan

variable {D : DeterministicSystem σ ι τ}

/-- The first answer that is wanted, and the letters behind it. -/
def nextIn (D : DeterministicSystem σ ι τ) (s : σ) (wanted : Bool) :
    List ι → Option (Answer σ ι τ) × List ι
  | [] => (none, [])
  | i :: rest =>
    let a := D.answer s i
    if a.transition.isSome = wanted then (some a, rest) else nextIn D s wanted rest

def next (c : Scan D) : Option (Answer σ ι τ) × Scan D :=
  let p := nextIn D c.state c.wanted c.letters
  (p.1, ⟨c.state, c.wanted, p.2⟩)

/-- The answers still to come. -/
def toList (c : Scan D) : List (Answer σ ι τ) :=
  (c.letters.map (D.answer c.state)).filter fun a => a.transition.isSome = c.wanted

theorem toList_nextIn (s : σ) (wanted : Bool) (A : List ι) :
    (⟨s, wanted, A⟩ : Scan D).toList =
      (nextIn D s wanted A).1.toList ++ (⟨s, wanted, (nextIn D s wanted A).2⟩ : Scan D).toList := by
  induction A with
  | nil => rfl
  | cons i rest ih =>
    by_cases h : (D.transition s i).isSome = wanted
    · simp [nextIn, toList, answer, h]
    · simpa [nextIn, toList, answer, h] using ih

/-- A scan gives its answers from the head of those to come. -/
theorem toList_next (c : Scan D) : c.toList = c.next.1.toList ++ c.next.2.toList :=
  toList_nextIn c.state c.wanted c.letters

/-- Either no letter is left, or the letters up to the first that is wanted are taken. -/
theorem nextIn_cases (D : DeterministicSystem σ ι τ) (s : σ) (wanted : Bool) (A : List ι) :
    nextIn D s wanted A = (none, []) ∨
      ∃ a behind, nextIn D s wanted A = (some a, behind) ∧ behind.length < A.length := by
  induction A with
  | nil => exact .inl rfl
  | cons i rest ih =>
    by_cases taken : (D.answer s i).transition.isSome = wanted
    · have here : nextIn D s wanted (i :: rest) = (some (D.answer s i), rest) := if_pos taken
      exact .inr ⟨D.answer s i, rest, here, Nat.lt_succ_self _⟩
    · have later : nextIn D s wanted (i :: rest) = nextIn D s wanted rest := if_neg taken
      rw [later]
      rcases ih with ended | ⟨a, behind, given, shorter⟩
      · exact .inl ended
      · exact .inr ⟨a, behind, given, Nat.lt_succ_of_lt shorter⟩

/-- A scan that gives nothing has nothing left to give. -/
theorem toList_of_next_eq_none {c : Scan D} (ended : c.next.1 = none) : c.toList = [] := by
  rw [next] at ended
  rw [toList_next, next]
  rcases nextIn_cases D c.state c.wanted c.letters with none | ⟨a, behind, given, -⟩
  · rw [none]
    rfl
  · rw [given] at ended
    cases ended

/-- An answer takes letters away. -/
theorem length_lt_of_next {c d : Scan D} {a : Answer σ ι τ} (h : c.next = (some a, d)) :
    d.letters.length < c.letters.length := by
  rw [next] at h
  rcases nextIn_cases D c.state c.wanted c.letters with none | ⟨a', behind, given, shorter⟩
  · rw [none] at h
    cases h
  · rw [given] at h
    obtain ⟨-, rfl⟩ := Prod.mk.inj h
    exact shorter

/-- Asks for answers until there is none. -/
def drain (c : Scan D) : List (Answer σ ι τ) :=
  match _h : c.next with
  | (none, _) => []
  | (some a, d) => a :: d.drain
termination_by c.letters.length
decreasing_by exact length_lt_of_next _h

/-- The answers asked for are those that were to come. -/
theorem drain_eq (c : Scan D) : c.drain = c.toList := by
  fun_induction drain c with
  | case1 c d h => exact (toList_of_next_eq_none (congrArg Prod.fst h)).symm
  | case2 c a d h ih => rw [c.toList_next, h, ih, Option.toList_some, List.singleton_append]

end Scan

def enabled (D : DeterministicSystem σ ι τ) (s : σ) (A : List ι) : Scan D := ⟨s, true, A⟩

def disabled (D : DeterministicSystem σ ι τ) (s : σ) (A : List ι) : Scan D := ⟨s, false, A⟩

/-- The answers of `enabled`, state by state. -/
def enabledIn (D : DeterministicSystem σ ι τ) (states : List σ) (A : List ι) :
    Reader σ (Answer σ ι τ) :=
  .ofRows states fun s => (D.enabled s A).drain

/-- The answers of `disabled`, state by state. -/
def disabledIn (D : DeterministicSystem σ ι τ) (states : List σ) (A : List ι) :
    Reader σ (Answer σ ι τ) :=
  .ofRows states fun s => (D.disabled s A).drain

end DeterministicSystem

end Exploration
