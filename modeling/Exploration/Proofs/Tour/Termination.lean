import Exploration.Proofs.Tour.Accounting

/-!
# Tours that end

Every step of a tour uses something up: the start of a visit, one of its transitions or its end.
Only a state that is taken on brings more of these, and never more than a state has. So a tour ends
if there is a bound on the states it takes on, as under a limit, whatever its guide answers.
-/

namespace Exploration.Tour

variable {σ ι τ δ ν : Type} {M : TransitionSystem σ ι τ} {A : List ι} {o : Order}

/-- The steps a visit can still take. -/
def stepsDue (M : TransitionSystem σ ι τ) (v : Visit σ ι τ δ) : Nat :=
  (v.pending M).length + if v.started then 1 else 2

section Visits

variable {v u : Visit σ ι τ δ}

theorem stepsDue_of_next {p : ι × τ} (next : v.next M = (some p, u)) :
    stepsDue M v = stepsDue M u + 1 := by
  obtain ⟨pending, -, -, started, -⟩ := Visit.next_of_some next
  simp only [stepsDue, pending, started, List.length_cons]
  omega

theorem stepsDue_of_fresh (fresh : v.started = false) :
    stepsDue M v = stepsDue M v.start + 1 := by
  have same : v.start.pending M = v.pending M := rfl
  have begun : v.start.started = true := rfl
  simp only [stepsDue, same, begun, fresh]
  rfl

theorem stepsDue_pos (M : TransitionSystem σ ι τ) (v : Visit σ ι τ δ) : 0 < stepsDue M v := by
  rw [stepsDue]
  split <;> omega

theorem stepsDue_skipLetter_le (M : TransitionSystem σ ι τ) (v : Visit σ ι τ δ) :
    stepsDue M v.skipLetter ≤ stepsDue M v :=
  Nat.add_le_add_right (Cursor.length_toList_skipRow_le _ v.place) _

end Visits

/-- The steps left if no more states are taken on; one of them is to see that nothing is left. -/
def Status.stepsDue : Status M A o δ ν → Nat
  | .going t _ => t.frontier.weight (Tour.stepsDue M) + 1
  | .done _ => 0

theorem honoured_append (ts us : List (Turn σ ι τ δ)) :
    honoured (ts ++ us) = honoured ts ++ honoured us := by
  simp [honoured, choices]

section Steps

variable {g : Guide σ ι τ δ ν} {limit : Option Nat} {p : Progress ν}
  {f : Frontier (Visit σ ι τ δ)} {st : Status M A o δ ν}

/-- A step uses something up unless it takes on a state. -/
theorem Turns.stepsDue_lt {call : Option (Call σ ι τ δ)} (h : Turns g limit p f call st) :
    st.stepsDue < (p.going limit f : Status M A o δ ν).stepsDue ∨
      0 < (honoured (call.toList.map
        (⟨·, (p.tour limit f : Tour M A o δ).load < st.load⟩))).length := by
  have due : (p.going limit f : Status M A o δ ν).stepsDue = f.weight (Tour.stepsDue M) + 1 := rfl
  rw [due]
  cases h with
  | finish => exact .inl (Nat.succ_pos _)
  | @leave v u rest pop =>
    left
    have used := stepsDue_pos M v
    rw [Frontier.weight_of_pop? pop]
    change rest.weight (Tour.stepsDue M) + 1 < _
    omega
  | @accept v rest m pop fresh =>
    left
    rw [Frontier.weight_of_pop? pop, stepsDue_of_fresh fresh]
    change (rest.pushFront v.start).weight (Tour.stepsDue M) + 1 < _
    rw [Frontier.weight_pushFront]
    omega
  | @decline v rest m pop =>
    left
    have used := stepsDue_pos M v
    rw [Frontier.weight_of_pop? pop]
    change rest.weight (Tour.stepsDue M) + 1 < _
    omega
  | @honour v u rest i x data m pop begun next =>
    right
    have taken := load_lt_push (M := M) (A := A) (o := o) limit p (p.remember m).honour pop u
      (.planned A data (M.successor x))
    simp [honoured, choices, Turn.choice?, Call.chosen?, Decision.data?, taken]
  | @drop v u rest i x data m pop begun next =>
    left
    rw [Frontier.weight_of_pop? pop, stepsDue_of_next next]
    change (rest.pushFront u).weight (Tour.stepsDue M) + 1 < _
    rw [Frontier.weight_pushFront]
    omega
  | @pass v u rest i x d m pop begun next =>
    left
    have rest_le : (settle u rest d).weight (Tour.stepsDue M) ≤
        Tour.stepsDue M u + rest.weight (Tour.stepsDue M) := by
      have fewer := stepsDue_skipLetter_le M u
      cases d with
      | explore data => exact Nat.le_refl _
      | ignore => exact Nat.le_refl _
      | skipLetter => exact Nat.add_le_add_right fewer _
      | skipState => exact Nat.le_add_left _ _
      | stop => exact Nat.le_add_left _ _
    rw [Frontier.weight_of_pop? pop, stepsDue_of_next next]
    change (settle u rest d).weight (Tour.stepsDue M) + 1 < _
    omega
  | stop => exact .inl (Nat.succ_pos _)

theorem stepsDue_step_lt (g : Guide σ ι τ δ ν) (t : Tour M A o δ) (m : ν) :
    (t.step g m).stepsDue < (Status.going t m).stepsDue ∨
      0 < (honoured ((asked g t m).toList.map (⟨·, t.load < (t.step g m).load⟩))).length := by
  obtain ⟨limit, p, f, rfl, rfl⟩ := exists_progress t m
  exact (turns_step g limit p f).stepsDue_lt

/-- The recursion is on the states that may still be taken on, and then on the steps left. -/
theorem run_ends_of_honoured_le (g : Guide σ ι τ δ ν) (bound : Nat) :
    ∀ st : Status M A o δ ν, (∀ n, (honoured (turns g n st)).length ≤ bound) →
      ∃ n r, run g n st = some r
  | .done r, _ => ⟨0, r, rfl⟩
  | .going t m, few => by
    have later (n : Nat) := few (n + 1)
    simp only [turns, honoured_append, List.length_append] at later
    have ends : ∃ n r, run g n (t.step g m) = some r := by
      rcases stepsDue_step_lt g t m with used | taken
      · refine run_ends_of_honoured_le g bound _ fun n => ?_
        have le := later n
        omega
      · have room : bound - 1 < bound := by
          have le := later 0
          omega
        refine run_ends_of_honoured_le g (bound - 1) _ fun n => ?_
        have le := later n
        omega
    obtain ⟨n, r, ended⟩ := ends
    exact ⟨n + 1, r, ended⟩
termination_by st => (bound, st.stepsDue)

/-- A tour ends if there is a bound on the choices it honours. -/
theorem explore_ends_of_honoured_le {m : ν} {bound : Nat}
    (few : ∀ n, (honoured (history g M A o limit m n)).length ≤ bound) :
    ∃ n r, explore g M A o limit m n = some r := by
  refine run_ends_of_honoured_le g bound _ fun n => ?_
  have le := few n
  rw [history, honoured_append, List.length_append] at le
  omega

/-- No more choices are honoured than the limit allows. -/
theorem honoured_le_limit (g : Guide σ ι τ δ ν) (M : TransitionSystem σ ι τ) (A : List ι)
    (o : Order) (k : Nat) (m : ν) (n : Nat) :
    (honoured (history g M A o (some k) m n)).length ≤ k := by
  have balanced := balanced_history g M A o (some k) m n
  generalize Tour.after g n _ = st at balanced
  cases balanced with
  | going kept =>
    rw [kept.honoured_eq, ← kept.count]
    exact kept.within k rfl
  | done kept =>
    rw [kept.honoured_eq, ← kept.count]
    exact kept.within k rfl

end Steps

end Exploration.Tour
