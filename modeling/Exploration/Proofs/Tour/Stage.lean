import Mathlib.Data.List.Infix
import Exploration.Tour

/-!
# Explorations followed for a while

A guided exploration may go on for ever, and then it has no outcome but still makes calls. So two
accounts of an exploration are compared by their stages: what each has come to after any number
of steps. They are `Alike` if they end with the same outcome, or neither ends, and if they make
the same calls in the same order.
-/

namespace Exploration.Tour

variable {σ ι τ δ ν : Type} {M : TransitionSystem σ ι τ} {A : List ι} {o : Order}

/-- What an exploration that was followed for a while has come to. -/
inductive Stage (ν : Type) where
  | underway (memory : ν)
  | ended (outcome : Outcome ν)

namespace Stage

def memory : Stage ν → ν
  | underway m => m
  | ended r => r.memory

def isEnded : Stage ν → Bool
  | underway _ => false
  | ended _ => true

/-- The calls made so far. -/
def calls (x : Stage (ν × Array (Call σ ι τ δ))) : List (Call σ ι τ δ) := x.memory.2.toList

/-- Two explorations, each followed for any number of steps, end alike and make the same calls. -/
def Alike (X Y : Nat → Stage (ν × Array (Call σ ι τ δ))) : Prop :=
  (∀ r, (∃ n, X n = ended r) ↔ ∃ n, Y n = ended r) ∧
    ∀ calls, (∃ n, calls <+: (X n).calls) ↔ ∃ n, calls <+: (Y n).calls

/-- Followed for longer, an exploration makes more calls, and its end is final. -/
structure Grows (X : Nat → Stage (ν × Array (Call σ ι τ δ))) : Prop where
  calls {m n : Nat} (h : m ≤ n) : (X m).calls <+: (X n).calls
  ended {m n : Nat} {r : Outcome (ν × Array (Call σ ι τ δ))} (h : m ≤ n) (hm : X m = ended r) :
    X n = ended r

/-- It is enough that every stage of one is a stage of the other, which does not fall behind for
ever. -/
theorem alike_of_keeps_up {X Y : Nat → Stage (ν × Array (Call σ ι τ δ))} (grows : Grows X)
    (keeps_up : ∀ d, ∃ n, X n = Y d ∧ ((∀ r, Y d ≠ ended r) → d ≤ 2 * n)) : Alike X Y := by
  have later (n : Nat) : ∃ d n', X n' = Y d ∧ (n ≤ n' ∨ ∃ r, X n' = ended r) := by
    obtain ⟨n', same, pace⟩ := keeps_up (2 * n + 1)
    by_cases h : ∃ r, X n' = ended r
    · exact ⟨_, n', same, .inr h⟩
    · have behind : 2 * n + 1 ≤ 2 * n' := by
        apply pace
        intro r hr
        exact h ⟨r, same.trans hr⟩
      exact ⟨_, n', same, .inl (by omega)⟩
  constructor
  · intro r
    constructor
    · rintro ⟨n, hn⟩
      obtain ⟨d, n', same, ahead⟩ := later n
      refine ⟨d, same.symm.trans ?_⟩
      rcases ahead with le | ⟨r', hr'⟩
      · exact grows.ended le hn
      · rcases Nat.le_total n n' with le | le
        · exact grows.ended le hn
        · rw [hr', ← grows.ended le hr', hn]
    · rintro ⟨d, hd⟩
      obtain ⟨n, same, -⟩ := keeps_up d
      exact ⟨n, same.trans hd⟩
  · intro calls
    constructor
    · rintro ⟨n, hn⟩
      obtain ⟨d, n', same, ahead⟩ := later n
      refine ⟨d, ?_⟩
      rw [← same]
      rcases ahead with le | ⟨r, hr⟩
      · exact hn.trans (grows.calls le)
      · rcases Nat.le_total n n' with le | le
        · exact hn.trans (grows.calls le)
        · rwa [hr, ← grows.ended le hr]
    · rintro ⟨d, hd⟩
      obtain ⟨n, same, -⟩ := keeps_up d
      exact ⟨n, same ▸ hd⟩

end Stage

/-- Where at most `n` steps lead. -/
def after (g : Guide σ ι τ δ ν) : Nat → Status M A o δ ν → Status M A o δ ν
  | 0, st => st
  | _ + 1, .done r => .done r
  | n + 1, .going t m => after g n (t.step g m)

def Status.stage : Status M A o δ ν → Stage ν
  | .going _ m => .underway m
  | .done r => .ended r

/-- What a tour has come to after at most `n` steps. -/
def stage (g : Guide σ ι τ δ ν) (M : TransitionSystem σ ι τ) (A : List ι) (o : Order)
    (limit : Option Nat) (m : ν) (n : Nat) : Stage ν :=
  (after g n (welcome g M.initial (⟨.empty, limit, true⟩ : Tour M A o δ) m)).stage

theorem run_eq_some_iff {g : Guide σ ι τ δ ν} {n : Nat} {st : Status M A o δ ν}
    {r : Outcome ν} : run g n st = some r ↔ (after g n st).stage = .ended r := by
  induction n generalizing st with
  | zero => cases st <;> simp [run, after, Status.stage]
  | succ n ih =>
    cases st with
    | going t m => exact ih
    | done r' => simp [run, after, Status.stage]

/-- A tour has an outcome when its stage is the end. -/
theorem explore_eq_some_iff {g : Guide σ ι τ δ ν} {limit : Option Nat} {m : ν} {n : Nat}
    {r : Outcome ν} : explore g M A o limit m n = some r ↔ stage g M A o limit m n = .ended r :=
  run_eq_some_iff

/-- What the tour of a logged guide has in common with an exploration that is alike. -/
theorem explore_of_alike {g : Guide σ ι τ δ ν} {limit : Option Nat}
    {m : ν × Array (Call σ ι τ δ)} {Y : Nat → Stage (ν × Array (Call σ ι τ δ))}
    (h : Stage.Alike (stage g.logged M A o limit m) Y) :
    (∀ r, (∃ n, explore g.logged M A o limit m n = some r) ↔ ∃ n, Y n = .ended r) ∧
      ∀ calls, (∃ n, calls <+: (stage g.logged M A o limit m n).calls) ↔
        ∃ n, calls <+: (Y n).calls := by
  constructor
  · intro r
    rw [← h.1 r]
    constructor
    · rintro ⟨n, hn⟩
      exact ⟨n, explore_eq_some_iff.1 hn⟩
    · rintro ⟨n, hn⟩
      exact ⟨n, explore_eq_some_iff.2 hn⟩
  · exact h.2

theorem after_done (g : Guide σ ι τ δ ν) (n : Nat) (r : Outcome ν) :
    after g n (.done r : Status M A o δ ν) = .done r := by
  cases n <;> rfl

theorem after_add (g : Guide σ ι τ δ ν) (a b : Nat) (st : Status M A o δ ν) :
    after g (a + b) st = after g b (after g a st) := by
  induction a generalizing st with
  | zero => rw [Nat.zero_add, after]
  | succ a ih =>
    rw [Nat.succ_add]
    cases st with
    | going t m => exact ih (t.step g m)
    | done r => rw [after, after, after_done]

/-- Whatever the guide is asked, `P` stays true of its memory. -/
structure Keeps (g : Guide σ ι τ δ ν) (P : ν → Prop) : Prop where
  initial {m : ν} (s : σ) (h : P m) : P (g.onInitial m s).2
  start {m : ν} (s : σ) (data : δ) (h : P m) : P (g.onStart m s data).2
  transition {m : ν} (s : σ) (data : δ) (i : ι) (x : τ) (t : σ) (h : P m) :
    P (g.onTransition m s data i x t).2

theorem memory_follow (t : Tour M A o δ) (v : Visit σ ι τ δ) (rest : Frontier (Visit σ ι τ δ))
    (s : σ) (m : ν) (d : Decision δ) : (t.follow v rest s m d).stage.memory = m := by
  cases d <;> rfl

theorem Keeps.step {g : Guide σ ι τ δ ν} {P : ν → Prop} (k : Keeps g P) (t : Tour M A o δ) {m : ν}
    (h : P m) : P (t.step g m).stage.memory := by
  rw [Tour.step]
  split
  · exact h
  · next v rest hp =>
    split
    · split
      · exact h
      · next i x u hn =>
        rw [memory_follow]
        exact k.transition v.state v.label i x (M.successor x) h
    · have started := k.start v.state v.label h
      split
      · next m' ha => rwa [ha] at started
      · next m' ha => rwa [ha] at started

theorem Keeps.after {g : Guide σ ι τ δ ν} {P : ν → Prop} (k : Keeps g P) (n : Nat)
    {st : Status M A o δ ν} (h : P st.stage.memory) : P (after g n st).stage.memory := by
  induction n generalizing st with
  | zero => exact h
  | succ n ih =>
    cases st with
    | going t m => exact ih (k.step t h)
    | done r => exact h

/-- A guide that logs its calls forgets none. -/
theorem keeps_logged (g : Guide σ ι τ δ ν) (calls : List (Call σ ι τ δ)) :
    Keeps g.logged fun m => calls <+: m.2.toList where
  initial s h := h.trans (by simp [Guide.logged])
  start s data h := h.trans (by simp [Guide.logged])
  transition s data i x t h := h.trans (by simp [Guide.logged])

theorem grows_stage (g : Guide σ ι τ δ ν) (M : TransitionSystem σ ι τ) (A : List ι) (o : Order)
    (limit : Option Nat) (m : ν × Array (Call σ ι τ δ)) :
    Stage.Grows (stage g.logged M A o limit m) where
  calls {a b} h := by
    obtain ⟨c, rfl⟩ := Nat.exists_eq_add_of_le h
    rw [stage, stage, after_add]
    exact (keeps_logged g _).after c (List.prefix_refl _)
  ended {a b r} h ha := by
    obtain ⟨c, rfl⟩ := Nat.exists_eq_add_of_le h
    rw [stage] at ha ⊢
    rw [after_add]
    generalize after g.logged a _ = st at ha ⊢
    cases st with
    | going t m => cases ha
    | done r' =>
      rw [after_done]
      exact ha

end Exploration.Tour
