import Exploration.Proofs.Tour.Accounting
import Exploration.Proofs.Tour.Episodes
import Exploration.Proofs.Tour.Limit
import Exploration.Proofs.Tour.Mirror

/-!
# The levels of a breadth-first tour

The depth of an exploration is the number of transitions that led to it from the initial state where
its chain of choices began. `Guide.levelled` marks the data of every choice with that depth, and
otherwise changes nothing. Breadth-first the pending depths rise by one at most, and what is
taken on for the state at the head goes behind them one level deeper: a tour begins no state before
one of a lower level, whatever its guide answers and whatever the limit drops.
-/

namespace Exploration

variable {σ ι τ δ ν : Type}

/-- Marks the data of every choice to explore with its depth: none for initial states, and one more
than that of the source for the others. -/
def Guide.levelled (g : Guide σ ι τ δ ν) : Guide σ ι τ (δ × Nat) ν where
  onInitial := fun m s =>
    let (d, m) := g.onInitial m s
    (d.map (·, 0), m)
  onStart := fun m s data => g.onStart m s data.1
  onTransition := fun m s data i x t =>
    let (d, m) := g.onTransition m s data.1 i x t
    (d.map (·, data.2 + 1), m)

/-- A choice to explore is marked with its depth. -/
def Call.Levelled : Call σ ι τ (δ × Nat) → Prop
  | initial _ d => ∀ a ∈ d.data?, a.2 = 0
  | start _ _ _ => True
  | transition _ source _ _ _ d => ∀ a ∈ d.data?, a.2 = source.2 + 1

theorem Decision.map_fst_map (d : Decision δ) (k : Nat) : (d.map (·, k)).map Prod.fst = d := by
  cases d <;> rfl

theorem Decision.depth_of_mem {d : Decision δ} {k : Nat} {a : δ × Nat}
    (h : a ∈ (d.map (·, k)).data?) : a.2 = k := by
  cases d with
  | explore data => exact (congrArg Prod.snd (Option.mem_some.1 h)).symm
  | ignore => cases h
  | skipLetter => cases h
  | skipState => cases h
  | stop => cases h

/-- Without the marks the guide is the one it was. -/
theorem Guide.levelled_mirrors (g : Guide σ ι τ δ ν) : g.levelled.Mirrors g Prod.fst id where
  initial m s := by
    rw [levelled, Decision.map_fst_map]
    rfl
  start m s data := rfl
  transition m s data i x t := by
    rw [levelled, Decision.map_fst_map]
    rfl

/-- The guide marks every choice to explore with its depth. -/
def Guide.Deepens (g : Guide σ ι τ (δ × Nat) ν) : Prop := ∀ m c m', g.Gives m c m' → c.Levelled

theorem Guide.levelled_deepens (g : Guide σ ι τ δ ν) : g.levelled.Deepens := by
  intro m c m' h
  cases c with
  | initial s d =>
    obtain ⟨rfl, -⟩ := Prod.mk.inj h
    exact fun a ha => Decision.depth_of_mem ha
  | start s data b => exact trivial
  | transition s data i x t d =>
    obtain ⟨rfl, -⟩ := Prod.mk.inj h
    exact fun a ha => Decision.depth_of_mem ha

theorem Guide.Deepens.logged {g : Guide σ ι τ (δ × Nat) ν} (k : g.Deepens) : g.logged.Deepens :=
  fun _ _ _ h => k _ _ _ h.logged.1

namespace Tour

variable {M : TransitionSystem σ ι τ} {A : List ι}

/-- The depths `bs` of what was begun, and `ws` of what waits: both rise, nothing waits that is less
deep than what was begun, and what waits lies one apart at most. -/
structure Tiers (bs ws : List Nat) : Prop where
  begun : bs.Pairwise (· ≤ ·)
  rising : ws.Pairwise (· ≤ ·)
  before : ∀ b ∈ bs, ∀ d ∈ ws, b ≤ d
  narrow : ∀ d ∈ ws, ∀ e ∈ ws, d ≤ e + 1

namespace Tiers

variable {bs ws : List Nat} {d : Nat}

theorem zero (level : ∀ d ∈ ws, d = 0) : Tiers [] ws where
  begun := .nil
  rising := List.pairwise_of_forall_mem_list fun a ha b hb => by
    have same := level a ha
    omega
  before := by simp
  narrow a ha b hb := by
    have same := level a ha
    omega

theorem first_le (k : Tiers bs (d :: ws)) : ∀ e ∈ d :: ws, d ≤ e := by
  intro e he
  rcases List.mem_cons.1 he with rfl | behind
  · exact Nat.le_refl e
  · exact List.rel_of_pairwise_cons k.rising behind

theorem leave (k : Tiers bs (d :: ws)) : Tiers bs ws where
  begun := k.begun
  rising := k.rising.of_cons
  before b hb e he := k.before b hb e (List.mem_cons_of_mem d he)
  narrow a ha e he := k.narrow a (List.mem_cons_of_mem d ha) e (List.mem_cons_of_mem d he)

/-- The first of what waits is begun, and waits on while it is under way. -/
theorem take (k : Tiers bs (d :: ws)) : Tiers (bs ++ [d]) (d :: ws) where
  begun := by
    refine List.pairwise_append.2 ⟨k.begun, List.pairwise_singleton _ _, fun b hb e he => ?_⟩
    rw [List.mem_singleton.1 he]
    exact k.before b hb d List.mem_cons_self
  rising := k.rising
  before b hb e he := by
    rcases List.mem_append.1 hb with old | new
    · exact k.before b old e he
    · rw [List.mem_singleton.1 new]
      exact k.first_le e he
  narrow := k.narrow

/-- What is one deeper than the first goes behind all that waits. -/
theorem push (k : Tiers bs (d :: ws)) : Tiers bs (d :: ws ++ [d + 1]) := by
  have bounds : ∀ e ∈ d :: ws ++ [d + 1], d ≤ e ∧ e ≤ d + 1 := by
    refine List.forall_mem_append.2 ⟨fun e he => ?_, List.forall_mem_singleton.2 (by omega)⟩
    exact ⟨k.first_le e he, k.narrow e he d List.mem_cons_self⟩
  constructor
  case begun => exact k.begun
  case rising =>
    refine List.pairwise_append.2 ⟨k.rising, List.pairwise_singleton _ _, fun a ha e he => ?_⟩
    rw [List.mem_singleton.1 he]
    exact (bounds a (List.mem_append_left _ ha)).2
  case before =>
    intro b hb e he
    have first := k.before b hb d List.mem_cons_self
    have lower := bounds e he
    omega
  case narrow =>
    intro a ha e he
    have upper := bounds a ha
    have lower := bounds e he
    omega

end Tiers

/-- The depth of a state begun. -/
def depthOf (a : σ × δ × Nat) : Nat := a.2.2

/-- The levels of a breadth-first tour after the calls `ts`, with the initial states still to be
asked about and the visits pending. -/
structure Layered (ts : List (Turn σ ι τ (δ × Nat))) (unasked : List σ)
    (vs : List (Visit σ ι τ (δ × Nat))) : Prop where
  levelled : ∀ t ∈ ts, t.call.Levelled
  tiers : Tiers ((begun ts).map depthOf) (vs.map (·.label.2))
  opening : unasked = [] ∨ begun ts = [] ∧ ∀ v ∈ vs, v.label.2 = 0

namespace Layered

variable {ts : List (Turn σ ι τ (δ × Nat))} {t : Turn σ ι τ (δ × Nat)} {unasked : List σ}
  {v u : Visit σ ι τ (δ × Nat)} {vs : List (Visit σ ι τ (δ × Nat))} {s : σ} {data : δ × Nat}

theorem start (states : List σ) :
    Layered ([] : List (Turn σ ι τ (δ × Nat))) states ([] : List (Visit σ ι τ (δ × Nat))) where
  levelled := by simp
  tiers := .zero (by simp)
  opening := .inr ⟨rfl, by simp⟩

theorem levelled_snoc (k : Layered ts unasked vs) (level : t.call.Levelled) :
    ∀ t' ∈ ts ++ [t], t'.call.Levelled :=
  List.forall_mem_append.2 ⟨k.levelled, List.forall_mem_singleton.2 level⟩

/-- A call that begins no state. -/
theorem call (k : Layered ts [] vs) (level : t.call.Levelled) (silent : t.call.begun? = none) :
    Layered (ts ++ [t]) [] vs where
  levelled := k.levelled_snoc level
  tiers := by simpa [begun_snoc, silent] using k.tiers
  opening := .inl rfl

theorem greet (k : Layered ts (s :: unasked) vs) (level : t.call.Levelled)
    (silent : t.call.begun? = none) : Layered (ts ++ [t]) unasked vs where
  levelled := k.levelled_snoc level
  tiers := by simpa [begun_snoc, silent] using k.tiers
  opening := by simpa [begun_snoc, silent] using .inr (k.opening.resolve_left (by simp))

/-- The states taken on while initial states are asked about are on level zero. -/
theorem greet_honour (k : Layered ts (s :: unasked) vs) (level : t.call.Levelled)
    (silent : t.call.begun? = none) (zero : data.2 = 0) :
    Layered (ts ++ [t]) unasked (vs ++ [.planned A data s]) := by
  have first := k.opening.resolve_left (by simp)
  have none_begun : begun (ts ++ [t]) = [] := by simp [begun_snoc, silent, first.1]
  have zeros : ∀ v ∈ vs ++ [.planned A data s], v.label.2 = 0 :=
    List.forall_mem_append.2 ⟨first.2, List.forall_mem_singleton.2 zero⟩
  refine ⟨k.levelled_snoc level, ?_, .inr ⟨none_begun, zeros⟩⟩
  rw [none_begun]
  refine .zero fun d hd => ?_
  obtain ⟨v, hv, rfl⟩ := List.mem_map.1 hd
  exact zeros v hv

theorem leave (k : Layered ts [] (v :: vs)) : Layered ts [] vs :=
  ⟨k.levelled, k.tiers.leave, .inl rfl⟩

/-- The visit at the head goes on with the same data. -/
theorem turn (k : Layered ts [] (v :: vs)) (label : u.label = v.label) :
    Layered ts [] (u :: vs) := by
  refine ⟨k.levelled, ?_, .inl rfl⟩
  rw [List.map_cons, label]
  exact k.tiers

/-- The state of the visit at the head is begun. -/
theorem take (k : Layered ts [] (v :: vs)) (level : t.call.Levelled)
    (begins : t.call.begun? = some (v.state, v.label)) : Layered (ts ++ [t]) [] (v :: vs) where
  levelled := k.levelled_snoc level
  tiers := by simpa [begun_snoc, begins, depthOf] using k.tiers.take
  opening := .inl rfl

theorem push (k : Layered ts [] (v :: vs)) (deeper : data.2 = v.label.2 + 1) :
    Layered ts [] (v :: vs ++ [.planned A data s]) := by
  refine ⟨k.levelled, ?_, .inl rfl⟩
  have pushed := k.tiers.push
  rw [← deeper] at pushed
  simpa [Visit.planned] using pushed

end Layered

/-- The levels of the status that a tour has come to. -/
def Status.Layered (ts : List (Turn σ ι τ (δ × Nat))) (unasked : List σ) :
    Status M A .breadthFirst (δ × Nat) ν → Prop
  | .going t _ => Tour.Layered ts unasked t.frontier.toList
  | .done _ => (∀ t ∈ ts, t.call.Levelled) ∧ ((begun ts).map depthOf).Pairwise (· ≤ ·)

section Calls

variable {g : Guide σ ι τ (δ × Nat) ν} {limit : Option Nat} {p : Progress ν}
  {f : Frontier (Visit σ ι τ (δ × Nat))} {st : Status M A .breadthFirst (δ × Nat) ν}
  {ts : List (Turn σ ι τ (δ × Nat))}

theorem Greets.layered (deepens : g.Deepens) {s : σ} {d : Decision (δ × Nat)} {unasked : List σ}
    (h : Greets g limit p f s d st) (k : Layered ts (s :: unasked) f.toList) (b : Bool) :
    st.Layered (ts ++ [⟨.initial s d, b⟩]) unasked := by
  have level := deepens _ _ _ h.gives
  cases h with
  | @honour data m answer free =>
    have greeted := k.greet_honour (t := ⟨.initial s (.explore data), b⟩) (A := A) level rfl
      (level data rfl)
    rw [← Frontier.toList_pushBack] at greeted
    exact greeted
  | drop answer full => exact k.greet level rfl
  | pass answer data onward => exact k.greet level rfl
  | stop answer =>
    have greeted := k.greet (t := ⟨.initial s .stop, b⟩) level rfl
    exact ⟨greeted.levelled, greeted.tiers.begun⟩

theorem Turns.layered (deepens : g.Deepens) {call : Option (Call σ ι τ (δ × Nat))}
    (h : Turns g limit p f call st) (k : Layered ts [] f.toList) (b : Bool) :
    st.Layered (ts ++ call.toList.map (⟨·, b⟩)) [] := by
  have level (c : Call σ ι τ (δ × Nat)) (asked : call = some c) : c.Levelled := by
    subst asked
    exact deepens _ _ _ h.gives
  have head {v : Visit σ ι τ (δ × Nat)} {rest : Frontier (Visit σ ι τ (δ × Nat))}
      (pop : f.pop? = some (v, rest)) : Layered ts [] (v :: rest.toList) :=
    Frontier.toList_of_pop?_eq_some pop ▸ k
  -- The visit goes on with its label, and is pushed back or given up.
  have onward {v u : Visit σ ι τ (δ × Nat)} {rest : Frontier (Visit σ ι τ (δ × Nat))} {i : ι}
      {x : τ} {d : Decision (δ × Nat)} (pop : f.pop? = some (v, rest))
      (next : v.next M = (some (i, x), u))
      (asked : call = some (.transition v.state v.label i x (M.successor x) d)) :
      u.label = v.label ∧
        Layered (ts ++ [⟨.transition v.state v.label i x (M.successor x) d, b⟩]) []
          (u :: rest.toList) :=
    ⟨(Visit.next_of_some next).2.1,
      ((head pop).turn (Visit.next_of_some next).2.1).call (level _ asked) rfl⟩
  cases h with
  | finish pop =>
    rw [Option.toList_none, List.map_nil, List.append_nil]
    exact ⟨k.levelled, k.tiers.begun⟩
  | leave pop begun next =>
    rw [Option.toList_none, List.map_nil, List.append_nil]
    exact (head pop).leave
  | accept pop fresh answer => exact ((head pop).take (level _ rfl) rfl).turn rfl
  | decline pop fresh answer => exact ((head pop).take (level _ rfl) rfl).leave
  | @honour v u rest i x data m pop begun next answer free =>
    obtain ⟨label, asked⟩ := onward pop next rfl
    have deeper : data.2 = u.label.2 + 1 := label ▸ level _ rfl data rfl
    have pushed := asked.push (A := A) (s := M.successor x) deeper
    rw [← Frontier.toList_pushFront, ← Frontier.toList_pushBack] at pushed
    exact pushed
  | drop pop begun next answer full => exact (onward pop next rfl).2
  | @pass v u rest i x d m pop begun next answer data onward' =>
    obtain ⟨label, asked⟩ := onward pop next rfl
    cases d with
    | explore data' => cases data
    | ignore => exact asked
    | skipLetter => exact asked.turn rfl
    | skipState => exact asked.leave
    | stop => exact absurd rfl onward'
  | stop pop begun next answer =>
    obtain ⟨-, asked⟩ := onward pop next rfl
    exact ⟨asked.levelled, asked.tiers.begun⟩

theorem layered_history (deepens : g.Deepens) (M : TransitionSystem σ ι τ) (A : List ι)
    (limit : Option Nat) (m : ν) (n : Nat) :
    (Tour.after g n (welcome g M.initial
      (⟨.empty, limit, true⟩ : Tour M A .breadthFirst (δ × Nat)) m)).Layered
        (history g M A .breadthFirst limit m n) [] := by
  refine invariant_history (fun ts unasked st => st.Layered ts unasked) ?_ ?_ ?_ ?_ n
  · exact fun limit p f ts s rest d st h _ k => h.layered deepens k _
  · exact fun _ _ _ k => k
  · exact fun limit p f ts call st h k => h.layered deepens k _
  · exact .start M.initial

theorem Status.Layered.done {unasked : List σ} (k : st.Layered ts unasked) :
    (∀ t ∈ ts, t.call.Levelled) ∧ ((begun ts).map depthOf).Pairwise (· ≤ ·) := by
  cases st with
  | going t m => exact ⟨k.levelled, k.tiers.begun⟩
  | done r => exact k

end Calls

/-- Breadth-first the states begun are the first of those taken on. -/
theorem begun_prefix_honoured (g : Guide σ ι τ δ ν) (M : TransitionSystem σ ι τ) (A : List ι)
    (limit : Option Nat) (m : ν) (n : Nat) :
    let ts := history g M A .breadthFirst limit m n
    begun ts <+: honoured ts := by
  intro ts
  have balanced := balanced_history g M A .breadthFirst limit m n
  generalize Tour.after g n _ = st at balanced
  cases balanced with
  | going k => exact ⟨_, (k.order rfl).trans k.honoured_eq.symm⟩
  | done k => exact ⟨_, (k.order rfl).trans k.honoured_eq.symm⟩

/-- A breadth-first tour goes level by level, whatever its guide answers and whatever its limit
drops. It is followed to its stage `x`, which is the end just when the tour has that outcome. When
every choice is marked with its depth, the tour makes the same calls, and begins the states it took
on in their order, so that their depths never fall. Between the start of a state and the next the
guide is asked only about that state's transitions, row by row, as its answers leave them; in the
marked tour too, so that the source of a transition has the mark it was begun with. -/
theorem breadthFirst_levels (g : Guide σ ι τ δ ν) (M : TransitionSystem σ ι τ) (A : List ι)
    (limit : Option Nat) (m : ν) (n : Nat) :
    let x := stage g.logged M A .breadthFirst limit (m, #[]) n
    let ts := history g.logged M A .breadthFirst limit (m, #[]) n
    let marked := history g.levelled.logged M A .breadthFirst limit (m, #[]) n
    (∀ r, explore g.logged M A .breadthFirst limit (m, #[]) n = some r ↔ x = .ended r) ∧
      (explore g M A .breadthFirst limit m n =
        (explore g.logged M A .breadthFirst limit (m, #[]) n).map Outcome.unlogged) ∧
      x.calls = ts.map Turn.call ∧ marked.map (Turn.map Prod.fst) = ts ∧
      (∀ t ∈ marked, t.call.Levelled) ∧ begun marked <+: honoured marked ∧
      ((begun marked).map depthOf).Pairwise (· ≤ ·) ∧
      Toured M A x.calls x.isEnded ∧ Toured M A (marked.map Turn.call) x.isEnded := by
  intro x ts marked
  have mirrors := g.levelled_mirrors.logged
  have calls := calls_history g M A .breadthFirst limit m n
  have unmarked := history_map mirrors M A .breadthFirst limit (m, #[]) n
  have together := isEnded_stage_map mirrors M A .breadthFirst limit (m, #[]) n
  rw [Array.map_empty] at unmarked together
  obtain ⟨levelled, rising⟩ :=
    (layered_history g.levelled_deepens.logged M A limit (m, #[]) n).done
  have toured := toured_history g.logged M A limit (m, #[]) n
  have marked_toured := toured_history g.levelled.logged M A limit (m, #[]) n
  rw [← calls] at toured
  rw [together] at marked_toured
  have plain := explore_unlogged g M A .breadthFirst limit (m, #[]) n
  have in_order := begun_prefix_honoured g.levelled.logged M A limit (m, #[]) n
  exact ⟨fun _ => explore_eq_some_iff, plain, calls, unmarked, levelled, in_order, rising, toured,
    marked_toured⟩

example : (begun (history eager.levelled.logged Traversal.relay ['a'] .breadthFirst none ((), #[])
    10)).map (fun a => (a.1, depthOf a)) = [(0, 0), (3, 0), (1, 1)] := rfl

end Tour

end Exploration
