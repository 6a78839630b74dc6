import Exploration.Proofs.Tour.Mirror
import Exploration.Proofs.Tour.Termination

/-!
# Tours under a limit

Under a limit every tour ends, and its calls can be counted in advance. Each initial state is asked
about once at most. A state is begun only if it was taken on, and a transition is asked about only
if it is one of a state taken on, each time anew: the transitions still pending pay for the
questions to come.
-/

namespace Exploration

variable {σ ι τ δ ν : Type}

namespace Call

def isInitial : Call σ ι τ δ → Bool
  | initial _ _ => true
  | start _ _ _ => false
  | transition _ _ _ _ _ _ => false

def isStart : Call σ ι τ δ → Bool
  | initial _ _ => false
  | start _ _ _ => true
  | transition _ _ _ _ _ _ => false

def isTransition : Call σ ι τ δ → Bool
  | initial _ _ => false
  | start _ _ _ => false
  | transition _ _ _ _ _ _ => true

theorem isStart_eq (c : Call σ ι τ δ) : c.isStart = c.begun?.isSome := by
  cases c <;> rfl

end Call

namespace Tour

variable {M : TransitionSystem σ ι τ} {A : List ι} {o : Order}

section Unlogged

variable {g : Guide σ ι τ δ ν}

/-- The outcome without the calls that were logged. -/
def Outcome.unlogged (r : Outcome (ν × Array (Call σ ι τ δ))) : Outcome ν :=
  ⟨r.complete, r.memory.1⟩

def Status.unlogged : Status M A o δ (ν × Array (Call σ ι τ δ)) → Status M A o δ ν
  | .going t m => .going t m.1
  | .done r => .done r.unlogged

theorem Status.unlogged_eq (st : Status M A o δ (ν × Array (Call σ ι τ δ))) :
    st.unlogged = st.map id Prod.fst := by
  cases st with
  | going t m => exact congrArg (Status.going · m.1) t.map_id.symm
  | done r => rfl

theorem unlogged_welcome (g : Guide σ ι τ δ ν) (states : List σ) (t : Tour M A o δ)
    (m : ν × Array (Call σ ι τ δ)) :
    (welcome g.logged states t m).unlogged = welcome g states t m.1 := by
  rw [Status.unlogged_eq, welcome_map g.logged_mirrors, map_id]

theorem unlogged_step (g : Guide σ ι τ δ ν) (t : Tour M A o δ) (m : ν × Array (Call σ ι τ δ)) :
    (t.step g.logged m).unlogged = t.step g m.1 := by
  rw [Status.unlogged_eq, step_map g.logged_mirrors, map_id]

theorem run_unlogged (g : Guide σ ι τ δ ν) (n : Nat)
    (st : Status M A o δ (ν × Array (Call σ ι τ δ))) :
    run g n st.unlogged = (run g.logged n st).map Outcome.unlogged := by
  induction n generalizing st with
  | zero => cases st <;> rfl
  | succ n ih =>
    cases st with
    | going t m =>
      rw [run, ← ih, unlogged_step]
      rfl
    | done r => rfl

/-- Logging the calls does not change the tour. -/
theorem explore_unlogged (g : Guide σ ι τ δ ν) (M : TransitionSystem σ ι τ) (A : List ι)
    (o : Order) (limit : Option Nat) (m : ν × Array (Call σ ι τ δ)) (n : Nat) :
    explore g M A o limit m.1 n = (explore g.logged M A o limit m n).map Outcome.unlogged := by
  rw [explore, explore, ← run_unlogged, unlogged_welcome]

end Unlogged

/-- The number of transitions of the states taken on. -/
def allowance (M : TransitionSystem σ ι τ) (A : List ι) (ts : List (Turn σ ι τ δ)) : Nat :=
  Frontier.total (fun c => (M.outgoing A c.1).length) (honoured ts)

theorem allowance_append (ts us : List (Turn σ ι τ δ)) :
    allowance M A (ts ++ us) = allowance M A ts + allowance M A us := by
  rw [allowance, honoured_append, Frontier.total_append]
  rfl

/-- The transitions that may still be asked about if no more states are taken on. -/
def Status.outstanding : Status M A o δ ν → Nat
  | .going t _ => t.frontier.weight fun v => (v.pending M).length
  | .done _ => 0

/-- How many of the calls are of one kind. -/
def callCount (kind : Call σ ι τ δ → Bool) (ts : List (Turn σ ι τ δ)) : Nat :=
  (ts.map Turn.call).countP kind

theorem callCount_append (kind : Call σ ι τ δ → Bool) (ts us : List (Turn σ ι τ δ)) :
    callCount kind (ts ++ us) = callCount kind ts + callCount kind us := by
  rw [callCount, List.map_append, List.countP_append]
  rfl

theorem callCount_start (ts : List (Turn σ ι τ δ)) :
    callCount Call.isStart ts = (begun ts).length := by
  rw [callCount, List.countP_map, begun, List.length_filterMap_eq_countP]
  exact List.countP_congr fun t _ => by rw [Function.comp_apply, Call.isStart_eq]

theorem allowance_taken {t : Turn σ ι τ δ} {a : σ × δ} (chosen : t.call.chosen? = some a)
    (taken : t.taken = true) : allowance M A [t] = (M.outgoing A a.1).length := by
  simp [allowance, Frontier.total, honoured, choices, Turn.choice?, chosen, taken]

section Steps

variable {g : Guide σ ι τ δ ν} {limit : Option Nat} {p : Progress ν}
  {f : Frontier (Visit σ ι τ δ)} {st : Status M A o δ ν}

/-- The transitions that may be asked about while the frontier is `f`. -/
theorem outstanding_going (limit : Option Nat) (p : Progress ν) (f : Frontier (Visit σ ι τ δ)) :
    (p.going limit f : Status M A o δ ν).outstanding =
      f.weight fun v => (v.pending M).length := rfl

/-- A state taken on brings its transitions. -/
theorem Greets.outstanding_le {s : σ} {d : Decision δ} (h : Greets g limit p f s d st) :
    let t : Turn σ ι τ δ := ⟨.initial s d, (p.tour limit f : Tour M A o δ).load < st.load⟩
    st.outstanding ≤
      allowance M A [t] + (p.going limit f : Status M A o δ ν).outstanding := by
  intro t
  cases h with
  | @honour data m answer free =>
    have taken : t.taken = true := decide_eq_true (load_lt_pushBack limit p _ f _)
    rw [allowance_taken (t := t) rfl taken, outstanding_going, outstanding_going,
      Frontier.weight_pushBack, Visit.pending_planned, Nat.add_comm]
  | drop answer full => exact Nat.le_add_left _ _
  | pass answer data onward => exact Nat.le_add_left _ _
  | stop answer => exact Nat.zero_le _

/-- A question about a transition uses it up. -/
theorem Turns.outstanding_le {call : Option (Call σ ι τ δ)} (h : Turns g limit p f call st) :
    let us : List (Turn σ ι τ δ) :=
      call.toList.map (⟨·, (p.tour limit f : Tour M A o δ).load < st.load⟩)
    callCount Call.isTransition us + st.outstanding ≤
      allowance M A us + (p.going limit f : Status M A o δ ν).outstanding := by
  intro us
  rw [outstanding_going]
  have asked {v u : Visit σ ι τ δ} {rest : Frontier (Visit σ ι τ δ)} {y : ι × τ}
      (pop : f.pop? = some (v, rest)) (next : v.next M = (some y, u)) :
      f.weight (fun v => (v.pending M).length) =
        (u.pending M).length + 1 + rest.weight fun v => (v.pending M).length := by
    rw [Frontier.weight_of_pop? pop, (Visit.next_of_some next).1, List.length_cons]
  cases h with
  | finish => exact Nat.zero_le _
  | @leave v u rest pop begun next =>
    rw [Frontier.weight_of_pop? pop]
    exact Nat.add_le_add_left (Nat.le_add_left _ _) 0
  | @accept v rest m pop fresh answer =>
    rw [Frontier.weight_of_pop? pop]
    exact Nat.add_le_add_left (Nat.le_of_eq (Frontier.weight_pushFront _ _ _)) 0
  | @decline v rest m pop fresh answer =>
    rw [Frontier.weight_of_pop? pop]
    exact Nat.add_le_add_left (Nat.le_add_left _ _) 0
  | @honour v u rest i x data m pop begun next answer free =>
    have brought : allowance M A us = (M.outgoing A (M.successor x)).length :=
      allowance_taken (a := (M.successor x, data)) rfl
        (decide_eq_true (load_lt_push limit p _ pop u _))
    rw [brought, asked pop next, outstanding_going, Frontier.weight_push,
      Frontier.weight_pushFront, Visit.pending_planned]
    change 1 + _ ≤ _
    omega
  | @drop v u rest i x data m pop begun next answer full =>
    rw [asked pop next, outstanding_going, Frontier.weight_pushFront]
    change 1 + _ ≤ _
    omega
  | @pass v u rest i x d m pop begun next answer data onward =>
    have fewer : (u.skipLetter.pending M).length ≤ (u.pending M).length :=
      Cursor.length_toList_skipRow_le _ u.place
    have settled : (settle u rest d).weight (fun v => (v.pending M).length) ≤
        (u.pending M).length + rest.weight fun v => (v.pending M).length := by
      cases d with
      | explore data => exact Nat.le_refl _
      | ignore => exact Nat.le_refl _
      | skipLetter => exact Nat.add_le_add_right fewer _
      | skipState => exact Nat.le_add_left _ _
      | stop => exact Nat.le_add_left _ _
    rw [asked pop next, outstanding_going]
    change 1 + _ ≤ _
    omega
  | @stop v u rest i x m pop begun next answer =>
    rw [asked pop next]
    change 1 + 0 ≤ _
    omega

/-- A step asks about no initial state. -/
theorem Turns.callCount_initial {call : Option (Call σ ι τ δ)} (h : Turns g limit p f call st)
    (taken : Bool) : callCount Call.isInitial (call.toList.map (⟨·, taken⟩)) = 0 := by
  cases h <;> rfl

end Steps

/-- The questions asked about initial states and about transitions, with those that may still be
asked. -/
structure Counted (ts : List (Turn σ ι τ δ)) (unasked : List σ) (st : Status M A o δ ν) :
    Prop where
  initials : callCount Call.isInitial ts + unasked.length ≤ M.initial.length
  transitions : callCount Call.isTransition ts + st.outstanding ≤ allowance M A ts

theorem counted_history (g : Guide σ ι τ δ ν) (M : TransitionSystem σ ι τ) (A : List ι)
    (o : Order) (limit : Option Nat) (m : ν) (n : Nat) :
    Counted (history g M A o limit m n) []
      (after g n (welcome g M.initial (⟨.empty, limit, true⟩ : Tour M A o δ) m)) := by
  refine invariant_history Counted ?_ ?_ ?_ ?_ n
  · intro limit p f ts s rest d st greet _ k
    have taken := greet.outstanding_le
    constructor
    · rw [callCount_append]
      exact (Nat.add_assoc _ _ _).trans_le ((Nat.add_comm 1 _) ▸ k.initials)
    · have before := k.transitions
      rw [callCount_append, allowance_append]
      change _ + 0 + _ ≤ _
      omega
  · intro ts rest r k
    exact ⟨Nat.le_trans (Nat.le_add_right _ _) k.initials, k.transitions⟩
  · intro limit p f ts call st turn k
    have taken := turn.outstanding_le
    have before := k.transitions
    constructor
    · rw [callCount_append, turn.callCount_initial]
      exact k.initials
    · rw [callCount_append, allowance_append]
      omega
  · exact ⟨Nat.le_of_eq (Nat.zero_add _), Nat.le_refl _⟩

/-- A state is begun only if it was taken on. -/
theorem length_begun_le (g : Guide σ ι τ δ ν) (M : TransitionSystem σ ι τ) (A : List ι)
    (o : Order) (limit : Option Nat) (m : ν) (n : Nat) :
    (begun (history g M A o limit m n)).length ≤ (honoured (history g M A o limit m n)).length := by
  have balanced := balanced_history g M A o limit m n
  have some_begun {ts : List (Turn σ ι τ δ)} {p : Progress ν} {vs : List (Visit σ ι τ δ)}
      {early late : List (σ × δ)} (k : Accounted o limit ts p vs early late) :
      (begun ts).length ≤ (honoured ts).length := by
    rw [k.honoured_eq, ← k.balance.length_eq, List.length_append]
    exact Nat.le_add_right _ _
  generalize Tour.after g n _ = st at balanced
  cases balanced with
  | going k => exact some_begun k
  | done k => exact some_begun k

/-- Under a limit every tour ends, whatever its guide answers. It asks about each initial state
once at most, begins no more states than the limit allows, and asks about no more transitions than
the states taken on have, each state counted as often as it was taken on. -/
theorem explore_within_limit (g : Guide σ ι τ δ ν) (M : TransitionSystem σ ι τ) (A : List ι)
    (o : Order) (k : Nat) (m : ν) :
    ∃ n r, explore g.logged M A o (some k) (m, #[]) n = some r ∧
      explore g M A o (some k) m n = some r.unlogged ∧
      let ts := history g.logged M A o (some k) (m, #[]) n
      ts.map Turn.call = r.memory.2.toList ∧
        callCount Call.isInitial ts ≤ M.initial.length ∧
        callCount Call.isStart ts ≤ k ∧
        callCount Call.isTransition ts ≤ allowance M A ts := by
  obtain ⟨n, r, ended⟩ := explore_ends_of_honoured_le (honoured_le_limit g.logged M A o k (m, #[]))
  have plain : explore g M A o (some k) m n = some r.unlogged := by
    have both := explore_unlogged g M A o (some k) (m, #[]) n
    rw [ended] at both
    exact both
  have logged : (history g.logged M A o (some k) (m, #[]) n).map Turn.call = r.memory.2.toList := by
    rw [← calls_history, explore_eq_some_iff.1 ended]
    rfl
  have counted := counted_history g.logged M A o (some k) (m, #[]) n
  refine ⟨n, r, ended, plain, logged, counted.initials, ?_, ?_⟩
  · rw [callCount_start]
    have few := honoured_le_limit g.logged M A o k (m, #[]) n
    exact (length_begun_le g.logged M A o (some k) (m, #[]) n).trans few
  · exact (Nat.le_add_right _ _).trans counted.transitions

end Tour

end Exploration
