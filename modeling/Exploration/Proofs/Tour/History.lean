import Exploration.Proofs.Tour.Progress
import Exploration.Proofs.Traversal.Advance

/-!
# The history of a tour

A tour is followed call by call: `history` lists the guide's answers in time, each with whether
the tour took on a state for it, which shows in the number of its pending visits. What a call does
is one of the few cases of `Greets`, for an initial state, and of `Turns`, for a step.
-/

namespace Exploration

variable {σ ι τ δ ν : Type}

def Decision.data? : Decision δ → Option δ
  | .explore data => some data
  | .ignore => none
  | .skipLetter => none
  | .skipState => none
  | .stop => none

namespace Call

def decision? : Call σ ι τ δ → Option (Decision δ)
  | initial _ d => some d
  | start _ _ _ => none
  | transition _ _ _ _ _ d => some d

/-- The state the guide chose to explore, with its data. -/
def chosen? : Call σ ι τ δ → Option (σ × δ)
  | initial s d => d.data?.map (s, ·)
  | start _ _ _ => none
  | transition _ _ _ _ s d => d.data?.map (s, ·)

/-- The state about to be explored, with its data. -/
def begun? : Call σ ι τ δ → Option (σ × δ)
  | start s data _ => some (s, data)
  | initial _ _ => none
  | transition _ _ _ _ _ _ => none

/-- The guide ends the tour. -/
def Stops (c : Call σ ι τ δ) : Prop := c.decision? = some .stop

end Call

/-- With the memory `m` the guide gives the answer of the call, and goes on with another. -/
def Guide.Gives (g : Guide σ ι τ δ ν) (m : ν) : Call σ ι τ δ → ν → Prop
  | .initial s d, m' => g.onInitial m s = (d, m')
  | .start s data b, m' => g.onStart m s data = (b, m')
  | .transition s data i x t d, m' => g.onTransition m s data i x t = (d, m')

theorem Guide.Gives.logged {g : Guide σ ι τ δ ν} {m m' : ν × Array (Call σ ι τ δ)}
    {c : Call σ ι τ δ} (h : g.logged.Gives m c m') :
    g.Gives m.1 c m'.1 ∧ m'.2.toList = m.2.toList ++ [c] := by
  cases c with
  | initial s d =>
    obtain ⟨rfl, rfl⟩ := Prod.mk.inj h
    exact ⟨rfl, Array.toList_push⟩
  | start s data b =>
    obtain ⟨rfl, rfl⟩ := Prod.mk.inj h
    exact ⟨rfl, Array.toList_push⟩
  | transition s data i x t d =>
    obtain ⟨rfl, rfl⟩ := Prod.mk.inj h
    exact ⟨rfl, Array.toList_push⟩

namespace Tour

variable {M : TransitionSystem σ ι τ} {A : List ι} {o : Order}

/-- A call and whether a state was taken on for it. -/
structure Turn (σ ι τ δ : Type) where
  call : Call σ ι τ δ
  taken : Bool

/-- The choice to explore that was made, and whether it was honoured. -/
def Turn.choice? (t : Turn σ ι τ δ) : Option ((σ × δ) × Bool) := t.call.chosen?.map (·, t.taken)

/-- The number of visits pending. -/
def load (t : Tour M A o δ) : Nat := t.frontier.toList.length

def Status.load : Status M A o δ ν → Nat
  | .going t _ => t.load
  | .done _ => 0

/-- A visit put behind the others is one more. -/
theorem load_lt_pushBack (limit : Option Nat) (p q : Progress ν) (f : Frontier (Visit σ ι τ δ))
    (v : Visit σ ι τ δ) : (p.tour limit f : Tour M A o δ).load <
      (q.going limit (f.pushBack v) : Status M A o δ ν).load := by
  change f.toList.length < (f.pushBack v).toList.length
  rw [Frontier.toList_pushBack, List.length_append]
  exact Nat.lt_succ_self _

/-- A visit put in while the head goes on is one more. -/
theorem load_lt_push (limit : Option Nat) (p q : Progress ν) {f rest : Frontier (Visit σ ι τ δ)}
    {v : Visit σ ι τ δ} (pop : f.pop? = some (v, rest)) (u w : Visit σ ι τ δ) :
    (p.tour limit f : Tour M A o δ).load <
      (q.going limit ((rest.pushFront u).push o w) : Status M A o δ ν).load := by
  change f.toList.length < ((rest.pushFront u).push o w).toList.length
  rw [Frontier.toList_push, (Order.place_perm _ _ _).length_eq, Frontier.toList_of_pop?_eq_some pop]
  exact Nat.lt_succ_self _

/-- The question of the next step, with its answer. -/
def asked (g : Guide σ ι τ δ ν) (t : Tour M A o δ) (m : ν) : Option (Call σ ι τ δ) :=
  match t.frontier.pop? with
  | none => none
  | some (v, _) =>
    if v.started then
      (v.next M).1.map fun p =>
        .transition v.state v.label p.1 p.2 (M.successor p.2)
          (g.onTransition m v.state v.label p.1 p.2 (M.successor p.2)).1
    else some (.start v.state v.label (g.onStart m v.state v.label).1)

/-- The calls about initial states. -/
def greetings (g : Guide σ ι τ δ ν) : List σ → Tour M A o δ → ν → List (Turn σ ι τ δ)
  | [], _, _ => []
  | s :: rest, t, m =>
    let st := welcome g [s] t m
    ⟨.initial s (g.onInitial m s).1, t.load < st.load⟩ ::
      match st with
      | .going t m => greetings g rest t m
      | .done _ => []

/-- The calls of at most `n` steps. -/
def turns (g : Guide σ ι τ δ ν) : Nat → Status M A o δ ν → List (Turn σ ι τ δ)
  | 0, _ => []
  | _ + 1, .done _ => []
  | n + 1, .going t m =>
    let st := t.step g m
    (asked g t m).toList.map (⟨·, t.load < st.load⟩) ++ turns g n st

/-- All calls of a tour of at most `n` steps. -/
def history (g : Guide σ ι τ δ ν) (M : TransitionSystem σ ι τ) (A : List ι) (o : Order)
    (limit : Option Nat) (m : ν) (n : Nat) : List (Turn σ ι τ δ) :=
  let t : Tour M A o δ := ⟨.empty, limit, true⟩
  greetings g M.initial t m ++ turns g n (welcome g M.initial t m)

section Cases

variable {g : Guide σ ι τ δ ν} {limit : Option Nat} {p : Progress ν}
  {f : Frontier (Visit σ ι τ δ)}

/-- What asking about the initial state `s` does. -/
inductive Greets (g : Guide σ ι τ δ ν) (limit : Option Nat) (p : Progress ν)
    (f : Frontier (Visit σ ι τ δ)) (s : σ) : Decision δ → Status M A o δ ν → Prop
  | honour {data : δ} {m : ν} (answer : g.onInitial p.memory s = (.explore data, m))
      (free : p.honours limit = true) :
      Greets g limit p f s (.explore data)
        ((p.remember m).honour.going limit (f.pushBack (.planned A data s)))
  | drop {data : δ} {m : ν} (answer : g.onInitial p.memory s = (.explore data, m))
      (full : ¬ p.honours limit = true) :
      Greets g limit p f s (.explore data) ((p.remember m).drop.going limit f)
  | pass {d : Decision δ} {m : ν} (answer : g.onInitial p.memory s = (d, m))
      (data : d.data? = none) (onward : d ≠ .stop) :
      Greets g limit p f s d ((p.remember m).going limit f)
  | stop {m : ν} (answer : g.onInitial p.memory s = (.stop, m)) :
      Greets g limit p f s .stop (.done (p.remember m).outcome)

theorem greets (g : Guide σ ι τ δ ν) (limit : Option Nat) (p : Progress ν)
    (f : Frontier (Visit σ ι τ δ)) (s : σ) :
    Greets g limit p f s (g.onInitial p.memory s).1
      (welcome g [s] (p.tour limit f : Tour M A o δ) p.memory) := by
  rw [welcome]
  cases answer : g.onInitial p.memory s with
  | mk d m =>
    cases d with
    | explore data =>
      have enrolled := (p.remember m).enroll_tour (M := M) (A := A) (o := o) limit f
        Frontier.pushBack s data
      dsimp only
      rw [show (p.tour limit f : Tour M A o δ) = (p.remember m).tour limit f from rfl, enrolled]
      by_cases free : p.honours limit = true
      · rw [if_pos (show (p.remember m).honours limit = true from free)]
        exact .honour answer free
      · rw [if_neg (show ¬ (p.remember m).honours limit = true from free)]
        exact .drop answer free
    | ignore => exact .pass answer rfl (by simp)
    | skipLetter => exact .pass answer rfl (by simp)
    | skipState => exact .pass answer rfl (by simp)
    | stop => exact .stop answer

/-- The frontier after an answer about a transition of the visit `v`, behind which `rest` was. -/
def settle (v : Visit σ ι τ δ) (rest : Frontier (Visit σ ι τ δ)) :
    Decision δ → Frontier (Visit σ ι τ δ)
  | .explore _ => rest.pushFront v
  | .ignore => rest.pushFront v
  | .skipLetter => rest.pushFront v.skipLetter
  | .skipState => rest
  | .stop => rest

/-- What a step does, by the question it asks. -/
inductive Turns (g : Guide σ ι τ δ ν) (limit : Option Nat) (p : Progress ν)
    (f : Frontier (Visit σ ι τ δ)) : Option (Call σ ι τ δ) → Status M A o δ ν → Prop
  | finish (pop : f.pop? = none) : Turns g limit p f none (.done p.outcome)
  | leave {v u : Visit σ ι τ δ} {rest : Frontier (Visit σ ι τ δ)} (pop : f.pop? = some (v, rest))
      (begun : v.started = true) (next : v.next M = (none, u)) :
      Turns g limit p f none (p.going limit rest)
  | accept {v : Visit σ ι τ δ} {rest : Frontier (Visit σ ι τ δ)} {m : ν}
      (pop : f.pop? = some (v, rest)) (fresh : v.started = false)
      (answer : g.onStart p.memory v.state v.label = (true, m)) :
      Turns g limit p f (some (.start v.state v.label true))
        ((p.remember m).going limit (rest.pushFront v.start))
  | decline {v : Visit σ ι τ δ} {rest : Frontier (Visit σ ι τ δ)} {m : ν}
      (pop : f.pop? = some (v, rest)) (fresh : v.started = false)
      (answer : g.onStart p.memory v.state v.label = (false, m)) :
      Turns g limit p f (some (.start v.state v.label false)) ((p.remember m).going limit rest)
  | honour {v u : Visit σ ι τ δ} {rest : Frontier (Visit σ ι τ δ)} {i : ι} {x : τ} {data : δ}
      {m : ν} (pop : f.pop? = some (v, rest)) (begun : v.started = true)
      (next : v.next M = (some (i, x), u))
      (answer : g.onTransition p.memory v.state v.label i x (M.successor x) = (.explore data, m))
      (free : p.honours limit = true) :
      Turns g limit p f (some (.transition v.state v.label i x (M.successor x) (.explore data)))
        ((p.remember m).honour.going limit
          ((rest.pushFront u).push o (.planned A data (M.successor x))))
  | drop {v u : Visit σ ι τ δ} {rest : Frontier (Visit σ ι τ δ)} {i : ι} {x : τ} {data : δ}
      {m : ν} (pop : f.pop? = some (v, rest)) (begun : v.started = true)
      (next : v.next M = (some (i, x), u))
      (answer : g.onTransition p.memory v.state v.label i x (M.successor x) = (.explore data, m))
      (full : ¬ p.honours limit = true) :
      Turns g limit p f (some (.transition v.state v.label i x (M.successor x) (.explore data)))
        ((p.remember m).drop.going limit (rest.pushFront u))
  | pass {v u : Visit σ ι τ δ} {rest : Frontier (Visit σ ι τ δ)} {i : ι} {x : τ}
      {d : Decision δ} {m : ν} (pop : f.pop? = some (v, rest)) (begun : v.started = true)
      (next : v.next M = (some (i, x), u))
      (answer : g.onTransition p.memory v.state v.label i x (M.successor x) = (d, m))
      (data : d.data? = none) (onward : d ≠ .stop) :
      Turns g limit p f (some (.transition v.state v.label i x (M.successor x) d))
        ((p.remember m).going limit (settle u rest d))
  | stop {v u : Visit σ ι τ δ} {rest : Frontier (Visit σ ι τ δ)} {i : ι} {x : τ} {m : ν}
      (pop : f.pop? = some (v, rest)) (begun : v.started = true)
      (next : v.next M = (some (i, x), u))
      (answer : g.onTransition p.memory v.state v.label i x (M.successor x) = (.stop, m)) :
      Turns g limit p f (some (.transition v.state v.label i x (M.successor x) .stop))
        (.done (p.remember m).outcome)

theorem turns_step (g : Guide σ ι τ δ ν) (limit : Option Nat) (p : Progress ν)
    (f : Frontier (Visit σ ι τ δ)) :
    Turns g limit p f (asked g (p.tour limit f : Tour M A o δ) p.memory)
      ((p.tour limit f : Tour M A o δ).step g p.memory) := by
  have frontier : (p.tour limit f : Tour M A o δ).frontier = f := rfl
  rw [asked, frontier]
  cases pop : f.pop? with
  | none =>
    rw [Progress.step_of_none pop]
    exact .finish pop
  | some a =>
    obtain ⟨v, rest⟩ := a
    cases begun : v.started with
    | false =>
      rw [Progress.step_of_planned pop begun]
      simp only [begun]
      cases answer : g.onStart p.memory v.state v.label with
      | mk accepted m =>
        cases accepted with
        | true => exact .accept pop begun answer
        | false => exact .decline pop begun answer
    | true =>
      simp only [begun]
      cases next : v.next M with
      | mk y u =>
        cases y with
        | none =>
          rw [Progress.step_of_end pop begun next]
          exact .leave pop begun next
        | some y =>
          obtain ⟨i, x⟩ := y
          rw [Progress.step_of_transition pop begun next]
          dsimp only [Option.map_some]
          cases answer : g.onTransition p.memory v.state v.label i x (M.successor x) with
          | mk d m =>
            cases d with
            | explore data =>
              by_cases free : p.honours limit = true
              · simp only [if_pos free]
                exact .honour pop begun next answer free
              · simp only [if_neg free]
                exact .drop pop begun next answer free
            | ignore => exact .pass pop begun next answer rfl (by simp)
            | skipLetter => exact .pass pop begun next answer rfl (by simp)
            | skipState => exact .pass pop begun next answer rfl (by simp)
            | stop => exact .stop pop begun next answer

theorem Greets.gives {s : σ} {d : Decision δ} {st : Status M A o δ ν}
    (h : Greets g limit p f s d st) : g.Gives p.memory (.initial s d) st.stage.memory := by
  cases h with
  | honour answer => exact answer
  | drop answer => exact answer
  | pass answer => exact answer
  | stop answer => exact answer

theorem Turns.gives {c : Call σ ι τ δ} {st : Status M A o δ ν}
    (h : Turns g limit p f (some c) st) : g.Gives p.memory c st.stage.memory := by
  cases h with
  | accept pop fresh answer => exact answer
  | decline pop fresh answer => exact answer
  | honour pop begun next answer => exact answer
  | drop pop begun next answer => exact answer
  | pass pop begun next answer => exact answer
  | stop pop begun next answer => exact answer

/-- The cases of a call leave no choice. -/
theorem Greets.status_eq {s : σ} {d : Decision δ} {st : Status M A o δ ν}
    (h : Greets g limit p f s d st) :
    welcome g [s] (p.tour limit f : Tour M A o δ) p.memory = st := by
  have enrolled (m : ν) (data : δ) := (p.remember m).enroll_tour (M := M) (A := A) (o := o) limit f
    Frontier.pushBack s data
  cases h with
  | @honour data m answer free =>
    rw [welcome, answer]
    exact congrArg (Status.going · m) ((enrolled m data).trans (if_pos free))
  | @drop data m answer full =>
    rw [welcome, answer]
    exact congrArg (Status.going · m) ((enrolled m data).trans (if_neg full))
  | @pass d m answer data onward =>
    rw [welcome, answer]
    cases d with
    | explore data' => cases data
    | ignore => rfl
    | skipLetter => rfl
    | skipState => rfl
    | stop => exact absurd rfl onward
  | stop answer =>
    rw [welcome, answer]
    rfl

theorem Turns.status_eq {call : Option (Call σ ι τ δ)} {st : Status M A o δ ν}
    (h : Turns g limit p f call st) : (p.tour limit f : Tour M A o δ).step g p.memory = st := by
  cases h with
  | finish pop => exact Progress.step_of_none pop
  | leave pop begun next => exact Progress.step_of_end pop begun next
  | accept pop fresh answer => rw [Progress.step_of_planned pop fresh, answer]
  | decline pop fresh answer => rw [Progress.step_of_planned pop fresh, answer]
  | honour pop begun next answer free =>
    rw [Progress.step_of_transition pop begun next, answer]
    exact if_pos free
  | drop pop begun next answer full =>
    rw [Progress.step_of_transition pop begun next, answer]
    exact if_neg full
  | @pass v u rest i x d m pop begun next answer data onward =>
    rw [Progress.step_of_transition pop begun next, answer]
    cases d with
    | explore data' => cases data
    | ignore => rfl
    | skipLetter => rfl
    | skipState => rfl
    | stop => exact absurd rfl onward
  | stop pop begun next answer => rw [Progress.step_of_transition pop begun next, answer]

/-- Every tour is at some progress. -/
theorem exists_progress (t : Tour M A o δ) (m : ν) :
    ∃ (limit : Option Nat) (p : Progress ν) (f : Frontier (Visit σ ι τ δ)),
      t = p.tour limit f ∧ m = p.memory := by
  refine ⟨t.budget, ⟨0, t.complete, m⟩, t.frontier, ?_, rfl⟩
  rw [Progress.tour]
  cases budget : t.budget with
  | none => exact congrArg (Tour.mk t.frontier · t.complete) budget
  | some k => exact congrArg (Tour.mk t.frontier · t.complete) budget

/-- Initial states are asked about one after the other, until the guide stops. -/
theorem welcome_cons (g : Guide σ ι τ δ ν) (s : σ) (rest : List σ) (t : Tour M A o δ) (m : ν) :
    welcome g (s :: rest) t m =
      match welcome g [s] t m with
      | .going t m => welcome g rest t m
      | .done r => .done r := by
  rw [welcome, welcome]
  rcases g.onInitial m s with ⟨d, m⟩
  cases d <;> rfl

end Cases

section Invariants

variable {g : Guide σ ι τ δ ν} (I : List (Turn σ ι τ δ) → List σ → Status M A o δ ν → Prop)

theorem invariant_welcome
    (greet : ∀ limit p f ts s rest d st, Greets g limit p f s d st →
      (∀ r ∈ s :: rest, r ∈ M.initial) → I ts (s :: rest) (p.going limit f) →
      I (ts ++ [⟨.initial s d, (p.tour limit f : Tour M A o δ).load < st.load⟩]) rest st)
    (stop : ∀ ts rest r, I ts rest (.done r) → I ts [] (.done r))
    {states : List σ} (initial : ∀ s ∈ states, s ∈ M.initial) {ts : List (Turn σ ι τ δ)}
    {t : Tour M A o δ} {m : ν} (h : I ts states (.going t m)) :
    I (ts ++ greetings g states t m) [] (welcome g states t m) := by
  induction states generalizing ts t m with
  | nil =>
    rw [greetings, List.append_nil]
    exact h
  | cons s rest ih =>
    obtain ⟨limit, p, f, rfl, rfl⟩ := exists_progress t m
    have first := greet limit p f ts s rest _ _
      (greets (M := M) (A := A) (o := o) g limit p f s) initial h
    rw [welcome_cons, greetings, List.append_cons]
    generalize welcome g [s] (p.tour limit f : Tour M A o δ) p.memory = st at first ⊢
    cases st with
    | going t m => exact ih (fun r hr => initial r (List.mem_cons_of_mem s hr)) first
    | done r =>
      rw [List.append_nil]
      exact stop _ rest r first

theorem invariant_after
    (turn : ∀ limit p f ts call st, Turns g limit p f call st → I ts [] (p.going limit f) →
      I (ts ++ call.toList.map (⟨·, (p.tour limit f : Tour M A o δ).load < st.load⟩)) [] st)
    (n : Nat) {ts : List (Turn σ ι τ δ)} {st : Status M A o δ ν} (h : I ts [] st) :
    I (ts ++ turns g n st) [] (after g n st) := by
  induction n generalizing ts st with
  | zero =>
    rw [turns, List.append_nil]
    exact h
  | succ n ih =>
    cases st with
    | going t m =>
      obtain ⟨limit, p, f, rfl, rfl⟩ := exists_progress t m
      have first := turn limit p f ts _ _ (turns_step (M := M) (A := A) (o := o) g limit p f) h
      rw [turns, ← List.append_assoc]
      exact ih first
    | done r =>
      rw [turns, List.append_nil]
      exact h

/-- What every call keeps holds of every history. `I` speaks of the calls made, the initial states
still to be asked about, and where the tour stands. -/
theorem invariant_history
    (greet : ∀ limit p f ts s rest d st, Greets g limit p f s d st →
      (∀ r ∈ s :: rest, r ∈ M.initial) → I ts (s :: rest) (p.going limit f) →
      I (ts ++ [⟨.initial s d, (p.tour limit f : Tour M A o δ).load < st.load⟩]) rest st)
    (stop : ∀ ts rest r, I ts rest (.done r) → I ts [] (.done r))
    (turn : ∀ limit p f ts call st, Turns g limit p f call st → I ts [] (p.going limit f) →
      I (ts ++ call.toList.map (⟨·, (p.tour limit f : Tour M A o δ).load < st.load⟩)) [] st)
    {limit : Option Nat} {m : ν} (start : I [] M.initial (.going ⟨.empty, limit, true⟩ m))
    (n : Nat) :
    I (history g M A o limit m n) []
      (after g n (welcome g M.initial (⟨.empty, limit, true⟩ : Tour M A o δ) m)) := by
  have greeted := invariant_welcome I greet stop (fun _ hs => hs) start
  rw [List.nil_append] at greeted
  exact invariant_after I turn n greeted

end Invariants

section Logging

variable {g : Guide σ ι τ δ ν} {limit : Option Nat} {p : Progress (ν × Array (Call σ ι τ δ))}
  {f : Frontier (Visit σ ι τ δ)} {st : Status M A o δ (ν × Array (Call σ ι τ δ))}

/-- The calls logged when a status is reached. -/
def Status.calls (st : Status M A o δ (ν × Array (Call σ ι τ δ))) : List (Call σ ι τ δ) :=
  st.stage.calls

theorem Greets.calls {s : σ} {d : Decision δ} (h : Greets g.logged limit p f s d st) :
    st.calls = p.memory.2.toList ++ [.initial s d] := h.gives.logged.2

theorem Turns.calls {call : Option (Call σ ι τ δ)} (h : Turns g.logged limit p f call st) :
    st.calls = p.memory.2.toList ++ call.toList := by
  cases call with
  | none =>
    rw [Option.toList_none, List.append_nil]
    cases h <;> rfl
  | some c => exact h.gives.logged.2

theorem calls_welcome (g : Guide σ ι τ δ ν) (states : List σ) (t : Tour M A o δ)
    (m : ν × Array (Call σ ι τ δ)) :
    (welcome g.logged states t m).calls =
      m.2.toList ++ (greetings g.logged states t m).map Turn.call := by
  induction states generalizing t m with
  | nil => exact (List.append_nil _).symm
  | cons s rest ih =>
    obtain ⟨limit, p, f, rfl, rfl⟩ := exists_progress t m
    have first := (greets (M := M) (A := A) (o := o) g.logged limit p f s).calls
    rw [welcome_cons, greetings, List.map_cons]
    cases hw : welcome g.logged [s] (p.tour limit f : Tour M A o δ) p.memory with
    | going t m =>
      rw [hw] at first
      refine (ih t m).trans ?_
      rw [show m.2.toList = _ from first, List.append_assoc]
      rfl
    | done r =>
      rw [hw] at first
      exact first

theorem calls_after (g : Guide σ ι τ δ ν) (n : Nat)
    (st : Status M A o δ (ν × Array (Call σ ι τ δ))) :
    (after g.logged n st).calls = st.calls ++ (turns g.logged n st).map Turn.call := by
  induction n generalizing st with
  | zero => exact (List.append_nil _).symm
  | succ n ih =>
    cases st with
    | done r => exact (List.append_nil _).symm
    | going t m =>
      obtain ⟨limit, p, f, rfl, rfl⟩ := exists_progress t m
      have first := (turns_step (M := M) (A := A) (o := o) g.logged limit p f).calls
      rw [after, turns, ih, first, List.map_append, List.map_map, List.append_assoc]
      refine congrArg (p.memory.2.toList ++ ·) (congrArg (· ++ _) ?_)
      exact (List.map_id _).symm

/-- The history of a tour is made of the calls that its guide logs. -/
theorem calls_history (g : Guide σ ι τ δ ν) (M : TransitionSystem σ ι τ) (A : List ι) (o : Order)
    (limit : Option Nat) (m : ν) (n : Nat) :
    (stage g.logged M A o limit (m, #[]) n).calls =
      (history g.logged M A o limit (m, #[]) n).map Turn.call := by
  have all := calls_after g n (welcome g.logged M.initial (⟨.empty, limit, true⟩ : Tour M A o δ)
    (m, #[]))
  rw [calls_welcome, List.append_assoc, ← List.map_append] at all
  exact all

end Logging

end Tour

end Exploration
