import Exploration.Proofs.Tour.Progress

/-!
# Depth-first tours as recursion

What a depth-first tour does with a stack of half-explored states can be said by recursion: a
state is visited letter by letter and transition by transition, and a successor to be explored is
visited at once, before the next transition. A recursion may be infinite, so the account is cut
off at a depth. A tour and the recursion make the same calls and end with the same outcome,
whatever the guide answers.
-/

namespace Exploration.Tour

variable {σ ι τ δ ν : Type} {M : TransitionSystem σ ι τ} {A : List ι}

/-- How a part of the recursion came out. -/
inductive Flow (ν : Type) where
  | onward (p : Progress ν)
  /-- The rest of the state is left out. -/
  | left (p : Progress ν)
  | stopped (p : Progress ν)
  /-- The recursion would have gone too deep. -/
  | cutOff (p : Progress ν)

namespace Flow

def andThen (fl : Flow ν) (next : Progress ν → Flow ν) : Flow ν :=
  match fl with
  | onward p => next p
  | left p => left p
  | stopped p => stopped p
  | cutOff p => cutOff p

theorem andThen_assoc (fl : Flow ν) (k l : Progress ν → Flow ν) :
    (fl.andThen k).andThen l = fl.andThen fun p => (k p).andThen l := by
  cases fl <;> rfl

/-- The end of a visit. -/
def returned : Flow ν → Flow ν
  | onward p => onward p
  | left p => onward p
  | stopped p => stopped p
  | cutOff p => cutOff p

def stage : Flow ν → Stage ν
  | onward p => .ended p.outcome
  | left p => .ended p.outcome
  | stopped p => .ended p.outcome
  | cutOff p => .underway p.memory

end Flow

section Recursion

variable (g : Guide σ ι τ δ ν) (M : TransitionSystem σ ι τ) (limit : Option Nat)

def alongTransitions (visit : σ → δ → Progress ν → Flow ν) (s : σ) (data : δ) (i : ι) :
    List τ → Progress ν → Flow ν
  | [], p => .onward p
  | x :: xs, p =>
    match g.onTransition p.memory s data i x (M.successor x) with
    | (.explore data', m) =>
      if p.honours limit then
        (visit (M.successor x) data' (p.remember m).honour).andThen
          (alongTransitions visit s data i xs)
      else alongTransitions visit s data i xs (p.remember m).drop
    | (.ignore, m) => alongTransitions visit s data i xs (p.remember m)
    | (.skipLetter, m) => .onward (p.remember m)
    | (.skipState, m) => .left (p.remember m)
    | (.stop, m) => .stopped (p.remember m)

def alongLetters (visit : σ → δ → Progress ν → Flow ν) (s : σ) (data : δ) :
    List ι → Progress ν → Flow ν
  | [], p => .onward p
  | i :: is, p =>
    (alongTransitions g M limit visit s data i (M.transitions s i) p).andThen
      (alongLetters visit s data is)

/-- The visit of a state, at most `depth` deep. -/
def visit (A : List ι) : Nat → σ → δ → Progress ν → Flow ν
  | 0, _, _, p => .cutOff p
  | depth + 1, s, data, p =>
    match g.onStart p.memory s data with
    | (true, m) => (alongLetters g M limit (visit A depth) s data A (p.remember m)).returned
    | (false, m) => .onward (p.remember m)

def visitAll (A : List ι) (depth : Nat) : List (σ × δ) → Progress ν → Flow ν
  | [], p => .onward p
  | (s, data) :: rest, p => (visit g M limit A depth s data p).andThen (visitAll A depth rest)

/-- Asks about all initial states, then visits those kept in their order. -/
def descend (A : List ι) (m : ν) (depth : Nat) : Flow ν :=
  match invite g limit M.initial (.start m) with
  | (some kept, p) => visitAll g M limit A depth kept p
  | (none, p) => .stopped p

end Recursion

/-- The tour gets from `st` to where the flow says and then has the frontier `f`. It takes at
least `d` steps to where the recursion was cut off. -/
def Lands (g : Guide σ ι τ δ ν) (limit : Option Nat) (f : Frontier (Visit σ ι τ δ)) (d : Nat)
    (st : Status M A .depthFirst δ ν) : Flow ν → Prop
  | .onward p => ∃ n, after g n st = p.going limit f
  | .left _ => False
  | .stopped p => ∃ n, after g n st = .done p.outcome
  | .cutOff p => ∃ n t, d ≤ n ∧ after g n st = .going t p.memory

section Landing

variable {g : Guide σ ι τ δ ν} {limit : Option Nat} {f f' : Frontier (Visit σ ι τ δ)} {d : Nat}
  {st st' : Status M A .depthFirst δ ν} {fl : Flow ν}

theorem Lands.of_after {k : Nat} (h : after g k st = st') (l : Lands g limit f d st' fl) :
    Lands g limit f (d + k) st fl := by
  cases fl with
  | onward p =>
    obtain ⟨n, hn⟩ := l
    exact ⟨k + n, by rw [after_add, h, hn]⟩
  | left p => exact l
  | stopped p =>
    obtain ⟨n, hn⟩ := l
    exact ⟨k + n, by rw [after_add, h, hn]⟩
  | cutOff p =>
    obtain ⟨n, t, le, hn⟩ := l
    exact ⟨k + n, t, by omega, by rw [after_add, h, hn]⟩

theorem Lands.mono {d' : Nat} (l : Lands g limit f d' st fl) (le : d ≤ d') :
    Lands g limit f d st fl := by
  cases fl with
  | onward p => exact l
  | left p => exact l
  | stopped p => exact l
  | cutOff p =>
    obtain ⟨n, t, le', hn⟩ := l
    exact ⟨n, t, by omega, hn⟩

/-- One step more. -/
theorem Lands.of_step {t : Tour M A .depthFirst δ} {m : ν} (h : t.step g m = st')
    (l : Lands g limit f d st' fl) : Lands g limit f (d + 1) (.going t m) fl :=
  l.of_after (k := 1) h

theorem Lands.andThen {next : Progress ν → Flow ν} (l : Lands g limit f d st fl)
    (after : ∀ p, Lands g limit f' d (p.going limit f : Status M A .depthFirst δ ν)
      (next p).returned) :
    Lands g limit f' d st (fl.andThen next).returned := by
  cases fl with
  | onward p =>
    obtain ⟨n, hn⟩ := l
    exact ((after p).of_after hn).mono (Nat.le_add_right d n)
  | left p => exact l.elim
  | stopped p => exact l
  | cutOff p => exact l

end Landing

/-- A visit of the state `s` that was started and gives next what the cursor `c` gives. -/
structure Stands (M : TransitionSystem σ ι τ) (s : σ) (data : δ) (c : Cursor ι τ)
    (v : Visit σ ι τ δ) : Prop where
  begun : v.started = true
  state : v.state = s
  label : v.label = data
  next : v.place.next (M.transitions s) = c.next (M.transitions s)

namespace Stands

variable {s : σ} {data : δ} {is : List ι} {i : ι} {v : Visit σ ι τ δ}

theorem next_eq {c c' : Cursor ι τ} {y : Option (ι × τ)} (h : Stands M s data c v)
    (hc : c.next (M.transitions s) = (y, c')) :
    v.next M = (y, { v with place := c', last := y }) := by
  rw [Visit.next, h.state, h.next, hc]

/-- A letter begins with its first transition. -/
theorem of_cons (h : Stands M s data ⟨i :: is, none⟩ v) :
    Stands M s data ⟨is, some (i, M.transitions s i)⟩ v := by
  refine ⟨h.begun, h.state, h.label, h.next.trans ?_⟩
  cases hx : M.transitions s i <;> simp [Cursor.next, Cursor.nextRow, hx]

/-- A letter without transitions left gives way to the next. -/
theorem of_nil (h : Stands M s data ⟨is, some (i, [])⟩ v) : Stands M s data ⟨is, none⟩ v :=
  ⟨h.begun, h.state, h.label, h.next⟩

theorem step {x : τ} {xs : List τ} (h : Stands M s data ⟨is, some (i, x :: xs)⟩ v) :
    ∃ u, v.next M = (some (i, x), u) ∧ Stands M s data ⟨is, some (i, xs)⟩ u ∧
      Stands M s data ⟨is, none⟩ u.skipLetter := by
  refine ⟨{ v with place := ⟨is, some (i, xs)⟩, last := some (i, x) }, h.next_eq rfl, ?_, ?_⟩
  · exact ⟨h.begun, h.state, h.label, rfl⟩
  · exact ⟨h.begun, h.state, h.label, rfl⟩

end Stands

section Walking

variable {g : Guide σ ι τ δ ν} {limit : Option Nat} {f : Frontier (Visit σ ι τ δ)} {d : Nat}
  {visit : σ → δ → Progress ν → Flow ν} {s : σ} {data : δ} {i : ι} {is : List ι}

/-- Wherever a visit stands at the head of the frontier `f`, the tour lands where the walk of
the recursion leads. -/
def WalkLands (M : TransitionSystem σ ι τ) (A : List ι) (g : Guide σ ι τ δ ν) (limit : Option Nat)
    (f : Frontier (Visit σ ι τ δ)) (d : Nat) (s : σ) (data : δ) (c : Cursor ι τ)
    (walk : Progress ν → Flow ν) : Prop :=
  ∀ v f₀ p, f₀.pop? = some (v, f) → Stands M s data c v →
    Lands g limit f d (p.going limit f₀ : Status M A .depthFirst δ ν) (walk p).returned

/-- The visits of successors land, from whatever frontier they are planned on. -/
def VisitLands (M : TransitionSystem σ ι τ) (A : List ι) (g : Guide σ ι τ δ ν)
    (limit : Option Nat) (d : Nat) (visit : σ → δ → Progress ν → Flow ν) : Prop :=
  ∀ s data p f₀ f, f₀.pop? = some (.planned A data s, f) →
    Lands g limit f d (p.going limit f₀ : Status M A .depthFirst δ ν) (visit s data p)

theorem walkLands_transitions (sub : VisitLands M A g limit d visit)
    (letters : WalkLands M A g limit f d s data ⟨is, none⟩ (alongLetters g M limit visit s data is))
    (xs : List τ) : WalkLands M A g limit f d s data ⟨is, some (i, xs)⟩ fun p =>
      (alongTransitions g M limit visit s data i xs p).andThen
        (alongLetters g M limit visit s data is) := by
  -- What is left of the letter is walked here, `letters` has the rest.
  induction xs with
  | nil =>
    intro v f₀ p pop stands
    exact letters v f₀ p pop stands.of_nil
  | cons x xs ih =>
    intro v f₀ p pop stands
    obtain ⟨u, next, on, skip⟩ := stands.step
    refine (Lands.of_step (Progress.step_of_transition pop stands.begun next) ?_).mono
      (Nat.le_succ d)
    dsimp only
    rw [stands.state, stands.label, alongTransitions]
    rcases g.onTransition p.memory s data i x (M.successor x) with ⟨decision, m⟩
    cases decision with
    | explore data' =>
      by_cases h : p.honours limit = true
      · simp only [if_pos h]
        rw [Flow.andThen_assoc]
        have visited := sub (M.successor x) data' (p.remember m).honour
          ((f.pushFront u).pushFront (.planned A data' (M.successor x))) (f.pushFront u) rfl
        exact visited.andThen fun q => ih u _ q rfl on
      · simp only [if_neg h]
        exact ih u _ _ rfl on
    | ignore => exact ih u _ _ rfl on
    | skipLetter => exact letters _ _ _ rfl skip
    | skipState => exact ⟨0, rfl⟩
    | stop => exact ⟨0, rfl⟩

theorem walkLands_letters (sub : VisitLands M A g limit d visit) (is : List ι) :
    WalkLands M A g limit f d s data ⟨is, none⟩ (alongLetters g M limit visit s data is) := by
  induction is with
  | nil =>
    intro v f₀ p pop stands
    exact ⟨1, Progress.step_of_end pop stands.begun (stands.next_eq rfl)⟩
  | cons i is ih =>
    intro v f₀ p pop stands
    exact walkLands_transitions sub ih (M.transitions s i) v f₀ p pop stands.of_cons

/-- A visit is the recursion: when it is over, the frontier is what was behind it. -/
theorem visitLands (g : Guide σ ι τ δ ν) (M : TransitionSystem σ ι τ) (A : List ι)
    (limit : Option Nat) (d : Nat) : VisitLands M A g limit d (Tour.visit g M limit A d) := by
  -- For all frontiers at once: a successor is visited on top of the visit it was found in.
  induction d with
  | zero =>
    intro s data p f₀ f pop
    exact ⟨0, _, Nat.le_refl 0, rfl⟩
  | succ d ih =>
    intro s data p f₀ f pop
    refine Lands.of_step (Progress.step_of_planned pop rfl) ?_
    rw [Tour.visit]
    change Lands g limit f d (match g.onStart p.memory s data with
      | (true, m) => _
      | (false, m) => _) _
    rcases g.onStart p.memory s data with ⟨accepted, m⟩
    cases accepted with
    | false => exact ⟨0, rfl⟩
    | true =>
      have stands : Stands M s data ⟨A, none⟩ (Visit.planned A data s).start :=
        ⟨rfl, rfl, rfl, rfl⟩
      exact walkLands_letters ih A _ _ _ rfl stands

end Walking

/-- Followed from `st`, the tour comes to the stage of the flow. -/
def Concludes (g : Guide σ ι τ δ ν) (d : Nat) (st : Status M A .depthFirst δ ν) (fl : Flow ν) :
    Prop :=
  ∃ n, (after g n st).stage = fl.stage ∧ ((∀ r, fl.stage ≠ .ended r) → d ≤ n)

theorem Lands.concludes {g : Guide σ ι τ δ ν} {limit : Option Nat}
    {f : Frontier (Visit σ ι τ δ)} {d : Nat} {st : Status M A .depthFirst δ ν} {fl : Flow ν}
    {next : Progress ν → Flow ν} (l : Lands g limit f d st fl)
    (after : ∀ q, Concludes g d (q.going limit f : Status M A .depthFirst δ ν) (next q)) :
    Concludes g d st (fl.andThen next) := by
  cases fl with
  | onward q =>
    obtain ⟨n, hn⟩ := l
    obtain ⟨n', same, pace⟩ := after q
    refine ⟨n + n', ?_, ?_⟩
    · rw [after_add, hn, same]
      rfl
    · intro h
      have le := pace h
      omega
  | left q => exact l.elim
  | stopped q =>
    obtain ⟨n, hn⟩ := l
    refine ⟨n, by rw [hn]; rfl, ?_⟩
    intro h
    exact absurd rfl (h q.outcome)
  | cutOff q =>
    obtain ⟨n, t, le, hn⟩ := l
    exact ⟨n, by rw [hn]; rfl, fun _ => le⟩

theorem concludes_visitAll (g : Guide σ ι τ δ ν) (M : TransitionSystem σ ι τ) (A : List ι)
    (limit : Option Nat) (d : Nat) (kept : List (σ × δ)) (p : Progress ν)
    {f : Frontier (Visit σ ι τ δ)}
    (pop : f.pop? = (⟨kept.map fun k => .planned A k.2 k.1, []⟩ : Frontier _).pop?) :
    Concludes g d (p.going limit f : Status M A .depthFirst δ ν)
      (visitAll g M limit A d kept p) := by
  induction kept generalizing p f with
  | nil =>
    have ended : (p.tour limit f : Tour M A .depthFirst δ).step g p.memory = .done p.outcome :=
      Progress.step_of_none pop
    exact ⟨1, congrArg Status.stage ended, fun h => absurd rfl (h p.outcome)⟩
  | cons k rest ih =>
    exact (visitLands g M A limit d k.1 k.2 p f _ pop).concludes fun q => ih q rfl

theorem concludes_descend (g : Guide σ ι τ δ ν) (M : TransitionSystem σ ι τ) (A : List ι)
    (limit : Option Nat) (m : ν) (d : Nat) :
    Concludes g d (welcome g M.initial (⟨.empty, limit, true⟩ : Tour M A .depthFirst δ) m)
      (descend g M limit A m d) := by
  rw [welcome_start, descend]
  rcases invite g limit M.initial (.start m) with ⟨_ | kept, p⟩
  · exact ⟨0, rfl, fun h => absurd rfl (h p.outcome)⟩
  · exact concludes_visitAll g M A limit d kept p (pop?_enqueue_empty kept)

/-- A depth-first tour makes the calls of the recursion and ends as it does, for every guide. -/
theorem depthFirst_explore_iff_descend (g : Guide σ ι τ δ ν) (M : TransitionSystem σ ι τ)
    (A : List ι) (limit : Option Nat) (m : ν) :
    (∀ r, (∃ n, explore g.logged M A .depthFirst limit (m, #[]) n = some r) ↔
      ∃ depth, (descend g.logged M limit A (m, #[]) depth).stage = .ended r) ∧
    ∀ calls, (∃ n, calls <+: (stage g.logged M A .depthFirst limit (m, #[]) n).calls) ↔
      ∃ depth, calls <+: (descend g.logged M limit A (m, #[]) depth).stage.calls := by
  apply explore_of_alike
  apply Stage.alike_of_keeps_up (grows_stage g M A .depthFirst limit (m, #[]))
  intro d
  obtain ⟨n, same, pace⟩ := concludes_descend g.logged M A limit (m, #[]) d
  refine ⟨n, same, ?_⟩
  intro h
  have le := pace h
  omega

end Exploration.Tour
