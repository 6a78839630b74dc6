import Exploration.Proofs.Tour.History

/-!
# Tours that mirror each other

A guide may be asked with data that say more than those of another, and remember more, and still
answer alike. Then the two tours make the same calls, one with the data and memory of the other
read through two maps: `Guide.Mirrors` says this of single answers, and `history_map` of tours. A
guide that logs its calls mirrors itself, and so does one whose data carry additional marks.
-/

namespace Exploration

variable {σ ι τ δ ε ν μ : Type}

def Decision.map (f : δ → ε) : Decision δ → Decision ε
  | .explore data => .explore (f data)
  | .ignore => .ignore
  | .skipLetter => .skipLetter
  | .skipState => .skipState
  | .stop => .stop

theorem Decision.map_id (d : Decision δ) : d.map id = d := by
  cases d <;> rfl

def Call.map (f : δ → ε) : Call σ ι τ δ → Call σ ι τ ε
  | .initial s d => .initial s (d.map f)
  | .start s data accepted => .start s (f data) accepted
  | .transition s data i x t d => .transition s (f data) i x t (d.map f)

def Visit.map (f : δ → ε) (v : Visit σ ι τ δ) : Visit σ ι τ ε :=
  ⟨f v.label, v.state, v.place, v.started, v.last⟩

theorem Visit.next_map (f : δ → ε) (M : TransitionSystem σ ι τ) (v : Visit σ ι τ δ) :
    (v.map f).next M = ((v.next M).1, (v.next M).2.map f) := rfl

namespace Frontier

def map (f : δ → ε) (q : Frontier δ) : Frontier ε := ⟨q.ready.map f, q.waiting.map f⟩

theorem map_id (q : Frontier δ) : q.map id = q := by
  rw [map, List.map_id, List.map_id]

theorem toList_map (f : δ → ε) (q : Frontier δ) : (q.map f).toList = q.toList.map f := by
  rw [map, toList, toList, List.map_append, List.map_reverse]

theorem map_pushBack (f : δ → ε) (e : δ) (q : Frontier δ) :
    (q.pushBack e).map f = (q.map f).pushBack (f e) := rfl

theorem map_push (f : δ → ε) (o : Order) (e : δ) (q : Frontier δ) :
    (q.push o e).map f = (q.map f).push o (f e) := by
  cases o <;> rfl

theorem pop?_map (f : δ → ε) (q : Frontier δ) :
    (q.map f).pop? = q.pop?.map fun a => (f a.1, a.2.map f) := by
  obtain ⟨_ | ⟨e, rest⟩, waiting⟩ := q
  · rw [map, pop?, pop?, List.map_nil, ← List.map_reverse]
    cases waiting.reverse <;> rfl
  · rfl

end Frontier

/-- The guide `g'` answers as `g` does if data are read through `f` and memories through `r`. -/
structure Guide.Mirrors (g : Guide σ ι τ δ ν) (g' : Guide σ ι τ ε μ) (f : δ → ε) (r : ν → μ) :
    Prop where
  initial (m : ν) (s : σ) :
    g'.onInitial (r m) s = ((g.onInitial m s).1.map f, r (g.onInitial m s).2)
  start (m : ν) (s : σ) (data : δ) :
    g'.onStart (r m) s (f data) = ((g.onStart m s data).1, r (g.onStart m s data).2)
  transition (m : ν) (s : σ) (data : δ) (i : ι) (x : τ) (t : σ) :
    g'.onTransition (r m) s (f data) i x t =
      ((g.onTransition m s data i x t).1.map f, r (g.onTransition m s data i x t).2)

/-- Logs mirror each other as their guides do. -/
theorem Guide.Mirrors.logged {g : Guide σ ι τ δ ν} {g' : Guide σ ι τ ε μ} {f : δ → ε} {r : ν → μ}
    (k : g.Mirrors g' f r) :
    g.logged.Mirrors g'.logged f fun m => (r m.1, m.2.map (Call.map f)) where
  initial m s := by
    simp only [Guide.logged, k.initial, Array.map_push, Call.map]
  start m s data := by
    simp only [Guide.logged, k.start, Array.map_push, Call.map]
  transition m s data i x t := by
    simp only [Guide.logged, k.transition, Array.map_push, Call.map]

/-- A guide that logs its calls answers as before. -/
theorem Guide.logged_mirrors (g : Guide σ ι τ δ ν) : g.logged.Mirrors g id Prod.fst where
  initial m s := by
    rw [Decision.map_id]
    rfl
  start m s data := rfl
  transition m s data i x t := by
    rw [Decision.map_id]
    rfl

namespace Tour

variable {M : TransitionSystem σ ι τ} {A : List ι} {o : Order}

def map (f : δ → ε) (t : Tour M A o δ) : Tour M A o ε :=
  ⟨t.frontier.map (Visit.map f), t.budget, t.complete⟩

theorem map_id (t : Tour M A o δ) : t.map id = t :=
  congrArg (fun f => (⟨f, t.budget, t.complete⟩ : Tour M A o δ)) (Frontier.map_id t.frontier)

def Outcome.map (r : ν → μ) (x : Outcome ν) : Outcome μ := ⟨x.complete, r x.memory⟩

def Status.map (f : δ → ε) (r : ν → μ) : Status M A o δ ν → Status M A o ε μ
  | .going t m => .going (t.map f) (r m)
  | .done x => .done (x.map r)

def Turn.map (f : δ → ε) (t : Turn σ ι τ δ) : Turn σ ι τ ε := ⟨t.call.map f, t.taken⟩

theorem load_map (f : δ → ε) (t : Tour M A o δ) : (t.map f).load = t.load := by
  rw [load, load, map, Frontier.toList_map, List.length_map]

theorem Status.load_map (f : δ → ε) (r : ν → μ) (st : Status M A o δ ν) :
    (st.map f r).load = st.load := by
  cases st with
  | going t m => exact Tour.load_map f t
  | done x => rfl

section Mirrors

variable {g : Guide σ ι τ δ ν} {g' : Guide σ ι τ ε μ} {f : δ → ε} {r : ν → μ}

theorem enroll_map {put : Visit σ ι τ δ → Frontier (Visit σ ι τ δ) → Frontier (Visit σ ι τ δ)}
    {put' : Visit σ ι τ ε → Frontier (Visit σ ι τ ε) → Frontier (Visit σ ι τ ε)}
    (same : ∀ v q, (put v q).map (Visit.map f) = put' (v.map f) (q.map (Visit.map f)))
    (t : Tour M A o δ) (s : σ) (data : δ) :
    (t.enroll put s data).map f = (t.map f).enroll put' s (f data) := by
  have budget : (t.map f).budget = t.budget := rfl
  rw [enroll, enroll, budget]
  by_cases spent : t.budget = some 0
  · rw [if_pos spent, if_pos spent]
    rfl
  · rw [if_neg spent, if_neg spent, map, same]
    rfl

theorem welcome_map (k : g.Mirrors g' f r) (states : List σ) (t : Tour M A o δ) (m : ν) :
    (welcome g states t m).map f r = welcome g' states (t.map f) (r m) := by
  induction states generalizing t m with
  | nil => rfl
  | cons s rest ih =>
    rw [welcome, welcome, k.initial]
    rcases g.onInitial m s with ⟨d, m'⟩
    cases d with
    | explore data =>
      have enrolled := enroll_map (Frontier.map_pushBack (Visit.map f)) t s data
      refine (ih _ _).trans ?_
      rw [enrolled]
      rfl
    | ignore => exact ih t m'
    | skipLetter => exact ih t m'
    | skipState => exact ih t m'
    | stop => rfl

theorem follow_map (t : Tour M A o δ) (v : Visit σ ι τ δ) (rest : Frontier (Visit σ ι τ δ)) (s : σ)
    (m : ν) (d : Decision δ) : (t.follow v rest s m d).map f r =
      (t.map f).follow (v.map f) (rest.map (Visit.map f)) s (r m) (d.map f) := by
  cases d with
  | explore data =>
    exact congrArg (Status.going · (r m))
      (enroll_map (Frontier.map_push (Visit.map f) o) (t.withFrontier (rest.pushFront v)) s data)
  | ignore => rfl
  | skipLetter => rfl
  | skipState => rfl
  | stop => rfl

theorem step_map (k : g.Mirrors g' f r) (t : Tour M A o δ) (m : ν) :
    (t.step g m).map f r = (t.map f).step g' (r m) := by
  have frontier : (t.map f).frontier = t.frontier.map (Visit.map f) := rfl
  rw [step, step, frontier, Frontier.pop?_map]
  cases t.frontier.pop? with
  | none => rfl
  | some a =>
    obtain ⟨v, rest⟩ := a
    have begun : (v.map f).started = v.started := rfl
    simp only [Option.map_some, begun]
    cases v.started with
    | false =>
      have answer := k.start m v.state v.label
      simp only [Bool.false_eq_true, if_false]
      rw [show g'.onStart (r m) (v.map f).state (v.map f).label = _ from answer]
      rcases g.onStart m v.state v.label with ⟨accepted, m'⟩
      cases accepted <;> rfl
    | true =>
      simp only [if_true, Visit.next_map]
      rcases v.next M with ⟨_ | ⟨i, x⟩, u⟩
      · rfl
      · have answer := k.transition m v.state v.label i x (M.successor x)
        exact (follow_map _ _ _ _ _ _).trans (congrArg (fun a => (t.map f).follow (u.map f)
          (rest.map (Visit.map f)) (M.successor x) a.2 a.1) answer.symm)

theorem asked_map (k : g.Mirrors g' f r) (t : Tour M A o δ) (m : ν) :
    (asked g t m).map (Call.map f) = asked g' (t.map f) (r m) := by
  have frontier : (t.map f).frontier = t.frontier.map (Visit.map f) := rfl
  rw [asked, asked, frontier, Frontier.pop?_map]
  cases t.frontier.pop? with
  | none => rfl
  | some a =>
    obtain ⟨v, rest⟩ := a
    have begun : (v.map f).started = v.started := rfl
    simp only [Option.map_some, begun]
    cases v.started with
    | false =>
      have answer := k.start m v.state v.label
      simp only [Bool.false_eq_true, if_false]
      rw [show g'.onStart (r m) (v.map f).state (v.map f).label = _ from answer]
      rfl
    | true =>
      simp only [if_true, Visit.next_map]
      rcases v.next M with ⟨_ | ⟨i, x⟩, u⟩
      · rfl
      · have answer := k.transition m v.state v.label i x (M.successor x)
        simp only [Option.map_some]
        rw [show g'.onTransition (r m) (v.map f).state (v.map f).label i x (M.successor x) = _
          from answer]
        rfl

theorem greetings_map (k : g.Mirrors g' f r) (states : List σ) (t : Tour M A o δ) (m : ν) :
    (greetings g states t m).map (Turn.map f) = greetings g' states (t.map f) (r m) := by
  induction states generalizing t m with
  | nil => rfl
  | cons s rest ih =>
    rw [greetings, greetings, ← welcome_map k, Status.load_map, load_map, List.map_cons, k.initial]
    refine congrArg (_ :: ·) ?_
    cases welcome g [s] t m with
    | going t m => exact ih t m
    | done x => rfl

theorem turns_map (k : g.Mirrors g' f r) (n : Nat) (st : Status M A o δ ν) :
    (turns g n st).map (Turn.map f) = turns g' n (st.map f r) := by
  induction n generalizing st with
  | zero => rfl
  | succ n ih =>
    cases st with
    | going t m =>
      rw [turns, Status.map, turns, ← step_map k, ← asked_map k, Status.load_map, load_map,
        List.map_append, ih]
      cases asked g t m <;> rfl
    | done x => rfl

theorem after_map (k : g.Mirrors g' f r) (n : Nat) (st : Status M A o δ ν) :
    (after g n st).map f r = after g' n (st.map f r) := by
  induction n generalizing st with
  | zero => rfl
  | succ n ih =>
    cases st with
    | going t m =>
      rw [after, ih, step_map k]
      rfl
    | done x => rfl

/-- Tours whose guides mirror each other end together. -/
theorem isEnded_stage_map (k : g.Mirrors g' f r) (M : TransitionSystem σ ι τ) (A : List ι)
    (o : Order) (limit : Option Nat) (m : ν) (n : Nat) :
    (stage g M A o limit m n).isEnded = (stage g' M A o limit (r m) n).isEnded := by
  have ends (st : Status M A o δ ν) : (st.map f r).stage.isEnded = st.stage.isEnded := by
    cases st <;> rfl
  rw [stage, stage, ← ends, after_map k, welcome_map k]
  rfl

/-- Tours whose guides mirror each other make the same calls, and the same of them take on
states. -/
theorem history_map (k : g.Mirrors g' f r) (M : TransitionSystem σ ι τ) (A : List ι) (o : Order)
    (limit : Option Nat) (m : ν) (n : Nat) :
    (history g M A o limit m n).map (Turn.map f) = history g' M A o limit (r m) n := by
  rw [history, history, List.map_append, greetings_map k, turns_map k, welcome_map k]
  rfl

end Mirrors

end Tour

end Exploration
