import Exploration.Proofs.Tour.Limit

/-!
# The episodes of a breadth-first tour

Breadth-first a state taken on waits behind all others, so the state at the head of the frontier is
explored to its end before the next one is begun. The calls of a tour fall into episodes: first the
questions about initial states, then for each state begun its start and, unless it was declined, a
walk through its rows of transitions. Every answer acts on the row at which the walk stands.
-/

namespace Exploration

variable {σ ι τ δ ν : Type}

/-- The letters of `A` with their transitions from `s`. -/
def TransitionSystem.rows (M : TransitionSystem σ ι τ) (A : List ι) (s : σ) : List (ι × List τ) :=
  A.map fun i => (i, M.transitions s i)

/-- The rows a visit has still to go through, the first of which may be begun. -/
def Visit.rows (M : TransitionSystem σ ι τ) (v : Visit σ ι τ δ) : List (ι × List τ) :=
  v.place.current.toList ++ M.rows v.place.rows v.state

/-- The visit has not begun its walk. -/
def Visit.Untouched (A : List ι) (v : Visit σ ι τ δ) : Prop := v = .planned A v.label v.state

/-- What an answer leaves of the row it was given in and of the rows behind it. -/
def Decision.leaves (row : ι × List τ) (rest : List (ι × List τ)) :
    Decision δ → List (ι × List τ)
  | .explore _ => row :: rest
  | .ignore => row :: rest
  | .skipLetter => rest
  | .skipState => []
  | .stop => []

namespace Tour

/-- The calls of a walk through `rows`, about the transitions of the state `s` that is explored
with `data`, and the rows that it leaves. -/
inductive Walk (M : TransitionSystem σ ι τ) (s : σ) (data : δ) (rows : List (ι × List τ)) :
    List (Call σ ι τ δ) → List (ι × List τ) → Prop
  | begin : Walk M s data rows [] rows
  | turn {cs : List (Call σ ι τ δ)} {i : ι} {rest : List (ι × List τ)}
      (walk : Walk M s data rows cs ((i, []) :: rest)) : Walk M s data rows cs rest
  | ask {cs : List (Call σ ι τ δ)} {i : ι} {x : τ} {xs : List τ} {rest : List (ι × List τ)}
      (walk : Walk M s data rows cs ((i, x :: xs) :: rest)) (d : Decision δ) (onward : d ≠ .stop) :
      Walk M s data rows (cs ++ [.transition s data i x (M.successor x) d])
        (d.leaves (i, xs) rest)

/-- Calls that fall into episodes: questions about initial states, and then each state begun with
its whole walk, or with none if it was declined. -/
inductive Episodic (M : TransitionSystem σ ι τ) (A : List ι) : List (Call σ ι τ δ) → Prop
  | opening {cs : List (Call σ ι τ δ)} (initial : ∀ c ∈ cs, c.isInitial = true) : Episodic M A cs
  | declined {cs : List (Call σ ι τ δ)} (before : Episodic M A cs) (s : σ) (data : δ) :
      Episodic M A (cs ++ [.start s data false])
  | walked {cs ws : List (Call σ ι τ δ)} (before : Episodic M A cs) {s : σ} {data : δ}
      (walk : Walk M s data (M.rows A s) ws []) : Episodic M A (cs ++ .start s data true :: ws)

/-- The calls of a tour that may have ended: episodes, of which the last is not whole if the tour
is still under way in it or was stopped there. -/
inductive Toured (M : TransitionSystem σ ι τ) (A : List ι) : List (Call σ ι τ δ) → Bool → Prop
  | between {cs : List (Call σ ι τ δ)} (whole : Episodic M A cs) (ended : Bool) :
      Toured M A cs ended
  | walking {cs ws : List (Call σ ι τ δ)} (before : Episodic M A cs) {s : σ} {data : δ}
      {left : List (ι × List τ)} (walk : Walk M s data (M.rows A s) ws left) :
      Toured M A (cs ++ .start s data true :: ws) false
  | stopped {cs ws : List (Call σ ι τ δ)} (before : Episodic M A cs) {s : σ} {data : δ} {i : ι}
      {x : τ} {xs : List τ} {rest : List (ι × List τ)}
      (walk : Walk M s data (M.rows A s) ws ((i, x :: xs) :: rest)) :
      Toured M A
        (cs ++ .start s data true :: (ws ++ [.transition s data i x (M.successor x) .stop])) true

variable {M : TransitionSystem σ ι τ} {A : List ι}

namespace Walk

variable {s : σ} {data : δ} {rows : List (ι × List τ)} {cs : List (Call σ ι τ δ)}
  {v u : Visit σ ι τ δ} {i : ι} {x : τ}

/-- The walk comes to the transition that a cursor gave before it stood at `c`, or to the end of
its rows if the cursor gave none. -/
def ComesTo (M : TransitionSystem σ ι τ) (s : σ) (data : δ) (rows : List (ι × List τ))
    (cs : List (Call σ ι τ δ)) : Option (ι × τ) × Cursor ι τ → Prop
  | (none, _) => Walk M s data rows cs []
  | (some (i, x), c) =>
    ∃ xs, c.current = some (i, xs) ∧ Walk M s data rows cs ((i, x :: xs) :: M.rows c.rows s)

/-- A walk passes over the rows without transitions that a cursor passes over. -/
theorem comesTo_nextRow {A : List ι} (walk : Walk M s data rows cs (M.rows A s)) :
    ComesTo M s data rows cs (Cursor.nextRow (M.transitions s) A) := by
  induction A with
  | nil => exact walk
  | cons j A ih =>
    rw [TransitionSystem.rows, List.map_cons] at walk
    rw [Cursor.nextRow]
    cases row : M.transitions s j with
    | nil =>
      rw [row] at walk
      exact ih walk.turn
    | cons x xs =>
      rw [row] at walk
      exact ⟨xs, rfl, walk⟩

theorem comesTo_next (walk : Walk M v.state data rows cs (v.rows M)) :
    ComesTo M v.state data rows cs (v.place.next (M.transitions v.state)) := by
  rw [Visit.rows] at walk
  generalize v.place = c at walk ⊢
  obtain ⟨ahead, _ | ⟨j, _ | ⟨x, xs⟩⟩⟩ := c
  · exact comesTo_nextRow walk
  · exact comesTo_nextRow walk.turn
  · exact ⟨xs, rfl, walk⟩

theorem ended (walk : Walk M v.state data rows cs (v.rows M)) (next : v.next M = (none, u)) :
    Walk M v.state data rows cs [] := by
  have given : (v.place.next (M.transitions v.state)).1 = none := congrArg Prod.fst next
  have comes := walk.comesTo_next
  rwa [Cursor.next_eq_none given] at comes

/-- The walk stands at the row from which the visit takes a transition. -/
theorem taken (walk : Walk M v.state data rows cs (v.rows M)) (next : v.next M = (some (i, x), u)) :
    ∃ xs, u.rows M = (i, xs) :: u.skipLetter.rows M ∧
      Walk M v.state data rows cs ((i, x :: xs) :: u.skipLetter.rows M) := by
  have comes := walk.comesTo_next
  cases place : v.place.next (M.transitions v.state) with
  | mk y c =>
    rw [Visit.next, place] at next
    obtain ⟨rfl, rfl⟩ := Prod.mk.inj next
    rw [place] at comes
    obtain ⟨xs, current, walk⟩ := comes
    refine ⟨xs, ?_, walk⟩
    rw [Visit.rows, current]
    rfl

end Walk

/-- Where a breadth-first tour stands that made the calls `cs`: the initial states still to be asked
about, and the visits pending, of which only the first may have begun its walk. -/
inductive Midway (M : TransitionSystem σ ι τ) (A : List ι) :
    List (Call σ ι τ δ) → List σ → List (Visit σ ι τ δ) → Prop
  | between {cs : List (Call σ ι τ δ)} {unasked : List σ} {vs : List (Visit σ ι τ δ)}
      (whole : Episodic M A cs) (asked : unasked = [] ∨ ∀ c ∈ cs, c.isInitial = true)
      (behind : ∀ w ∈ vs, w.Untouched A) : Midway M A cs unasked vs
  | walking {cs ws : List (Call σ ι τ δ)} {v : Visit σ ι τ δ} {vs : List (Visit σ ι τ δ)}
      (before : Episodic M A cs) (begun : v.started = true)
      (walk : Walk M v.state v.label (M.rows A v.state) ws (v.rows M))
      (behind : ∀ w ∈ vs, w.Untouched A) :
      Midway M A (cs ++ .start v.state v.label true :: ws) [] (v :: vs)

namespace Midway

variable {cs : List (Call σ ι τ δ)} {unasked : List σ} {v u : Visit σ ι τ δ}
  {vs : List (Visit σ ι τ δ)} {i : ι} {x : τ}

theorem untouched_snoc (behind : ∀ w ∈ vs, w.Untouched A) (data : δ) (s : σ) :
    ∀ w ∈ vs ++ [Visit.planned A data s], w.Untouched A :=
  List.forall_mem_append.2 ⟨behind, List.forall_mem_singleton.2 rfl⟩

/-- A state taken on waits behind all others. -/
theorem push (k : Midway M A cs unasked vs) (data : δ) (s : σ) :
    Midway M A cs unasked (vs ++ [.planned A data s]) := by
  cases k with
  | between whole asked behind => exact .between whole asked (untouched_snoc behind data s)
  | walking before begun walk behind =>
    exact .walking before begun walk (untouched_snoc behind data s)

/-- While initial states are asked about nothing else was asked. -/
theorem opening {s : σ} (k : Midway M A cs (s :: unasked) vs) (d : Decision δ) :
    (∀ c ∈ cs ++ [.initial s d], c.isInitial = true) ∧ ∀ w ∈ vs, w.Untouched A := by
  cases k with
  | between whole asked behind =>
    have initial := asked.resolve_left (by simp)
    exact ⟨List.forall_mem_append.2 ⟨initial, List.forall_mem_singleton.2 rfl⟩, behind⟩

theorem greet {s : σ} (k : Midway M A cs (s :: unasked) vs) (d : Decision δ) :
    Midway M A (cs ++ [.initial s d]) unasked vs := by
  obtain ⟨initial, behind⟩ := k.opening d
  exact .between (.opening initial) (.inr initial) behind

/-- A visit that has not begun is at the head only between two episodes. -/
theorem episodic (k : Midway M A cs [] (v :: vs)) (fresh : v.started = false) :
    Episodic M A cs ∧ v.Untouched A ∧ ∀ w ∈ vs, w.Untouched A := by
  cases k with
  | between whole asked behind =>
    obtain ⟨first, others⟩ := List.forall_mem_cons.1 behind
    exact ⟨whole, first, others⟩
  | walking before begun walk behind =>
    rw [begun] at fresh
    cases fresh

theorem accept (k : Midway M A cs [] (v :: vs)) (fresh : v.started = false) :
    Midway M A (cs ++ [.start v.state v.label true]) [] (v.start :: vs) := by
  obtain ⟨whole, untouched, behind⟩ := k.episodic fresh
  have rows : v.start.rows M = M.rows A v.state := by
    rw [Visit.rows, Visit.start, untouched]
    rfl
  have walk : Walk M v.state v.label (M.rows A v.state) [] (v.start.rows M) := by
    rw [rows]
    exact .begin
  exact .walking (v := v.start) whole rfl walk behind

theorem decline (k : Midway M A cs [] (v :: vs)) (fresh : v.started = false) :
    Midway M A (cs ++ [.start v.state v.label false]) [] vs := by
  obtain ⟨whole, -, behind⟩ := k.episodic fresh
  exact .between (whole.declined v.state v.label) (.inl rfl) behind

/-- A visit under way has an episode of its own, which its walk has reached. -/
theorem under_way (k : Midway M A cs [] (v :: vs)) (begun : v.started = true) :
    ∃ bs ws, cs = bs ++ .start v.state v.label true :: ws ∧ Episodic M A bs ∧
      Walk M v.state v.label (M.rows A v.state) ws (v.rows M) ∧ ∀ w ∈ vs, w.Untouched A := by
  cases k with
  | between whole asked behind =>
    have untouched : v.Untouched A := behind v List.mem_cons_self
    rw [untouched] at begun
    cases begun
  | @walking bs ws v vs before begun' walk behind => exact ⟨bs, ws, rfl, before, walk, behind⟩

theorem leave (k : Midway M A cs [] (v :: vs)) (begun : v.started = true)
    (next : v.next M = (none, u)) : Midway M A cs [] vs := by
  obtain ⟨bs, ws, rfl, before, walk, behind⟩ := k.under_way begun
  exact .between (before.walked (walk.ended next)) (.inl rfl) behind

/-- Every answer but a stop acts on the visit it was asked for. -/
theorem ask {rest : Frontier (Visit σ ι τ δ)} (k : Midway M A cs [] (v :: rest.toList))
    (begun : v.started = true) (next : v.next M = (some (i, x), u)) (d : Decision δ)
    (onward : d ≠ .stop) :
    Midway M A (cs ++ [.transition v.state v.label i x (M.successor x) d]) []
      (settle u rest d).toList := by
  obtain ⟨bs, ws, rfl, before, walk, behind⟩ := k.under_way begun
  obtain ⟨-, label, state, begun', -⟩ := Visit.next_of_some next
  obtain ⟨xs, rows, walk⟩ := walk.taken next
  have asked := walk.ask d onward
  rw [begun] at begun'
  rw [← label, ← state] at asked ⊢
  rw [List.append_assoc, List.cons_append]
  cases d with
  | explore data =>
    rw [Decision.leaves, ← rows] at asked
    exact .walking before begun' asked behind
  | ignore =>
    rw [Decision.leaves, ← rows] at asked
    exact .walking before begun' asked behind
  | skipLetter => exact .walking (v := u.skipLetter) before begun' asked behind
  | skipState => exact .between (before.walked asked) (.inl rfl) behind
  | stop => exact absurd rfl onward

theorem stop (k : Midway M A cs [] (v :: vs)) (begun : v.started = true)
    (next : v.next M = (some (i, x), u)) :
    Toured M A (cs ++ [.transition v.state v.label i x (M.successor x) .stop]) true := by
  obtain ⟨bs, ws, rfl, before, walk, -⟩ := k.under_way begun
  obtain ⟨xs, -, walk⟩ := walk.taken next
  rw [List.append_assoc, List.cons_append]
  exact .stopped before walk

theorem finish (k : Midway M A cs [] []) : Toured M A cs true := by
  cases k with
  | between whole => exact .between whole true

theorem toured (k : Midway M A cs unasked vs) : Toured M A cs false := by
  cases k with
  | between whole => exact .between whole false
  | walking before begun walk => exact .walking before walk

end Midway

/-- Where the tour stands with the status that it has come to. -/
def Status.Midway (cs : List (Call σ ι τ δ)) (unasked : List σ) :
    Status M A .breadthFirst δ ν → Prop
  | .going t _ => Tour.Midway M A cs unasked t.frontier.toList
  | .done _ => Toured M A cs true

section Calls

variable {g : Guide σ ι τ δ ν} {limit : Option Nat} {p : Progress ν}
  {f : Frontier (Visit σ ι τ δ)} {st : Status M A .breadthFirst δ ν} {cs : List (Call σ ι τ δ)}

theorem Greets.midway {s : σ} {d : Decision δ} {unasked : List σ} (h : Greets g limit p f s d st)
    (k : Midway M A cs (s :: unasked) f.toList) : st.Midway (cs ++ [.initial s d]) unasked := by
  cases h with
  | @honour data m answer free =>
    have pushed := (k.greet (.explore data)).push data s
    rw [← Frontier.toList_pushBack] at pushed
    exact pushed
  | drop answer full => exact k.greet _
  | pass answer data onward => exact k.greet _
  | stop answer => exact .between (.opening (k.opening .stop).1) true

theorem Turns.midway {call : Option (Call σ ι τ δ)} (h : Turns g limit p f call st)
    (k : Midway M A cs [] f.toList) : st.Midway (cs ++ call.toList) [] := by
  have head {v : Visit σ ι τ δ} {rest : Frontier (Visit σ ι τ δ)} (pop : f.pop? = some (v, rest)) :
      Midway M A cs [] (v :: rest.toList) := Frontier.toList_of_pop?_eq_some pop ▸ k
  cases h with
  | finish pop =>
    rw [Frontier.pop?_eq_none_iff.1 pop] at k
    rw [Option.toList_none, List.append_nil]
    exact k.finish
  | leave pop begun next =>
    rw [Option.toList_none, List.append_nil]
    exact (head pop).leave begun next
  | accept pop fresh answer => exact (head pop).accept fresh
  | decline pop fresh answer => exact (head pop).decline fresh
  | @honour v u rest i x data m pop begun next answer free =>
    have pushed := ((head pop).ask begun next (.explore data) (by simp)).push data (M.successor x)
    rw [← Frontier.toList_pushBack] at pushed
    exact pushed
  | drop pop begun next answer full => exact (head pop).ask begun next _ (by simp)
  | pass pop begun next answer data onward => exact (head pop).ask begun next _ onward
  | stop pop begun next answer => exact (head pop).stop begun next

theorem Status.Midway.toured {unasked : List σ} (k : st.Midway cs unasked) :
    Toured M A cs st.stage.isEnded := by
  cases st with
  | going t m => exact Tour.Midway.toured k
  | done r => exact k

end Calls

theorem midway_history (g : Guide σ ι τ δ ν) (M : TransitionSystem σ ι τ) (A : List ι)
    (limit : Option Nat) (m : ν) (n : Nat) :
    (after g n (welcome g M.initial
      (⟨.empty, limit, true⟩ : Tour M A .breadthFirst δ) m)).Midway
        ((history g M A .breadthFirst limit m n).map Turn.call) [] := by
  refine invariant_history (fun ts unasked st => st.Midway (ts.map Turn.call) unasked) ?_ ?_ ?_ ?_ n
  · intro limit p f ts s rest d st h _ k
    rw [List.map_append]
    exact h.midway k
  · exact fun _ _ _ k => k
  · intro limit p f ts call st h k
    have after := h.midway k
    rw [List.map_append, List.map_map]
    cases call <;> exact after
  · exact .between (.opening (by simp)) (.inr (by simp)) (by simp)

/-- The calls of a breadth-first tour fall into episodes, whatever its guide answers. -/
theorem toured_history (g : Guide σ ι τ δ ν) (M : TransitionSystem σ ι τ) (A : List ι)
    (limit : Option Nat) (m : ν) (n : Nat) :
    Toured M A ((history g M A .breadthFirst limit m n).map Turn.call)
      (stage g M A .breadthFirst limit m n).isEnded :=
  (midway_history g M A limit m n).toured

end Tour

end Exploration
