import Mathlib.Data.List.Induction
import Exploration.Proofs.Search.Run
import Exploration.Proofs.System.Route

/-!
# What records inherit

A record is created by an initial state or by a tree edge. `inherited` hands values down this
forest: `root p` to a record created by an initial state when `p` of them were reported before,
and `child a c i` to one created along the letter `i` by an edge of a record with the value `a`
when `c` edges of that record were seen before. Depths, words and routes are such values. In a
run the route of a record is one of the system to the state of the record, labelled by its word.
-/

namespace Exploration.Search

variable {σ ι τ α β : Type}

/-- The values after one more event. -/
def bequeath (root : Nat → α) (child : α → Nat → ι → α) (before : List (Event ι τ))
    (values : List α) : Event ι τ → List α
  | .initial r =>
    if r < values.length then values
    else values ++ [root (rootCount before)]
  | .edge .tree u i _ _ =>
    values ++ (values[u]?.map fun a => child a (edgesFrom u before).length i).toList
  | _ => values

/-- The values handed down by events given latest first. -/
def inheritedBack (root : Nat → α) (child : α → Nat → ι → α) : List (Event ι τ) → List α
  | [] => []
  | e :: before => bequeath root child before.reverse (inheritedBack root child before) e

/-- The values of the records, in the order of their creation. -/
def inherited (root : Nat → α) (child : α → Nat → ι → α) (evs : List (Event ι τ)) : List α :=
  inheritedBack root child evs.reverse

section Steps

variable {root : Nat → α} {child : α → Nat → ι → α} {evs : List (Event ι τ)}

theorem inherited_snoc (evs : List (Event ι τ)) (e : Event ι τ) :
    inherited root child (evs ++ [e]) = bequeath root child evs (inherited root child evs) e := by
  simp [inherited, inheritedBack]

theorem inherited_known {r : RecordIndex} (h : r < (inherited root child evs).length) :
    inherited root child (evs ++ [.initial r]) = inherited root child evs := by
  simp [inherited_snoc, bequeath, h]

theorem inherited_root {r : RecordIndex} (h : (inherited root child evs).length = r) :
    inherited root child (evs ++ [.initial r]) =
      inherited root child evs ++ [root (rootCount evs)] := by
  simp [inherited_snoc, bequeath, h]

@[simp] theorem inherited_start (r : RecordIndex) :
    inherited root child (evs ++ [.start r]) = inherited root child evs := by
  simp [inherited_snoc, bequeath]

@[simp] theorem inherited_finish (r : RecordIndex) (b : Option (Backtrack ι τ)) :
    inherited root child (evs ++ [.finish r b]) = inherited root child evs := by
  simp [inherited_snoc, bequeath]

theorem inherited_edge {k : EdgeKind} (hk : k ≠ .tree) (u v : RecordIndex) (i : ι) (x : τ) :
    inherited root child (evs ++ [.edge k u i x v]) = inherited root child evs := by
  cases k <;> simp_all [inherited_snoc, bequeath]

theorem inherited_tree {u : RecordIndex} {a : α} (h : (inherited root child evs)[u]? = some a)
    (i : ι) (x : τ) (v : RecordIndex) :
    inherited root child (evs ++ [.edge .tree u i x v]) =
      inherited root child evs ++ [child a (edgesFrom u evs).length i] := by
  simp [inherited_snoc, bequeath, h]

/-- A record keeps its value. -/
theorem inherited_append (evs more : List (Event ι τ)) :
    ∃ values, inherited root child (evs ++ more) = inherited root child evs ++ values := by
  induction more using List.reverseRecOn with
  | nil => exact ⟨[], by simp⟩
  | append_singleton more e ih =>
    obtain ⟨values, ih⟩ := ih
    rw [← List.append_assoc, inherited_snoc, ih]
    cases e with
    | initial r =>
      rw [bequeath]
      split
      · exact ⟨values, rfl⟩
      · exact ⟨values ++ _, List.append_assoc _ _ _⟩
    | start r => exact ⟨values, rfl⟩
    | edge k u i x v =>
      cases k with
      | tree => exact ⟨values ++ _, List.append_assoc _ _ _⟩
      | back => exact ⟨values, rfl⟩
      | forward => exact ⟨values, rfl⟩
      | cross => exact ⟨values, rfl⟩
    | finish r b => exact ⟨values, rfl⟩

/-- What is computed from inherited values is inherited. -/
theorem map_inherited {root' : Nat → β} {child' : β → Nat → ι → β} (f : α → β)
    (hroot : ∀ p, f (root p) = root' p) (hchild : ∀ a c i, f (child a c i) = child' (f a) c i)
    (evs : List (Event ι τ)) :
    (inherited root child evs).map f = inherited root' child' evs := by
  induction evs using List.reverseRecOn with
  | nil => rfl
  | append_singleton evs e ih =>
    rw [inherited_snoc, inherited_snoc, ← ih]
    cases e with
    | initial r =>
      simp only [bequeath, List.length_map]
      split
      · rfl
      · simp [hroot]
    | start r => rfl
    | edge k u i x v =>
      cases k with
      | tree => cases hu : (inherited root child evs)[u]? <;> simp [bequeath, hu, hchild]
      | back => rfl
      | forward => rfl
      | cross => rfl
    | finish r b => rfl

/-- Every record inherits a value. -/
theorem length_inherited_of_advances {M : TransitionSystem σ ι τ} {A : List ι} {o : Order}
    {w w' : View σ ι τ} {e : Event ι τ} (adv : w.Advances M A o e w')
    (bounded : ∀ v ∈ w.pending, v.label < w.states.length)
    (length : (inherited root child evs).length = w.states.length) :
    (inherited root child (evs ++ [e])).length = w'.states.length := by
  cases adv with
  | known idle unread met =>
    rw [inherited_known]
    · exact length
    · rw [length]
      exact (List.getElem?_eq_some_iff.1 met).1
  | root idle unread new =>
    rw [inherited_root length, View.length_enter, List.length_append, length]
    rfl
  | start ready head fresh =>
    rw [inherited_start]
    exact length
  | @tree v v' rest i x ready head begun step new =>
    have lt : v.label < (inherited root child evs).length := by
      rw [length]
      exact bounded v (head ▸ List.mem_cons_self)
    rw [inherited_tree (List.getElem?_eq_getElem lt), View.length_enter, List.length_append,
      length]
    rfl
  | edge ready head begun step met =>
    rw [inherited_edge (View.kindOf_ne_tree _ _ _ _), View.states_note]
    exact length
  | finish ready head begun step =>
    rw [inherited_finish]
    exact length

end Steps

/-- How many tree edges lead to a record. -/
def depths : List (Event ι τ) → List Nat := inherited (fun _ => 0) fun d _ _ => d + 1

/-- The letters along the tree edges to a record. -/
def words : List (Event ι τ) → List (List ι) := inherited (fun _ => []) fun w _ i => w ++ [i]

/-- The choices that lead to a record. -/
def routes : List (Event ι τ) → List (List Nat) :=
  inherited (fun p => [p]) fun cs c _ => cs ++ [c]

def depth (evs : List (Event ι τ)) (r : RecordIndex) : Nat := (depths evs)[r]?.getD 0

def route (evs : List (Event ι τ)) (r : RecordIndex) : List Nat := (routes evs)[r]?.getD []

theorem map_length_routes (evs : List (Event ι τ)) :
    (routes evs).map List.length = (depths evs).map (· + 1) := by
  calc (routes evs).map List.length
      = inherited (fun _ => 1) (fun d _ _ => d + 1) evs :=
        map_inherited List.length (fun _ => rfl) (fun _ _ _ => by simp) evs
    _ = (depths evs).map (· + 1) :=
        (map_inherited (· + 1) (fun _ => rfl) (fun _ _ _ => rfl) evs).symm

theorem length_depths (evs : List (Event ι τ)) : (depths evs).length = (routes evs).length := by
  simpa using (congrArg List.length (map_length_routes evs)).symm

theorem routes_getElem? {evs : List (Event ι τ)} {r : RecordIndex}
    (h : r < (routes evs).length) : (routes evs)[r]? = some (route evs r) := by
  simp [route, h]

theorem route_mem {evs : List (Event ι τ)} {r : RecordIndex} (h : r < (routes evs).length) :
    route evs r ∈ routes evs :=
  List.mem_of_getElem? (routes_getElem? h)

/-- A route makes one choice more than there are tree edges. -/
theorem length_route {evs : List (Event ι τ)} {r : RecordIndex} (h : r < (routes evs).length) :
    (route evs r).length = depth evs r + 1 := by
  have hd : r < (depths evs).length := by
    rw [length_depths]
    exact h
  have same := congrArg (·[r]?) (map_length_routes evs)
  simpa [route, depth, h, hd] using same

/-- A record keeps its route. -/
theorem route_of_routes_append {evs evs' : List (Event ι τ)} {more : List (List Nat)}
    (h : routes evs' = routes evs ++ more) {r : RecordIndex} (hr : r < (routes evs).length) :
    route evs' r = route evs r := by
  rw [route, h, List.getElem?_append_left hr, route]

theorem routes_append {evs : List (Event ι τ)} {r : RecordIndex} {cs : List Nat}
    (h : (routes evs)[r]? = some cs) (more : List (Event ι τ)) :
    (routes (evs ++ more))[r]? = some cs := by
  obtain ⟨values, grown⟩ : ∃ values, routes (evs ++ more) = routes evs ++ values :=
    inherited_append evs more
  rw [grown, List.getElem?_append_left (List.getElem?_eq_some_iff.1 h).1, h]

namespace View.Runs

variable {M : TransitionSystem σ ι τ} {A : List ι} {o : Order} {evs : List (Event ι τ)}
  {w : View σ ι τ}

theorem length_inherited (run : Runs M A o evs w) (root : Nat → α) (child : α → Nat → ι → α) :
    (inherited root child evs).length = w.states.length := by
  induction run with
  | begin => rfl
  | event before last ih =>
    exact length_inherited_of_advances last (fun v hv => before.recounts.bounded hv) ih

/-- The route of a record leads through the system to its state, along its word. -/
theorem genuine (run : Runs M A o evs w) {r : RecordIndex} {t : σ} (hr : w.states[r]? = some t) :
    ∃ cs word, (routes evs)[r]? = some cs ∧ (words evs)[r]? = some word ∧
      M.Route A cs word t := by
  induction run generalizing r t with
  | begin => cases hr
  | @event evs w w' e before last ih =>
    have k := before.recounts
    have lr : (routes evs).length = w.states.length := before.length_inherited _ _
    have lw : (words evs).length = w.states.length := before.length_inherited _ _
    -- A new record is the last in each of the three lists.
    have enter {s : σ} {cs : List Nat} {word : List ι} (new : M.Route A cs word s)
        (hr : (w.states ++ [s])[r]? = some t) :
        ∃ cs' word', (routes evs ++ [cs])[r]? = some cs' ∧
          (words evs ++ [word])[r]? = some word' ∧ M.Route A cs' word' t := by
      rw [View.getElem?_snoc] at hr
      rw [View.getElem?_snoc, View.getElem?_snoc, lr, lw]
      by_cases last : r = w.states.length
      · rw [if_pos last] at hr
        obtain rfl := Option.some.inj hr
        exact ⟨cs, word, if_pos last, if_pos last, new⟩
      · rw [if_neg last] at hr ⊢
        rw [if_neg last]
        exact ih hr
    cases last with
    | known idle unread met =>
      have lt := (List.getElem?_eq_some_iff.1 met).1
      rw [routes, words, inherited_known (lt.trans_eq lr.symm),
        inherited_known (lt.trans_eq lw.symm)]
      exact ih hr
    | @root s rest idle unread new =>
      rw [routes, words, inherited_root lr, inherited_root lw]
      exact enter (.root (k.initial_of_unread unread)) hr
    | start ready head fresh =>
      rw [routes, words, inherited_start, inherited_start]
      exact ih hr
    | @tree v v' rest i x ready head begun step new =>
      have hv : v ∈ w.pending := head ▸ List.mem_cons_self
      obtain ⟨cs, word, hcs, hword, source⟩ := ih (k.met v hv)
      rw [routes, words, inherited_tree hcs, inherited_tree hword]
      exact enter (source.step (k.outgoing_of_step hv step)) hr
    | edge ready head begun step met =>
      rw [View.states_note] at hr
      rw [routes, words, inherited_edge (View.kindOf_ne_tree _ _ _ _),
        inherited_edge (View.kindOf_ne_tree _ _ _ _)]
      exact ih hr
    | finish ready head begun step =>
      rw [routes, words, inherited_finish, inherited_finish]
      exact ih hr

/-- The route tells the state. -/
theorem states_of_route (run : Runs M A o evs w) {r : RecordIndex} {cs : List Nat}
    {word : List ι} {t : σ} (hcs : (routes evs)[r]? = some cs) (route : M.Route A cs word t) :
    w.states[r]? = some t := by
  have counted : (routes evs).length = w.states.length := run.length_inherited _ _
  have lt : r < w.states.length := counted ▸ (List.getElem?_eq_some_iff.1 hcs).1
  obtain ⟨cs', word', hcs', -, route'⟩ := run.genuine (List.getElem?_eq_getElem lt)
  obtain rfl : cs' = cs := Option.some.inj (hcs'.symm.trans hcs)
  rw [(route.unique route').2]
  exact List.getElem?_eq_getElem lt

/-- A record keeps its state. -/
theorem states_append {more : List (Event ι τ)} {w' : View σ ι τ} (run : Runs M A o evs w)
    (run' : Runs M A o (evs ++ more) w') {r : RecordIndex} {t : σ} (hr : w.states[r]? = some t) :
    w'.states[r]? = some t := by
  obtain ⟨cs, word, hcs, -, route⟩ := run.genuine hr
  exact run'.states_of_route (routes_append hcs more) route

end View.Runs

end Exploration.Search
