import Exploration.Proofs.AccessWords.Draw

/-!
# The word that comes first

A breadth-first traversal compares routes, not words: of the shortest words that lead to a state
it gives the one along the first route. Initial states and transitions on one letter are choices
of their own, which come before later letters, so the word need not be the first in the order of
the alphabet. It is the first where a word leads to one state only.
-/

namespace Exploration

namespace TransitionSystem

variable {σ ι τ : Type} {M : TransitionSystem σ ι τ} {A : List ι}

/-- No word leads from the initial states to two states. -/
def Unambiguous (M : TransitionSystem σ ι τ) (A : List ι) : Prop :=
  ∀ s ∈ M.initial, ∀ s' ∈ M.initial, ∀ w t t', M.Path A s w t → M.Path A s' w t' → t = t'

/-- One initial state, and one successor for each letter. -/
theorem unambiguous_of_deterministic (one : ∀ s ∈ M.initial, ∀ s' ∈ M.initial, s = s')
    (next : ∀ t, ∀ i ∈ A, ∀ x ∈ M.transitions t i, ∀ y ∈ M.transitions t i,
      M.successor x = M.successor y) : M.Unambiguous A := by
  intro s hs s' hs' w t t' path path'
  obtain rfl := one s hs s' hs'
  induction path generalizing t' with
  | nil =>
    generalize hw : ([] : List ι) = w at path'
    cases path' with
    | nil => rfl
    | snoc _ _ _ => simp at hw
  | @snoc w t i x _ hi hx ih =>
    generalize hw : w ++ [i] = w' at path'
    cases path' with
    | nil => simp at hw
    | snoc before hi' hx' =>
      obtain ⟨rfl, last⟩ := List.append_inj' hw rfl
      obtain rfl := List.singleton_inj.1 last
      obtain rfl := ih _ before
      exact next t i hi x hx _ hx'

variable [DecidableEq ι]

/-- A transition stands before those on later letters. -/
theorem exists_place_lt {t : σ} {i : ι} {x : τ} (h : (i, x) ∈ M.outgoing A t) :
    ∃ c, (M.outgoing A t)[c]? = some (i, x) ∧
      ∀ (d : Nat) j y, (M.outgoing A t)[d]? = some (j, y) → A.idxOf i < A.idxOf j → c < d := by
  induction A with
  | nil => cases h
  | cons l A ih =>
    have cons : M.outgoing (l :: A) t = (M.transitions t l).map (l, ·) ++ M.outgoing A t := rfl
    have letter {d : Nat} {j : ι} {y : τ}
        (hd : ((M.transitions t l).map (l, ·))[d]? = some (j, y)) : j = l := by
      obtain ⟨y', -, same⟩ := List.mem_map.1 (List.mem_of_getElem? hd)
      exact (Prod.mk.inj same).1.symm
    rw [cons] at h ⊢
    by_cases hl : i = l
    · subst hl
      have mem : (i, x) ∈ (M.transitions t i).map (i, ·) := by
        rw [← cons] at h
        exact List.mem_map_of_mem (mem_outgoing.1 h).2
      obtain ⟨c, hc⟩ := List.mem_iff_getElem?.1 mem
      have lt := (List.getElem?_eq_some_iff.1 hc).1
      refine ⟨c, by rw [List.getElem?_append_left lt, hc], ?_⟩
      intro d j y hd later
      by_contra before
      rw [List.getElem?_append_left (by omega)] at hd
      rw [letter hd] at later
      exact Nat.lt_irrefl _ later
    · have mem : (i, x) ∈ M.outgoing A t := by
        rcases List.mem_append.1 h with h | h
        · obtain ⟨c, hc⟩ := List.mem_iff_getElem?.1 h
          exact absurd (letter hc) hl
        · exact h
      obtain ⟨c, hc, first⟩ := ih mem
      refine ⟨((M.transitions t l).map (l, ·)).length + c, ?_, ?_⟩
      · rw [List.getElem?_append_right (Nat.le_add_right _ _), Nat.add_sub_cancel_left, hc]
      · intro d j y hd later
        have hj : j ≠ l := by
          rintro rfl
          rw [List.idxOf_cons_self] at later
          exact Nat.not_lt_zero _ later
        have behind : ((M.transitions t l).map (l, ·)).length ≤ d := by
          by_contra before
          rw [List.getElem?_append_left (by omega)] at hd
          exact hj (letter hd)
        rw [List.getElem?_append_right behind] at hd
        rw [List.idxOf_cons_ne _ (Ne.symm hl), List.idxOf_cons_ne _ (Ne.symm hj)] at later
        have place := first _ j y hd (Nat.lt_of_succ_lt_succ later)
        omega

omit [DecidableEq ι] in
theorem Route.letters {cs : List Nat} {w : List ι} {t : σ} (route : M.Route A cs w t) :
    ∀ i ∈ w, i ∈ A := by
  induction route with
  | root _ => simp
  | step _ hx ih =>
    intro i hi
    rcases List.mem_append.1 hi with hi | hi
    · exact ih i hi
    · rw [List.mem_singleton.1 hi]
      exact (mem_outgoing.1 (List.mem_of_getElem? hx)).1

/-- The places of the letters determine a word over the alphabet. -/
theorem map_idxOf_inj {v w : List ι} (hv : ∀ i ∈ v, i ∈ A) (hw : ∀ i ∈ w, i ∈ A)
    (h : v.map A.idxOf = w.map A.idxOf) : v = w := by
  have found {v : List ι} (hv : ∀ i ∈ v, i ∈ A) : (v.map A.idxOf).map (A[·]?) = v.map some := by
    rw [List.map_map]
    apply List.map_congr_left
    intro i hi
    exact List.getElem?_idxOf (hv i hi)
  apply List.map_injective_iff.2 fun _ _ => Option.some.inj
  rw [← found hv, h, found hw]

/-- Where words are unambiguous, an earlier word has an earlier route. -/
theorem Route.exists_lt (clear : M.Unambiguous A) {cs ds : List Nat} {v w : List ι} {t u : σ}
    (route : M.Route A cs v t) (other : M.Route A ds w u) (length : w.length = v.length)
    (lt : w.map A.idxOf < v.map A.idxOf) :
    ∃ ds', M.Route A ds' w u ∧ ds'.length = cs.length ∧ ds' < cs := by
  induction route generalizing ds w u with
  | root _ => simp at lt
  | @step cs v t c j y route hy ih =>
    cases other with
    | root _ => simp at length
    | @step ds w u d i x other hx =>
      have length : w.length = v.length := by simpa using length
      rw [List.map_append, List.map_append] at lt
      rcases lt_or_eq_of_snoc_lt_snoc (by simpa using length) lt with before | ⟨same, last⟩
      · obtain ⟨ds', route', count, earlier⟩ := ih other length before
        refine ⟨ds' ++ [d], route'.step hx, by simpa using count, ?_⟩
        exact snoc_lt_snoc_of_lt count earlier d c
      · -- The words part at their last letters, so up to there one route will do for both.
        obtain rfl := map_idxOf_inj other.letters route.letters same
        obtain ⟨s, hs, path⟩ := other.path
        obtain ⟨s', hs', path'⟩ := route.path
        obtain rfl := clear s hs s' hs' w u t path path'
        obtain ⟨c', hc', first⟩ := exists_place_lt (List.mem_of_getElem? hx)
        refine ⟨cs ++ [c'], route.step hc', by simp, ?_⟩
        exact List.append_left_lt (.rel (first c j y hy last))

end TransitionSystem

namespace AccessWords

variable {σ ι τ : Type} [DecidableEq σ] [Hashable σ] {M : TransitionSystem σ ι τ} {A : List ι}

theorem word_ne_nil {n : Nat} {a : Access σ ι} (h : some a ∈ results M A n)
    (new : a.state ∉ M.initial) : a.word ≠ [] := by
  obtain ⟨cs, route, -⟩ := exists_route_of_access h
  obtain ⟨s, hs, path⟩ := route.path
  intro empty
  rw [empty] at path
  generalize hw : ([] : List ι) = w at path
  generalize ht : a.state = t at path new
  cases path with
  | nil => exact new hs
  | snoc _ _ _ => simp at hw

/-- A state that is one letter away is given with one letter. -/
theorem length_word_eq_one {n : Nat} {a : Access σ ι} (h : some a ∈ results M A n)
    (new : a.state ∉ M.initial) {s : σ} (hs : s ∈ M.initial) {i : ι}
    (path : M.Path A s [i] a.state) : a.word.length = 1 := by
  have short := length_word_le h hs path
  have long := List.length_pos_iff.2 (word_ne_nil h new)
  rw [List.length_singleton] at short
  omega

/-- The word given for a state is the one along the first route. In the order of the alphabet it
is the first of its length if words are unambiguous. -/
theorem word_along_first_route [DecidableEq ι] (M : TransitionSystem σ ι τ) (A : List ι) :
    (∀ n a, some a ∈ results M A n → ∃ cs, M.Route A cs a.word a.state ∧
      ∀ ds w, M.Route A ds w a.state → shortlex cs ≤ shortlex ds) ∧
    (M.Unambiguous A → ∀ n a, some a ∈ results M A n → ∀ s ∈ M.initial, ∀ w,
      M.Path A s w a.state → w.length = a.word.length →
      a.word.map A.idxOf ≤ w.map A.idxOf) := by
  constructor
  · intro n a ha
    exact exists_route_of_access ha
  · intro clear n a ha s hs w path length
    obtain ⟨cs, route, first⟩ := exists_route_of_access ha
    obtain ⟨ds, other⟩ := path.route hs
    by_contra earlier
    obtain ⟨ds', route', count, lt⟩ := route.exists_lt clear other length (not_le.1 earlier)
    exact absurd (first ds' w route') (not_le.2 (shortlex_lt_iff.2 (.inr ⟨count, lt⟩)))

/-- Two letters lead from 0 to 1. -/
def parallel : TransitionSystem Nat Char (Fin 2) := .ofEdges [0] #[(0, 'b', 1), (0, 'a', 1)]

theorem unambiguous_parallel : parallel.Unambiguous ['a', 'b'] := by
  apply TransitionSystem.unambiguous_of_deterministic
  · intro s hs s' hs'
    rw [List.mem_singleton.1 hs, List.mem_singleton.1 hs']
  · intro t i _ x _ y _
    have target : ∀ x, parallel.successor x = 1 := by decide
    rw [target, target]

/-- The letter that comes first in the alphabet is given, in whatever order the edges are. -/
theorem word_along_first_route_parallel : ∃ n a, some a ∈ results parallel ['a', 'b'] n ∧
    a.state = 1 ∧ a.word.map ['a', 'b'].idxOf ≤ ['a'].map ['a', 'b'].idxOf := by
  have path : parallel.Path ['a', 'b'] 0 ['a'] 1 :=
    .snoc (i := 'a') (x := 1) .nil (by decide) (by decide)
  obtain ⟨n, ⟨_, word⟩, ha, rfl⟩ := exists_access_of_reachable
    ⟨0, List.mem_cons_self, ['a'], path⟩
  have length := length_word_eq_one ha (show 1 ∉ parallel.initial by decide)
    List.mem_cons_self path
  exact ⟨n, _, ha, rfl, (word_along_first_route parallel ['a', 'b']).2 unambiguous_parallel n _ ha 0
    List.mem_cons_self ['a'] path length.symm⟩

/-- Both 0 and 1 lead to 2, and 0, on the later letter, is the first of the initial states. -/
def crossing : TransitionSystem Nat Char (Fin 2) := .ofEdges [0, 1] #[(0, 'b', 2), (1, 'a', 2)]

/-- The word along the first route need not be the first word. -/
theorem crossing_word_not_first : ¬ ∀ n a, some a ∈ results crossing ['a', 'b'] n →
    ∀ s ∈ crossing.initial, ∀ w, crossing.Path ['a', 'b'] s w a.state →
      w.length = a.word.length → a.word.map ['a', 'b'].idxOf ≤ w.map ['a', 'b'].idxOf := by
  intro claim
  have start : crossing.Route ['a', 'b'] [0] [] 0 := .root rfl
  have first : crossing.Route ['a', 'b'] [0, 0] ['b'] 2 :=
    start.step (c := 0) (i := 'b') (x := 0) (by decide)
  have path : crossing.Path ['a', 'b'] 1 ['a'] 2 :=
    .snoc (i := 'a') (x := 1) .nil (by decide) (by decide)
  have one : 1 ∈ crossing.initial := by decide
  obtain ⟨n, ⟨_, word⟩, ha, rfl⟩ := exists_access_of_reachable ⟨1, one, ['a'], path⟩
  have length := length_word_eq_one ha (show 2 ∉ crossing.initial by decide) one path
  obtain ⟨cs, route, least⟩ := exists_route_of_access ha
  have same : cs = [0, 0] := by
    have le := least [0, 0] ['b'] first
    obtain ⟨x, y, rfl⟩ := List.length_eq_two.1 (route.length.trans (congrArg (· + 1) length))
    rcases shortlex_le_iff.1 le with lt | ⟨-, le⟩
    · exact absurd lt (Nat.lt_irrefl _)
    · have none : ¬ [0, 0] < [x, y] := not_lt.2 le
      rw [List.cons_lt_cons_iff, List.cons_lt_cons_iff] at none
      obtain ⟨rfl, rfl⟩ : x = 0 ∧ y = 0 := by omega
      rfl
  subst same
  obtain ⟨rfl, -⟩ := route.unique first
  have earlier := claim n _ ha 1 one ['a'] path length.symm
  exact absurd earlier (by decide)

end AccessWords

end Exploration
