import Exploration.Proofs.AccessWords.FirstWord

/-!
# Access words in the shortlex order

Where a word leads to one state only, comparing routes comes to comparing words: shorter words
first, and words of one length letter by letter, each letter by its first place in the alphabet.
So the words of a deterministic system with one initial state are given in that order, and the
word of a state is the least of all that lead there.
-/

namespace Exploration

/-- The rank of a word in the shortlex order of the alphabet. -/
def wordRank {ι : Type} [DecidableEq ι] (A w : List ι) : ℕ ×ₗ List ℕ := shortlex (w.map A.idxOf)

namespace TransitionSystem

variable {σ ι τ : Type} [DecidableEq ι] {M : TransitionSystem σ ι τ} {A : List ι}
  {cs ds : List Nat} {v w : List ι} {t u : σ}

/-- Words over the alphabet have different ranks. -/
theorem eq_of_wordRank_eq (hv : ∀ i ∈ v, i ∈ A) (hw : ∀ i ∈ w, i ∈ A)
    (h : wordRank A v = wordRank A w) : v = w :=
  map_idxOf_inj hv hw (Prod.mk.inj (toLex_inj.1 h)).2

/-- An earlier word has an earlier route. -/
theorem Route.exists_shortlex_lt (clear : M.Unambiguous A) (route : M.Route A cs v t)
    (other : M.Route A ds w u) (lt : wordRank A w < wordRank A v) :
    ∃ ds', M.Route A ds' w u ∧ shortlex ds' < shortlex cs := by
  rcases shortlex_lt_iff.1 lt with shorter | ⟨length, before⟩
  · refine ⟨ds, other, ?_⟩
    apply shortlex_lt_of_length
    rw [List.length_map, List.length_map] at shorter
    rw [route.length, other.length]
    omega
  · rw [List.length_map, List.length_map] at length
    obtain ⟨ds', route', count, earlier⟩ := route.exists_lt clear other length before
    exact ⟨ds', route', shortlex_lt_iff.2 (.inr ⟨count, earlier⟩)⟩

/-- The word along the first route to a state is the least word that leads there. -/
theorem Route.wordRank_le (clear : M.Unambiguous A) (route : M.Route A cs v t)
    (first : ∀ ds w, M.Route A ds w t → shortlex cs ≤ shortlex ds) (other : M.Route A ds w t) :
    wordRank A v ≤ wordRank A w := by
  by_contra earlier
  obtain ⟨ds', route', lt⟩ := route.exists_shortlex_lt clear other (not_le.1 earlier)
  exact absurd (first ds' w route') (not_le.2 lt)

/-- A later first route, to another state, has a later word. -/
theorem Route.wordRank_lt (clear : M.Unambiguous A) (route : M.Route A cs v t)
    (other : M.Route A ds w u) (apart : t ≠ u) (lt : shortlex cs < shortlex ds)
    (first : ∀ ds' w', M.Route A ds' w' u → shortlex ds ≤ shortlex ds') :
    wordRank A v < wordRank A w := by
  by_contra later
  rcases (not_lt.1 later).lt_or_eq with before | same
  · obtain ⟨ds', route', less⟩ := route.exists_shortlex_lt clear other before
    exact absurd (first ds' w route') (not_le.2 (less.trans lt))
  · obtain rfl := eq_of_wordRank_eq other.letters route.letters same
    obtain ⟨s, hs, path⟩ := route.path
    obtain ⟨s', hs', path'⟩ := other.path
    exact apart (clear s hs s' hs' w t u path path')

end TransitionSystem

namespace AccessWords

variable {σ ι τ : Type} [DecidableEq σ] [Hashable σ] {M : TransitionSystem σ ι τ} {A : List ι}

/-- Results are given in the order of their first routes. -/
theorem pairwise_routes (n : Nat) : (results M A n).reduceOption.Pairwise fun a b =>
    a.state ≠ b.state ∧ ∃ cs ds, M.Route A cs a.word a.state ∧ M.Route A ds b.word b.state ∧
      shortlex cs < shortlex ds ∧
      ∀ ds' w, M.Route A ds' w b.state → shortlex ds ≤ shortlex ds' := by
  obtain ⟨evs, d⟩ := Drawn.of_calls M A n
  apply List.pairwise_iff_getElem.2
  intro r q hr hq lt
  have apart := List.pairwise_iff_getElem.1 (List.pairwise_map.1 (nodup_results (M := M) (A := A) n))
    r q hr hq lt
  obtain ⟨cs, hcs, route⟩ := d.access r _ (List.getElem?_eq_getElem hr)
  obtain ⟨ds, hds, other⟩ := d.access q _ (List.getElem?_eq_getElem hq)
  refine ⟨apart, cs, ds, route, other, ?_, fun ds' w route' => ?_⟩
  · obtain ⟨hr', rfl⟩ := List.getElem?_eq_some_iff.1 hcs
    obtain ⟨hq', rfl⟩ := List.getElem?_eq_some_iff.1 hds
    exact List.pairwise_iff_getElem.1 d.run.sweeps.routed.sorted r q hr' hq' lt
  · obtain rfl : Search.route evs q = ds := by simp [Search.route, hds]
    exact d.run.route_le_route (d.states_of_access (List.getElem?_eq_getElem hq)) route'

/-- With one initial state, and at most one transition for each state and letter, the words are
given in the shortlex order, and the word of a state is the least one that leads there. -/
theorem draw_shortlex [DecidableEq ι] (M : TransitionSystem σ ι τ) (A : List ι)
    (one : ∀ s ∈ M.initial, ∀ s' ∈ M.initial, s = s')
    (deterministic : ∀ t, ∀ i ∈ A, (M.transitions t i).length ≤ 1) :
    (∀ n, (results M A n).reduceOption.Pairwise fun a b => wordRank A a.word < wordRank A b.word) ∧
    ∀ s ∈ M.initial, ∀ w t, M.Path A s w t →
      (∃ n a, some a ∈ results M A n ∧ a.state = t) ∧
      ∀ n a, some a ∈ results M A n → a.state = t → wordRank A a.word ≤ wordRank A w := by
  have clear : M.Unambiguous A := by
    apply TransitionSystem.unambiguous_of_deterministic one
    intro t i hi x hx y hy
    cases listed : M.transitions t i with
    | nil => simp [listed] at hx
    | cons z rest =>
      have alone : rest = [] := by simpa [listed] using deterministic t i hi
      simp_all
  constructor
  · intro n
    refine (pairwise_routes n).imp ?_
    rintro a b ⟨apart, cs, ds, route, other, lt, first⟩
    exact route.wordRank_lt clear other apart lt first
  · intro s hs w t path
    constructor
    · exact exists_access_of_reachable ⟨s, hs, w, path⟩
    · rintro n a ha rfl
      obtain ⟨cs, route, first⟩ := exists_route_of_access ha
      obtain ⟨ds, other⟩ := path.route hs
      exact route.wordRank_le clear first other

/-- Every number leads to the next one and to its double. -/
def doubling : TransitionSystem Nat Char Nat where
  initial := [1]
  transitions n i := if i = 'a' then [n + 1] else if i = 'b' then [2 * n] else []
  successor := id

/-- Two letters lead from 1 to 2; the one that comes first in the alphabet is given, though it comes
last, too. -/
theorem draw_shortlex_doubling :
    (∀ n i, (doubling.transitions n i).length ≤ 1) ∧
    ∃ n a, some a ∈ results doubling ['b', 'a', 'b'] n ∧ a.state = 2 ∧
      wordRank ['b', 'a', 'b'] a.word ≤ wordRank ['b', 'a', 'b'] ['b'] := by
  have one : ∀ s ∈ doubling.initial, ∀ s' ∈ doubling.initial, s = s' := by simp [doubling]
  have deterministic : ∀ n i, (doubling.transitions n i).length ≤ 1 := by
    intro n i
    simp only [doubling]
    split
    · simp
    · split <;> simp
  have path : doubling.Path ['b', 'a', 'b'] 1 ['b'] 2 :=
    .snoc (i := 'b') (x := 2) .nil (by decide) (by decide)
  obtain ⟨-, least⟩ := draw_shortlex doubling ['b', 'a', 'b'] one fun n i _ => deterministic n i
  obtain ⟨⟨n, a, ha, state⟩, below⟩ := least 1 List.mem_cons_self ['b'] 2 path
  exact ⟨deterministic, n, a, ha, state, below n a ha state⟩

end AccessWords

end Exploration
