import Mathlib.Algebra.BigOperators.Group.Finset.Basic
import Mathlib.Algebra.Order.BigOperators.Group.Finset
import Exploration.Proofs.Search.Chapter

/-!
# Exhaustive searches

If only finitely many states are reachable, a search that is asked for nothing but the next event
ends. The number of its events is known beforehand: one for each initial state listed, and for
each reachable state its start, its finish and one for each of its transitions.
-/

namespace Exploration.Search

variable {σ ι τ δ : Type} [DecidableEq σ] {M : TransitionSystem σ ι τ} {A : List ι} {o : Order}
  {evs : List (Event ι τ)}

/-- The events of a search through the states `R`. -/
def eventCount (M : TransitionSystem σ ι τ) (A : List ι) (R : Finset σ) : Nat :=
  M.initial.length + 2 * R.card + ∑ t ∈ R, (A.map fun i => (M.transitions t i).length).sum

omit [DecidableEq σ] in
theorem eventCount_eq (M : TransitionSystem σ ι τ) (A : List ι) (R : Finset σ) :
    eventCount M A R = M.initial.length + ∑ t ∈ R, chapterLength M A t := by
  have outgoing (t : σ) :
      (M.outgoing A t).length = (A.map fun i => (M.transitions t i).length).sum := by
    simp [TransitionSystem.outgoing, List.length_flatMap]
  have starts : ∑ _ ∈ R, 2 = R.card * 2 := Finset.sum_const_nat fun _ _ => rfl
  simp only [eventCount, chapterLength, outgoing, Finset.sum_add_distrib, starts]
  omega

namespace Recounts

variable {w : View σ ι τ} {R : Finset σ}

theorem sum_size (k : Recounts M A evs w) :
    (w.states.map (chapterLength M A)).sum = ∑ t ∈ w.states.toFinset, chapterLength M A t :=
  (List.sum_toFinset (chapterLength M A) k.nodup).symm

theorem toFinset_subset (k : Recounts M A evs w) (hR : ∀ t, t ∈ R ↔ M.Reachable A t) :
    w.states.toFinset ⊆ R := by
  intro t ht
  exact (hR t).2 (k.reachable t (List.mem_toFinset.1 ht))

/-- What was told and what is due do not exceed the events there are. -/
theorem told_add_due_le (k : Recounts M A evs w) (hR : ∀ t, t ∈ R ↔ M.Reachable A t) :
    evs.length + w.unread.length + (w.pending.map (eventsDue M)).sum ≤ eventCount M A R := by
  rw [k.balance, k.sum_size, eventCount_eq]
  exact Nat.add_le_add_left (Finset.sum_le_sum_of_subset (k.toFinset_subset hR)) _

theorem toFinset_eq (k : Recounts M A evs w) (hR : ∀ t, t ∈ R ↔ M.Reachable A t)
    (unread : w.unread = []) (pending : w.pending = []) : w.states.toFinset = R := by
  apply (k.toFinset_subset hR).antisymm
  intro t ht
  exact List.mem_toFinset.2 (k.met_of_reachable unread pending ((hR t).1 ht))

/-- A search that has ended has told all events. -/
theorem length_eq (k : Recounts M A evs w) (hR : ∀ t, t ∈ R ↔ M.Reachable A t)
    (unread : w.unread = []) (pending : w.pending = []) : evs.length = eventCount M A R := by
  have balance := k.balance
  rw [k.sum_size, k.toFinset_eq hR unread pending, ← eventCount_eq, unread, pending] at balance
  exact balance

/-- A search that has told all events has ended. -/
theorem ended_of_length (k : Recounts M A evs w) (hR : ∀ t, t ∈ R ↔ M.Reachable A t)
    (h : evs.length = eventCount M A R) : w.unread = [] ∧ w.pending = [] := by
  have bound := k.told_add_due_le hR
  constructor
  · have none : w.unread.length = 0 := by omega
    exact List.length_eq_zero_iff.1 none
  · cases hp : w.pending with
    | nil => rfl
    | cons v rest =>
      have positive : 0 < eventsDue M v := by
        rw [eventsDue]
        split <;> omega
      rw [hp, List.map_cons, List.sum_cons] at bound
      omega

end Recounts

variable [Hashable σ] [Inhabited δ]

/-- A search that has ended answers every further call so. -/
theorem play_ended {s : Search M A o δ} (h : s.next.1 = none) (n : Nat) :
    s.play (.replicate n .next) = (.replicate n .ended, s) := by
  have again : s.perform .next = (.ended, s) := by
    have hs : s.next = (none, s) := Prod.ext h (next_of_none (Prod.ext h rfl))
    rw [perform, hs]
  induction n with
  | zero => rfl
  | succ n ih => rw [List.replicate_succ, play, again, ih, List.replicate_succ]

/-- So many calls give so many events, unless the search ends before. -/
theorem Coherent.play_next {s : Search M A o δ} (c : s.Coherent) (k : Recounts M A evs s.view)
    (n : Nat) : ∃ more u,
      s.play (.replicate n .next) =
        (more.map .event ++ .replicate (n - more.length) .ended, u) ∧
      u.Coherent ∧ Recounts M A (evs ++ more) u.view ∧ more.length ≤ n ∧
      (more.length < n → u.next.1 = none) := by
  induction n generalizing s evs with
  | zero => exact ⟨[], s, rfl, c, by rwa [List.append_nil], Nat.le_refl 0, fun h => nomatch h⟩
  | succ n ih =>
    cases h : s.next with
    | mk e u =>
      cases e with
      | none =>
        have hs : s.next.1 = none := congrArg Prod.fst h
        exact ⟨[], s, play_ended hs (n + 1), c, by rwa [List.append_nil], Nat.zero_le _,
          fun _ => hs⟩
      | some e =>
        obtain ⟨cu, adv⟩ := c.advances h
        obtain ⟨more, t, hp, ct, kt, le, ended⟩ := ih cu (k.advances adv)
        refine ⟨e :: more, t, ?_, ct, ?_, Nat.succ_le_succ le,
          fun lt => ended (Nat.lt_of_succ_lt_succ lt)⟩
        · rw [List.replicate_succ, Search.play, perform_next h, hp, List.length_cons,
            Nat.add_sub_add_right]
          rfl
        · rwa [List.append_assoc] at kt

/-- A search through finitely many states reports everything exactly once. -/
theorem next_exhausts {R : Finset σ} (hR : ∀ t, t ∈ R ↔ M.Reachable A t) :
    ∃ (evs : List (Event ι τ)) (s : Search M A o δ),
      evs.length = eventCount M A R ∧
      (∀ n, (begin M A o δ).play (.replicate (eventCount M A R + n) .next) =
        (evs.map .event ++ .replicate n .ended, s)) ∧
      (evs.filterMap Event.root?).map (s.states[·]?) = M.initial.map some ∧
      s.states.Nodup ∧ s.states.toFinset = R ∧
      (∀ t r, s.find? t = some r ↔ s.states[r]? = some t) ∧
      ∀ r t, s.states[r]? = some t → s.color r = .black ∧ Told M A s.states evs r t := by
  obtain ⟨evs, s, hp, c, k, le, ended⟩ :=
    Coherent.play_next (s := begin M A o δ) .begin .begin (eventCount M A R)
  rw [List.nil_append] at k
  have drained : s.view.unread = [] ∧ s.view.pending = [] := by
    rcases Nat.lt_or_eq_of_le le with lt | eq
    · exact next_eq_none_iff.1 (ended lt)
    · exact k.ended_of_length hR eq
  obtain ⟨unread, pending⟩ := drained
  have length := k.length_eq hR unread pending
  refine ⟨evs, s, length, fun n => ?_, ?_, k.nodup, k.toFinset_eq hR unread pending, c.find,
    fun r t hr => ?_⟩
  · rw [List.replicate_add, play_append, hp, play_ended (next_eq_none_iff.2 ⟨unread, pending⟩),
      length, Nat.sub_self, List.replicate_zero, List.append_nil]
  · have roots := k.roots
    rw [unread, List.map_nil, List.append_nil] at roots
    exact roots
  · exact (k.told r t hr (by simp [pending])).symm

/-- Two states, each with transitions to both, and the first listed twice as an initial state. -/
def toggle : TransitionSystem Bool Char Bool where
  initial := [false, false]
  transitions s i := if i = 'a' then [!s, s] else []
  successor := id

theorem reachable_toggle (t : Bool) : t ∈ Finset.univ ↔ toggle.Reachable ['a', 'b', 'a'] t := by
  have first : toggle.Reachable ['a', 'b', 'a'] false :=
    TransitionSystem.reachable_of_mem_initial List.mem_cons_self
  have second : toggle.Reachable ['a', 'b', 'a'] true :=
    first.successor (i := 'a') (x := true) (by decide) (by decide)
  cases t with
  | false => simpa using first
  | true => simpa using second

/-- Duplicate initial states and letters count: 2 + 2 * 2 + 2 * 4 events. -/
theorem next_exhausts_toggle :
    eventCount toggle ['a', 'b', 'a'] Finset.univ = 14 ∧
    ∃ (evs : List (Event Char Bool)) (s : Search toggle ['a', 'b', 'a'] .breadthFirst Unit),
      evs.length = 14 ∧ s.states.toFinset = Finset.univ ∧
      ∀ n, (begin toggle ['a', 'b', 'a'] .breadthFirst Unit).play (.replicate (14 + n) .next) =
        (evs.map .event ++ .replicate n .ended, s) := by
  obtain ⟨evs, s, length, run, -, -, states, -⟩ :=
    next_exhausts (δ := Unit) (o := .breadthFirst) reachable_toggle
  exact ⟨by decide, evs, s, length, states, run⟩

end Exploration.Search
