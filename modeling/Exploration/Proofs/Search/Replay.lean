import Exploration.Proofs.Search.Exhaustive
import Exploration.Proofs.Search.Run

/-!
# Runs played by a search

The view leaves no choice: at most one event can come next, and what it leads to is settled. So
whatever run the rules of the view allow is the one that a search plays when it is asked for
nothing but the next event.
-/

namespace Exploration.Search

variable {σ ι τ : Type} {M : TransitionSystem σ ι τ} {A : List ι} {o : Order}
  {evs : List (Event ι τ)} {w w₁ w₂ : View σ ι τ} {e e₁ e₂ : Event ι τ}

namespace View

theorem Advances.unique
    (one : ∀ (r q : RecordIndex) t, w.states[r]? = some t → w.states[q]? = some t → r = q)
    (h₁ : w.Advances M A o e₁ w₁) (h₂ : w.Advances M A o e₂ w₂) : e₁ = e₂ ∧ w₁ = w₂ := by
  cases h₁ with
  | known idle unread met => cases h₂ <;> grind
  | root idle unread new => cases h₂ <;> grind
  | start ready head fresh => cases h₂ <;> grind
  | tree ready head begun step new => cases h₂ <;> grind
  | edge ready head begun step met => cases h₂ <;> grind
  | finish ready head begun step => cases h₂ <;> grind

/-- An event needs an initial state or a visit that is left. -/
theorem Advances.not_ended (adv : w.Advances M A o e w₁) : ¬ (w.unread = [] ∧ w.pending = []) := by
  rintro ⟨unread, pending⟩
  cases adv <;> simp_all

end View

variable {δ : Type} [DecidableEq σ] [Hashable σ] [Inhabited δ]

/-- What a view allows next is what its search reports next. -/
theorem Coherent.next_of_advances {s : Search M A o δ} (c : s.Coherent)
    (k : Recounts M A evs s.view) (adv : s.view.Advances M A o e w) :
    ∃ u, s.next = (some e, u) ∧ u.Coherent ∧ u.view = w := by
  cases hn : s.next with
  | mk e' u =>
    cases e' with
    | none => exact absurd (next_eq_none_iff.1 (congrArg Prod.fst hn)) adv.not_ended
    | some e' =>
      obtain ⟨cu, adv'⟩ := c.advances hn
      obtain ⟨rfl, same⟩ := adv'.unique (fun r q t => k.record_unique) adv
      exact ⟨u, rfl, cu, same⟩

theorem View.Runs.play (run : Runs M A o evs w) (δ : Type) [Inhabited δ] :
    ∃ s : Search M A o δ, (Search.begin M A o δ).play (.replicate evs.length .next) =
      (evs.map .event, s) ∧ s.Coherent ∧ s.view = w := by
  induction run with
  | begin => exact ⟨Search.begin M A o δ, rfl, .begin, rfl⟩
  | @event evs w w' e before last ih =>
    obtain ⟨s, hp, c, rfl⟩ := ih
    obtain ⟨u, hn, cu, hu⟩ := c.next_of_advances before.recounts last
    refine ⟨u, ?_, cu, hu⟩
    rw [List.length_append, List.replicate_add, play_append, hp, List.map_append]
    simp [Search.play, perform_next hn]

/-- A run that leaves nothing is all that its search ever reports. -/
theorem View.Runs.play_to_end (run : Runs M A o evs w) (unread : w.unread = [])
    (pending : w.pending = []) (δ : Type) [Inhabited δ] :
    ∃ s : Search M A o δ, s.Coherent ∧ s.view = w ∧
      ∀ n, (Search.begin M A o δ).play (.replicate (evs.length + n) .next) =
        (evs.map .event ++ .replicate n .ended, s) := by
  obtain ⟨s, hp, c, rfl⟩ := run.play δ
  refine ⟨s, c, rfl, fun n => ?_⟩
  rw [List.replicate_add, play_append, hp, play_ended (next_eq_none_iff.2 ⟨unread, pending⟩)]

end Exploration.Search
