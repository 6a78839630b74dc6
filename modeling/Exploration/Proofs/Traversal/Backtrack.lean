import Mathlib.Order.Bounds.Basic
import Exploration.Proofs.Traversal.Stack

/-!
# Backtracks

A depth-first traversal reads the backtrack of a finish off the visit that lies below, long after
the finished record was scheduled. It is the one that scheduling would have given: as long as a
record waits, nothing below it on the stack changes. `Suspended` keeps, for each place of the
stack, the stage of the traversal at which it was filled.
-/

namespace Exploration.Traversal

variable {σ ι τ δ : Type} {M : TransitionSystem σ ι τ} {A : List ι}

/-- The transition a report gives of the record `r`. -/
def Report.edgeFrom? (r : RecordIndex) : Report σ ι τ → Option (ι × τ)
  | .event (.edge q i x _) => if q = r then some (i, x) else none
  | .event (.initial _) => none
  | .event (.start _ _) => none
  | .event (.finish _ _ _) => none
  | .ended => none
  | .scheduled _ => none
  | .skippedLetter _ => none
  | .skippedState _ => none
  | .refused => none
  | .modified => none

/-- The last transition reported of the record `r`. -/
def lastEdge (h : List (Report σ ι τ)) (r : RecordIndex) : Option (ι × τ) :=
  (h.filterMap (Report.edgeFrom? r)).getLast?

section LastEdge

variable {h : List (Report σ ι τ)} {y : Report σ ι τ} {r : RecordIndex} {p : ι × τ}

theorem Report.edgeFrom?_eq_some_iff :
    y.edgeFrom? r = some p ↔ ∃ t, y = .event (.edge r p.1 p.2 t) := by
  constructor
  · intro given
    cases y with
    | event e =>
      cases e with
      | edge q i x t =>
        by_cases hq : q = r
        · subst hq
          obtain rfl : (i, x) = p := by simpa [edgeFrom?] using given
          exact ⟨t, rfl⟩
        · simp [edgeFrom?, hq] at given
      | _ => cases given
    | _ => cases given
  · rintro ⟨t, rfl⟩
    simp [edgeFrom?]

theorem lastEdge_snoc (h : List (Report σ ι τ)) (y : Report σ ι τ) (r : RecordIndex) :
    lastEdge (h ++ [y]) r = (y.edgeFrom? r).or (lastEdge h r) := by
  cases he : y.edgeFrom? r <;> simp [lastEdge, he]

theorem lastEdge_eq_none_iff : lastEdge h r = none ↔ ∀ i x t, .event (.edge r i x t) ∉ h := by
  rw [lastEdge, List.getLast?_eq_none_iff, List.filterMap_eq_nil_iff]
  constructor
  · intro none i x t mem
    have given := none _ mem
    simp [Report.edgeFrom?] at given
  · intro silent y hy
    rw [Option.eq_none_iff_forall_ne_some]
    intro p given
    obtain ⟨t, rfl⟩ := Report.edgeFrom?_eq_some_iff.1 given
    exact silent p.1 p.2 t hy

end LastEdge

/-- The visits remember the last transitions reported of their records. -/
def Remembered (h : List (Report σ ι τ)) (vs : List (Visit σ ι τ RecordIndex)) : Prop :=
  ∀ v ∈ vs, v.last = lastEdge h v.label

namespace Remembered

variable {h : List (Report σ ι τ)} {y : Report σ ι τ} {vs rest : List (Visit σ ι τ RecordIndex)}
  {v a : Visit σ ι τ RecordIndex}

/-- A report that is no edge gives no transition. -/
theorem quiet (k : Remembered h vs) (other : ∀ q i x t, y ≠ .event (.edge q i x t)) :
    Remembered (h ++ [y]) vs := by
  intro b hb
  have silent : y.edgeFrom? b.label = none := by
    rw [Option.eq_none_iff_forall_ne_some]
    intro p given
    obtain ⟨t, ht⟩ := Report.edgeFrom?_eq_some_iff.1 given
    exact other _ _ _ t ht
  rw [lastEdge_snoc, silent]
  exact k b hb

theorem of_subset (k : Remembered h vs) (sub : rest ⊆ vs) : Remembered h rest :=
  fun b hb => k b (sub hb)

/-- The head may go on, as long as it takes no transition. -/
theorem head (k : Remembered h (v :: rest)) (label : a.label = v.label) (last : a.last = v.last) :
    Remembered h (a :: rest) := by
  intro b hb
  rcases List.mem_cons.1 hb with rfl | hb
  · rw [last, label]
    exact k v List.mem_cons_self
  · exact k b (List.mem_cons_of_mem v hb)

/-- The head takes a transition, of which the visits behind it hear nothing. -/
theorem edge (k : Remembered h (v :: rest)) (apart : v.label ∉ rest.map Visit.label)
    (label : a.label = v.label) {p : ι × τ} (last : a.last = some p) (t : σ) :
    Remembered (h ++ [.event (.edge v.label p.1 p.2 t)]) (a :: rest) := by
  intro b hb
  rw [lastEdge_snoc]
  rcases List.mem_cons.1 hb with rfl | hb
  · simp [label, last, Report.edgeFrom?]
  · have other : v.label ≠ b.label := by
      intro same
      exact apart (same ▸ List.mem_map_of_mem hb)
    simp only [Report.edgeFrom?, if_neg other, Option.none_or]
    exact k b (List.mem_cons_of_mem v hb)

/-- Of a new record no transition was reported. -/
theorem push (k : Remembered h vs) {r : RecordIndex} (new : ∀ x ∈ h, x.target? ≠ some r) (s : σ) :
    Remembered (h ++ [.scheduled r]) (.planned A r s :: vs) := by
  intro b hb
  rcases List.mem_cons.1 hb with rfl | hb
  · have none : lastEdge (h ++ [.scheduled r]) r = none := by
      rw [lastEdge_eq_none_iff]
      intro i x t mem
      rcases List.mem_append.1 mem with mem | mem
      · exact new _ mem rfl
      · simp at mem
    exact none.symm
  · exact k.quiet (by simp) b hb

end Remembered

theorem remembered_of_reached {h : List (Report σ ι τ)} {t : Traversal M A .depthFirst δ}
    (reached : Reached M A .depthFirst h t) : Remembered h t.pending := by
  induction reached with
  | begin => exact fun _ hv => nomatch hv
  | @move h t u y before last k =>
    have stacked := stacked_of_reached before
    cases last with
    | event advance =>
      cases advance with
      | initial idle unread records pending =>
        rw [pending]
        exact k.quiet (by simp)
      | @start v rest _ ready head fresh unread records pending =>
        rw [head] at k
        rw [pending]
        exact (k.head (a := v.start) rfl rfl).quiet (by simp)
      | @edge v w rest p _ ready head begun step unread records pending =>
        obtain ⟨-, label, -, -, last⟩ := Visit.next_of_some step
        rw [head] at k
        rw [outline_of_cons head] at stacked
        rw [pending]
        refine k.edge ?_ label last (M.successor p.2)
        intro mem
        have less : v.label < v.label := by
          refine List.rel_of_pairwise_cons stacked.sorted ?_
          simpa [Function.comp_def] using mem
        exact Nat.lt_irrefl _ less
      | finish ready head begun step unread records pending =>
        rw [head] at k
        rw [pending]
        exact (k.of_subset (List.subset_cons_self _ _)).quiet (by simp)
    | ended => exact k.quiet (by simp)
    | scheduled s d =>
      rw [pending_schedule]
      refine k.push ?_ s
      intro x hx about
      exact Nat.lt_irrefl _ (stacked.bounded x hx _ about)
    | @skippedLetter v rest _ head unread records pending =>
      rw [head] at k
      rw [pending]
      exact (k.head (a := v.skipLetter) rfl rfl).quiet (by simp)
    | skippedState head unread records pending =>
      rw [head] at k
      rw [pending]
      exact (k.of_subset (List.subset_cons_self _ _)).quiet (by simp)
    | refused => exact k.quiet (by simp)
    | modified r change => exact k.quiet (by simp)

/-- Each visit on the stack was put there, by the scheduling of its record, at a stage at which
the visits below it were just as they are now. -/
inductive Suspended (M : TransitionSystem σ ι τ) (A : List ι) (δ : Type)
    (h : List (Report σ ι τ)) : List (Visit σ ι τ RecordIndex) → Prop
  | nil : Suspended M A δ h []
  | cons {v : Visit σ ι τ RecordIndex} {rest : List (Visit σ ι τ RecordIndex)}
      {before middle : List (Report σ ι τ)} {u : Traversal M A .depthFirst δ}
      (split : h = before ++ .scheduled v.label :: middle)
      (reached : Reached M A .depthFirst before u) (below : u.pending = rest)
      (deeper : Suspended M A δ h rest) : Suspended M A δ h (v :: rest)

namespace Suspended

variable {h : List (Report σ ι τ)} {vs rest : List (Visit σ ι τ RecordIndex)}
  {v a : Visit σ ι τ RecordIndex}

theorem snoc (k : Suspended M A δ h vs) (y : Report σ ι τ) : Suspended M A δ (h ++ [y]) vs := by
  induction k with
  | nil => exact .nil
  | @cons v rest before middle u split reached below deeper ih =>
    have split' : h ++ [y] = before ++ .scheduled v.label :: (middle ++ [y]) := by
      rw [split, List.append_assoc]
      rfl
    exact .cons split' reached below ih

theorem tail (k : Suspended M A δ h (v :: rest)) : Suspended M A δ h rest := by
  cases k with
  | cons split reached below deeper => exact deeper

/-- Whatever becomes of the head, its record stays the same. -/
theorem head (k : Suspended M A δ h (v :: rest)) (label : a.label = v.label) :
    Suspended M A δ h (a :: rest) := by
  cases k with
  | cons split reached below deeper => exact .cons (label ▸ split) reached below deeper

end Suspended

theorem suspended_of_reached {h : List (Report σ ι τ)} {t : Traversal M A .depthFirst δ}
    (reached : Reached M A .depthFirst h t) : Suspended M A δ h t.pending := by
  induction reached with
  | begin => exact .nil
  | @move h t u y before last k =>
    have k' := k.snoc y
    cases last with
    | event advance =>
      cases advance with
      | initial idle unread records pending =>
        rw [pending]
        exact k'
      | start ready head fresh unread records pending =>
        rw [head] at k'
        rw [pending]
        exact k'.head rfl
      | edge ready head begun step unread records pending =>
        rw [head] at k'
        rw [pending]
        exact k'.head (Visit.next_of_some step).2.1
      | finish ready head begun step unread records pending =>
        rw [head] at k'
        rw [pending]
        exact k'.tail
    | ended => exact k'
    | scheduled s d =>
      rw [pending_schedule]
      exact .cons rfl before rfl k'
    | skippedLetter head unread records pending =>
      rw [head] at k'
      rw [pending]
      exact k'.head rfl
    | skippedState head unread records pending =>
      rw [head] at k'
      rw [pending]
      exact k'.tail
    | refused => exact k'
    | modified r change => exact k'

/-- A record is scheduled once. -/
theorem Reached.scheduled_notMem {h before after : List (Report σ ι τ)} {o : Order}
    {t : Traversal M A o δ} (reached : Reached M A o h t) {r : RecordIndex}
    (split : h = before ++ .scheduled r :: after) : .scheduled r ∉ before := by
  obtain ⟨u, w, prior, move⟩ := reached.split split
  rw [prior.scheduled_iff]
  cases move with
  | scheduled s d => exact Nat.lt_irrefl _

theorem Reached.before_unique {h before before' after after' : List (Report σ ι τ)} {o : Order}
    {t : Traversal M A o δ} (reached : Reached M A o h t) {r : RecordIndex}
    (split : h = before ++ .scheduled r :: after)
    (split' : h = before' ++ .scheduled r :: after') : before = before' := by
  have fresh := reached.scheduled_notMem split
  have fresh' := reached.scheduled_notMem split'
  rcases List.append_eq_append_iff.1 (split.symm.trans split') with ⟨c, rfl, hc⟩ | ⟨c, rfl, hc⟩
  · cases c with
    | nil => simp
    | cons y c =>
      obtain ⟨rfl, -⟩ := List.cons.inj hc
      simp at fresh'
  · cases c with
    | nil => simp
    | cons y c =>
      obtain ⟨rfl, -⟩ := List.cons.inj hc
      simp at fresh

/-- What a finish leads back along, given the stage at which the finished record was
scheduled. -/
theorem Reached.backtrackAlong_eq {before : List (Report σ ι τ)} {u : Traversal M A .depthFirst δ}
    (reached : Reached M A .depthFirst before u) :
    (∀ q, ¬ Pending before q) ∧ backtrackAlong .depthFirst u.pending = none ∨
      ∃ p, IsGreatest {q | Pending before q} p ∧ backtrackAlong .depthFirst u.pending =
        (lastEdge before p).map fun e => ⟨p, e.1, e.2⟩ := by
  cases head : u.pending with
  | nil => exact .inl ⟨not_pending_of_nil reached head, rfl⟩
  | cons below rest =>
    right
    have stacked := stacked_of_reached reached
    have last := remembered_of_reached reached below (head ▸ List.mem_cons_self)
    rw [outline_of_cons head] at stacked
    exact ⟨below.label, stacked.top, last ▸ rfl⟩

/-- The backtrack of a finished record leads to the record that was pending with the greatest
number when the finished one was scheduled, along the transition reported last of it by then. There
is none if nothing was pending, or if no transition had been reported. -/
theorem depthFirst_backtrack {ms : List (Move σ δ)} {h : List (Report σ ι τ)}
    {t : Traversal M A .depthFirst δ} (played : (begin M A .depthFirst δ).play ms = (h, t))
    {before middle after : List (Report σ ι τ)} {r : RecordIndex} {s : σ}
    {b : Option (Backtrack ι τ)}
    (split : h = before ++ .scheduled r :: middle ++ .event (.finish r s b) :: after) :
    (∀ p i x, b = some ⟨p, i, x⟩ ↔
      IsGreatest {q | Pending before q} p ∧ lastEdge before p = some (i, x)) ∧
    (b = none ↔ (∀ q, ¬ Pending before q) ∨
      ∃ p, IsGreatest {q | Pending before q} p ∧ ∀ i x y, .event (.edge p i x y) ∉ before) := by
  obtain ⟨u, w, reached, move⟩ := (reached_of_play played).split split
  have k := suspended_of_reached reached
  cases move with
  | event advance =>
    cases advance with
    | @finish v _ rest _ ready head begun step =>
      rw [head] at k
      cases k with
      | @cons _ _ before' middle' u' split' reached' below deeper =>
        -- The record was scheduled once, so the stage before is the one the stack was left at.
        obtain rfl := reached.before_unique rfl split'
        rw [← below]
        rcases reached'.backtrackAlong_eq with ⟨idle, back⟩ | ⟨p, top, back⟩
        · constructor
          · intro q i x
            rw [back]
            constructor
            · exact nofun
            · rintro ⟨greatest, -⟩
              exact absurd greatest.1 (idle q)
          · exact ⟨fun _ => .inl idle, fun _ => back⟩
        · constructor
          · intro q i x
            constructor
            · intro given
              obtain ⟨e, last, same⟩ := Option.map_eq_some_iff.1 (back.symm.trans given)
              cases same
              exact ⟨top, last⟩
            · rintro ⟨greatest, last⟩
              obtain rfl := top.unique greatest
              rw [back, last]
              rfl
          · rw [back, Option.map_eq_none_iff, lastEdge_eq_none_iff]
            constructor
            · intro silent
              exact .inr ⟨p, top, silent⟩
            · rintro (idle | ⟨q, greatest, silent⟩)
              · exact absurd top.1 (idle p)
              · obtain rfl := top.unique greatest
                exact silent

/-- The record scheduled after an edge leads back along it. -/
theorem depthFirst_backtrack_relay :
    let before : List (Report Nat Char (Fin 1)) :=
      [.scheduled 0, .event (.start 0 0), .event (.edge 0 'a' 0 1)]
    ((begin relay ['a'] .depthFirst Unit).play
      [.schedule 0 (), .next, .next, .schedule 1 (), .next, .next]).1 =
        before ++ .scheduled 1 :: [.event (.start 1 1)] ++
          .event (.finish 1 1 (some ⟨0, 'a', 0⟩)) :: [] ∧
    IsGreatest {r | Pending before r} 0 ∧ lastEdge before 0 = some ('a', 0) := by
  intro before
  have reports : ((begin relay ['a'] .depthFirst Unit).play
      [.schedule 0 (), .next, .next, .schedule 1 (), .next, .next]).1 =
        before ++ .scheduled 1 :: [.event (.start 1 1)] ++
          .event (.finish 1 1 (some ⟨0, 'a', 0⟩)) :: [] := rfl
  exact ⟨reports, ((depthFirst_backtrack rfl reports).1 0 'a' 0).1 rfl⟩

end Exploration.Traversal
